import ScriptCore.Semantics

/-! Settings from texts.

What a text says is up to a reader of documents (`Loader`), which this library does not describe beyond what it owes
(`Loader.Lawful`). Semantics that were read by themselves are checked before they are used. Those inside of the
settings of a heap are used as they were read. -/
namespace ScriptCore

/-- What keeps settings from being used. -/
inductive SettingsError where
  /-- The text is no document, or the document does not have the form of settings. -/
  | malformed
  | invalid (semantics : Semantics)
deriving DecidableEq

/-- A reader of documents, by what it makes of a text: semantics or the settings of a heap, with the defaults for what
the document leaves out, or nothing. -/
structure Loader where
  semantics? : String → Option Semantics
  heapSettings? : String → Option HeapSettings

/-- What a reader of documents owes. -/
structure Loader.Lawful (loader : Loader) : Prop where
  /-- Documents have no way to write an infinity or `nan`, and a number beyond the range of doubles is refused. -/
  isFinite_epsilon : ∀ text settings, loader.heapSettings? text = some settings →
    settings.semantics.epsilon.isFinite = true

namespace Semantics

/-- Semantics are used only if their epsilon is valid. -/
def check (s : Semantics) : Except SettingsError Semantics :=
  if s.isValid then .ok s else .error (.invalid s)

/-- Semantics by themselves. -/
def load (loader : Loader) (text : String) : Except SettingsError Semantics :=
  match loader.semantics? text with
  | some s => s.check
  | none => .error .malformed

end Semantics
end ScriptCore
