import ScriptCore.Builtin
import ScriptCore.Utf16

/-! Texts.

A text is a sequence of UTF-16 code units behind a header. The units are stored eight bits wide when all
are below `0x80`, sixteen bits wide otherwise, and the header repeats the width, tells whether the text
comes from the table of interned texts or was made later, and names the table entry. `Text.units` is the
sequence, whatever the storage; each operation is described by the units of its result. -/
namespace ScriptCore

/-- The flags of a header. -/
structure TextKind where
  /-- Stored sixteen bits wide. -/
  wide : Bool
  /-- Made by an operation. -/
  generated : Bool
  /-- An entry of the table. -/
  interned : Bool
deriving DecidableEq

def TextKind.bits (k : TextKind) : Nat :=
  (if k.wide then 1 else 0) + (if k.generated then 2 else 0) + if k.interned then 4 else 0

inductive Storage where
  | narrow (bytes : List UInt8)
  | wide (units : List UInt16)
deriving DecidableEq

structure Text where
  kind : TextKind
  builtin? : Option Builtin
  storage : Storage
deriving DecidableEq

namespace Text

/-- The code units. -/
def units (t : Text) : List UInt16 :=
  match t.storage with
  | .narrow bytes => bytes.map fun b => b.toUInt16
  | .wide units => units

/-! ### Making texts -/

/-- The narrowest storage for the units, with a header that agrees. -/
def pack (generated interned : Bool) (builtin? : Option Builtin) (units : List UInt16) : Text :=
  if units.all fun u => u < 0x80 then
    ⟨⟨false, generated, interned⟩, builtin?, .narrow (units.map fun u => u.toUInt8)⟩
  else ⟨⟨true, generated, interned⟩, builtin?, .wide units⟩

def ofUnits (units : List UInt16) : Text := pack true false none units

def ofString (s : String) : Text := ofUnits (Utf16.ofString s)

/-- Each byte is a code unit. -/
def ofBytes (bytes : List UInt8) : Text := ofUnits (bytes.map fun b => b.toUInt16)

/-- The table entry. -/
def ofBuiltin (b : Builtin) : Text := pack false true (some b) (Utf16.ofString b.text)

def empty : Text := ofUnits []

def push (t : Text) (unit : UInt16) : Text := ofUnits (t.units ++ [unit])

def append (a b : Text) : Text := ofUnits (a.units ++ b.units)

def append3 (a b c : Text) : Text := ofUnits (a.units ++ b.units ++ c.units)

/-! ### Asking about texts -/

def length (t : Text) : Nat :=
  match t.storage with
  | .narrow bytes => bytes.length
  | .wide units => units.length

def isEmpty (t : Text) : Bool := t.length == 0

def isNarrow (t : Text) : Bool :=
  match t.storage with
  | .narrow _ => true
  | .wide _ => false

/-- The bytes of the code units and four for the header. -/
def byteSize (t : Text) : Nat :=
  match t.storage with
  | .narrow bytes => 4 + bytes.length
  | .wide units => 4 + 2 * units.length

def unitAt? (t : Text) (i : Nat) : Option UInt16 :=
  match t.storage with
  | .narrow bytes => bytes[i]?.map fun b => b.toUInt16
  | .wide units => units[i]?

/-- Up to `count` units from the place `start` on; what lies beyond the end is left out. The end of the
slice is not counted further than `2 ^ 32 - 1`. -/
def extract (t : Text) (start count : UInt32) : Text :=
  let first := min start.toNat t.length
  let last := min (min (first + count.toNat) (2 ^ 32 - 1)) t.length
  ofUnits ((t.units.drop first).take (last - first))

/-- The order of code units at the first difference; a text comes after its beginnings. -/
def compareUnits : List UInt16 → List UInt16 → Ordering
  | [], [] => .eq
  | [], _ :: _ => .lt
  | _ :: _, [] => .gt
  | a :: as, b :: bs => if a < b then .lt else if b < a then .gt else compareUnits as bs

def compare (a b : Text) : Ordering := compareUnits a.units b.units

/-- Whether two texts have the same code units. -/
def sameUnits (a b : Text) : Bool := a.length == b.length && a.units == b.units

/-- Whether a text reads like a table entry; the entry itself is recognised by its header. -/
def reads (t : Text) (b : Builtin) : Bool := t.builtin? == some b || t.sameUnits (ofBuiltin b)

/-- The text as a string, with `U+FFFD` for each lone surrogate. -/
def display (t : Text) : String :=
  match t.storage with
  | .narrow bytes => String.ofList (bytes.map fun b => Char.ofNat b.toNat)
  | .wide units => Utf16.toStringLossy units

/-! ### Units of results -/

private theorem toUInt16_toUInt8 (u : UInt16) (h : u < 0x80) : u.toUInt8.toUInt16 = u := by
  have hlt : u.toNat < 128 := by simpa [UInt16.lt_iff_toNat_lt] using h
  apply UInt16.toNat_inj.mp
  simp only [UInt8.toNat_toUInt16, UInt16.toNat_toUInt8]
  omega

@[simp] theorem units_pack (generated interned : Bool) (builtin? : Option Builtin) (units : List UInt16) :
    (pack generated interned builtin? units).units = units := by
  simp only [pack]
  split
  · rename_i h
    have hmap : units.map ((fun b => b.toUInt16) ∘ fun u => u.toUInt8) = units.map id :=
      List.map_congr_left fun u hu => toUInt16_toUInt8 u (by simpa using List.all_eq_true.mp h u hu)
    simpa [Text.units] using hmap
  · rfl

@[simp] theorem units_ofUnits (units : List UInt16) : (ofUnits units).units = units := units_pack ..

@[simp] theorem units_ofString (s : String) : (ofString s).units = Utf16.ofString s := units_ofUnits _

@[simp] theorem units_ofBuiltin (b : Builtin) : (ofBuiltin b).units = Utf16.ofString b.text := units_pack ..

@[simp] theorem units_empty : empty.units = [] := units_ofUnits _

@[simp] theorem units_push (t : Text) (u : UInt16) : (t.push u).units = t.units ++ [u] := units_ofUnits _

@[simp] theorem units_append (a b : Text) : (a.append b).units = a.units ++ b.units := units_ofUnits _

@[simp] theorem units_append3 (a b c : Text) :
    (a.append3 b c).units = a.units ++ b.units ++ c.units := units_ofUnits _

@[simp] theorem length_units (t : Text) : t.units.length = t.length := by
  unfold Text.units Text.length
  split <;> simp

theorem unitAt?_eq (t : Text) (i : Nat) : t.unitAt? i = t.units[i]? := by
  unfold Text.unitAt? Text.units
  split <;> simp

theorem sameUnits_iff (a b : Text) : a.sameUnits b = true ↔ a.units = b.units := by
  simp only [sameUnits, Bool.and_eq_true, beq_iff_eq]
  refine ⟨And.right, fun h => ⟨?_, h⟩⟩
  rw [← length_units, ← length_units, h]

/-- Comparing unit by unit finds the lexicographic order. -/
theorem compareUnits_eq (as bs : List UInt16) : compareUnits as bs = compareOfLessAndEq as bs := by
  induction as generalizing bs with
  | nil => cases bs <;> simp [compareUnits, compareOfLessAndEq]
  | cons a as ih =>
    cases bs with
    | nil => simp [compareUnits, compareOfLessAndEq]
    | cons b bs =>
      simp only [compareUnits, compareOfLessAndEq, List.cons_lt_cons_iff, List.cons.injEq] at ih ⊢
      obtain hlt | rfl | hgt := Std.lt_trichotomy a b
      · simp [hlt]
      · simp [Std.lt_irrefl, ih]
      · have hne : a ≠ b := fun heq => Std.lt_irrefl (heq ▸ hgt)
        have hlt : ¬ a < b := fun hlt => Std.lt_irrefl (Std.lt_trans hlt hgt)
        simp [hgt, hlt, hne]

theorem compare_eq_iff (a b : Text) : a.compare b = .eq ↔ a.units = b.units := by
  rw [compare, compareUnits_eq, compareOfLessAndEq_eq_eq List.le_refl List.not_le]

end Text
end ScriptCore
