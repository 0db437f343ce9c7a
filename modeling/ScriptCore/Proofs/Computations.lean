import ScriptCore.Proofs.Settles

/-! Computations that settle.

`HeapM.Settled` says of a computation that it settles from every heap, whether it succeeds or fails. It
is closed under everything computations are made of: `bind` when nothing is handed over in between,
`bind_transient` when a value is handed over to a bracket, `withScratch` when strings are left on a
scratch list. -/
namespace ScriptCore

open Heap

variable {α β : Type} {m n : Nat}

/-- The strings that an outcome hands over: those of the result, none after a failure. -/
def handed (made : α → List StringRef) : Except Error α → List StringRef
  | .ok x => made x
  | .error _ => []

/-- Results that are no strings. -/
def nothing : α → List StringRef := fun _ => []

/-- The string that a value is. -/
def Value.strings (v : Value) : List StringRef := v.string?.toList

theorem Value.mem_strings {v : Value} {s : StringRef} : s ∈ v.strings ↔ v = .string s := by
  cases v <;> simp [strings, string?, eq_comm]

/-- A string made for a value. For a string nothing is made. -/
def madeFor (v : Value) (s : StringRef) : List StringRef := if v.isString then [] else [s]

namespace HeapM

/-- A computation settles from every heap; it makes at most so many strings at once and hands over those
that `made` finds in its result. -/
def Settled (strings : Nat) (made : α → List StringRef) (a : HeapM α) : Prop :=
  ∀ h, Settles strings (handed made (a.runOn h).1) h (a.runOn h).2

variable {a : HeapM α} {made : α → List StringRef} {made' : β → List StringRef}

theorem Settled.mono (ha : a.Settled m made) (hmn : m ≤ n) : a.Settled n made :=
  fun h => (ha h).mono hmn fun _ hs => hs

/-- What is handed over may be counted generously. -/
theorem Settled.handing (ha : a.Settled m made) {made₁ : α → List StringRef} (hsub : ∀ x, made x ⊆ made₁ x) :
    a.Settled m made₁ := by
  intro h
  refine (ha h).mono (Nat.le_refl m) fun slot hmem => ?_
  cases hrun : (a.runOn h).1 with
  | error e => simp [hrun, handed] at hmem
  | ok x =>
    rw [hrun] at hmem
    exact hsub x hmem

theorem Settled.pure (x : α) (made : α → List StringRef) : (pure x : HeapM α).Settled 0 made :=
  fun h => .refl _ h

theorem Settled.throw (e : Error) (made : α → List StringRef) : (throw e : HeapM α).Settled 0 made :=
  fun h => .refl _ h

theorem Settled.ask (question : Heap → Except Error α) (made : α → List StringRef) :
    (ask question).Settled 0 made :=
  fun h => .refl _ h

theorem Settled.ite {c : Prop} [Decidable c] {b : HeapM α} (ha : a.Settled m made) (hb : b.Settled m made) :
    (if c then a else b).Settled m made := by
  split
  · exact ha
  · exact hb

theorem Settled.newString (t : Text) : (newString t).Settled 1 fun s => [s] := fun h => .allocate h t

/-- A computation followed by one that settles what the first hands over. -/
theorem Settled.bind_of (ha : a.Settled m made) {f : α → HeapM β}
    (hf : ∀ x h₀ h, Settles m (made x) h₀ h →
      Settles (m + n) (handed made' ((f x).runOn h).1) h₀ ((f x).runOn h).2) :
    (a >>= f).Settled (m + n) made' := by
  intro h
  have hs := ha h
  rw [runOn_bind]
  cases hrun : a.runOn h with
  | mk outcome h' =>
    rw [hrun] at hs
    cases outcome with
    | error e => exact hs.mono (by omega) fun _ hmem => hmem
    | ok x => exact hf x h h' hs

theorem Settled.bind (ha : a.Settled m nothing) {f : α → HeapM β} (hf : ∀ x, (f x).Settled n made') :
    (a >>= f).Settled (m + n) made' :=
  ha.bind_of fun x _ h hs => hs.trans (hf x h)

/-- A question followed by computations on its answers. -/
theorem Settled.ask_bind_of (question : Heap → Except Error α) {f : α → HeapM β}
    (hf : ∀ h x, question h = .ok x → (f x).Settled n made') : (HeapM.ask question >>= f).Settled n made' := by
  intro h
  rw [runOn_bind, runOn_ask]
  cases hx : question h with
  | error e => exact (Settles.refl _ h).mono (by omega) fun _ hmem => hmem
  | ok x => exact hf h x hx h

theorem Settled.ask_bind (question : Heap → Except Error α) {f : α → HeapM β}
    (hf : ∀ x, (f x).Settled n made') : (HeapM.ask question >>= f).Settled n made' :=
  .ask_bind_of question fun _ x _ => hf x

/-- A computation with another result that hands over what it handed over. -/
theorem Settled.map (ha : a.Settled m made) {g : α → β} (hg : ∀ x, made x ⊆ made' (g x)) :
    (a >>= fun x => Pure.pure (g x)).Settled m made' :=
  ha.bind_of (n := 0) fun x _ _ hs => hs.mono (Nat.le_refl m) fun _ hmem => hg x hmem

/-- A value handed over to a bracket around the rest. -/
theorem Settled.bind_transient {a : HeapM Value} (ha : a.Settled m Value.strings) {f : Value → HeapM β}
    (hf : ∀ v, (f v).Settled n made') : (a >>= fun v => withTransient v (f v)).Settled (m + n) made' :=
  ha.bind_of fun v _ h hs => hs.transient (hf v (h.retain v))

/-- A computation fails or ends with a result, in a sound heap again and with the room that it was not
given. -/
theorem Settled.outcome (ha : a.Settled m made) {h : Heap} (hs : h.Sound) (hr : h.Room (m + n)) :
    (∃ e h', a.runOn h = (.error e, h')) ∨ ∃ x h', a.runOn h = (.ok x, h') ∧ h'.Sound ∧ h'.Room n := by
  have hsettles := ha h
  cases hrun : a.runOn h with
  | mk outcome h' =>
    rw [hrun] at hsettles
    cases outcome with
    | error e => exact .inl ⟨e, h', rfl⟩
    | ok x => exact .inr ⟨x, h', rfl, (hsettles.frame hs).sound, hsettles.room n hr⟩

end HeapM

/-! ### Scratch lists -/

namespace Scratch

theorem mem_track {s : Scratch} {slot : UInt32} {r : StringRef} :
    .heap slot ∈ (s.track r).strings ↔ .heap slot ∈ s.strings ∨ r = .heap slot := by
  cases r with
  | builtin b => simp [track]
  | heap named =>
    by_cases hmem : .heap named ∈ s.strings
    · simp only [track, if_pos hmem]
      exact ⟨.inl, fun h => h.elim id fun heq => heq ▸ hmem⟩
    · simp [track, hmem, eq_comm]

end Scratch

namespace ScratchM

theorem runOn_bind (a : ScratchM α) (f : α → ScratchM β) (s : Scratch) (h : Heap) :
    (a >>= f).runOn s h =
      match a.runOn s h with
      | ((.ok x, s), h) => (f x).runOn s h
      | ((.error e, s), h) => ((.error e, s), h) := by
  show (a >>= f) s h = _
  simp only [bind, ExceptT.bind, ExceptT.mk, StateT.bind, runOn]
  rcases a s h with ⟨⟨_ | _, _⟩, _⟩ <;> rfl

theorem runOn_lift (a : HeapM α) (s : Scratch) (h : Heap) :
    (ScratchM.lift a).runOn s h = (((a.runOn h).1, s), (a.runOn h).2) := rfl

theorem runOn_trackFresh (v : Value) (r : StringRef) (s : Scratch) (h : Heap) :
    (trackFresh v r).runOn s h = ((.ok (), if v.isString then s else s.track r), h) := by
  unfold trackFresh
  split <;> rfl

/-- A computation with a scratch list settles but for the strings on the list, and takes none off it. -/
def Settled (strings : Nat) (made : α → List StringRef) (a : ScratchM α) : Prop :=
  ∀ s h, (∀ slot, .heap slot ∈ s.strings → .heap slot ∈ (a.runOn s h).1.2.strings) ∧
    Settles strings ((a.runOn s h).1.2.strings ++ handed made (a.runOn s h).1.1) h (a.runOn s h).2

variable {made : α → List StringRef} {made' : β → List StringRef}

theorem Settled.lift {a : HeapM α} (ha : a.Settled m made) : (ScratchM.lift a).Settled m made :=
  fun _ h => ⟨fun _ hmem => hmem, (ha h).mono (Nat.le_refl m) fun _ hmem => List.mem_append_right _ hmem⟩

/-- A string that was made for a value is put on the scratch list before the rest. -/
theorem Settled.lift_trackFresh {v : Value} {a : HeapM StringRef}
    (ha : a.Settled m (madeFor v)) {f : StringRef → ScratchM β}
    (hf : ∀ s, (f s).Settled n made') :
    (ScratchM.lift a >>= fun s => trackFresh v s >>= fun _ => f s).Settled (m + n) made' := by
  intro s h
  have hs := ha h
  rw [runOn_bind, runOn_lift]
  cases hrun : a.runOn h with
  | mk outcome h' =>
    rw [hrun] at hs
    cases outcome with
    | error e => exact ⟨fun _ hmem => hmem, hs.mono (by omega) fun _ hmem => by simp [handed] at hmem⟩
    | ok r =>
      simp only [runOn_bind, runOn_trackFresh]
      obtain ⟨hsub, hrest⟩ := hf r (if v.isString then s else s.track r) h'
      refine ⟨fun slot hmem => hsub slot ?_, (hs.trans hrest).mono (Nat.le_refl _) fun slot hmem => ?_⟩
      · split
        · exact hmem
        · exact Scratch.mem_track.mpr (.inl hmem)
      · refine (List.mem_append.mp hmem).elim (fun hfresh => List.mem_append_left _ (hsub slot ?_)) id
        simp only [handed, madeFor] at hfresh
        split at hfresh
        · simp at hfresh
        · rename_i hv
          rw [if_neg hv]
          exact Scratch.mem_track.mpr (.inr (List.mem_singleton.mp hfresh).symm)

end ScratchM

theorem runOn_withTransient (v : Value) (body : HeapM α) (h : Heap) :
    (withTransient v body).runOn h =
      ((body.runOn (h.retain v)).1, (body.runOn (h.retain v)).2.release v) := rfl

theorem runOn_withScratch (body : ScratchM α) (h : Heap) :
    (withScratch body).runOn h =
      ((body.runOn {} h).1.1, (body.runOn {} h).1.2.recallAll (body.runOn {} h).2) := rfl

/-- What is left on a scratch list is recalled in the end. -/
theorem HeapM.Settled.withScratch {body : ScratchM α} {made : α → List StringRef}
    (hbody : body.Settled n made) : (withScratch body).Settled n made :=
  fun h => (hbody {} h).2.recallAll

end ScriptCore
