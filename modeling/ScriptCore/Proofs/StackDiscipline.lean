import ScriptCore.Proofs.Results

/-! Counting on the operand stack.

A program may push values whose strings are alive, push new strings, drop, apply operators, ask for types and
clear the stack. At every point of every program (`run_disciplined`) each string is held by whoever held it
at the start and once by each of its places on the stack: a string of the start never dies, any other
lives as long as it lies on the stack, and clearing the stack restores the strings of the start.

The invariant is `Accounted`. Between the release of the operands and the push of the result there is one
value at hand that nobody holds, so the invariant has a place for it. -/
namespace ScriptCore

open Heap HeapM

/-! ### Programs -/

inductive Command where
  | push (v : Value)
  | pushString (t : Text)
  | drop
  | operator (op : BinaryOp)
  | typeOf
  | clear

namespace OperandStack

/-- The stack after a command. A failing operator goes unreported: its operands are gone, and nothing is
pushed. -/
def step (m : OperandStack) : Command → OperandStack
  | .push v => m.push v
  | .pushString t => m.pushString t
  | .drop => m.drop
  | .operator op => (m.binary op).2
  | .typeOf => m.typeOf.2
  | .clear => m.clear

def run (m : OperandStack) (commands : List Command) : OperandStack := commands.foldl step m

/-- Strings are alive when they are pushed. -/
def Allows (m : OperandStack) : Command → Prop
  | .push (.string s) => m.heap.isLive s = true
  | _ => True

def AllowsAll (m : OperandStack) : List Command → Prop
  | [] => True
  | c :: rest => m.Allows c ∧ (m.step c).AllowsAll rest

end OperandStack

/-! ### The invariant -/

/-- The slot that a value takes. -/
def Value.heapSlot? : Value → Option UInt32
  | .string (.heap slot) => some slot
  | _ => .none

/-- How often a string of the heap is among the values. -/
def occurrences (values : List Value) (slot : UInt32) : Nat := values.count (.string (.heap slot))

theorem occurrences_cons (v : Value) (values : List Value) (slot : UInt32) :
    occurrences (v :: values) slot =
      occurrences values slot + if v = .string (.heap slot) then 1 else 0 := by
  simp [occurrences, List.count_cons]

theorem occurrences_pos {values : List Value} {slot : UInt32} :
    0 < occurrences values slot ↔ .string (.heap slot) ∈ values := List.count_pos_iff

/-- Every string is held by its holders at the start and once for each time that it is among the values.
What is alive beyond the start is among the values or at hand. -/
structure Accounted (start : Heap) (hand : Value) (values : List Value) (h : Heap) : Prop where
  kept : ∀ slot entry, start.slot? slot = some entry →
    h.slot? slot = some { entry with refcount := entry.refcount + occurrences values slot }
  made : ∀ slot entry, start.slot? slot = none → h.slot? slot = some entry →
    entry.refcount = occurrences values slot ∧
      (.string (.heap slot) ∈ values ∨ hand = .string (.heap slot))
  alive : ∀ slot, .string (.heap slot) ∈ values ∨ hand = .string (.heap slot) →
    ∃ entry, h.slot? slot = some entry
  traffic : h.stats.retained + start.stats.released =
    h.stats.released + start.stats.retained + values.countP Value.isCounted
  sound : h.Sound
  room : h.Room 0

/-- Every string has a holder. -/
def Heap.AllHeld (h : Heap) : Prop := ∀ slot entry, h.slot? slot = some entry → 1 ≤ entry.refcount

namespace Accounted

variable {start h : Heap} {hand v : Value} {values : List Value}

theorem refl (hs : start.Sound) (hr : start.Room 0) : Accounted start .undefined [] start where
  kept _ _ hslot := hslot
  made slot entry hnone hslot := by simp [hnone] at hslot
  alive slot hmem := by simp at hmem
  traffic := by simp [Nat.add_comm]
  sound := hs
  room := hr

/-- A string is held at least once by each of its places. -/
theorem occurrences_le (ha : Accounted start hand values h) {slot : UInt32} {entry : StringSlot}
    (hslot : h.slot? slot = some entry) : occurrences values slot ≤ entry.refcount := by
  cases hold : start.slot? slot with
  | none => exact Nat.le_of_eq (ha.made slot entry hold hslot).1.symm
  | some old =>
    rw [ha.kept slot old hold] at hslot
    obtain rfl := Option.some.inj hslot
    exact Nat.le_add_left _ _

/-- What is at hand is retained. -/
theorem retain (ha : Accounted start v values h) : Accounted start .undefined (v :: values) (h.retain v) where
  kept slot entry hslot := by
    rw [slot?_retain, ha.kept slot entry hslot, occurrences_cons]
    split <;> simp [Nat.add_assoc]
  made slot entry hnone hslot := by
    rw [slot?_retain] at hslot
    rw [occurrences_cons]
    by_cases hv : v = .string (.heap slot)
    · rw [if_pos hv] at hslot ⊢
      obtain ⟨old, hold, rfl⟩ := Option.map_eq_some_iff.mp hslot
      exact ⟨congrArg (· + 1) (ha.made slot old hnone hold).1, .inl (List.mem_cons.mpr (.inl hv.symm))⟩
    · rw [if_neg hv] at hslot ⊢
      obtain ⟨hcount, hmem⟩ := ha.made slot entry hnone hslot
      exact ⟨hcount, .inl (List.mem_cons_of_mem v (hmem.resolve_right hv))⟩
  alive slot hmem := by
    have hmem : .string (.heap slot) ∈ values ∨ v = .string (.heap slot) := by
      simpa [or_comm, eq_comm] using hmem
    obtain ⟨entry, hentry⟩ := ha.alive slot hmem
    rw [slot?_retain, hentry]
    split <;> exact ⟨_, rfl⟩
  traffic := by
    have htraffic := ha.traffic
    rw [retained_retain, released_retain, List.countP_cons]
    omega
  sound := sound_invariant.retain ha.sound v
  room := (room_invariant 0).retain ha.room v

/-- A value that is not at hand is released. -/
theorem release (ha : Accounted start hand (v :: values) h) (hheld : start.AllHeld)
    (hapart : ∀ slot, v = .string (.heap slot) → hand ≠ .string (.heap slot)) :
    Accounted start hand values (h.release v) where
  kept slot entry hslot := by
    have hpos := hheld slot entry hslot
    rw [slot?_release, ha.kept slot entry hslot, occurrences_cons]
    by_cases hv : v = .string (.heap slot)
    · have hmany : ¬ entry.refcount + (occurrences values slot + 1) ≤ 1 := by omega
      simp only [hv, if_true, Option.bind_some, hmany, if_false]
      rfl
    · simp only [hv, if_false, Nat.add_zero]
  made slot entry hnone hslot := by
    rw [slot?_release] at hslot
    by_cases hv : v = .string (.heap slot)
    · rw [if_pos hv] at hslot
      obtain ⟨old, hold, hkept⟩ := Option.bind_eq_some_iff.mp hslot
      have hcount := (ha.made slot old hnone hold).1
      rw [occurrences_cons, if_pos hv] at hcount
      split at hkept
      · simp at hkept
      · obtain rfl := Option.some.inj hkept
        simp only
        exact ⟨by omega, .inl (occurrences_pos.mp (by omega))⟩
    · rw [if_neg hv] at hslot
      obtain ⟨hcount, hmem⟩ := ha.made slot entry hnone hslot
      rw [occurrences_cons, if_neg hv] at hcount
      exact ⟨hcount, hmem.imp_left fun hmem => (List.mem_cons.mp hmem).resolve_left (Ne.symm hv)⟩
  alive slot hmem := by
    obtain ⟨entry, hentry⟩ := ha.alive slot (hmem.imp_left (List.mem_cons_of_mem v))
    rw [slot?_release]
    by_cases hv : v = .string (.heap slot)
    · have hpos := occurrences_pos.mpr (hmem.resolve_right (hapart slot hv))
      have hcount := ha.occurrences_le hentry
      rw [occurrences_cons, if_pos hv] at hcount
      have hmany : ¬ entry.refcount ≤ 1 := by omega
      simp [hv, hentry, hmany]
    · exact ⟨entry, by rw [if_neg hv, hentry]⟩
  traffic := by
    have htraffic := ha.traffic
    rw [List.countP_cons] at htraffic
    rw [retained_release, released_release]
    omega
  sound := sound_invariant.release ha.sound v
  room := (room_invariant 0).release ha.room v

theorem perm (ha : Accounted start hand values h) {others : List Value} (hp : values.Perm others) :
    Accounted start hand others h := by
  have hocc : ∀ slot, occurrences others slot = occurrences values slot := fun slot => (hp.count_eq _).symm
  exact
    { kept := fun slot entry hslot => by rw [hocc, ha.kept slot entry hslot]
      made := fun slot entry hnone hslot => by rw [hocc, ← hp.mem_iff]; exact ha.made slot entry hnone hslot
      alive := fun slot hmem => ha.alive slot (by rwa [hp.mem_iff])
      traffic := by rw [← hp.countP_eq]; exact ha.traffic
      sound := ha.sound
      room := ha.room }

/-- What the heap does not count may stand among the values or not. -/
theorem uncounted (ha : Accounted start hand values h) (hv : v.isCounted = false) :
    Accounted start hand (v :: values) h := by
  have hne : ∀ slot, v ≠ .string (.heap slot) := by
    rintro slot rfl
    cases hv
  have hocc : ∀ slot, occurrences (v :: values) slot = occurrences values slot :=
    fun slot => by rw [occurrences_cons, if_neg (hne slot), Nat.add_zero]
  have hmem : ∀ slot, .string (.heap slot) ∈ v :: values ↔ .string (.heap slot) ∈ values :=
    fun slot => by simp [(hne slot).symm]
  exact
    { kept := fun slot entry hslot => by rw [hocc, ha.kept slot entry hslot]
      made := fun slot entry hnone hslot => by rw [hocc, hmem]; exact ha.made slot entry hnone hslot
      alive := fun slot hslot => ha.alive slot (by rwa [← hmem])
      traffic := by rw [List.countP_cons, hv]; exact ha.traffic
      sound := ha.sound
      room := ha.room }

/-- A value comes to hand, alive if it is a string. -/
theorem take (ha : Accounted start .undefined values h)
    (hlive : ∀ slot, v = .string (.heap slot) → ∃ entry, h.slot? slot = some entry) :
    Accounted start v values h :=
  { ha with
    made := fun slot entry hnone hslot =>
      (ha.made slot entry hnone hslot).imp_right fun hmem => .inl (hmem.resolve_right nofun)
    alive := fun slot hmem => hmem.elim (fun hmem => ha.alive slot (.inl hmem)) (hlive slot) }

theorem allHeld (ha : Accounted start .undefined values h) (hheld : start.AllHeld) : h.AllHeld := by
  intro slot entry hslot
  cases hold : start.slot? slot with
  | none =>
    obtain ⟨hcount, hmem⟩ := ha.made slot entry hold hslot
    rw [hcount]
    exact occurrences_pos.mpr (hmem.resolve_right nofun)
  | some old =>
    rw [ha.kept slot old hold] at hslot
    obtain rfl := Option.some.inj hslot
    exact Nat.le_trans (hheld slot old hold) (Nat.le_add_right _ _)

section Call
variable {h' : Heap}

/-- A string that nobody holds was made by the call. -/
theorem not_mem_of_made (ha : Accounted start .undefined values h) (hheld : start.AllHeld) (hf : Frame h h')
    {slot : UInt32} {text : Text} (hslot : h'.slot? slot = some ⟨text, 0⟩) :
    .string (.heap slot) ∉ values := by
  intro hmem
  obtain ⟨entry, hentry⟩ := ha.alive slot (.inl hmem)
  have hpos := ha.allHeld hheld slot entry hentry
  rw [hf.held slot entry hentry hpos] at hslot
  obtain rfl := Option.some.inj hslot
  exact Nat.not_succ_le_zero 0 hpos

/-- After a call its result is at hand, and nothing else has changed. -/
theorem call (ha : Accounted start .undefined values h) (hheld : start.AllHeld) (hf : Frame h h')
    (hr : h'.Room 0)
    (hleft : ∀ slot entry, h'.slot? slot = some entry →
      h.slot? slot = some entry ∨ v = .string (.heap slot) ∧ entry.refcount = 0)
    (hresult : ∀ slot, v = .string (.heap slot) → ∃ text, h'.slot? slot = some ⟨text, 0⟩) :
    Accounted start v values h' where
  kept slot entry hslot :=
    have hentry := ha.kept slot entry hslot
    hf.held slot _ hentry (ha.allHeld hheld slot _ hentry)
  made slot entry hnone hslot := by
    rcases hleft slot entry hslot with hold | ⟨hv, hzero⟩
    · exact (ha.made slot entry hnone hold).imp_right fun hmem => .inl (hmem.resolve_right nofun)
    · obtain ⟨text, htext⟩ := hresult slot hv
      have hout := ha.not_mem_of_made hheld hf htext
      exact ⟨by rw [hzero, occurrences, List.count_eq_zero_of_not_mem hout], .inr hv⟩
  alive slot hmem := by
    rcases hmem with hmem | hv
    · obtain ⟨entry, hentry⟩ := ha.alive slot (.inl hmem)
      exact ⟨entry, hf.held slot entry hentry (ha.allHeld hheld slot entry hentry)⟩
    · obtain ⟨text, htext⟩ := hresult slot hv
      exact ⟨_, htext⟩
  traffic := by
    obtain ⟨n, hretained, hreleased⟩ := hf.balanced
    have htraffic := ha.traffic
    omega
  sound := hf.sound
  room := hr

end Call

/-- Each value on the stack takes at most one slot. -/
theorem room_of_length (ha : Accounted start .undefined values h) (hs : start.Sound) {k n : Nat}
    (hr : start.Room (k + n)) (hlength : values.length ≤ k) : h.Room n := by
  have hnew : (values.filterMap Value.heapSlot?).length ≤ k := Nat.le_trans (List.length_filterMap_le _ _) hlength
  refine hr.of_few hs ha.sound ha.room.size_le (values.filterMap Value.heapSlot?) hnew fun slot entry hslot => ?_
  cases hold : start.slot? slot with
  | some old => exact .inl ⟨old, rfl⟩
  | none =>
    have hmem := (ha.made slot entry hold hslot).2.resolve_right nofun
    exact .inr (List.mem_filterMap.mpr ⟨_, hmem, rfl⟩)

/-- Releasing all values leaves the strings of the start. -/
theorem releaseAll (ha : Accounted start .undefined values h) (hheld : start.AllHeld) :
    Accounted start .undefined [] (values.foldl Heap.release h) := by
  induction values generalizing h with
  | nil => exact ha
  | cons v rest ih => exact ih (ha.release hheld fun _ _ => nofun)

theorem slot?_eq (ha : Accounted start .undefined [] h) (slot : UInt32) : h.slot? slot = start.slot? slot := by
  cases hold : start.slot? slot with
  | some old => exact ha.kept slot old hold
  | none =>
    refine Option.eq_none_iff_forall_ne_some.mpr fun entry hslot => ?_
    simpa using (ha.made slot entry hold hslot).2

end Accounted

/-! ### One command -/

namespace OperandStack

/-- The stack holds all its values, and nothing is at hand. -/
abbrev Holds (start : Heap) (m : OperandStack) : Prop := Accounted start .undefined m.values m.heap

variable {start h : Heap} {m : OperandStack}

theorem holds_finish {outcome : Except Error Value} {values : List Value}
    (ha : Accounted start (outcome.toOption.getD .undefined) values h) :
    (finish ⟨h, values⟩ outcome).2.Holds start := by
  cases outcome with
  | error e => exact ha
  | ok v => exact ha.retain

/-- The operands are released before the result is retained, and none of them is the result. -/
theorem holds_operator {x y : Value} {rest : List Value} (ha : Accounted start .undefined (x :: y :: rest) h)
    (hheld : start.AllHeld) (hr : h.Room 5) (op : BinaryOp) :
    (finish ⟨(((op.apply x y).runOn h).2.release x).release y, rest⟩ ((op.apply x y).runOn h).1).2.Holds
      start := by
  have hsettles := op.apply_settled x y h
  have hjoined := op.apply_joined ha.sound hr x y
  cases hrun : (op.apply x y).runOn h with
  | mk outcome h' =>
    rw [hrun] at hsettles hjoined
    have hf := hsettles.frame ha.sound
    have hr' := hsettles.room 0 hr
    refine holds_finish ?_
    cases outcome with
    | error e =>
      have hcall := ha.call (v := .undefined) hheld hf hr'
        (fun slot entry hslot => (hsettles.leftover slot entry hslot).imp_right fun hmem => nomatch hmem.1) nofun
      exact (hcall.release hheld fun _ _ => nofun).release hheld fun _ _ => nofun
    | ok v =>
      have hresult : ∀ slot, v = .string (.heap slot) → ∃ text, h'.slot? slot = some ⟨text, 0⟩ := by
        rintro slot rfl
        obtain ⟨named, hnamed, _, htext⟩ := hjoined _ rfl rfl
        obtain rfl : slot = named := by simpa using hnamed
        exact htext
      have hcall := ha.call hheld hf hr'
        (fun slot entry hslot => (hsettles.leftover slot entry hslot).imp_right fun hmem =>
          ⟨Value.mem_strings.mp hmem.1, hmem.2⟩) hresult
      have hapart : ∀ w ∈ x :: y :: rest, ∀ slot, w = .string (.heap slot) → v ≠ .string (.heap slot) := by
        rintro w hw slot rfl hv
        obtain ⟨text, htext⟩ := hresult slot hv
        exact ha.not_mem_of_made hheld hf htext hw
      exact (hcall.release hheld (hapart x (by simp))).release hheld (hapart y (by simp))

theorem holds_binary (ha : m.Holds start) (hheld : start.AllHeld) (hr : m.heap.Room 5) (op : BinaryOp) :
    (m.binary op).2.Holds start := by
  obtain ⟨h, values⟩ := m
  match values with
  | [] => exact holds_operator ((ha.uncounted rfl).uncounted rfl) hheld hr op
  | [y] => exact holds_operator (x := .undefined) (y := y) (ha.uncounted rfl) hheld hr op
  | y :: x :: rest => exact holds_operator (ha.perm (.swap x y rest)) hheld hr op

theorem holds_typeOf (ha : m.Holds start) (hheld : start.AllHeld) : m.typeOf.2.Holds start := by
  have hname : ∀ {v rest h}, Accounted start .undefined (v :: rest) h →
      (finish ⟨h.release v, rest⟩ ((h.typeName v).map fun b => .string (.builtin b))).2.Holds start := by
    intro v rest h ha
    have hreleased := ha.release hheld fun _ _ => nofun
    refine holds_finish ?_
    cases h.typeName v with
    | error e => exact hreleased
    | ok b => exact hreleased.take (v := .string (.builtin b)) fun _ heq => by simp at heq
  obtain ⟨h, values⟩ := m
  match values with
  | [] => exact hname (ha.uncounted rfl)
  | v :: rest => exact hname ha

theorem holds_pushString (ha : m.Holds start) (hheld : start.AllHeld) (hr : m.heap.Room 1) (t : Text) :
    (m.pushString t).Holds start := by
  have hslot := slot?_allocate_of_hasNext m.heap t (hr.hasNext ha.sound) m.heap.nextSlot
  rw [if_pos rfl] at hslot
  have hfst := allocate_fst m.heap t
  have hallocated := ha.call (v := .string (m.heap.allocate t).1) hheld (.allocate ha.sound t) (hr.allocate t)
    (fun slot entry hentry => (Leftover.allocate m.heap t slot entry hentry).imp_right fun hmem =>
      ⟨congrArg Value.string (List.mem_singleton.mp hmem.1).symm, hmem.2⟩)
    (fun slot heq => by
      obtain rfl : m.heap.nextSlot = slot := by simpa [hfst] using heq
      exact ⟨t, hslot⟩)
  exact hallocated.retain

/-- What a command makes of the stack. -/
theorem holds_step (ha : m.Holds start) (hheld : start.AllHeld) (hr : m.heap.Room 5) {c : Command}
    (hc : m.Allows c) : (m.step c).Holds start := by
  cases c with
  | push v =>
    refine Accounted.retain (ha.take fun slot heq => ?_)
    subst heq
    exact (isLive_heap m.heap slot).mp hc
  | pushString t => exact holds_pushString ha hheld (hr.mono (by omega)) t
  | drop =>
    obtain ⟨h, values⟩ := m
    match values with
    | [] => exact ha
    | v :: rest => exact ha.release hheld fun _ _ => nofun
  | operator op => exact holds_binary ha hheld hr op
  | typeOf => exact holds_typeOf ha hheld
  | clear => exact ha.releaseAll hheld

theorem depth_finish_le (m : OperandStack) (outcome : Except Error Value) :
    (finish m outcome).2.depth ≤ m.depth + 1 := by
  cases outcome with
  | error e => exact Nat.le_succ _
  | ok v => exact Nat.le_refl _

theorem depth_step_le (m : OperandStack) (c : Command) : (m.step c).depth ≤ m.depth + 1 := by
  obtain ⟨h, values⟩ := m
  cases c with
  | push v => exact Nat.le_refl _
  | pushString t => exact Nat.le_refl _
  | drop =>
    cases values with
    | nil => exact Nat.le_succ _
    | cons v rest => exact Nat.le_add_right _ 2
  | operator op =>
    refine Nat.le_trans (depth_finish_le _ _) (Nat.succ_le_succ ?_)
    match values with
    | [] => exact Nat.le_refl _
    | [y] => exact Nat.le_succ _
    | y :: x :: rest => exact Nat.le_add_right _ 2
  | typeOf =>
    refine Nat.le_trans (depth_finish_le _ _) (Nat.succ_le_succ ?_)
    cases values with
    | nil => exact Nat.le_refl _
    | cons v rest => exact Nat.le_succ _
  | clear => exact Nat.zero_le _

/-! ### Whole programs -/

/-- A program needs room for as many strings as it has commands and for those that one operator makes. -/
theorem holds_run {k : Nat} (hs : start.Sound) (hheld : start.AllHeld) (hr : start.Room (k + 5))
    (ha : m.Holds start) {commands done : List Command} (hc : m.AllowsAll commands)
    (hdepth : m.depth + commands.length ≤ k) (hdone : done <+: commands) : (m.run done).Holds start := by
  induction commands generalizing m done with
  | nil =>
    obtain rfl := List.prefix_nil.mp hdone
    exact ha
  | cons c rest ih =>
    rcases List.prefix_cons_iff.mp hdone with rfl | ⟨after, rfl, hafter⟩
    · exact ha
    · rw [List.length_cons] at hdepth
      have hroom : m.heap.Room 5 := ha.room_of_length hs hr (by unfold depth at hdepth; omega)
      have hstep := depth_step_le m c
      exact ih (holds_step ha hheld hroom hc.1) hc.2 (by omega) hafter

/-- A stack accounts for the strings of its heap since the given start. -/
structure Disciplined (start : Heap) (m : OperandStack) : Prop where
  /-- A string of the start is alive, with its text, held by its holders of then and by the stack. -/
  kept : ∀ slot entry, start.slot? slot = some entry →
    m.heap.slot? slot = some ⟨entry.text, entry.refcount + m.values.count (.string (.heap slot))⟩
  /-- Any other string is alive as long as it lies on the stack. -/
  live_iff : ∀ slot, start.slot? slot = none →
    (m.heap.isLive (.heap slot) = true ↔ .string (.heap slot) ∈ m.values)
  /-- The stack alone holds it. -/
  refcount_eq : ∀ slot entry, start.slot? slot = none → m.heap.slot? slot = some entry →
    entry.refcount = m.values.count (.string (.heap slot))
  /-- Since the start there have been as many retains more than releases as there are counted values. -/
  traffic : m.heap.stats.retained + start.stats.released =
    m.heap.stats.released + start.stats.retained + m.values.countP Value.isCounted

theorem disciplined_of_holds (ha : m.Holds start) : m.Disciplined start where
  kept := ha.kept
  live_iff slot hnone := by
    rw [isLive_heap]
    constructor
    · exact fun ⟨entry, hentry⟩ => (ha.made slot entry hnone hentry).2.resolve_right nofun
    · exact fun hmem => ha.alive slot (.inl hmem)
  refcount_eq slot entry hnone hentry := (ha.made slot entry hnone hentry).1
  traffic := ha.traffic

/-- The discipline of the stack at every point of every program, failing operators included. Clearing the
stack at that point leaves exactly the strings of the start. Slots have numbers of 32 bits, so the heap must
have room for what the program may push. -/
theorem run_disciplined (start : Heap) (hs : start.Sound) (hheld : start.AllHeld) (commands : List Command)
    (hr : start.Room (commands.length + 5)) (hc : (⟨start, []⟩ : OperandStack).AllowsAll commands)
    (done : List Command) (hdone : done <+: commands) :
    (run ⟨start, []⟩ done).Disciplined start ∧
      ∀ slot, (run ⟨start, []⟩ done).clear.heap.slot? slot = start.slot? slot := by
  have hstart : Holds start ⟨start, []⟩ := .refl hs (hr.mono (Nat.zero_le _))
  have hholds := holds_run hs hheld hr hstart hc (Nat.le_of_eq (Nat.zero_add _)) hdone
  exact ⟨disciplined_of_holds hholds, (hholds.releaseAll hheld).slot?_eq⟩

theorem allHeld_answering : Call.answering.AllHeld := by
  intro slot entry hslot
  have hretained := slot?_retain ((Heap.new {}).allocate (Text.ofString "1")).2 (.string (.heap 0)) slot
  have hallocated := slot?_allocate_of_nil (Heap.new {}) rfl (Text.ofString "1") slot
  have hslot : (((Heap.new {}).allocate (Text.ofString "1")).2.retain (.string (.heap 0))).slot? slot =
      some entry := hslot
  rw [hretained] at hslot
  split at hslot
  · obtain ⟨old, _, rfl⟩ := Option.map_eq_some_iff.mp hslot
    exact Nat.le_add_left 1 _
  · rename_i hne
    have hzero : slot.toNat ≠ (Heap.new {}).strings.size := fun heq =>
      hne (congrArg (Value.string ∘ StringRef.heap) (UInt32.toNat_inj.mp heq).symm)
    rw [hallocated, if_neg hzero] at hslot
    simp [slot?, new] at hslot

/-- A stored string, an object that answers with it, their sum, and an operator that fails. -/
def answeringProgram : List Command :=
  [.push (.string (.heap 0)), .push (.object ⟨0⟩), .operator .add, .pushString (Text.ofString "a"),
    .operator .instanceOf, .typeOf]

theorem run_disciplined_answering :
    (run ⟨Call.answering, []⟩ answeringProgram).Disciplined Call.answering ∧
      (run ⟨Call.answering, []⟩ answeringProgram).clear.heap.slot? 0 = Call.answering.slot? 0 :=
  have hdiscipline := run_disciplined Call.answering Call.sound_answering allHeld_answering answeringProgram
    ⟨by decide, by decide⟩ ⟨rfl, trivial, trivial, trivial, trivial, trivial, trivial⟩ answeringProgram
    (List.prefix_refl _)
  ⟨hdiscipline.1, hdiscipline.2 0⟩

end OperandStack

end ScriptCore
