import ScriptCore.Proofs.Equalities
import ScriptCore.Proofs.Safety
import ScriptCore.Proofs.StaleStrings

/-! Loose equality is symmetric, and so is what it does to the heap.

`sameValue` and `strictEquals` do not see the order of their operands, except that of two references to nothing
each reports the first. Loose equality converts one operand and compares again, and the operand that it
converts does not depend on the order either: a truth value before anything else, a string before a
number, an object when neither is left. So both orders do the same at each step (`HeapM.Alike`), and the
brackets around conversions preserve that.

A comparison that is not decided at once is followed by one with less to convert (`exists_comparison`). Where
wrappers hold numbers it takes three conversions at most, and the bound on the number of comparisons is never
met (`looseEqualsWithin_fuel`). -/
namespace ScriptCore

open Heap HeapM

variable {α β : Type} {h : Heap} {x y : Value}

/-! ### Computations that do the same -/

/-- From any heap the computations leave the same heap, with the same result or with errors of one kind. -/
def HeapM.Alike (a b : HeapM α) : Prop :=
  ∀ h, (a.runOn h).1.mapError Error.kind = (b.runOn h).1.mapError Error.kind ∧ (a.runOn h).2 = (b.runOn h).2

namespace HeapM.Alike

theorem refl (a : HeapM α) : a.Alike a := fun _ => ⟨rfl, rfl⟩

theorem ask {question question' : Heap → Except Error α}
    (hq : ∀ h, (question h).mapError Error.kind = (question' h).mapError Error.kind) :
    (HeapM.ask question).Alike (HeapM.ask question') := fun h => ⟨hq h, rfl⟩

theorem bind (a : HeapM α) {f g : α → HeapM β} (hfg : ∀ x, (f x).Alike (g x)) :
    (a >>= f).Alike (a >>= g) := by
  intro h
  rw [runOn_bind, runOn_bind]
  rcases a.runOn h with ⟨e | x, h'⟩
  · exact ⟨rfl, rfl⟩
  · exact hfg x h'

theorem transient (v : Value) {a b : HeapM α} (hab : a.Alike b) :
    (withTransient v a).Alike (withTransient v b) := by
  intro h
  obtain ⟨houtcome, hheap⟩ := hab (h.retain v)
  exact ⟨houtcome, congrArg (·.release v) hheap⟩

theorem unboxed (v : Value) {f g : Value → HeapM Bool} (hfg : ∀ p, (f p).Alike (g p)) :
    (withUnboxed v f).Alike (withUnboxed v g) :=
  bind (toPrimitiveUnboxed v) fun p => transient p (hfg p)

end HeapM.Alike

/-! ### Questions about two values -/

namespace Heap

theorem kind_of_objectClass {o : ObjectRef} {e : Error} (ho : h.objectClass o = .error e) :
    e.kind = .internalError := by
  unfold objectClass object at ho
  split at ho
  · cases ho
  · obtain rfl := Except.error.inj ho
    rfl

/-- Two questions that fail in one way can be asked in either order. -/
theorem ask_comm {a b : Except Error α} (ha : ∀ e, a = .error e → e.kind = .internalError)
    (hb : ∀ e, b = .error e → e.kind = .internalError) {f g : α → α → Except Error β}
    (hfg : ∀ x y, f x y = g y x) :
    (a >>= fun x => b >>= f x).mapError Error.kind = (b >>= fun y => a >>= g y).mapError Error.kind := by
  cases a with
  | error e =>
    cases b with
    | error e' => exact congrArg Except.error ((ha e rfl).trans (hb e' rfl).symm)
    | ok y => rfl
  | ok x =>
    cases b with
    | error e' => rfl
    | ok y => exact congrArg (Except.mapError Error.kind) (hfg x y)

theorem sameValue_comm (x y : Value) :
    (h.sameValue x y).mapError Error.kind = (h.sameValue y x).mapError Error.kind := by
  by_cases hne : x = y
  · rw [hne]
  have hnumbers : (x.toDouble.numEq y.toDouble && x.toDouble.isNegative == y.toDouble.isNegative) =
      (y.toDouble.numEq x.toDouble && y.toDouble.isNegative == x.toDouble.isNegative) := by
    rw [Double.numEq_comm, Bool.beq_comm]
  unfold sameValue
  rw [if_neg hne, if_neg (Ne.symm hne)]
  cases x with
  | int32 m =>
    cases y with
    | double e => exact congrArg Except.ok hnumbers
    | _ => rfl
  | double d =>
    cases y with
    | int32 _ | double _ => exact congrArg Except.ok hnumbers
    | _ => rfl
  | string a =>
    cases y with
    | string b =>
      refine ask_comm (fun _ => kind_of_text) (fun _ => kind_of_text) fun t u => congrArg Except.ok ?_
      rw [Bool.eq_iff_iff, Text.sameUnits_iff, Text.sameUnits_iff]
      exact eq_comm
    | _ => rfl
  | object o =>
    cases y with
    | object p =>
      refine ask_comm (fun _ => kind_of_objectClass) (fun _ => kind_of_objectClass) fun c d => ?_
      cases c with
      | function f =>
        cases d with
        | function g => exact congrArg Except.ok (decide_eq_decide.mpr eq_comm)
        | _ => rfl
      | _ => cases d <;> rfl
    | _ => rfl
  | function entry => cases y <;> rfl
  | _ => cases y <;> rfl

end Heap

theorem Double.abs_sub_comm {a b : Double} (ha : a.isFinite = true) (hb : b.isFinite = true) :
    (a.sub b).abs = (b.sub a).abs := by
  have hpattern : (a.sub b).abs.pattern = (b.sub a).abs.pattern := by
    rw [pattern_abs_sub ha hb, pattern_abs_sub hb ha, ← Int.natAbs_neg, Int.neg_sub]
  rw [pattern_abs, pattern_abs] at hpattern
  rw [abs, abs, hpattern]

theorem Semantics.numbersEqual_comm (s : Semantics) {a b : Double} (ha : a.isFinite = true)
    (hb : b.isFinite = true) : s.numbersEqual a b = s.numbersEqual b a := by
  rw [numbersEqual, numbersEqual, Double.abs_sub_comm ha hb, Double.numEq_comm]

theorem Heap.strictEquals_comm (x y : Value) :
    (h.strictEquals x y).mapError Error.kind = (h.strictEquals y x).mapError Error.kind := by
  unfold strictEquals
  generalize x.withoutNegativeZero = x
  generalize y.withoutNegativeZero = y
  have hsame := sameValue_comm (h := h) x y
  cases x with
  | double d =>
    cases y with
    | double e => exact congrArg Except.ok (h.semantics.numbersEqual_comm d.isFinite e.isFinite)
    | nan | int32 _ | boolean _ => rfl
    | _ => exact hsame
  | int32 n =>
    cases y with
    | double e => rfl
    | nan | boolean _ => rfl
    | _ => exact hsame
  | boolean a =>
    cases y with
    | boolean b => exact congrArg Except.ok (Bool.beq_comm)
    | _ => rfl
  | nan => cases y <;> rfl
  | undefined | none =>
    cases y with
    | nan | boolean _ | undefined | none => rfl
    | _ => exact hsame
  | _ =>
    cases y with
    | nan | boolean _ => rfl
    | _ => exact hsame

/-! ### Loose equality -/

/-- Exchanging the operands exchanges the branches of the comparison, which do the same. -/
theorem looseEqualsWithin_alike (fuel : Nat) (x y : Value) :
    (looseEqualsWithin fuel x y).Alike (looseEqualsWithin fuel y x) := by
  induction fuel generalizing x y with
  | zero => exact .refl _
  | succ fuel ih =>
    unfold looseEqualsWithin
    generalize x.undefinedIfNone = x
    generalize y.undefinedIfNone = y
    simp only
    rw [Bool.and_comm y.isNumeric]
    by_cases hnumeric : (x.isNumeric && y.isNumeric) = true
    · rw [if_pos hnumeric, if_pos hnumeric]
      exact .ask fun h => strictEquals_comm x y
    by_cases htype : x.type = y.type
    · rw [if_neg hnumeric, if_neg hnumeric, if_pos htype, if_pos htype.symm]
      exact .ask fun h => sameValue_comm x y
    rw [if_neg hnumeric, if_neg hnumeric, if_neg htype, if_neg (Ne.symm htype)]
    cases x with
    | boolean b =>
      cases y with
      | boolean b' => exact absurd rfl htype
      | _ => exact ih _ _
    | string s =>
      cases y with
      | string t => exact absurd rfl htype
      | boolean b => exact ih _ _
      | object o => exact .unboxed _ fun p => ih _ p
      | int32 _ | double _ | nan | infinity _ => exact .bind _ fun n => ih n _
      | _ => exact .refl _
    | object o =>
      cases y with
      | object p => exact absurd rfl htype
      | boolean b => exact ih _ _
      | function entry => exact .ask fun h => sameValue_comm _ _
      | string _ | int32 _ | double _ | nan | infinity _ => exact .unboxed _ fun p => ih p _
      | _ => exact .refl _
    | int32 _ | double _ | nan | infinity _ =>
      cases y with
      | int32 _ | double _ | nan | infinity _ => exact absurd rfl hnumeric
      | boolean b => exact ih _ _
      | string s => exact .bind _ fun n => ih _ n
      | object o => exact .unboxed _ fun p => ih _ p
      | _ => exact .refl _
    | function entry =>
      cases y with
      | boolean b => exact ih _ _
      | object o => exact .ask fun h => sameValue_comm _ _
      | _ => exact .refl _
    | undefined | null | none | environment _ =>
      cases y with
      | boolean b => exact ih _ _
      | _ => exact .refl _

/-! ### The bound on the comparisons -/

/-- What number wrappers hold is a number. -/
def Heap.WrapsNumbers (h : Heap) : Prop :=
  ∀ object ∈ h.objects, ∀ v, object.payload = .number v → v.isNumeric = true

theorem Heap.WrapsNumbers.isNumeric (hw : h.WrapsNumbers) {o : ObjectRef} {n : Value}
    (hclass : h.objectClass o = .ok (.number n)) : n.isNumeric = true := by
  obtain ⟨object, hmem, hpayload⟩ := exists_of_objectClass hclass
  exact hw object hmem n hpayload

/-- What an object is compared by is no object where wrappers hold numbers. -/
theorem isPrimitive_of_unboxed (hw : h.WrapsNumbers) {o : ObjectRef} {p : Value} {h' : Heap}
    (hrun : (toPrimitiveUnboxed (.object o)).runOn h = (.ok p, h')) : p.isPrimitive = true := by
  simp only [toPrimitiveUnboxed, runOn_bind, runOn_ask] at hrun
  cases hclass : h.objectClass o with
  | error e =>
    rw [hclass] at hrun
    cases hrun
  | ok payload =>
    rw [hclass] at hrun
    cases payload with
    | number n =>
      cases hrun
      exact Value.isPrimitive_of_isNumeric (hw.isNumeric hclass)
    | boolean b =>
      cases hrun
      rfl
    | _ => exact isPrimitive_of_toPrimitive hrun

theorem rank_unboxed (hw : h.WrapsNumbers) {o : ObjectRef} {p : Value} {h' : Heap}
    (hrun : (toPrimitiveUnboxed (.object o)).runOn h = (.ok p, h')) : p.rank ≤ 1 :=
  Value.rank_le_one (Value.isObject_of_isPrimitive (isPrimitive_of_unboxed hw hrun))

/-- Once an object has given way to a primitive value, wrappers hold numbers as before. -/
theorem wrapsNumbers_unboxed (hw : h.WrapsNumbers) {o : ObjectRef} {p : Value} {h' : Heap}
    (hrun : (toPrimitiveUnboxed (.object o)).runOn h = (.ok p, h')) : (h'.retain p).WrapsNumbers := by
  have hanswers := toPrimitiveUnboxed_answers h o
  rw [hrun] at hanswers
  have hobjects : h'.objects = h.objects := hanswers.elim Answers.objects_eq fun hr => hr.objects_eq
  rwa [WrapsNumbers, objects_retain_of_isPrimitive (isPrimitive_of_unboxed hw hrun), hobjects]

theorem runOn_withUnboxed_congr (hw : h.WrapsNumbers) {o : ObjectRef} {f g : Value → HeapM Bool}
    (hfg : ∀ p h', p.rank ≤ 1 → h'.WrapsNumbers → (f p).runOn h' = (g p).runOn h') :
    (withUnboxed (.object o) f).runOn h = (withUnboxed (.object o) g).runOn h := by
  simp only [withUnboxed, runOn_bind]
  cases hrun : (toPrimitiveUnboxed (.object o)).runOn h with
  | mk outcome h' =>
    cases outcome with
    | error e => rfl
    | ok p =>
      have hsame := hfg p (h'.retain p) (rank_unboxed hw hrun) (wrapsNumbers_unboxed hw hrun)
      exact congrArg (fun r : Except Error Bool × Heap => (r.1, r.2.release p)) hsame

theorem runOn_readNumber_congr {s : StringRef} {f g : Value → HeapM Bool}
    (hfg : ∀ n, n.rank = 0 → (f n).runOn h = (g n).runOn h) :
    (HeapM.ask (·.primitiveToNumber (.string s)) >>= f).runOn h =
      (HeapM.ask (·.primitiveToNumber (.string s)) >>= g).runOn h := by
  simp only [runOn_bind, runOn_ask]
  cases hn : h.primitiveToNumber (.string s) with
  | error e => rfl
  | ok n => exact hfg n (Value.rank_of_isNumeric (isNumeric_of_primitiveToNumber hn))

/-- What a comparison of two values comes to, where `again` does the comparisons after it: an answer to a
question, or one more comparison after one conversion, with less to convert than there was. -/
inductive Comparison (rank : Nat) : ((Value → Value → HeapM Bool) → HeapM Bool) → Prop where
  | strict (x y : Value) : Comparison rank fun _ => HeapM.ask (·.strictEquals x y)
  | same (x y : Value) : Comparison rank fun _ => HeapM.ask (·.sameValue x y)
  | known (b : Bool) : Comparison rank fun _ => pure b
  | converted (x y : Value) (hrank : x.rank + y.rank < rank) : Comparison rank fun again => again x y
  | read (s : StringRef) (next : Value → Value × Value)
      (hrank : ∀ n, n.rank = 0 → (next n).1.rank + (next n).2.rank < rank) :
      Comparison rank fun again => do
        let n ← HeapM.ask (·.primitiveToNumber (.string s))
        again (next n).1 (next n).2
  | unboxed (o : ObjectRef) (next : Value → Value × Value)
      (hrank : ∀ p, p.rank ≤ 1 → (next p).1.rank + (next p).2.rank < rank) :
      Comparison rank fun again => withUnboxed (.object o) fun p => again (next p).1 (next p).2

theorem exists_comparison (x y : Value) :
    ∃ c, Comparison (x.rank + y.rank) c ∧
      ∀ fuel, looseEqualsWithin (fuel + 1) x y = c (looseEqualsWithin fuel) := by
  rw [← Value.rank_undefinedIfNone x, ← Value.rank_undefinedIfNone y]
  simp only [looseEqualsWithin]
  generalize x.undefinedIfNone = x
  generalize y.undefinedIfNone = y
  by_cases hnumeric : (x.isNumeric && y.isNumeric) = true
  · exact ⟨_, .strict x y, fun fuel => if_pos hnumeric⟩
  by_cases htype : x.type = y.type
  · exact ⟨_, .same x y, fun fuel => (if_neg hnumeric).trans (if_pos htype)⟩
  simp only [if_neg hnumeric, if_neg htype]
  -- From here on the kinds of the operands decide, which are not the same.
  have hleft : ∀ z p : Value, p.rank ≤ 1 → p.rank + z.rank < 2 + z.rank :=
    fun z p hp => Nat.add_lt_add_right (Nat.lt_succ_of_le hp) _
  have hright : ∀ z p : Value, p.rank ≤ 1 → z.rank + p.rank < z.rank + 2 :=
    fun z p hp => Nat.add_lt_add_left (Nat.lt_succ_of_le hp) _
  cases x with
  | boolean b =>
    refine ⟨_, .converted (boolNumber b) y (by simp), fun fuel => ?_⟩
    cases y with
    | boolean _ => exact absurd rfl htype
    | _ => rfl
  | string s =>
    cases y with
    | string t => exact absurd rfl htype
    | boolean b => exact ⟨_, .converted _ (boolNumber b) (by simp), fun _ => rfl⟩
    | object o => exact ⟨_, .unboxed o (fun p => (_, p)) (hright _), fun _ => rfl⟩
    | int32 _ | double _ | nan | infinity _ =>
      exact ⟨_, .read s (fun n => (n, _)) fun n hn => by simp [hn], fun _ => rfl⟩
    | _ => exact ⟨_, .known false, fun _ => rfl⟩
  | object o =>
    cases y with
    | object p => exact absurd rfl htype
    | boolean b => exact ⟨_, .converted _ (boolNumber b) (by simp), fun _ => rfl⟩
    | function entry => exact ⟨_, .same _ _, fun _ => rfl⟩
    | string _ | int32 _ | double _ | nan | infinity _ =>
      exact ⟨_, .unboxed o (fun p => (p, _)) (hleft _), fun _ => rfl⟩
    | _ => exact ⟨_, .known false, fun _ => rfl⟩
  | int32 _ | double _ | nan | infinity _ =>
    cases y with
    | int32 _ | double _ | nan | infinity _ => exact absurd rfl hnumeric
    | boolean b => exact ⟨_, .converted _ (boolNumber b) (by simp), fun _ => rfl⟩
    | string s => exact ⟨_, .read s (fun n => (_, n)) fun n hn => by simp [hn], fun _ => rfl⟩
    | object o => exact ⟨_, .unboxed o (fun p => (_, p)) (hright _), fun _ => rfl⟩
    | _ => exact ⟨_, .known false, fun _ => rfl⟩
  | function entry =>
    cases y with
    | boolean b => exact ⟨_, .converted _ (boolNumber b) (by simp), fun _ => rfl⟩
    | object o => exact ⟨_, .same _ _, fun _ => rfl⟩
    | _ => exact ⟨_, .known false, fun _ => rfl⟩
  | undefined | null | none | environment _ =>
    cases y with
    | boolean b => exact ⟨_, .converted _ (boolNumber b) (by simp), fun _ => rfl⟩
    | undefined | null => exact ⟨_, .known _, fun _ => rfl⟩
    | _ => exact ⟨_, .known false, fun _ => rfl⟩

/-- A bound above the number of conversions ahead is never met, so any two such bounds do the same. -/
theorem looseEqualsWithin_fuel (hw : h.WrapsNumbers) {m n : Nat} (hm : x.rank + y.rank < m)
    (hn : x.rank + y.rank < n) : (looseEqualsWithin m x y).runOn h = (looseEqualsWithin n x y).runOn h := by
  -- Each comparison that follows another has an operand of a lower rank.
  induction m generalizing h n x y with
  | zero => omega
  | succ m ih =>
    obtain ⟨n, rfl⟩ : ∃ k, n = k + 1 := ⟨n - 1, by omega⟩
    obtain ⟨c, hc, hnext⟩ := exists_comparison x y
    rw [hnext, hnext]
    have hlower : ∀ {h : Heap} {x' y' : Value}, h.WrapsNumbers → x'.rank + y'.rank < x.rank + y.rank →
        (looseEqualsWithin m x' y').runOn h = (looseEqualsWithin n x' y').runOn h :=
      fun hw hrank => ih hw (by omega) (by omega)
    cases hc with
    | strict | same | known => rfl
    | converted x' y' hrank => exact hlower hw hrank
    | read s next hrank => exact runOn_readNumber_congr fun n hn => hlower hw (hrank n hn)
    | unboxed o next hrank => exact runOn_withUnboxed_congr hw fun p g hp hg => hlower hg (hrank p hp)

/-- Objects are compared at once, and other operands are less than four conversions away from that. -/
theorem looseEqualsWithin_of_four_le (hw : h.WrapsNumbers) {fuel : Nat} (hfuel : 4 ≤ fuel) (x y : Value) :
    (looseEqualsWithin fuel x y).runOn h = (looseEqualsWithin 4 x y).runOn h := by
  obtain ⟨o, p, rfl, rfl⟩ | hrank := objects_or_rank_lt x y
  · obtain ⟨fuel, rfl⟩ : ∃ k, fuel = k + 1 := ⟨fuel - 1, by omega⟩
    rfl
  · exact looseEqualsWithin_fuel hw (by omega) hrank

theorem looseEquals_fuel (hw : h.WrapsNumbers) {fuel : Nat} (hfuel : h.objects.size + 4 ≤ fuel)
    (x y : Value) : (looseEqualsWithin fuel x y).runOn h = (looseEquals x y).runOn h := by
  have hfour := looseEqualsWithin_of_four_le hw (Nat.le_add_left 4 h.objects.size) x y
  have hrun : (looseEquals x y).runOn h = (looseEqualsWithin (h.objects.size + 4) x y).runOn h := rfl
  rw [hrun, hfour, looseEqualsWithin_of_four_le hw (Nat.le_trans (Nat.le_add_left 4 _) hfuel)]

/-- Loose equality answers alike for either order of the operands, with the same truth value or with errors of
one kind, and leaves the same heap. The bound on its comparisons has no part in that. -/
theorem looseEquals_symm (h : Heap) (hw : h.WrapsNumbers) (x y : Value) :
    ((looseEquals x y).runOn h).1.mapError Error.kind = ((looseEquals y x).runOn h).1.mapError Error.kind ∧
    ((looseEquals x y).runOn h).2 = ((looseEquals y x).runOn h).2 ∧
    ∀ fuel, h.objects.size + 4 ≤ fuel →
      (looseEqualsWithin fuel x y).runOn h = (looseEquals x y).runOn h := by
  obtain ⟨houtcome, hheap⟩ := looseEqualsWithin_alike (h.objects.size + 4) x y h
  exact ⟨houtcome, hheap, fun fuel hfuel => looseEquals_fuel hw hfuel x y⟩

/-- A wrapped number, and an object that answers with a new string. -/
def wrapping : Heap :=
  { objects := #[{ payload := .number (.int32 1) },
      { payload := .object, valueOf? := some (.freshString "1") }] }

theorem wrapsNumbers_wrapping : wrapping.WrapsNumbers := by
  intro object hmem v hv
  simp only [wrapping, List.mem_toArray, List.mem_cons, List.not_mem_nil, or_false] at hmem
  obtain rfl | rfl := hmem
  · obtain rfl := ObjectClass.number.inj hv
    rfl
  · cases hv

theorem looseEquals_symm_wrapping :
    wrapping.WrapsNumbers ∧
    ((looseEquals (.object ⟨1⟩) (.boolean true)).runOn wrapping).1.mapError Error.kind =
      ((looseEquals (.boolean true) (.object ⟨1⟩)).runOn wrapping).1.mapError Error.kind ∧
    ((looseEquals (.object ⟨1⟩) (.boolean true)).runOn wrapping).2 =
      ((looseEquals (.boolean true) (.object ⟨1⟩)).runOn wrapping).2 ∧
    ((looseEqualsWithin 9 (.object ⟨1⟩) (.boolean true)).runOn wrapping) =
      ((looseEquals (.object ⟨1⟩) (.boolean true)).runOn wrapping) := by
  obtain ⟨houtcome, hheap, hfuel⟩ :=
    looseEquals_symm wrapping wrapsNumbers_wrapping (.object ⟨1⟩) (.boolean true)
  exact ⟨wrapsNumbers_wrapping, houtcome, hheap, hfuel 9 (by decide)⟩

end ScriptCore
