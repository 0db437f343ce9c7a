import ScriptCore.Proofs.RoundTrip

/-! Integers that are moved into a range.

A length is the integer part of a number moved into `[0, 2 ^ 53)`, an integer of 64 bits one moved into
`[-2 ^ 63, 2 ^ 63)` (`Double.clamped`). Lengths are found kind by kind without the number in between, and where a
cast gives nothing, the end of the range is found by comparing doubles. Neither makes a difference
(`primitiveToLengthBy_eq`, `Double.integerIn?_getD`), with any casts that give the integer part where it fits
(`Double.Casts`). -/
namespace ScriptCore

open Heap HeapM

variable {α β : Type} {lo hi : Int}

/-- The integer part of a number, moved to the nearer end of `[lo, hi]` when it lies outside. What is no number
counts as zero. -/
def Double.clamped (lo hi : Int) (d : Double) : Int :=
  if d.isNaN then 0
  else if d.isInfinite then if d.isNegative then lo else hi
  else max lo (min hi d.integerPart)

/-! ### Casts -/

namespace Double

/-- A cast of doubles to words that stand for integers. It gives the word of the integer part where there is one
and nothing elsewhere. -/
def Casts (toInt : α → Int) (cast : Double → Option α) : Prop :=
  ∀ d n, cast d = some n ↔ d.isFinite = true ∧ d.integerPart = toInt n

def CastsInt64 (cast : Double → Option Int64) : Prop := Casts Int64.toInt cast

def CastsUInt64 (cast : Double → Option UInt64) : Prop := Casts (fun n => (n.toNat : Int)) cast

/-- Where the words stand for the integers of a range, a cast looks whether the integer part is in it. -/
theorem Casts.map_eq {toInt : α → Int} {cast : Double → Option α} (hcast : Casts toInt cast)
    (hrange : ∀ k, (∃ n, toInt n = k) ↔ lo ≤ k ∧ k ≤ hi) (d : Double) :
    (cast d).map toInt = d.integerIn? lo hi := by
  simp only [integerIn?, Bool.and_eq_true, decide_eq_true_eq]
  cases hd : cast d with
  | none =>
    refine (if_neg fun hin => ?_).symm
    obtain ⟨n, hn⟩ := (hrange d.integerPart).mpr ⟨hin.1.2, hin.2⟩
    have hsome := (hcast d n).mpr ⟨hin.1.1, hn.symm⟩
    rw [hd] at hsome
    cases hsome
  | some n =>
    obtain ⟨hfinite, hpart⟩ := (hcast d n).mp hd
    obtain ⟨hlow, hhigh⟩ := (hrange d.integerPart).mp ⟨n, hpart.symm⟩
    rw [if_pos ⟨⟨hfinite, hlow⟩, hhigh⟩, hpart, Option.map_some]

/-- A cast by looking at the range. -/
theorem casts_integerIn? {toInt : α → Int} {ofInt : Int → α} (hleft : ∀ n, ofInt (toInt n) = n)
    (hright : ∀ k, lo ≤ k → k ≤ hi → toInt (ofInt k) = k) (hrange : ∀ n, lo ≤ toInt n ∧ toInt n ≤ hi) :
    Casts toInt fun d => (d.integerIn? lo hi).map ofInt := fun d n => by
  have hn := hrange n
  simp only [integerIn?, Option.map_eq_some_iff, Option.ite_none_right_eq_some, Bool.and_eq_true, decide_eq_true_eq,
    Option.some.injEq]
  constructor
  · rintro ⟨k, ⟨⟨⟨hd, hlow⟩, hhigh⟩, rfl⟩, rfl⟩
    exact ⟨hd, (hright _ hlow hhigh).symm⟩
  · rintro ⟨hd, hpart⟩
    exact ⟨toInt n, ⟨⟨⟨hd, by omega⟩, by omega⟩, hpart⟩, hleft n⟩

theorem CastsInt64.map_eq {cast : Double → Option Int64} (hcast : CastsInt64 cast) (d : Double) :
    (cast d).map Int64.toInt = d.integerIn? (-2 ^ 63) (2 ^ 63 - 1) := by
  refine Casts.map_eq hcast (fun k => ⟨?_, fun ⟨hlow, hhigh⟩ => ?_⟩) d
  · rintro ⟨n, rfl⟩
    have hlow := n.le_toInt
    have hhigh := n.toInt_lt
    omega
  · exact ⟨Int64.ofInt k, Int64.toInt_ofInt_of_le hlow (by omega)⟩

theorem CastsUInt64.map_eq {cast : Double → Option UInt64} (hcast : CastsUInt64 cast) (d : Double) :
    (cast d).map (fun n => (n.toNat : Int)) = d.integerIn? 0 (2 ^ 64 - 1) := by
  refine Casts.map_eq hcast (fun k => ⟨?_, fun ⟨hlow, hhigh⟩ => ?_⟩) d
  · rintro ⟨n, rfl⟩
    have hn := n.toNat_lt
    omega
  · refine ⟨UInt64.ofNat k.toNat, ?_⟩
    rw [UInt64.toNat_ofNat_of_lt' (show k.toNat < UInt64.size by unfold UInt64.size; omega)]
    omega

/-! ### Doubles -/

theorem clamped_of_isFinite {d : Double} (hd : d.isFinite = true) (lo hi : Int) :
    d.clamped lo hi = max lo (min hi d.integerPart) := by
  rw [clamped, isNaN_of_isFinite hd, isInfinite_of_isFinite hd, if_neg Bool.false_ne_true, if_neg Bool.false_ne_true]

theorem clamped_nan (lo hi : Int) : nan.clamped lo hi = 0 := if_pos (by decide)

theorem clamped_infinity (negative : Bool) (lo hi : Int) :
    (infinity negative).clamped lo hi = if negative then lo else hi := by
  have hfacts : ∀ b, (infinity b).isNaN = false ∧ (infinity b).isInfinite = true ∧
      (infinity b).isNegative = b := by
    decide
  obtain ⟨hnumber, hinfinite, hsign⟩ := hfacts negative
  rw [clamped, hnumber, hinfinite, hsign, if_neg Bool.false_ne_true, if_pos rfl]

theorem integerPart_of_pattern_eq_zero {d : Double} (hd : d.pattern = 0) : d.integerPart = 0 := by
  have hmagnitude : d.magnitude = 0 := unitsOf_eq_zero.mpr hd
  have habs := natAbs_integerPart d
  rw [hmagnitude, Nat.zero_div] at habs
  exact Int.natAbs_eq_zero.mp habs

theorem integerPart_nonpos {d : Double} (hd : d.key ≤ 0) : d.integerPart ≤ 0 := by
  have hside := integerPart_side d
  split at hside
  · exact hside
  · rename_i hneg
    rw [key, if_neg hneg] at hd
    exact Int.le_of_eq (integerPart_of_pattern_eq_zero (by omega))

theorem integerPart_nonneg {d : Double} (hd : 0 ≤ d.key) : 0 ≤ d.integerPart := by
  have hside := integerPart_side d
  split at hside
  · rename_i hneg
    rw [key, if_pos hneg] at hd
    exact Int.le_of_eq (integerPart_of_pattern_eq_zero (by omega)).symm
  · exact hside

theorem clamped_trunc {d : Double} (hd : d.isFinite = true) : d.trunc.clamped lo hi = d.clamped lo hi := by
  rw [clamped_of_isFinite (isFinite_trunc hd), clamped_of_isFinite hd, integerPart_trunc]

theorem numEq_infinity {d : Double} (hd : d.isFinite = true) : d.numEq (infinity false) = false := by
  have hinfinite : (infinity false).key = infinityPattern := by decide
  have hpattern : d.pattern < infinityPattern := of_decide_eq_true hd
  have hkey : d.key ≠ infinityPattern := by
    unfold key
    split <;> omega
  rw [numEq, hinfinite, beq_eq_false_iff_ne.mpr hkey, Bool.and_false]

/-- A number above zero is only looked up by the cast where it has an integer part of 64 bits. -/
theorem elim_cast {cast : Double → Option UInt64} (hcast : CastsUInt64 cast) {d : Double} (hd : d.isFinite = true)
    (hpart : 0 ≤ d.integerPart) :
    ((cast d.trunc).elim maxLength fun n => min n.toNat maxLength) = min d.integerPart.toNat maxLength := by
  have hmap := hcast.map_eq d.trunc
  simp only [integerIn?, isFinite_trunc hd, integerPart_trunc, Bool.true_and, Bool.and_eq_true,
    decide_eq_true_eq] at hmap
  cases hword : cast d.trunc with
  | none =>
    rw [hword, Option.map_none, eq_comm, ite_eq_right_iff] at hmap
    have hlarge : ¬ d.integerPart ≤ 2 ^ 64 - 1 := fun hle => Option.some_ne_none _ (hmap ⟨hpart, hle⟩)
    show maxLength = _
    unfold maxLength
    omega
  | some n =>
    rw [hword, Option.map_some, eq_comm, Option.ite_none_right_eq_some, Option.some.injEq] at hmap
    show min n.toNat maxLength = _
    rw [hmap.2, Int.toNat_natCast]

theorem toLengthBy_eq {cast : Double → Option UInt64} (hcast : CastsUInt64 cast) (d : Double) :
    d.toLengthBy cast = (d.clamped 0 maxLength).toNat := by
  by_cases hnan : d.isNaN = true
  · rw [toLengthBy, clamped, hnan, if_pos rfl, Bool.true_or, if_pos rfl]
    rfl
  have hnumber := Bool.eq_false_iff.mpr hnan
  by_cases hfinite : d.isFinite = true
  · rw [toLengthBy, hnumber, numLe_zero hnumber, numEq_infinity hfinite, clamped_of_isFinite hfinite]
    by_cases hkey : d.key ≤ 0
    · have hside := integerPart_nonpos hkey
      rw [decide_eq_true hkey]
      show 0 = _
      omega
    · have hside := integerPart_nonneg (Int.le_of_lt (Int.not_le.mp hkey))
      rw [decide_eq_false hkey, Bool.or_false, if_neg Bool.false_ne_true, if_neg Bool.false_ne_true,
        elim_cast hcast hfinite hside]
      omega
  · have hinfinite : ∀ negative, ((infinity negative).isNaN || (infinity negative).numLe (zero false)) = negative ∧
        (infinity negative).numEq (infinity false) = !negative := by
      decide
    obtain ⟨hside, hequal⟩ := hinfinite d.isNegative
    rw [eq_infinity hnumber (Bool.eq_false_iff.mpr hfinite), clamped_infinity, toLengthBy, hside, hequal]
    cases d.isNegative <;> rfl

end Double

/-! ### Numbers -/

namespace Value

theorem ofNumber_of_not_isFinite {d : Double} (hd : d.isFinite = false) : ofNumber d = ofDouble d := by
  have hzero : d.isZero = false := by
    refine Bool.eq_false_iff.mpr fun hzero => Bool.eq_false_iff.mp hd ?_
    rw [Double.isFinite, of_decide_eq_true hzero]
    decide
  have hnone : d.integerIn? (-2 ^ 31) (2 ^ 31 - 1) = .none := by rw [Double.integerIn?, hd]; rfl
  rw [ofNumber, hzero, hnone]
  simp

/-- A number that is held as a value is moved into a range like its double. -/
theorem clamped_ofNumber (d : Double) (lo hi : Int) : (ofNumber d).toDouble.clamped lo hi = d.clamped lo hi := by
  by_cases hd : d.isFinite = true
  · rw [(ofNumber_of_isFinite hd).2]
  · rw [ofNumber_of_not_isFinite (Bool.eq_false_iff.mpr hd), ofDouble, dif_neg hd]
    split
    · rename_i hnan
      exact (Double.clamped_nan lo hi).trans (if_pos hnan).symm
    · rename_i hnumber
      have heq := Double.eq_infinity (Bool.eq_false_iff.mpr hnumber) (Bool.eq_false_iff.mpr hd)
      have hsign : (Sign.of d).isNegative = d.isNegative := by
        unfold Sign.of
        cases d.isNegative <;> rfl
      show (Double.infinity (Sign.of d).isNegative).clamped lo hi = _
      rw [hsign, ← heq]

variable {n : Value} (hn : n.isNumeric = true)
include hn

theorem clamped_truncated (hlo : lo ≤ 0) (hhi : 0 ≤ hi) :
    n.truncated.toDouble.clamped lo hi = n.toDouble.clamped lo hi := by
  cases n with
  | double d =>
    show (ofNumber d.val.trunc).toDouble.clamped lo hi = _
    rw [clamped_ofNumber, Double.clamped_trunc d.isFinite]
    rfl
  | nan =>
    show zero.toDouble.clamped lo hi = Double.nan.clamped lo hi
    rw [toDouble_zero, Double.clamped_nan, Double.clamped_of_isFinite (by decide),
      Double.integerPart_of_pattern_eq_zero (by decide)]
    omega
  | int32 _ | infinity _ => rfl
  | _ => cases hn

end Value

/-! ### Conversions -/

/-- The length of a primitive value is found from its number. -/
theorem Heap.primitiveToLengthBy_eq {cast : Double → Option UInt64} (hcast : Double.CastsUInt64 cast) (h : Heap)
    {p : Value} (hp : p.isPrimitive = true) :
    h.primitiveToLengthBy cast p =
      (do return ((← h.primitiveToNumber p).truncated.toDouble.clamped 0 maxLength).toNat) := by
  have hnumber : ∀ n : Value, n.isNumeric = true →
      (n.truncated.toDouble.clamped 0 maxLength).toNat = (n.toDouble.clamped 0 maxLength).toNat :=
    fun n hn => congrArg Int.toNat (Value.clamped_truncated hn (by decide) (by decide))
  have hint : ∀ n : Int32,
      (.ok n.toInt.toNat : Except Error Nat) = .ok ((Value.int32 n).truncated.toDouble.clamped 0 maxLength).toNat := by
    intro n
    have hn := natAbs_toInt_lt n
    show Except.ok n.toInt.toNat = .ok ((Double.ofInt n.toInt).clamped 0 maxLength).toNat
    rw [Double.clamped_of_isFinite (Double.isFinite_ofInt hn), Double.integerPart_ofInt hn]
    refine congrArg Except.ok ?_
    unfold maxLength
    omega
  cases p with
  | int32 n => exact hint n
  | double d => exact congrArg Except.ok ((Double.toLengthBy_eq hcast d.val).trans (hnumber (.double d) rfl).symm)
  | string s =>
    simp only [primitiveToLengthBy, primitiveToNumber]
    cases h.text s with
    | error e => rfl
    | ok t =>
      show Except.ok (t.toDouble?.elim 0 (Double.toLengthBy cast)) =
        .ok (t.toNumber.truncated.toDouble.clamped 0 maxLength).toNat
      unfold Text.toNumber
      cases t.toDouble? with
      | none => exact congrArg Except.ok (hnumber .nan rfl).symm
      | some d =>
        show Except.ok (d.toLengthBy cast) = .ok ((Value.ofNumber d).truncated.toDouble.clamped 0 maxLength).toNat
        rw [hnumber _ (Value.isNumeric_ofNumber d), Value.clamped_ofNumber, Double.toLengthBy_eq hcast]
  | boolean b =>
    cases b with
    | false => exact hint 0
    | true => exact hint 1
  | infinity s =>
    cases s with
    | positive => exact congrArg (Except.ok ∘ Int.toNat) (Double.clamped_infinity false 0 maxLength).symm
    | negative => exact congrArg (Except.ok ∘ Int.toNat) (Double.clamped_infinity true 0 maxLength).symm
  | null => exact hint 0
  | undefined | none | nan => exact congrArg Except.ok (hnumber .nan rfl).symm
  | object _ | environment _ | function _ => cases hp

/-- What follows a conversion to a primitive value may be done within its bracket. -/
theorem withPrimitive_map {v : Value} (hv : v.isEngineMade = false) (hint : Hint) {body : Value → HeapM α}
    {body' : Value → HeapM β} (f : α → β)
    (hbody : ∀ p, p.isPrimitive = true → body' p = (do return f (← body p))) :
    withPrimitive v hint body' = (do return f (← withPrimitive v hint body)) := by
  cases v with
  | object o =>
    rw [withPrimitive_congr o hint hbody]
    funext h
    show ((toPrimitive (.object o) hint >>= fun p => withTransient p (do return f (← body p)))).runOn h =
      ((toPrimitive (.object o) hint >>= fun p => withTransient p (body p)) >>= fun x => pure (f x)).runOn h
    rw [runOn_bind, runOn_bind, runOn_bind]
    rcases (toPrimitive (.object o) hint).runOn h with ⟨e | p, h'⟩
    · rfl
    · simp only [runOn_withTransient, runOn_bind]
      rcases (body p).runOn (h'.retain p) with ⟨e | x, h'⟩ <;> rfl
  | environment _ | function _ => cases hv
  | _ => exact hbody _ rfl

theorem toInteger_of_isNumeric {n : Value} (hn : n.isNumeric = true) : toInteger n = pure n.truncated := by
  cases n with
  | int32 _ | double _ | nan | infinity _ => rfl
  | _ => cases hn

theorem toLengthBy_eq {cast : Double → Option UInt64} (hcast : Double.CastsUInt64 cast) (v : Value)
    (hv : v.isEngineMade = false) :
    toLengthBy cast v = (do return ((← toInteger v).toDouble.clamped 0 maxLength).toNat) := by
  have hbody : ∀ p : Value, p.isPrimitive = true → HeapM.ask (·.primitiveToLengthBy cast p) =
      (do return ((← HeapM.ask (·.primitiveToNumber p)).truncated.toDouble.clamped 0 maxLength).toNat) := by
    intro p hp
    funext h
    show (h.primitiveToLengthBy cast p, h) = _
    rw [h.primitiveToLengthBy_eq hcast hp]
    show _ = (HeapM.ask (·.primitiveToNumber p) >>= fun n => _).runOn h
    rw [runOn_bind, runOn_ask]
    cases h.primitiveToNumber p <;> rfl
  simp only [toInteger_eq_truncated, bind_assoc, pure_bind]
  exact withPrimitive_map hv .number (fun n : Value => (n.truncated.toDouble.clamped 0 maxLength).toNat) hbody

end ScriptCore
