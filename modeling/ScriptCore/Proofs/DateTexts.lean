import ScriptCore.Proofs.Conversions
import ScriptCore.Proofs.Seconds

/-! Texts of dates.

With any clock the text of a finite time is that of the whole second it is in, with a field for seconds from `00` to
`59`, and a time has no text only if its second is beyond the ends of the calendar (`dateToString_wholeSecond`). The
last instant before 1970 is the exception: its nanoseconds make a full second, which is either shown as the sixtieth
second of the minute or not accepted, though the second it is in is the last one of 1969
(`dateToString_lastInstant`). -/
namespace ScriptCore

open HeapM

namespace Calendar

open Double

/-! ### The Gregorian clock -/

/-- The calendar ends before a hundred million days. -/
theorem inRange_of_far {days : Int} (hfar : 10 ^ 8 ≤ days ∨ days < -10 ^ 8) : (Date.ofDays days).inRange = false := by
  have hyear : ∀ day < 146097, (day - day / 1460 + day / 36524 - day / 146096) / 365 ≤ 400 := fun _ _ => by omega
  have hday : ((days + 719468).fmod 146097).toNat < 146097 := by
    rw [Int.fmod_eq_emod_of_nonneg _ (by decide)]
    omega
  have hera : 680 ≤ (days + 719468).fdiv 146097 ∨ (days + 719468).fdiv 146097 ≤ -680 := by
    rw [Int.fdiv_eq_ediv_of_nonneg _ (by decide)]
    omega
  have hofEra := hyear _ hday
  rw [Date.inRange, Bool.and_eq_false_iff, decide_eq_false_iff_not, decide_eq_false_iff_not]
  simp only [Date.ofDays]
  generalize ((days + 719468).fmod 146097).toNat = day at hofEra ⊢
  generalize (day - day / 1460 + day / 36524 - day / 146096) / 365 = year at hofEra ⊢
  split <;> omega

/-- What comes before the seconds. -/
def minuteText (second : Int) : String :=
  let m : Moment := ⟨second, false⟩
  m.field 'a' ++ " " ++ m.field 'b' ++ " " ++ m.field 'd' ++ " " ++ m.field 'Y' ++ " " ++ m.field 'H' ++ ":" ++
    m.field 'M' ++ ":"

theorem fill_datePattern (m : Moment) :
    m.fill datePattern.toList = minuteText m.second ++ m.field 'S' ++ " GMT+0000" := by
  have hpattern : datePattern.toList = ['%', 'a', ' ', '%', 'b', ' ', '%', 'd', ' ', '%', 'Y', ' ', '%', 'H', ':',
      '%', 'M', ':', '%', 'S', ' ', 'G', 'M', 'T', '+', '0', '0', '0', '0'] := by decide
  rw [hpattern]
  simp only [Moment.fill, minuteText, String.append_assoc]
  rfl

theorem ofDay_mod (m : Moment) : m.ofDay % 60 = (m.second % 60).toNat := by
  rw [Moment.ofDay, Int.fmod_eq_emod_of_nonneg _ (by decide)]
  omega

theorem days_eq (m : Moment) : m.days = m.second / 86400 := Int.fdiv_eq_ediv_of_nonneg _ (by decide)

theorem moment?_gregorian (seconds : Int64) (nanoseconds : UInt32) :
    gregorian.moment? seconds nanoseconds =
      if (Date.ofDays (seconds.toInt / 86400)).inRange = true ∧
          (nanoseconds.toNat < 10 ^ 9 ∨ seconds.toInt % 60 = 59 ∧ nanoseconds.toNat < 2 * 10 ^ 9)
        then some ⟨seconds.toInt, 10 ^ 9 ≤ nanoseconds.toNat⟩ else none := by
  simp only [gregorian, Moment.date, days_eq, ofDay_mod, Bool.and_eq_true, Bool.or_eq_true, Bool.not_eq_true',
    decide_eq_false_iff_not, decide_eq_true_eq]
  refine if_congr (and_congr_right fun _ => ?_) rfl rfl
  omega

theorem field_second (m : Moment) : m.field 'S' = padded 2 ((m.second % 60).toNat + if m.leap then 1 else 0) := by
  rw [← ofDay_mod]
  rfl

theorem lawful_gregorian : gregorian.Lawful (fun day => (Date.ofDays day).inRange = true) minuteText where
  day_bound day hrange := by
    by_contra hfar
    rw [inRange_of_far (by omega)] at hrange
    cases hrange
  isSome_moment? seconds nanoseconds := by rw [moment?_gregorian, Option.isSome_ite]
  format_eq seconds nanoseconds moment hmoment := by
    rw [moment?_gregorian, Option.ite_none_right_eq_some, Option.some.injEq] at hmoment
    obtain ⟨⟨-, haccepted⟩, rfl⟩ := hmoment
    refine (fill_datePattern _).trans ?_
    rw [field_second]
    by_cases hn : nanoseconds.toNat < 10 ^ 9
    · rw [if_pos hn, if_neg (by simpa using hn)]
      rfl
    · rw [if_neg hn, if_pos (by simpa using hn), (haccepted.resolve_left hn).1]
      rfl

/-! ### Texts of seconds -/

section Lawful
variable {Moment : Type} {clock : Clock Moment} {inRange : Int → Prop} {front : Int → String}

/-- The text of a second with the given last field, or none if the second is not in the calendar. -/
def IsText (inRange : Int → Prop) (front : Int → String) (second : Int) (field : Nat) (text? : Option String) : Prop :=
  (inRange (second / 86400) → text? = some (front second ++ padded 2 field ++ " GMT+0000")) ∧
    (¬ inRange (second / 86400) → text? = none)

theorem IsText.unique {second : Int} {field : Nat} {text? text?' : Option String}
    (ht : IsText inRange front second field text?) (ht' : IsText inRange front second field text?') :
    text? = text?' := by
  by_cases hrange : inRange (second / 86400)
  · rw [ht.1 hrange, ht'.1 hrange]
  · rw [ht.2 hrange, ht'.2 hrange]

variable (hclock : clock.Lawful inRange front)
include hclock

theorem not_inRange_of_far {second : Int} (hfar : 2 ^ 43 ≤ second ∨ second < -2 ^ 43) : ¬ inRange (second / 86400) :=
  fun hrange => by
    have hbound := hclock.day_bound _ hrange
    omega

/-- What a clock says about a second that it accepts on the days of its calendar. -/
theorem isText_moment? {s : Int64} {n : UInt32}
    (hn : n.toNat < 10 ^ 9 ∨ s.toInt % 60 = 59 ∧ n.toNat < 2 * 10 ^ 9) :
    IsText inRange front s.toInt (if n.toNat < 10 ^ 9 then (s.toInt % 60).toNat else 60)
      ((clock.moment? s n).map (clock.format datePattern)) := by
  have hsome := hclock.isSome_moment? s n
  cases hmoment : clock.moment? s n with
  | none =>
    rw [hmoment] at hsome
    exact ⟨fun hrange => absurd (hsome.mpr ⟨hrange, hn⟩) Bool.false_ne_true, fun _ => rfl⟩
  | some moment =>
    rw [hmoment] at hsome
    exact ⟨fun _ => congrArg some (hclock.format_eq s n moment hmoment), fun hrange => absurd (hsome.mp rfl).1 hrange⟩

/-! ### Texts of times -/

variable {time : Double} (htime : time.isFinite = true)
include htime

omit hclock in
theorem timeTextBy_eq :
    timeTextBy clock time = (clock.moment? (secondWord time) (nanoseconds time)).map (clock.format datePattern) :=
  if_pos htime

omit hclock htime in
theorem toInt_secondWord (time : Double) :
    (secondWord time).toInt = max (-2 ^ 63) (min (2 ^ 63 - 1) (wholeSecond time)) :=
  Int64.toInt_ofInt_of_le (by omega) (by omega)

/-- The division finds the second, or both are beyond the calendar. -/
theorem isText_secondOf (hlast : ¬ IsLastInstant time) :
    IsText inRange front (secondOf time) (secondOf time % 60).toNat (timeTextBy clock time) := by
  have hstep : 500 < halfStep := by decide +kernel
  have hlarge : time.units < 0 → 500 < time.magnitude := fun hunits =>
    Nat.lt_trans hstep (Nat.lt_of_not_le fun hle => hlast ⟨hunits, hle⟩)
  have hiff : ∀ k : Int, k.natAbs < 2 ^ 44 → (k ≤ wholeSecond time ↔ k ≤ secondOf time) :=
    fun k hk => le_wholeSecond_iff htime hlarge hk
  have hhigh := hiff (2 ^ 43) (by decide)
  have hlow := hiff (-2 ^ 43) (by decide)
  have hword := toInt_secondWord time
  have hnanoseconds := (nanoseconds_lt_iff htime).mpr hlast
  have htext := isText_moment? hclock (s := secondWord time) (.inl hnanoseconds)
  rw [if_pos hnanoseconds, ← timeTextBy_eq htime] at htext
  by_cases hfar : 2 ^ 43 ≤ secondOf time ∨ secondOf time < -2 ^ 43
  · have hrange := not_inRange_of_far hclock hfar
    exact ⟨fun h => absurd h hrange, fun _ => htext.2 (not_inRange_of_far hclock (by omega))⟩
  · have hfrom := hiff (secondOf time) (by omega)
    have hto := hiff (secondOf time + 1) (by omega)
    rwa [show (secondWord time).toInt = secondOf time by omega] at htext

/-- The last instant is in the second before 1970, and its nanoseconds are those of the next. -/
theorem text_of_isLastInstant (hlast : IsLastInstant time) :
    (500 < time.magnitude → IsText inRange front (-1) 60 (timeTextBy clock time)) ∧
    (time.magnitude ≤ 500 → timeTextBy clock time = none) := by
  have hnanoseconds := nanoseconds_of_isLastInstant htime hlast
  have hword := toInt_secondWord time
  obtain ⟨hunits, hle⟩ := hlast
  have hless := halfStep_lt_second
  have habs := natAbs_units time
  rw [timeTextBy_eq htime]
  refine ⟨fun hlarge => ?_, fun hsmall => ?_⟩
  · have hlow := le_wholeSecond_iff htime (fun _ => hlarge) (k := -1) (by decide)
    have hhigh := le_wholeSecond_iff htime (fun _ => hlarge) (k := 0) (by decide)
    rw [le_secondOf_iff] at hlow hhigh
    have hsecond : (secondWord time).toInt = -1 := by omega
    have htext := isText_moment? hclock (s := secondWord time) (n := nanoseconds time)
      (.inr ⟨by rw [hsecond]; rfl, by omega⟩)
    rwa [hsecond, if_neg (by omega)] at htext
  · have hzero : unitsOf (roundUnits time.magnitude 1000) = 0 :=
      Nat.eq_zero_of_not_pos fun hpos => Nat.not_lt.mpr hsmall (quotient_pos_iff.mp hpos)
    have hquotient : (time.div (ofNat 1000)).units = 0 := by
      rw [units_div_thousand htime, hzero]
      split <;> rfl
    have hwhole : wholeSecond time = 0 := by rw [wholeSecond, floor, hquotient, Int.zero_fdiv]
    have hrefused : ¬ (clock.moment? (secondWord time) (nanoseconds time)).isSome = true := fun hsome => by
      have hn := ((hclock.isSome_moment? _ _).mp hsome).2
      omega
    rw [Option.not_isSome_iff_eq_none.mp hrefused, Option.map_none]

omit htime

/-! ### Whole seconds as times -/

omit hclock in
theorem not_isLastInstant {time : Double} (hlarge : one ≤ time.magnitude) : ¬ IsLastInstant time := fun hlast => by
  have hless : halfStep < one := by decide +kernel
  exact Nat.not_le.mpr hless (Nat.le_trans hlarge hlast.2)

/-- Beyond the integers that are doubles a time is beyond the calendar. -/
theorem timeTextBy_of_large {time : Double} (hlarge : (2 ^ 53 - 1) * one ≤ time.magnitude) :
    timeTextBy clock time = none := by
  by_cases htime : time.isFinite = true
  · have hpos := Double.one_pos
    have habs := natAbs_units time
    have hhigh : 2 ^ 43 ≤ secondOf time ↔ 2 ^ 43 * second ≤ time.units := le_secondOf_iff
    have hlow : -2 ^ 43 ≤ secondOf time ↔ -2 ^ 43 * second ≤ time.units := le_secondOf_iff
    have hsecond : second = 1000 * one := rfl
    exact (isText_secondOf hclock htime (not_isLastInstant (by omega))).2 (not_inRange_of_far hclock (by omega))
  · exact if_neg htime

/-- A second is found again in the double of its milliseconds. -/
theorem isText_ofInt (seconds : Int) :
    IsText inRange front seconds (seconds % 60).toNat (timeTextBy clock (ofInt (1000 * seconds))) := by
  by_cases hsmall : (1000 * seconds).natAbs < 2 ^ 53
  · have hunits := units_ofInt hsmall
    have hsecond : secondOf (ofInt (1000 * seconds)) = seconds := by
      have hcast : (second : Int) ≠ 0 := Int.natCast_ne_zero.mpr (Nat.ne_of_gt second_pos)
      have hproduct : 1000 * seconds * (one : Int) = seconds * second := by
        rw [second, Int.natCast_mul, Int.mul_comm 1000, Int.mul_assoc]
        rfl
      rw [secondOf, hunits, hproduct, Int.mul_fdiv_cancel _ hcast]
    have hlast : ¬ IsLastInstant (ofInt (1000 * seconds)) := fun hlast => by
      refine not_isLastInstant ?_ hlast
      have hnonzero : (1000 * seconds).natAbs ≠ 0 := fun hzero => by
        have hbelow := hlast.1
        rw [hunits, Int.natAbs_eq_zero.mp hzero, Int.zero_mul] at hbelow
        exact Int.lt_irrefl 0 hbelow
      rw [magnitude_ofInt hsmall]
      exact Nat.le_mul_of_pos_left one (Nat.pos_of_ne_zero hnonzero)
    have htext := isText_secondOf hclock (isFinite_ofInt hsmall) hlast
    rwa [hsecond] at htext
  · obtain ⟨p, hp, hunits⟩ := exists_unitsOf_eq (n := 2 ^ 53 - 1) (by decide)
    have hlarge : (2 ^ 53 - 1) * one ≤ (ofInt (1000 * seconds)).magnitude := by
      rw [magnitude, ofInt, pattern_ofRatio, ← hunits]
      refine unitsOf_le (le_roundUnits_of_le Nat.one_pos (Nat.le_of_lt hp) ?_)
      rw [hunits, Nat.mul_one]
      exact Nat.mul_le_mul_right one (by omega)
    have hfar : 2 ^ 43 ≤ seconds ∨ seconds < -2 ^ 43 := by omega
    exact ⟨fun h => absurd h (not_inRange_of_far hclock hfar), fun _ => timeTextBy_of_large hclock hlarge⟩

end Lawful
end Calendar

/-! ### Strings of dates -/

open Calendar

section Strings
variable {Moment : Type} {clock : Clock Moment} {inRange : Int → Prop} {front : Int → String} {h : Heap} {o : ObjectRef}
  {time : Double}

theorem runOn_dateToStringBy (ho : h.objectClass o = .ok (.date time)) :
    (dateToStringBy clock o).runOn h = match timeTextBy clock time with
      | some text => (newString (Text.ofString text)).runOn h
      | none => (.ok (.builtin .invalidDate), h) := by
  rw [dateToStringBy, runOn_bind, runOn_ask, ho]
  dsimp only
  cases timeTextBy clock time <;> rfl

end Strings

/-- The string of a finite time before or after the last instant before 1970 is that of its whole second, with any
clock. It has a field for seconds from `00` to `59`, and is only the one of no date when the second is beyond the
calendar. The last instant has one of two strings of its own. -/
theorem dateToString_wholeSecond {Moment : Type} {clock : Clock Moment} {inRange : Int → Prop} {front : Int → String}
    (hclock : clock.Lawful inRange front) (h : Heap) (o : ObjectRef) (time : Double) (htime : time.isFinite = true)
    (ho : h.objectClass o = .ok (.date time)) :
    (¬ IsLastInstant time →
      (∀ o', h.objectClass o' = .ok (.date (Double.ofInt (1000 * secondOf time))) →
        (dateToStringBy clock o).runOn h = (dateToStringBy clock o').runOn h) ∧
      (inRange (secondOf time / 86400) → ∃ n : Nat, n < 60 ∧ n = secondOf time % 60 ∧
        (dateToStringBy clock o).runOn h =
          (newString (Text.ofString (front (secondOf time) ++ padded 2 n ++ " GMT+0000"))).runOn h) ∧
      (¬ inRange (secondOf time / 86400) → (dateToStringBy clock o).runOn h = (.ok (.builtin .invalidDate), h))) ∧
    (IsLastInstant time →
      (500 < time.magnitude ∧ inRange (-1) → (dateToStringBy clock o).runOn h =
        (newString (Text.ofString (front (-1) ++ "60" ++ " GMT+0000"))).runOn h) ∧
      (¬ (500 < time.magnitude ∧ inRange (-1)) →
        (dateToStringBy clock o).runOn h = (.ok (.builtin .invalidDate), h))) := by
  rw [runOn_dateToStringBy ho]
  refine ⟨fun hlast => ?_, fun hlast => ?_⟩
  · have htext := isText_secondOf hclock htime hlast
    refine ⟨fun o' ho' => ?_, fun hrange => ?_, fun hrange => ?_⟩
    · rw [runOn_dateToStringBy ho', htext.unique (isText_ofInt hclock (secondOf time))]
    · exact ⟨(secondOf time % 60).toNat, by omega, by omega, by rw [htext.1 hrange]⟩
    · rw [htext.2 hrange]
  · obtain ⟨hshown, hrefused⟩ := text_of_isLastInstant hclock htime hlast
    have hday : (-1 : Int) / 86400 = -1 := rfl
    refine ⟨fun ⟨hlarge, hrange⟩ => ?_, fun hnot => ?_⟩
    · rw [(hshown hlarge).1 (hday ▸ hrange)]
      rfl
    · by_cases hlarge : 500 < time.magnitude
      · rw [(hshown hlarge).2 (hday.symm ▸ fun hrange => hnot ⟨hlarge, hrange⟩)]
      · rw [hrefused (Nat.not_lt.mp hlarge)]

/-- Half a millisecond, `10 ^ (-20)` milliseconds and one unit before 1970, and the second that they are in. -/
def eve : Heap :=
  { objects := #[{ payload := .date ⟨0xbfe0000000000000⟩ }, { payload := .date ⟨0xbbc79ca10c924223⟩ },
      { payload := .date ⟨0x8000000000000001⟩ }, { payload := .date (Double.ofInt (-1000)) }] }

theorem dateToString_wholeSecond_eve :
    gregorian.Lawful (fun day => (Date.ofDays day).inRange = true) minuteText ∧
    ¬ IsLastInstant ⟨0xbfe0000000000000⟩ ∧ secondOf ⟨0xbfe0000000000000⟩ = -1 ∧
    (dateToString ⟨0⟩).runOn eve = (dateToString ⟨3⟩).runOn eve ∧
    (dateToString ⟨0⟩).runOn eve =
      (newString (Text.ofString (minuteText (-1) ++ padded 2 59 ++ " GMT+0000"))).runOn eve ∧
    IsLastInstant ⟨0x8000000000000001⟩ ∧ (dateToString ⟨2⟩).runOn eve = (.ok (.builtin .invalidDate), eve) := by
  have hlast : ¬ IsLastInstant ⟨0xbfe0000000000000⟩ := fun hlast => absurd hlast.2 (by decide +kernel)
  have hlast' : IsLastInstant ⟨0x8000000000000001⟩ := ⟨by decide +kernel, by decide +kernel⟩
  have hsecond : secondOf ⟨0xbfe0000000000000⟩ = -1 := by decide +kernel
  obtain ⟨hothers, -⟩ :=
    dateToString_wholeSecond lawful_gregorian eve ⟨0⟩ ⟨0xbfe0000000000000⟩ (by decide) rfl
  obtain ⟨-, hinstant⟩ :=
    dateToString_wholeSecond lawful_gregorian eve ⟨2⟩ ⟨0x8000000000000001⟩ (by decide) rfl
  obtain ⟨hsame, hfield, -⟩ := hothers hlast
  obtain ⟨n, hlt, hn, hrun⟩ := hfield (by rw [hsecond]; decide)
  rw [hsecond] at hn hrun
  obtain rfl : n = 59 := by omega
  exact ⟨lawful_gregorian, hlast, hsecond, hsame ⟨3⟩ (by rw [hsecond]; rfl), hrun, hlast',
    (hinstant hlast').2 fun hlarge => absurd hlarge.1 (by decide +kernel)⟩

/-- Two times in the last second of 1969 that do not have its string. -/
theorem dateToString_lastInstant :
    secondOf ⟨0xbbc79ca10c924223⟩ = -1 ∧ secondOf ⟨0x8000000000000001⟩ = -1 ∧
    (dateToString ⟨1⟩).runOn eve = (newString (Text.ofString "Wed Dec 31 1969 23:59:60 GMT+0000")).runOn eve ∧
    (dateToString ⟨2⟩).runOn eve = (.ok (.builtin .invalidDate), eve) ∧
    (dateToString ⟨3⟩).runOn eve = (newString (Text.ofString "Wed Dec 31 1969 23:59:59 GMT+0000")).runOn eve := by
  have hshown : timeTextBy gregorian ⟨0xbbc79ca10c924223⟩ = some "Wed Dec 31 1969 23:59:60 GMT+0000" := by
    decide +kernel
  have hrefused : timeTextBy gregorian ⟨0x8000000000000001⟩ = none := by decide +kernel
  have hsecond : timeTextBy gregorian (Double.ofInt (-1000)) = some "Wed Dec 31 1969 23:59:59 GMT+0000" := by
    decide +kernel
  refine ⟨by decide +kernel, by decide +kernel, ?_, ?_, ?_⟩
  · rw [dateToString, runOn_dateToStringBy (h := eve) (o := ⟨1⟩) rfl, hshown]
  · rw [dateToString, runOn_dateToStringBy (h := eve) (o := ⟨2⟩) rfl, hrefused]
  · rw [dateToString, runOn_dateToStringBy (h := eve) (o := ⟨3⟩) rfl, hsecond]

end ScriptCore
