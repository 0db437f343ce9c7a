import ScriptCore.Double.Lemmas
import ScriptCore.Word

/-! What words say of the values they encode.

A word is known by its tag and its payload, and all that is asked of the word of a value is asked of these two
(`tag_ofValue`, `payload_ofValue`). So decoding gives the value back (`value_ofValue`), different values have
different words, and a predicate on the bits of a word answers as the value does (`Describes`). The words of
doubles come in through one more door, `ofDouble`, which takes any bits and leads to the same words
(`ofDouble_eq`). -/
namespace ScriptCore.Word

/-! ### Tags and payloads -/

theorem toNat_bits_tagged {tag payload : Nat} (ht : tag < 2 ^ 16) (hp : payload < 2 ^ 48) :
    (tagged tag payload).bits.toNat = tag * 2 ^ 48 + payload := by
  rw [tagged, UInt64.toNat_ofNat', Nat.mod_eq_of_lt (by omega)]

theorem tag_tagged {tag payload : Nat} (ht : tag < 2 ^ 16) (hp : payload < 2 ^ 48) :
    (tagged tag payload).tag = tag := by
  rw [Word.tag, toNat_bits_tagged ht hp]
  omega

theorem payload_tagged {tag payload : Nat} (ht : tag < 2 ^ 16) (hp : payload < 2 ^ 48) :
    (tagged tag payload).payload = payload := by
  rw [Word.payload, toNat_bits_tagged ht hp]
  omega

def tagOf : Value → Nat
  | .undefined | .null | .none | .nan => specialTag
  | .infinity _ => infinityTag
  | .boolean _ => booleanTag
  | .int32 _ => int32Tag
  | .double d => (Word.mk d.val.bits).tag
  | .string _ => stringTag
  | .object _ => objectTag
  | .environment _ | .function _ => addressTag

def payloadOf : Value → Nat
  | .undefined | .infinity .positive | .boolean false => 0
  | .null | .infinity .negative | .boolean true => 1
  | .none => 2
  | .nan => 3
  | .int32 n => n.toUInt32.toNat
  | .double d => (Word.mk d.val.bits).payload
  | .string (.builtin b) => builtinBit + b.id
  | .string (.heap slot) => slot.toNat
  | .object o => o.index.toNat
  | .environment address => address.toNat
  | .function entry => functionBit + entry.toNat

theorem id_lt (b : Builtin) : b.id < 2 ^ 16 := by
  cases b <;> decide

theorem payloadOf_lt (v : Value) : payloadOf v < 2 ^ 48 := by
  cases v with
  | infinity sign => cases sign <;> decide
  | boolean b => cases b <;> decide
  | int32 n => exact Nat.lt_trans n.toUInt32.toNat_lt (by decide)
  | double d => exact Nat.mod_lt _ (by decide)
  | string s =>
    cases s with
    | builtin b =>
      have hid := id_lt b
      show 2 ^ 32 + b.id < 2 ^ 48
      omega
    | heap slot => exact Nat.lt_trans slot.toNat_lt (by decide)
  | object o => exact Nat.lt_trans o.index.toNat_lt (by decide)
  | environment address => exact Nat.lt_trans address.isLt (by decide)
  | function entry =>
    have hentry := entry.isLt
    show 2 ^ 47 + entry.toNat < 2 ^ 48
    omega
  | _ => decide

theorem tagOf_lt (v : Value) : tagOf v < 2 ^ 16 := by
  cases v with
  | double d => exact Nat.div_lt_of_lt_mul d.val.bits.toNat_lt
  | _ =>
    simp only [tagOf]
    decide

/-- The word of a value is made of its tag and payload; that of a double as well. -/
theorem ofValue_eq (v : Value) : ofValue v = tagged (tagOf v) (payloadOf v) := by
  cases v with
  | infinity sign => cases sign <;> rfl
  | boolean b => cases b <;> rfl
  | string s => cases s <;> rfl
  | double d =>
    have hbits : tagOf (.double d) * 2 ^ 48 + payloadOf (.double d) = d.val.bits.toNat :=
      Nat.div_add_mod' _ _
    rw [tagged, hbits, UInt64.ofNat_toNat, ofValue]
  | _ => rfl

theorem tag_ofValue (v : Value) : (ofValue v).tag = tagOf v := by
  rw [ofValue_eq, tag_tagged (tagOf_lt v) (payloadOf_lt v)]

theorem payload_ofValue (v : Value) : (ofValue v).payload = payloadOf v := by
  rw [ofValue_eq, payload_tagged (tagOf_lt v) (payloadOf_lt v)]

theorem tagOf_double_lt (d : FiniteDouble) : tagOf (.double d) < specialTag := by
  have hbits := d.val.toNat_bits
  have hpattern : d.val.pattern < 2047 * 2 ^ 52 := of_decide_eq_true d.isFinite
  show d.val.bits.toNat / 2 ^ 48 < 0xfff9
  split at hbits <;> omega

/-! ### Decoding -/

theorem stringOfPayload_builtin (b : Builtin) : stringOfPayload (builtinBit + b.id) = .builtin b := by
  have hid := id_lt b
  have hbit : (builtinBit + b.id) / builtinBit % 2 = 1 := by
    unfold builtinBit
    omega
  have hplace : (builtinBit + b.id) % 2 ^ 16 = b.id := by
    unfold builtinBit
    omega
  rw [stringOfPayload, if_pos hbit, hplace, Builtin.ofId?_id, Option.getD_some]

theorem stringOfPayload_heap (slot : UInt32) : stringOfPayload slot.toNat = .heap slot := by
  have hlt := slot.toNat_lt
  have hbit : ¬ slot.toNat / builtinBit % 2 = 1 := by
    unfold builtinBit
    omega
  rw [stringOfPayload, if_neg hbit, UInt32.ofNat_toNat]

theorem value_ofValue (v : Value) : (ofValue v).value = v := by
  unfold value
  rw [tag_ofValue, payload_ofValue]
  cases v with
  | undefined | null | none | nan => rfl
  | infinity sign => cases sign <;> rfl
  | boolean b => cases b <;> rfl
  | int32 n =>
    show Value.int32 (UInt32.ofNat n.toUInt32.toNat).toInt32 = _
    rw [UInt32.ofNat_toNat, Int32.toInt32_toUInt32]
  | double d =>
    rw [if_pos (tagOf_double_lt d)]
    exact dif_pos d.isFinite
  | string s =>
    cases s with
    | builtin b => exact congrArg Value.string (stringOfPayload_builtin b)
    | heap slot => exact congrArg Value.string (stringOfPayload_heap slot)
  | object o => exact congrArg (fun index => Value.object ⟨index⟩) UInt32.ofNat_toNat
  | environment address =>
    have hlt : ¬ functionBit ≤ address.toNat := Nat.not_le.mpr address.isLt
    show (if functionBit ≤ address.toNat then _ else Value.environment (BitVec.ofNat 47 address.toNat)) = _
    rw [if_neg hlt, BitVec.ofNat_toNat, BitVec.setWidth_eq]
  | function entry =>
    show (if functionBit ≤ functionBit + entry.toNat then
      Value.function (BitVec.ofNat 47 (functionBit + entry.toNat)) else _) = _
    rw [if_pos (Nat.le_add_right _ _)]
    congr 1
    apply BitVec.eq_of_toNat_eq
    have := entry.isLt
    rw [BitVec.toNat_ofNat]
    unfold functionBit
    omega

theorem ofValue_injective : Function.Injective ofValue := fun v w h => by
  rw [← value_ofValue v, h, value_ofValue]

theorem ofValue_eq_iff {v w : Value} : ofValue v = ofValue w ↔ v = w := ofValue_injective.eq_iff

/-! ### Predicates -/

/-- A word has the type of the value, and the predicates on its bits say of it what holds of the value. -/
structure Describes (w : Word) (v : Value) : Prop where
  type : w.value.type = v.type
  isInt32 : w.isInt32 = decide (v.type = .int32)
  isDouble : w.isDouble = decide (v.type = .double)
  isNumeric : w.isNumeric = v.isNumeric
  isString : w.isString = decide (v.type = .string)
  isObject : w.isObject = decide (v.type = .object)
  isNaN : w.isNaN = decide (v = .nan)
  isInfinity : w.isInfinity = decide (v.type = .infinity)
  isPositiveInfinity : w.isPositiveInfinity = decide (v = .infinity .positive)
  isNegativeInfinity : w.isNegativeInfinity = decide (v = .infinity .negative)
  isPositiveZero : w.isPositiveZero = decide (v = Value.positiveZero)
  isNegativeZero : w.isNegativeZero = decide (v = Value.negativeZero)
  isBoolean : w.isBoolean = decide (v.type = .boolean)
  isNull : w.isNull = decide (v = .null)
  isUndefined : w.isUndefined = decide (v = .undefined)
  isNone : w.isNone = decide (v = .none)
  isNullish : w.isNullish = v.isNullish
  isEnvironment : w.isEnvironment = decide (v.type = .environment)
  isFunction : w.isFunction = decide (v.type = .function)
  isPrimitive : w.isPrimitive = v.isPrimitive
  isCounted : w.isCounted = v.isCounted

/-- The tag tells six types from all others; special values and addresses share theirs. -/
theorem tagOf_eq_iff (v : Value) :
    (tagOf v = int32Tag ↔ v.type = .int32) ∧ (tagOf v < specialTag ↔ v.type = .double) ∧
    (tagOf v = stringTag ↔ v.type = .string) ∧ (tagOf v = objectTag ↔ v.type = .object) ∧
    (tagOf v = infinityTag ↔ v.type = .infinity) ∧ (tagOf v = booleanTag ↔ v.type = .boolean) ∧
    (tagOf v = addressTag ↔ v.type = .environment ∨ v.type = .function) := by
  cases v with
  | double d =>
    have hlt : tagOf (.double d) < 0xfff9 := tagOf_double_lt d
    simp only [Value.type, int32Tag, specialTag, stringTag, objectTag, infinityTag, booleanTag, addressTag]
    refine ⟨?_, ?_, ?_, ?_, ?_, ?_, ?_⟩ <;> simp <;> omega
  | _ => simp only [tagOf, Value.type]; decide

/-- A value with a word of its own is recognized by that word. -/
theorem decide_ofValue_eq {w : Word} (v u : Value) (hw : w = ofValue u) :
    decide (ofValue v = w) = decide (v = u) := by
  rw [hw, decide_eq_decide]
  exact ofValue_eq_iff

theorem bits_eq_iff {w : Word} {bits : UInt64} : w.bits = bits ↔ w = ⟨bits⟩ := by
  cases w
  exact (Word.mk.injEq ..).symm.to_iff

theorem tagOf_double_ne (d : FiniteDouble) {tag : Nat} (ht : specialTag ≤ tag) :
    decide (tagOf (.double d) = tag) = false :=
  decide_eq_false (Nat.ne_of_lt (Nat.lt_of_lt_of_le (tagOf_double_lt d) ht))

theorem isPrimitive_ofValue (v : Value) : (ofValue v).isPrimitive = v.isPrimitive := by
  show (!decide ((ofValue v).tag = objectTag) && !decide ((ofValue v).tag = addressTag)) = _
  rw [tag_ofValue]
  cases v with
  | double d => rw [tagOf_double_ne d (by decide), tagOf_double_ne d (by decide)]; rfl
  | _ => rfl

/-- Functions have a bit that environments lack. -/
theorem isFunction_ofValue (v : Value) :
    (ofValue v).isFunction = decide (v.type = .function) ∧
      (ofValue v).isEnvironment = decide (v.type = .environment) := by
  unfold isFunction isEnvironment
  rw [tag_ofValue, payload_ofValue]
  cases v with
  | double d => rw [tagOf_double_ne d (by decide)]; exact ⟨rfl, rfl⟩
  | environment address =>
    have hlt : ¬ functionBit ≤ address.toNat := Nat.not_le.mpr address.isLt
    exact ⟨decide_eq_false hlt, decide_eq_true address.isLt⟩
  | function entry =>
    have hle : functionBit ≤ functionBit + entry.toNat := Nat.le_add_right _ _
    exact ⟨decide_eq_true hle, decide_eq_false (Nat.not_lt.mpr hle)⟩
  | _ => exact ⟨rfl, rfl⟩

/-- Texts of the table have a bit that slots lack. -/
theorem isCounted_ofValue (v : Value) : (ofValue v).isCounted = v.isCounted := by
  unfold isCounted isString isObject
  rw [tag_ofValue, payload_ofValue]
  cases v with
  | double d => rw [tagOf_double_ne d (by decide), tagOf_double_ne d (by decide)]; rfl
  | string s =>
    cases s with
    | builtin b =>
      have hid := id_lt b
      have hbit : ¬ (builtinBit + b.id) / builtinBit % 2 = 0 := by
        unfold builtinBit
        omega
      show (true && decide ((builtinBit + b.id) / builtinBit % 2 = 0) || false) = false
      rw [decide_eq_false hbit]
      rfl
    | heap slot =>
      have hslot := slot.toNat_lt
      have hbit : slot.toNat / builtinBit % 2 = 0 := by
        unfold builtinBit
        omega
      show (true && decide (slot.toNat / builtinBit % 2 = 0) || false) = true
      rw [decide_eq_true hbit]
      rfl
  | _ => rfl

theorem describes_ofValue (v : Value) : Describes (ofValue v) v := by
  obtain ⟨hint32, hdouble, hstring, hobject, hinfinity, hboolean, -⟩ := tagOf_eq_iff v
  have hnan : (ofValue v).isNaN = decide (v = .nan) := decide_ofValue_eq v .nan rfl
  have hnull : (ofValue v).isNull = decide (v = .null) := decide_ofValue_eq v .null rfl
  have hundefined : (ofValue v).isUndefined = decide (v = .undefined) := decide_ofValue_eq v .undefined rfl
  have hnone : (ofValue v).isNone = decide (v = .none) := decide_ofValue_eq v .none rfl
  have htag : ∀ {tag : Nat} {type : ValueType}, (tagOf v = tag ↔ v.type = type) →
      decide ((ofValue v).tag = tag) = decide (v.type = type) :=
    fun hiff => by rw [tag_ofValue, decide_eq_decide.mpr hiff]
  have hbelow : (ofValue v).isDouble = decide (v.type = .double) := by
    rw [isDouble, tag_ofValue, decide_eq_decide.mpr hdouble]
  have hnumeric : (ofValue v).isNumeric = v.isNumeric := by
    rw [isNumeric, hbelow, hnan, isInt32, isInfinity, htag hint32, htag hinfinity]
    cases v <;> rfl
  have hnullish : (ofValue v).isNullish = v.isNullish := by
    rw [isNullish, hnull, hundefined, hnone]
    cases v <;> rfl
  have hzero : ∀ {u : Value} {bits : UInt64}, Word.mk bits = ofValue u →
      decide ((ofValue v).bits = bits) = decide (v = u) := fun hu => by
    rw [← decide_ofValue_eq v _ hu, decide_eq_decide]
    exact bits_eq_iff
  exact {
    type := congrArg Value.type (value_ofValue v)
    isInt32 := htag hint32
    isDouble := hbelow
    isNumeric := hnumeric
    isString := htag hstring
    isObject := htag hobject
    isNaN := hnan
    isInfinity := htag hinfinity
    isPositiveInfinity := decide_ofValue_eq v (.infinity .positive) rfl
    isNegativeInfinity := decide_ofValue_eq v (.infinity .negative) rfl
    isPositiveZero := hzero rfl
    isNegativeZero := hzero rfl
    isBoolean := htag hboolean
    isNull := hnull
    isUndefined := hundefined
    isNone := hnone
    isNullish := hnullish
    isEnvironment := (isFunction_ofValue v).2
    isFunction := (isFunction_ofValue v).1
    isPrimitive := isPrimitive_ofValue v
    isCounted := isCounted_ofValue v }

/-! ### Doubles -/

/-- What the bits of a double stand for. -/
theorem ofDouble_cases (d : Double) :
    d.isNaN = true ∧ Value.ofDouble d = .nan ∨
      (d.isNaN = false ∧ d.isInfinite = true) ∧ Value.ofDouble d = .infinity (Sign.of d) ∨
      (d.isNaN = false ∧ d.isInfinite = false) ∧
        ∃ hd : d.isFinite = true, Value.ofDouble d = .double ⟨d, hd⟩ := by
  unfold Value.ofDouble Double.isNaN Double.isInfinite Double.isFinite
  rcases Nat.lt_trichotomy d.pattern Double.infinityPattern with hlt | heq | hgt
  · refine .inr (.inr ⟨⟨decide_eq_false ?_, decide_eq_false ?_⟩, decide_eq_true hlt, ?_⟩)
    · omega
    · omega
    · exact dif_pos _
  · refine .inr (.inl ⟨⟨decide_eq_false ?_, decide_eq_true heq⟩, ?_⟩)
    · omega
    · simp [heq]
  · refine .inl ⟨decide_eq_true hgt, ?_⟩
    have hnot : ¬ d.pattern < Double.infinityPattern := by omega
    simp [hgt, hnot]

/-- Any double has the word of its value. -/
theorem ofDouble_eq (d : Double) : ofDouble d = ofValue (Value.ofDouble d) := by
  unfold ofDouble
  obtain ⟨hnan, hv⟩ | ⟨⟨hnan, hinf⟩, hv⟩ | ⟨⟨hnan, hinf⟩, hd, hv⟩ := ofDouble_cases d
  · rw [hv, if_pos hnan]
    rfl
  · rw [hv, hnan, hinf, if_neg Bool.false_ne_true, if_pos rfl, Sign.of]
    cases d.isNegative <;> rfl
  · rw [hv, hnan, hinf, if_neg Bool.false_ne_true, if_neg Bool.false_ne_true]
    rfl

/-- Encoding loses nothing: a value is decoded from its word, different values have different words, the
predicates on words describe the values, and the word of a double, whatever its bits, is that of no number, of
an infinity of its sign, or of that very double. -/
theorem encoding_lossless :
    (∀ v, (ofValue v).value = v ∧ Describes (ofValue v) v) ∧ Function.Injective ofValue ∧
    ∀ d : Double, Describes (ofDouble d) (ofDouble d).value ∧
      (d.isNaN = true ∧ (ofDouble d).value = .nan ∨
        d.isInfinite = true ∧ (ofDouble d).value = .infinity (Sign.of d) ∨
        ∃ hd : d.isFinite = true, (ofDouble d).value = .double ⟨d, hd⟩) := by
  refine ⟨fun v => ⟨value_ofValue v, describes_ofValue v⟩, ofValue_injective, fun d => ?_⟩
  rw [ofDouble_eq, value_ofValue]
  refine ⟨describes_ofValue _, ?_⟩
  exact (ofDouble_cases d).imp_right (Or.imp (And.imp_left And.right) And.right)

end ScriptCore.Word
