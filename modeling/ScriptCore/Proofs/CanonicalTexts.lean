import ScriptCore.Proofs.Slices

/-! Canonical texts.

The header of a text repeats what can be told without it. Whether the storage is wide follows from the
code units, and a flag says so again. A second flag says that an entry of the table is named and a third that
none is, and the units of a named entry are stored all the same. Operations answer from whichever is at
hand, and nothing in the type makes the answers one. `Canonical` is that they are, and every text that is
made has it (`Made.canonical`), since whatever becomes of the units, they end in `pack`.

No more than that is to be said of a header. A canonical text is packed from its units and the entry that it
names (`Canonical.eq_pack`), so that just the canonical texts can be made (`made_iff`), texts with the same
units are stored alike (`Canonical.storage_eq`), and recognising an entry by its name answers as
comparing the units does (`Genuine.reads_iff`). -/
namespace ScriptCore
namespace Text

/-! ### Packing -/

/-- The header names an entry of the table only if the text is that entry. No text is made otherwise. -/
def Genuine (t : Text) : Prop := ∀ b, t.builtin? = some b → t.units = (ofBuiltin b).units

/-- Header, storage and code units agree. -/
structure Canonical (t : Text) : Prop where
  isNarrow_iff : t.isNarrow = true ↔ ∀ u ∈ t.units, u < 0x80
  wide_eq : t.kind.wide = !t.isNarrow
  interned_eq : t.kind.interned = t.builtin?.isSome
  generated_eq : t.kind.generated = !t.kind.interned
  genuine : t.Genuine

section Pack
variable (generated interned : Bool) (builtin? : Option Builtin) (units : List UInt16)

theorem isNarrow_pack :
    (pack generated interned builtin? units).isNarrow = units.all fun u => u < 0x80 := by
  unfold pack
  split
  · rename_i h
    exact h.symm
  · rename_i h
    exact (Bool.eq_false_iff.mpr h).symm

theorem kind_pack : (pack generated interned builtin? units).kind =
    ⟨!(pack generated interned builtin? units).isNarrow, generated, interned⟩ := by
  unfold pack
  split <;> rfl

theorem builtin?_pack : (pack generated interned builtin? units).builtin? = builtin? := by
  unfold pack
  split <;> rfl

/-- The header has no part in how units are stored. -/
theorem storage_pack : (pack generated interned builtin? units).storage = (ofUnits units).storage := by
  unfold ofUnits pack
  split <;> rfl

end Pack

theorem genuine_ofUnits (units : List UInt16) : (ofUnits units).Genuine := by
  intro b hb
  rw [ofUnits, builtin?_pack] at hb
  cases hb

theorem genuine_ofBuiltin (b : Builtin) : (ofBuiltin b).Genuine := by
  intro b' hb
  rw [ofBuiltin, builtin?_pack] at hb
  rw [Option.some.inj hb]

/-- Packing takes care of the width, so that only the entry is left to get right. -/
theorem canonical_pack (builtin? : Option Builtin) (units : List UInt16)
    (hgenuine : (pack builtin?.isNone builtin?.isSome builtin? units).Genuine) :
    (pack builtin?.isNone builtin?.isSome builtin? units).Canonical where
  isNarrow_iff := by
    rw [isNarrow_pack, units_pack, List.all_eq_true]
    exact forall₂_congr fun u _ => decide_eq_true_iff
  wide_eq := by rw [kind_pack]
  interned_eq := by rw [kind_pack, builtin?_pack]
  generated_eq := by rw [kind_pack, Option.not_isSome]
  genuine := hgenuine

theorem canonical_ofUnits (units : List UInt16) : (ofUnits units).Canonical :=
  canonical_pack none units (genuine_ofUnits units)

theorem canonical_ofBuiltin (b : Builtin) : (ofBuiltin b).Canonical :=
  canonical_pack (some b) _ (genuine_ofBuiltin b)

/-! ### Making texts -/

/-- The texts that can be made. Each may be used any number of times, so that copying is no step. -/
inductive Made : Text → Prop where
  | ofBuiltin (b : Builtin) : Made (.ofBuiltin b)
  | ofBytes (bytes : List UInt8) : Made (.ofBytes bytes)
  | ofString (s : String) : Made (.ofString s)
  | ofUnits (units : List UInt16) : Made (.ofUnits units)
  | push {t : Text} (ht : Made t) (unit : UInt16) : Made (t.push unit)
  | append {a b : Text} (ha : Made a) (hb : Made b) : Made (a.append b)
  | append3 {a b c : Text} (ha : Made a) (hb : Made b) (hc : Made c) : Made (a.append3 b c)
  | extract {t : Text} (ht : Made t) (start count : UInt32) : Made (t.extract start count)

theorem Made.canonical {t : Text} (ht : t.Made) : t.Canonical := by
  -- No induction: what the parts were does not matter, since every result is packed afresh.
  cases ht with
  | ofBuiltin b => exact canonical_ofBuiltin b
  | ofBytes => exact canonical_ofUnits _
  | ofString => exact canonical_ofUnits _
  | ofUnits => exact canonical_ofUnits _
  | push => exact canonical_ofUnits _
  | append => exact canonical_ofUnits _
  | append3 => exact canonical_ofUnits _
  | extract => exact canonical_ofUnits _

/-! ### What the units decide -/

section Canonical
variable {t u : Text} (ht : t.Canonical)
include ht

/-- The bits of the header: two for a text made later and four for an entry, with one more if it is wide. -/
theorem Canonical.bits_kind :
    t.kind.bits = (if t.isNarrow then 0 else 1) + if t.builtin?.isSome then 4 else 2 := by
  rw [TextKind.bits, ht.wide_eq, ht.generated_eq, ht.interned_eq]
  cases t.isNarrow <;> cases t.builtin?.isSome <;> rfl

theorem Canonical.storage_ofUnits : t.storage = (ofUnits t.units).storage := by
  unfold ofUnits pack
  cases hstorage : t.storage with
  | narrow bytes =>
    have hnarrow : t.isNarrow = true := by rw [isNarrow, hstorage]
    have hsmall : t.units.all (fun u => u < 0x80) = true :=
      List.all_eq_true.mpr fun u hu => decide_eq_true (ht.isNarrow_iff.mp hnarrow u hu)
    have hbytes : t.units.map (fun u => u.toUInt8) = bytes := by
      simp [Text.units, hstorage, Function.comp_def]
    rw [if_pos hsmall, hbytes]
  | wide units =>
    have hwide : ¬ t.isNarrow = true := by simp [isNarrow, hstorage]
    have hlarge : ¬ t.units.all (fun u => u < 0x80) = true := fun hall =>
      hwide (ht.isNarrow_iff.mpr fun u hu => of_decide_eq_true (List.all_eq_true.mp hall u hu))
    rw [if_neg hlarge, Text.units, hstorage]

/-- Texts with the same units are stored alike, wherever they come from. -/
theorem Canonical.storage_eq (hu : u.Canonical) (h : t.units = u.units) : t.storage = u.storage := by
  rw [ht.storage_ofUnits, hu.storage_ofUnits, h]

/-- Nothing of a text is left to choose but its units and, if it is an entry, that it is one. -/
theorem Canonical.eq_pack : t = pack t.builtin?.isNone t.builtin?.isSome t.builtin? t.units := by
  have hstorage : t.storage = (pack t.builtin?.isNone t.builtin?.isSome t.builtin? t.units).storage := by
    rw [storage_pack, ← ht.storage_ofUnits]
  have hnarrow : t.isNarrow = (pack t.builtin?.isNone t.builtin?.isSome t.builtin? t.units).isNarrow := by
    rw [isNarrow, hstorage, isNarrow]
  have hkind : t.kind = (pack t.builtin?.isNone t.builtin?.isSome t.builtin? t.units).kind := by
    rw [kind_pack, ← hnarrow, ← ht.wide_eq, ← Option.not_isSome, ← ht.interned_eq, ← ht.generated_eq]
  exact (mk.injEq ..).mpr ⟨hkind, (builtin?_pack ..).symm, hstorage⟩

end Canonical

theorem made_iff {t : Text} : t.Made ↔ t.Canonical := by
  refine ⟨Made.canonical, fun ht => ?_⟩
  rw [ht.eq_pack]
  cases hb : t.builtin? with
  | none => exact .ofUnits t.units
  | some b =>
    rw [ht.genuine b hb, units_ofBuiltin]
    exact .ofBuiltin b

/-- Recognising an entry by its name is only a shortcut. -/
theorem Genuine.reads_iff {t : Text} (ht : t.Genuine) (b : Builtin) :
    t.reads b = true ↔ t.units = Utf16.ofString b.text := by
  rw [reads, Bool.or_eq_true, beq_iff_eq, sameUnits_iff, units_ofBuiltin]
  refine ⟨fun h => h.elim (fun hb => ?_) id, .inr⟩
  rw [ht b hb, units_ofBuiltin]

/-- Whatever is made agrees with its header, and asking about it answers as the code units do. -/
theorem canonical_texts {t u : Text} (ht : t.Made) (hu : u.Made) (hlength : t.length < 2 ^ 32) :
    t.Canonical ∧
      t.kind.bits = (if t.isNarrow then 0 else 1) + (if t.builtin?.isSome then 4 else 2) ∧
      (UInt32.ofNat t.length).toNat = t.units.length ∧
      (t.units = u.units → t.byteSize = u.byteSize ∧ t.isNarrow = u.isNarrow) ∧
      (t.sameUnits u = true ↔ t.units = u.units) ∧
      (t.compare u = .eq ↔ t.units = u.units) ∧
      ∀ b, t.reads b = true ↔ t.units = Utf16.ofString b.text := by
  have hcanonical := ht.canonical
  refine ⟨hcanonical, hcanonical.bits_kind, ?_, fun h => ?_, sameUnits_iff t u, compare_eq_iff t u,
    hcanonical.genuine.reads_iff⟩
  · rw [toNat_ofNat_length hlength, length_units]
  · have hstorage := hcanonical.storage_eq hu.canonical h
    constructor
    · rw [byteSize, hstorage, byteSize]
    · rw [isNarrow, hstorage, isNarrow]

/-- `NaN`, cut out of a wide text, is narrow again and reads like the entry, though it does not name it. -/
theorem canonical_texts_cut :
    (((ofBuiltin .nan).append (ofUnits [0xE9])).extract 0 3).length < 2 ^ 32 ∧
      ((ofBuiltin .nan).append (ofUnits [0xE9])).kind.bits = 3 ∧
      (((ofBuiltin .nan).append (ofUnits [0xE9])).extract 0 3).kind.bits = 2 ∧
      (((ofBuiltin .nan).append (ofUnits [0xE9])).extract 0 3).builtin? = none ∧
      (((ofBuiltin .nan).append (ofUnits [0xE9])).extract 0 3).byteSize = (ofBuiltin .nan).byteSize ∧
      (((ofBuiltin .nan).append (ofUnits [0xE9])).extract 0 3).reads .nan = true := by
  have hunits : (((ofBuiltin .nan).append (ofUnits [0xE9])).extract 0 3).units = (ofBuiltin .nan).units := by
    decide
  have hwide : ((ofBuiltin .nan).append (ofUnits [0xE9])).Made := .append (.ofBuiltin _) (.ofUnits _)
  obtain ⟨-, -, -, hstored, -, -, hreads⟩ :=
    canonical_texts (.extract hwide 0 3) (.ofBuiltin .nan) (by decide)
  exact ⟨by decide, by decide, by decide, by decide, (hstored hunits).1, (hreads .nan).mpr hunits⟩

end Text
end ScriptCore
