import ScriptCore.Arithmetic

/-! Addition.

The shortcuts of the operator `+` change nothing: it ends with the outcome and the heap of the general way
(`add_eq_addGeneric`). Only values that the engine makes are treated differently. -/
namespace ScriptCore

open Heap HeapM

/-! ### Shortcuts -/

/-- Addresses that only the engine makes. -/
def Value.isEngineMade : Value → Bool
  | environment _ | function _ => true
  | _ => false

theorem addNumbers_infinity_comm (sign : Sign) (n : Value) :
    addNumbers (.infinity sign) n = addNumbers n (.infinity sign) := by
  cases n with
  | infinity other =>
    by_cases hs : sign = other
    · simp [addNumbers, hs]
    · simp [addNumbers, hs, Ne.symm hs]
  | _ => rfl

/-- Both shortcuts for infinities agree with the general way on every primitive value, so they need not
know which one the other operand is converted to. -/
theorem addGeneric_infinity_left (sign : Sign) (other : Value) :
    addGeneric (.infinity sign) other = addInfinity sign other true := by
  show withPrimitive other .default (fun right => addPrimitives (.infinity sign) right) = _
  unfold addInfinity
  congr 1
  funext right
  cases right with
  | string s => cases sign <;> rfl
  | _ => rfl

theorem addGeneric_infinity_right (sign : Sign) (other : Value) :
    addGeneric other (.infinity sign) = addInfinity sign other false := by
  show withPrimitive other .default (fun left => addPrimitives left (.infinity sign)) = _
  unfold addInfinity
  congr 1
  funext left
  cases left with
  | string s => cases sign <;> rfl
  | _ => simp only [addNumbers_infinity_comm sign]; rfl

/-- Addition goes the general way, but for what is no number with a value that the engine makes. -/
theorem add_cases (x y : Value) :
    add x y = addGeneric x y ∨ (x.isEngineMade = true ∨ y.isEngineMade = true) ∧
      (x.isObject = false ∧ y.isObject = false) ∧ add x y = pure .nan := by
  cases x with
  | nan =>
    cases y with
    | environment address => exact .inr ⟨.inr rfl, ⟨rfl, rfl⟩, rfl⟩
    | function entry => exact .inr ⟨.inr rfl, ⟨rfl, rfl⟩, rfl⟩
    | _ => exact .inl rfl
  | infinity sign =>
    cases y with
    | nan => exact .inl rfl
    | infinity other => exact .inl rfl
    | _ =>
      rw [addGeneric_infinity_left]
      exact .inl rfl
  | environment _ | function _ =>
    cases y with
    | nan => exact .inr ⟨.inl rfl, ⟨rfl, rfl⟩, rfl⟩
    | infinity sign =>
      rw [addGeneric_infinity_right]
      exact .inl rfl
    | _ => exact .inl rfl
  | _ =>
    cases y with
    | infinity sign =>
      rw [addGeneric_infinity_right]
      exact .inl rfl
    | _ => exact .inl rfl

/-- Addition ends as the general way does, with the same outcome and the same heap. -/
theorem add_eq_addGeneric (x y : Value) (hx : x.isEngineMade = false) (hy : y.isEngineMade = false)
    (h : Heap) : (add x y).runOn h = (addGeneric x y).runOn h := by
  rcases add_cases x y with hsame | ⟨hengine, _⟩
  · rw [hsame]
  · simp [hx, hy] at hengine

/-- An object with a method that makes a string, and an infinity. -/
theorem add_eq_addGeneric_object :
    (add (.object ⟨0⟩) (.infinity .negative)).runOn
        ((Heap.new {}).addObject { payload := .object, toString? := some (.freshString "a") }).2 =
      (addGeneric (.object ⟨0⟩) (.infinity .negative)).runOn
        ((Heap.new {}).addObject { payload := .object, toString? := some (.freshString "a") }).2 :=
  add_eq_addGeneric _ _ rfl rfl _

/-- An environment fails in the general way and not in the shortcut. -/
example (h : Heap) : ((add .nan (.environment 0)).runOn h).1 ≠ ((addGeneric .nan (.environment 0)).runOn h).1 :=
  nofun

end ScriptCore
