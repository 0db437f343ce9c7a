import ScriptCore.Proofs.Instances

/-! Methods.

The conversion of an object runs its methods in the order of the hint. Each is the one that the nearest object of
the chain of prototypes has, run for the object itself, or the one of the object's class if there is none
(`Heap.Provides`). The first method that fails or answers with a primitive value decides, and the second one is
only run if the first does not (`defaultValue_nearest`). A method that is not found on a chain without an end is an
error. -/
namespace ScriptCore

open Heap HeapM

variable {α : Type}

/-- The method that an object has from its class. -/
def intrinsicMethod (o : ObjectRef) : Method → HeapM Value
  | .valueOf => intrinsicValueOf o
  | .toString => intrinsicToString o

/-- A primitive value or an error: no other method is asked. -/
def Decides (outcome : Except Error Value) : Prop := ∀ v, outcome = .ok v → v.isPrimitive = true

namespace Heap

variable {h g : Heap} {o q : ObjectRef} {m : Method} {method : HeapM Value} {n : Nat}

/-- No object of the chain has the method. -/
def Unhooked (h : Heap) (o : ObjectRef) (m : Method) : Prop :=
  ∀ q object, h.Inherits o q → h.object q = .ok object → object.hook? m = none

/-- What the method of an object does: as the first object on the chain of prototypes says that has the method, or
as the class says if the chain ends without one. -/
inductive Provides (h : Heap) (o : ObjectRef) (m : Method) : HeapM Value → Prop where
  | installed {n : Nat} {hook : Hook} (hfinds : h.Finds (·.hook? m) n o hook) (hn : n ≤ chainLimit) :
      h.Provides o m (runHook o hook)
  | intrinsic (hends : h.EndsWithin (·.prototype?) chainLimit o) (hnone : h.Unhooked o m) :
      h.Provides o m (intrinsicMethod o m)

/-! ### Searches -/

/-- On a chain that ends, some object is the first to answer a question, or none does. -/
theorem finds_or_none (question : Object → Option α) (hends : h.EndsWithin (·.prototype?) n o) :
    (∃ k < n, ∃ answer, h.Finds question k o answer) ∨
      ∀ q object, h.Inherits o q → h.object q = .ok object → question object = none := by
  induction n generalizing o with
  | zero => exact hends.elim
  | succ n ih =>
    obtain ⟨object, hobject, hnext⟩ := hends
    cases hquestion : question object with
    | some answer => exact .inl ⟨0, Nat.succ_pos n, answer, .here hobject hquestion⟩
    | none =>
      have hself : ∀ found, h.object o = .ok found → question found = none := fun found hfound => by
        rwa [← Except.ok.inj (hobject.symm.trans hfound)]
      cases hp : object.prototype? with
      | none =>
        refine .inr fun q found hq hfound => ?_
        obtain rfl | ⟨p, hp', -⟩ := hq.cases_prototype hobject
        · exact hself found hfound
        · cases hp.symm.trans hp'
      | some p =>
        obtain ⟨k, hk, answer, hfinds⟩ | hnone := ih (hnext p hp)
        · exact .inl ⟨k + 1, Nat.succ_lt_succ hk, answer, .above hobject hquestion hp hfinds⟩
        · refine .inr fun q found hq hfound => ?_
          obtain rfl | ⟨p', hp', hq'⟩ := hq.cases_prototype hobject
          · exact hself found hfound
          · obtain rfl := Option.some.inj (hp.symm.trans hp')
            exact hnone q found hq' hfound

theorem exists_provides (hends : h.EndsWithin (·.prototype?) chainLimit o) (m : Method) :
    ∃ method, h.Provides o m method := by
  obtain ⟨k, hk, hook, hfinds⟩ | hnone := finds_or_none (·.hook? m) hends
  · exact ⟨_, .installed hfinds (Nat.le_of_lt hk)⟩
  · exact ⟨_, .intrinsic hends hnone⟩

/-- A search that no object of a longer chain answers is given up. -/
theorem searchChain_of_long {question : Object → Option α} {links : Nat}
    (hleads : h.Leads (·.prototype?) (links + 1) o q)
    (hnone : ∀ q object, h.Inherits o q → h.object q = .ok object → question object = none) :
    h.searchChain question links o = .error .prototypeChainTooLong := by
  induction links generalizing o with
  | zero =>
    cases hleads with
    | link ho hp _ => rw [searchChain_of_object ho, hnone _ _ (.refl _) ho]
  | succ links ih =>
    cases hleads with
    | link ho hp hrest =>
      rw [searchChain_of_object ho, hnone _ _ (.refl _) ho, hp]
      exact ih hrest fun q object hq hobject => hnone q object (.link ho hp hq) hobject

/-! ### Runs of methods -/

theorem findHook_congr (hobjects : g.objects = h.objects) (o : ObjectRef) (m : Method) :
    g.findHook o m = h.findHook o m := searchChain_congr (object_congr hobjects) _ chainLimit o

theorem runOn_callMethod (o : ObjectRef) (m : Method) (g : Heap) :
    (callMethod o m).runOn g = match g.findHook o m with
      | .ok (some hook) => (runHook o hook).runOn g
      | .ok none => (intrinsicMethod o m).runOn g
      | .error e => (.error e, g) := by
  unfold callMethod
  rw [runOn_bind, runOn_ask]
  cases g.findHook o m with
  | error e => rfl
  | ok hook? =>
    cases hook? with
    | some hook => rfl
    | none => cases m <;> rfl

/-- The method that the chain provides is the one that is run, as long as the objects are the same. -/
theorem Provides.runOn_callMethod (hm : h.Provides o m method) (hobjects : g.objects = h.objects) :
    (callMethod o m).runOn g = method.runOn g := by
  rw [Heap.runOn_callMethod, findHook_congr hobjects]
  cases hm with
  | installed hfinds hn => rw [findHook, searchChain_of_finds hfinds, if_pos hn]
  | intrinsic hends hnone => rw [findHook, searchChain_of_none (Nat.le_refl chainLimit) hends hnone]

theorem runOn_callMethod_of_isCyclic (hcyclic : h.IsCyclic (·.prototype?) o) (hnone : h.Unhooked o m)
    (hobjects : g.objects = h.objects) : (callMethod o m).runOn g = (.error .prototypeChainTooLong, g) := by
  obtain ⟨q, hq⟩ := hcyclic.exists_leads (chainLimit + 1)
  rw [runOn_callMethod, findHook_congr hobjects, findHook, searchChain_of_long hq hnone]

end Heap

/-! ### The order of the hint -/

section Order
variable {g : Heap} {a b : HeapM Value} {v : Value}

/-- What decides is not followed by anything. -/
theorem runOn_orElse_of_decides (ha : Decides (a.runOn g).1) :
    (a >>= fun v => if v.isPrimitive then pure v else b).runOn g = a.runOn g := by
  rw [runOn_bind]
  cases hrun : a.runOn g with
  | mk outcome g' =>
    rw [hrun] at ha
    cases outcome with
    | error e => rfl
    | ok v => simp only [ha v rfl, if_true, runOn_pure]

theorem runOn_orElse_of_not_primitive (ha : a.runOn g = (.ok v, g)) (hv : v.isPrimitive = false) :
    (a >>= fun v => if v.isPrimitive then pure v else b).runOn g = b.runOn g := by
  simp only [runOn_bind, ha, hv, Bool.false_eq_true, if_false]

/-- A method that does not decide has left the heap alone. -/
theorem exists_of_not_decides {o : ObjectRef} {m : Method} (hm : ¬ Decides ((callMethod o m).runOn g).1) :
    ∃ v, (callMethod o m).runOn g = (.ok v, g) ∧ v.isPrimitive = false := by
  have hanswers := callMethod_answers g o m
  cases hrun : (callMethod o m).runOn g with
  | mk outcome g' =>
    rw [hrun] at hanswers hm
    cases hanswers with
    | fails e => exact absurd (fun v hv => nomatch hv) hm
    | fresh t => exact absurd (fun v hv => Except.ok.inj hv ▸ rfl) hm
    | known v _ =>
      refine ⟨v, rfl, Bool.eq_false_iff.mpr fun hprimitive => hm fun w hw => ?_⟩
      rwa [← Except.ok.inj hw]

variable {o : ObjectRef} {methods : Method × Method}

theorem firstPrimitive_of_first (hfirst : Decides ((callMethod o methods.1).runOn g).1) :
    (firstPrimitive o methods).runOn g = (callMethod o methods.1).runOn g := runOn_orElse_of_decides hfirst

section NotFirst
variable (hfirst : ¬ Decides ((callMethod o methods.1).runOn g).1)
include hfirst

theorem firstPrimitive_of_second (hsecond : Decides ((callMethod o methods.2).runOn g).1) :
    (firstPrimitive o methods).runOn g = (callMethod o methods.2).runOn g := by
  obtain ⟨v, hrun, hv⟩ := exists_of_not_decides hfirst
  exact (runOn_orElse_of_not_primitive hrun hv).trans (runOn_orElse_of_decides hsecond)

theorem firstPrimitive_of_neither (hsecond : ¬ Decides ((callMethod o methods.2).runOn g).1) :
    (firstPrimitive o methods).runOn g = (.error .noPrimitive, g) := by
  obtain ⟨v, hrun, hv⟩ := exists_of_not_decides hfirst
  obtain ⟨w, hrun', hw⟩ := exists_of_not_decides hsecond
  exact (runOn_orElse_of_not_primitive hrun hv).trans (runOn_orElse_of_not_primitive hrun' hw)

end NotFirst
end Order

/-- A conversion comes to what the first method of the hint comes to if that decides, else to what the second one
comes to, else to a type error. The methods are resolved on the chain of prototypes, which they always are on a chain
that ends; the search for one that is not there on a chain without an end is an internal error. In any case
the conversion is noted, at most one string is made, and what is returned is primitive. -/
theorem defaultValue_nearest (h : Heap) (o : ObjectRef) (hint : Hint) :
    (h.EndsWithin (·.prototype?) chainLimit o → ∀ m, ∃ method, h.Provides o m method) ∧
    (∀ first, h.Provides o hint.methods.1 first → Decides (first.runOn (h.logConversion o hint)).1 →
      (defaultValue o hint).runOn h = first.runOn (h.logConversion o hint)) ∧
    (∀ first second, h.Provides o hint.methods.1 first → h.Provides o hint.methods.2 second →
      ¬ Decides (first.runOn (h.logConversion o hint)).1 → Decides (second.runOn (h.logConversion o hint)).1 →
      (defaultValue o hint).runOn h = second.runOn (h.logConversion o hint)) ∧
    (∀ first second, h.Provides o hint.methods.1 first → h.Provides o hint.methods.2 second →
      ¬ Decides (first.runOn (h.logConversion o hint)).1 → ¬ Decides (second.runOn (h.logConversion o hint)).1 →
      ∃ e, e.kind = .typeError ∧ (defaultValue o hint).runOn h = (.error e, h.logConversion o hint)) ∧
    (h.IsCyclic (·.prototype?) o → h.Unhooked o hint.methods.1 →
      ∃ e, e.kind = .internalError ∧ (defaultValue o hint).runOn h = (.error e, h.logConversion o hint)) ∧
    (∀ first, h.IsCyclic (·.prototype?) o → h.Provides o hint.methods.1 first →
      ¬ Decides (first.runOn (h.logConversion o hint)).1 → h.Unhooked o hint.methods.2 →
      ∃ e, e.kind = .internalError ∧ (defaultValue o hint).runOn h = (.error e, h.logConversion o hint)) ∧
    ((defaultValue o hint).runOn h).2.log = h.log.push (o, hint) ∧
    ((defaultValue o hint).runOn h).2.stats.allocated ≤ h.stats.allocated + 1 ∧
    Decides ((defaultValue o hint).runOn h).1 := by
  rw [runOn_defaultValue]
  have hresolved : ∀ {m method}, h.Provides o m method →
      (callMethod o m).runOn (h.logConversion o hint) = method.runOn (h.logConversion o hint) :=
    fun hm => hm.runOn_callMethod rfl
  have hgivenUp : ∀ {m}, h.IsCyclic (·.prototype?) o → h.Unhooked o m →
      (callMethod o m).runOn (h.logConversion o hint) = (.error .prototypeChainTooLong, h.logConversion o hint) :=
    fun hcyclic hnone => runOn_callMethod_of_isCyclic hcyclic hnone rfl
  have hanswers := (firstPrimitive_replies (h.logConversion o hint) o hint.methods).answers
  refine ⟨exists_provides, fun first hfirst hdecides => ?_, fun first second hfirst hsecond hnot hdecides => ?_,
    fun first second hfirst hsecond hnot hneither => ?_, fun hcyclic hnone => ?_,
    fun first hcyclic hfirst hnot hnone => ?_, ?_, ?_, fun v hv => ?_⟩
  · rw [← hresolved hfirst] at hdecides ⊢
    exact firstPrimitive_of_first hdecides
  · rw [← hresolved hfirst] at hnot
    rw [← hresolved hsecond] at hdecides ⊢
    exact firstPrimitive_of_second hnot hdecides
  · rw [← hresolved hfirst] at hnot
    rw [← hresolved hsecond] at hneither
    exact ⟨.noPrimitive, rfl, firstPrimitive_of_neither hnot hneither⟩
  · have hrun := hgivenUp hcyclic hnone
    refine ⟨.prototypeChainTooLong, rfl, ?_⟩
    rw [firstPrimitive_of_first (hrun ▸ fun v hv => nomatch hv), hrun]
  · have hrun := hgivenUp hcyclic hnone
    rw [← hresolved hfirst] at hnot
    refine ⟨.prototypeChainTooLong, rfl, ?_⟩
    rw [firstPrimitive_of_second hnot (hrun ▸ fun v hv => nomatch hv), hrun]
  · exact (congrArg Heap.log hanswers.besideStrings_eq :)
  · generalize (firstPrimitive o hint.methods).runOn (h.logConversion o hint) = r at hanswers
    cases hanswers with
    | fails e => exact Nat.le_succ _
    | known v _ => exact Nat.le_succ _
    | fresh t => rw [stats_allocate]; exact Nat.le_refl _
  · exact isPrimitive_of_firstPrimitive (Prod.ext hv rfl)

/-- An object with both methods, one that inherits from it and has a `toString` of its own, a number wrapper that
inherits from that, and an object that is its own prototype. -/
def hooked : Heap :=
  { objects := #[
      { payload := .object, valueOf? := some .receiver, toString? := some (.freshString "far") },
      { payload := .object, prototype? := some ⟨0⟩, toString? := some (.answer (.int32 1)) },
      { payload := .number (.int32 5), prototype? := some ⟨1⟩ },
      { payload := .object, prototype? := some ⟨3⟩ }] }

/-- Above the object that is its own prototype there is nothing else. -/
theorem eq_of_inherits_hooked {o q : ObjectRef} (hq : hooked.Inherits o q) (ho : o = ⟨3⟩) : q = ⟨3⟩ := by
  induction hq with
  | refl _ => exact ho
  | link hobject hp _ ih =>
    subst ho
    obtain rfl := Except.ok.inj hobject
    exact ih (Option.some.inj hp).symm

/-- The wrapper answers to the inherited `valueOf` with itself, then to the nearer `toString` with a number. -/
theorem defaultValue_nearest_hooked :
    hooked.EndsWithin (·.prototype?) chainLimit ⟨2⟩ ∧
    (defaultValue ⟨2⟩ .number).runOn hooked = (.ok (.int32 1), hooked.logConversion ⟨2⟩ .number) ∧
    hooked.IsCyclic (·.prototype?) ⟨3⟩ ∧
    ∃ e, e.kind = .internalError ∧
      (defaultValue ⟨3⟩ .string).runOn hooked = (.error e, hooked.logConversion ⟨3⟩ .string) := by
  have hends : hooked.EndsWithin (·.prototype?) chainLimit ⟨2⟩ := by
    refine EndsWithin.mono (m := 3) (by decide) ⟨_, rfl, fun p hp => ?_⟩
    obtain rfl := Option.some.inj hp
    refine ⟨_, rfl, fun p hp => ?_⟩
    obtain rfl := Option.some.inj hp
    exact ⟨_, rfl, fun _ hp => nomatch hp⟩
  have hcyclic : hooked.IsCyclic (·.prototype?) ⟨3⟩ := ⟨⟨3⟩, 0, 0, .refl _, .link rfl rfl (.refl _)⟩
  have hnone : hooked.Unhooked ⟨3⟩ .toString := fun q object hq hobject => by
    obtain rfl := eq_of_inherits_hooked hq rfl
    obtain rfl := Except.ok.inj hobject
    rfl
  have hvalueOf : hooked.Provides ⟨2⟩ .valueOf (runHook ⟨2⟩ .receiver) :=
    .installed (.above rfl rfl rfl (.above rfl rfl rfl (.here rfl rfl))) (by decide)
  have htoString : hooked.Provides ⟨2⟩ .toString (runHook ⟨2⟩ (.answer (.int32 1))) :=
    .installed (.above rfl rfl rfl (.here rfl rfl)) (by decide)
  have hnot : ¬ Decides ((runHook ⟨2⟩ .receiver).runOn (hooked.logConversion ⟨2⟩ .number)).1 :=
    fun hprimitive => nomatch hprimitive (.object ⟨2⟩) rfl
  have hdecides : Decides ((runHook ⟨2⟩ (.answer (.int32 1))).runOn (hooked.logConversion ⟨2⟩ .number)).1 :=
    fun v hv => Except.ok.inj hv ▸ rfl
  obtain ⟨-, -, hsecond, -⟩ := defaultValue_nearest hooked ⟨2⟩ .number
  obtain ⟨-, -, -, -, hgivenUp, -⟩ := defaultValue_nearest hooked ⟨3⟩ .string
  exact ⟨hends, hsecond _ _ hvalueOf htoString hnot hdecides, hcyclic, hgivenUp hcyclic hnone⟩

end ScriptCore
