import ScriptCore.Build
import ScriptCore.Proofs.Inheritance

/-! Instances.

A value is an instance of a function when the object that the function has as its property `prototype` is further
up on the value's chain of prototypes. Three chains are followed to find that out, each until it is given up: of
bound functions, of what the function inherits, and of what the value inherits. A chain is a number of links from
one object to another (`Heap.Leads`), and a cyclic one goes on for ever (`Heap.IsCyclic.exists_leads`), so that it
is given up unless it meets what is looked for. -/
namespace ScriptCore

open Heap HeapM

namespace Heap

variable {α : Type} {h h' : Heap} {next : Object → Option ObjectRef} {o p q : ObjectRef} {object : Object} {n : Nat}

/-! ### Chains -/

/-- The second object is so many links behind the first one. -/
inductive Leads (h : Heap) (next : Object → Option ObjectRef) : Nat → ObjectRef → ObjectRef → Prop where
  | refl (o : ObjectRef) : h.Leads next 0 o o
  | link {o p q : ObjectRef} {object : Object} {n : Nat} (ho : h.object o = .ok object) (hp : next object = some p)
      (hq : h.Leads next n p q) : h.Leads next (n + 1) o q

/-- The chain comes to an object that it comes back to. -/
def IsCyclic (h : Heap) (next : Object → Option ObjectRef) (o : ObjectRef) : Prop :=
  ∃ q m n, h.Leads next m o q ∧ h.Leads next (n + 1) q q

/-- Prototypes and the targets of bound functions are objects of the heap. -/
structure LinksResolve (h : Heap) : Prop where
  prototypes : ∀ o object, h.object o = .ok object → ∀ p, object.prototype? = some p → h.Usable (.object p)
  targets : ∀ o object, h.object o = .ok object → ∀ p, object.payload.target? = some p → h.Usable (.object p)

/-- The first object of the chain of prototypes that answers the question gives the answer, so many links up. -/
inductive Finds (h : Heap) (question : Object → Option α) : Nat → ObjectRef → α → Prop where
  | here {o : ObjectRef} {object : Object} {answer : α} (ho : h.object o = .ok object)
      (hanswer : question object = some answer) : h.Finds question 0 o answer
  | above {o p : ObjectRef} {object : Object} {answer : α} {n : Nat} (ho : h.object o = .ok object)
      (hnone : question object = none) (hp : object.prototype? = some p) (hrest : h.Finds question n p answer) :
      h.Finds question (n + 1) o answer

namespace Leads

theorem trans {m : Nat} (hop : h.Leads next m o p) (hpq : h.Leads next n p q) : h.Leads next (m + n) o q := by
  induction hop with
  | refl _ => rwa [Nat.zero_add]
  | link ho hp _ ih =>
    rw [Nat.add_right_comm]
    exact .link ho hp (ih hpq)

/-- A longer chain passes an object after any smaller number of links. -/
theorem exists_leads_of_le {m : Nat} (hoq : h.Leads next n o q) (hmn : m ≤ n) : ∃ p, h.Leads next m o p := by
  induction hoq generalizing m with
  | refl o =>
    obtain rfl := Nat.le_zero.mp hmn
    exact ⟨o, .refl o⟩
  | @link o p q object n ho hp _ ih =>
    cases m with
    | zero => exact ⟨o, .refl o⟩
    | succ m =>
      obtain ⟨r, hr⟩ := ih (Nat.le_of_succ_le_succ hmn)
      exact ⟨r, .link ho hp hr⟩

/-- Objects that are kept keep their links. -/
theorem of_objects (hoq : h.Leads next n o q)
    (hkeep : ∀ o object, h.object o = .ok object → h'.object o = .ok object) : h'.Leads next n o q := by
  induction hoq with
  | refl o => exact .refl o
  | link ho hp _ ih => exact .link (hkeep _ _ ho) hp ih

/-- What is behind an object is behind what follows it. -/
theorem cases_next (ho : h.object o = .ok object) (hoq : h.Leads next (n + 1) o q) :
    ∃ p, next object = some p ∧ h.Leads next n p q := by
  cases hoq with
  | link ho' hp hq =>
    obtain rfl := Except.ok.inj (ho.symm.trans ho')
    exact ⟨_, hp, hq⟩

end Leads

/-- Behind an object on a cycle the chain never ends. -/
theorem exists_leads_of_cycle (hcycle : h.Leads next (n + 1) q q) (k : Nat) : ∃ p, h.Leads next k q p := by
  have hround : ∀ rounds, h.Leads next (rounds * (n + 1)) q q := by
    intro rounds
    induction rounds with
    | zero => rw [Nat.zero_mul]; exact .refl q
    | succ rounds ih => rw [Nat.succ_mul]; exact ih.trans hcycle
  exact (hround k).exists_leads_of_le (Nat.le_mul_of_pos_right k (Nat.succ_pos n))

theorem IsCyclic.exists_leads (hcyclic : h.IsCyclic next o) (k : Nat) : ∃ p, h.Leads next k o p := by
  obtain ⟨q, m, n, hoq, hcycle⟩ := hcyclic
  obtain ⟨p, hp⟩ := exists_leads_of_cycle hcycle k
  exact (hoq.trans hp).exists_leads_of_le (Nat.le_add_left k m)

/-! ### Bound functions -/

theorem unbind_of_target (ho : h.object o = .ok object) (hp : object.payload.target? = some p) (links : Nat) :
    h.unbind (links + 1) o = h.unbind links p := by
  have hpayload : object.payload = .function (.bound p) := by
    cases hpayload : object.payload with
    | function f =>
      cases f with
      | bound t =>
        rw [hpayload] at hp
        rw [Option.some.inj hp]
      | ordinary _ => simp [hpayload, ObjectClass.target?] at hp
    | _ => simp [hpayload, ObjectClass.target?] at hp
  rw [unbind, objectClass_of_object ho, hpayload]
  rfl

theorem unbind_of_no_target (ho : h.object o = .ok object) (hnone : object.payload.target? = none) (links : Nat) :
    h.unbind (links + 1) o = .ok o := by
  rw [unbind, objectClass_of_object ho]
  cases hpayload : object.payload with
  | function f =>
    cases f with
    | bound t => simp [hpayload, ObjectClass.target?] at hnone
    | ordinary _ => rfl
  | _ => rfl

/-- The function behind the bound ones is found if there are fewer of them than objects that are looked at. -/
theorem unbind_of_leads {f : ObjectRef} {links : Nat} (hleads : h.Leads (·.payload.target?) n o f)
    (hf : h.object f = .ok object) (hnone : object.payload.target? = none) :
    h.unbind links o = if n < links then .ok f else .error .boundChainTooLong := by
  induction hleads generalizing links with
  | refl f =>
    cases links with
    | zero => rfl
    | succ links => rw [unbind_of_no_target hf hnone, if_pos (Nat.succ_pos links)]
  | link ho hp _ ih =>
    cases links with
    | zero => rfl
    | succ links => simp only [unbind_of_target ho hp, ih hf, Nat.succ_lt_succ_iff]

/-- Bound functions are given up when all objects that are looked at are bound. -/
theorem unbind_of_long {links : Nat} (hleads : h.Leads (·.payload.target?) links o q) :
    h.unbind links o = .error .boundChainTooLong := by
  induction hleads with
  | refl _ => rfl
  | link ho hp _ ih => rw [unbind_of_target ho hp, ih]

/-! ### What a function inherits -/

/-- One step of a search, from an object that is there. -/
theorem searchChain_of_object {question : Object → Option α} (ho : h.object o = .ok object) (links : Nat) :
    h.searchChain question links o = match question object, links, object.prototype? with
      | some answer, _, _ => .ok (some answer)
      | none, 0, _ => .error .prototypeChainTooLong
      | none, links + 1, some p => h.searchChain question links p
      | none, _ + 1, none => .ok none := by
  rw [searchChain.eq_def, ho]
  cases hquestion : question object <;> cases links <;> cases hp : object.prototype? <;>
    simp only [bind, Except.bind, hquestion, hp] <;> rfl

theorem searchChain_of_finds {question : Object → Option α} {answer : α} {links : Nat}
    (hfinds : h.Finds question n o answer) :
    h.searchChain question links o = if n ≤ links then .ok (some answer) else .error .prototypeChainTooLong := by
  induction hfinds generalizing links with
  | here ho hanswer => rw [searchChain_of_object ho, hanswer, if_pos (Nat.zero_le links)]
  | above ho hnone hp _ ih =>
    rw [searchChain_of_object ho, hnone, hp]
    cases links with
    | zero => rfl
    | succ links => simp only [ih, Nat.succ_le_succ_iff]

/-! ### What a value inherits -/

theorem reaches_of_ne {target : ObjectRef} (ho : h.object o = .ok object) (hne : o ≠ target) (links : Nat) :
    h.reaches target (links + 1) (some o) = h.reaches target links object.prototype? := by
  rw [reaches, if_neg hne]
  simp only [ho, bind, Except.bind]

theorem reaches_target (target : ObjectRef) (links : Nat) : h.reaches target links (some target) = .ok true := by
  rw [reaches.eq_def]
  exact if_pos rfl

/-- On a chain that ends before it is given up, an object is met or it is not there. -/
theorem reaches_of_endsWithin (target : ObjectRef) {links : Nat} (hends : h.EndsWithin (·.prototype?) n o)
    (hn : n ≤ links) :
    ∃ b, h.reaches target links (some o) = .ok b ∧ (b = true ↔ ∃ k, h.Leads (·.prototype?) k o target) := by
  induction n generalizing links o with
  | zero => exact hends.elim
  | succ n ih =>
    obtain ⟨object, hobject, hnext⟩ := hends
    obtain ⟨links, rfl⟩ : ∃ rest, links = rest + 1 := ⟨links - 1, by omega⟩
    by_cases heq : o = target
    · subst heq
      exact ⟨true, reaches_target o _, iff_of_true rfl ⟨0, .refl o⟩⟩
    rw [reaches_of_ne hobject heq]
    have hlater : (∃ k, h.Leads (·.prototype?) k o target) ↔
        ∃ p k, object.prototype? = some p ∧ h.Leads (·.prototype?) k p target := by
      constructor
      · rintro ⟨k, hk⟩
        cases k with
        | zero => cases hk; exact absurd rfl heq
        | succ k =>
          obtain ⟨p, hp, hk⟩ := hk.cases_next hobject
          exact ⟨p, k, hp, hk⟩
      · rintro ⟨p, k, hp, hk⟩
        exact ⟨k + 1, .link hobject hp hk⟩
    cases hp : object.prototype? with
    | none =>
      refine ⟨false, by rw [reaches]; rfl, iff_of_false Bool.false_ne_true ?_⟩
      rw [hlater, hp]
      rintro ⟨p, -, hnone, -⟩
      cases hnone
    | some p =>
      obtain ⟨b, hb, hiff⟩ := ih (hnext p hp) (by omega : n ≤ links)
      refine ⟨b, hb, hiff.trans ?_⟩
      rw [hlater, hp]
      constructor
      · rintro ⟨k, hk⟩
        exact ⟨p, k, rfl, hk⟩
      · rintro ⟨p', k, hsome, hk⟩
        obtain rfl := Option.some.inj hsome
        exact ⟨k, hk⟩

/-- A chain that goes on beyond the objects that are looked at is given up unless it meets the object. -/
theorem reaches_of_long {target : ObjectRef} {links : Nat} (hleads : h.Leads (·.prototype?) links o q)
    (hmissing : ∀ k, ¬ h.Leads (·.prototype?) k o target) :
    h.reaches target links (some o) = .error .prototypeChainTooLong := by
  have hne : ∀ {o}, (∀ k, ¬ h.Leads (·.prototype?) k o target) → o ≠ target := by
    rintro o hmissing rfl
    exact hmissing 0 (.refl o)
  induction hleads with
  | refl o =>
    rw [reaches, if_neg (hne hmissing)]
    rfl
  | link ho hp _ ih =>
    rw [reaches_of_ne ho (hne hmissing), hp]
    exact ih fun k hk => hmissing (k + 1) (.link ho hp hk)

/-! ### Instances of a function -/

/-- One object is another one bound so many times, which is not bound itself and has an object as its property
`prototype`, so many links up. -/
structure Constructs (h : Heap) (y : ObjectRef) (bindings : Nat) (f : ObjectRef) (depth : Nat) (p : ObjectRef) :
    Prop where
  bound : h.Leads (·.payload.target?) bindings y f
  unbound : ∃ object, h.object f = .ok object ∧ object.payload.target? = none
  prototype : h.Finds (·.property? (Text.ofBuiltin .prototype).units) depth f (.object p)

variable {y f : ObjectRef} {d : FunctionData} {v : Value}

theorem instanceOf_callable (hy : h.objectClass y = .ok (.function d)) (v : Value) :
    h.instanceOf v (.object y) = h.unbind chainLimit y >>= fun f => h.hasInstance f v := by
  have hcallable : h.isCallable (.object y) = .ok true := by rw [isCallable, hy]; rfl
  rw [instanceOf, hcallable]
  rfl

theorem hasInstance_of_not_object (hv : v.isObject = false) (f : ObjectRef) : h.hasInstance f v = .ok false := by
  cases v with
  | object _ => cases hv
  | _ => rfl

theorem hasInstance_object {x : ObjectRef} (hx : h.object x = .ok object) (f : ObjectRef) :
    h.hasInstance f (.object x) = h.findProperty f (Text.ofBuiltin .prototype).units >>= fun property =>
      match property.bind Value.object? with
      | some target => h.reaches target chainLimit object.prototype?
      | none => .error .prototypeNotObject := by
  simp only [hasInstance, Value.object?, hx]
  refine bind_congr fun property => ?_
  cases property.bind Value.object? <;> rfl

theorem hasInstance_of_finds {x : ObjectRef} {depth : Nat}
    (hfinds : h.Finds (·.property? (Text.ofBuiltin .prototype).units) depth f (.object p))
    (hx : h.object x = .ok object) :
    h.hasInstance f (.object x) = if depth ≤ chainLimit then h.reaches p chainLimit object.prototype?
      else .error .prototypeChainTooLong := by
  rw [hasInstance_object hx, findProperty, searchChain_of_finds hfinds]
  split <;> rfl

/-- Under the limits the answer is what the function behind the bindings answers. -/
theorem instanceOf_of_leads (hy : h.objectClass y = .ok (.function d))
    (hleads : h.Leads (·.payload.target?) n y f) (hf : h.object f = .ok object)
    (hnone : object.payload.target? = none) (v : Value) :
    h.instanceOf v (.object y) = if n < chainLimit then h.hasInstance f v else .error .boundChainTooLong := by
  rw [instanceOf_callable hy, unbind_of_leads hleads hf hnone]
  split <;> rfl

theorem instanceOf_of_endsWithin {depth : Nat} (hy : h.objectClass y = .ok (.function d))
    (hc : h.Constructs y n f depth p) (hn : n < chainLimit) (hdepth : depth ≤ chainLimit) {x : ObjectRef}
    (hx : h.EndsWithin (·.prototype?) (chainLimit + 1) x) :
    ∃ b, h.instanceOf (.object x) (.object y) = .ok b ∧ (b = true ↔ ∃ k, h.Leads (·.prototype?) (k + 1) x p) := by
  obtain ⟨object, hobject, hnone⟩ := hc.unbound
  obtain ⟨inheritor, hinheritor, hnext⟩ := hx
  rw [instanceOf_of_leads hy hc.bound hobject hnone, if_pos hn, hasInstance_of_finds hc.prototype hinheritor,
    if_pos hdepth]
  cases hq : inheritor.prototype? with
  | none =>
    refine ⟨false, by rw [reaches]; rfl, iff_of_false Bool.false_ne_true ?_⟩
    rintro ⟨k, hk⟩
    obtain ⟨q, hq', -⟩ := hk.cases_next hinheritor
    cases hq.symm.trans hq'
  | some q =>
    obtain ⟨b, hb, hiff⟩ := reaches_of_endsWithin p (hnext q hq) (Nat.le_refl chainLimit)
    refine ⟨b, hb, hiff.trans ?_⟩
    constructor
    · rintro ⟨k, hk⟩
      exact ⟨k, .link hinheritor hq hk⟩
    · rintro ⟨k, hk⟩
      obtain ⟨q', hq', hk⟩ := hk.cases_next hinheritor
      obtain rfl := Option.some.inj (hq.symm.trans hq')
      exact ⟨k, hk⟩

/-- A cyclic chain that does not meet the object is given up, unless another chain was given up before. -/
theorem instanceOf_of_isCyclic {depth : Nat} (hy : h.objectClass y = .ok (.function d))
    (hc : h.Constructs y n f depth p) {x : ObjectRef} (hx : h.IsCyclic (·.prototype?) x)
    (hmissing : ∀ k, ¬ h.Leads (·.prototype?) (k + 1) x p) :
    (h.instanceOf (.object x) (.object y)).mapError Error.kind = .error .internalError := by
  obtain ⟨object, hobject, hnone⟩ := hc.unbound
  obtain ⟨r, hr⟩ := hx.exists_leads (chainLimit + 1)
  rw [instanceOf_of_leads hy hc.bound hobject hnone]
  by_cases hn : n < chainLimit
  · cases hr with
    | @link _ q _ inheritor _ hinheritor hq hr =>
      have hreaches := reaches_of_long hr fun k hk => hmissing k (.link hinheritor hq hk)
      rw [if_pos hn, hasInstance_of_finds hc.prototype hinheritor, hq, hreaches, ite_self]
      rfl
  · rw [if_neg hn]
    rfl

/-- Functions that are bound to each other in a circle have no instances, and asking for one is an error. -/
theorem instanceOf_of_bound_cycle (hy : h.objectClass y = .ok (.function d))
    (hcyclic : h.IsCyclic (·.payload.target?) y) (v : Value) :
    (h.instanceOf v (.object y)).mapError Error.kind = .error .internalError := by
  obtain ⟨q, hq⟩ := hcyclic.exists_leads chainLimit
  rw [instanceOf_callable hy, unbind_of_long hq]
  rfl

/-! ### Any other chain -/

/-- An answer, or an error that says which chain was given up or that there is no prototype to look for. -/
def Concludes (outcome : Except Error α) : Prop :=
  ∀ e, outcome = .error e → e ∈ [Error.prototypeNotObject, .boundChainTooLong, .prototypeChainTooLong]

theorem Concludes.ok (x : α) : Concludes (.ok x) := nofun

theorem Concludes.error {e : Error} (he : e ∈ [Error.prototypeNotObject, .boundChainTooLong, .prototypeChainTooLong]) :
    Concludes (.error e : Except Error α) := by
  intro e' heq
  rwa [← Except.error.inj heq]

theorem Concludes.bind {β : Type} {a : Except Error α} {next : α → Except Error β} (ha : Concludes a)
    (hnext : ∀ x, a = .ok x → Concludes (next x)) : Concludes (a >>= next) := by
  cases a with
  | error e => exact .error (ha e rfl)
  | ok x => exact hnext x rfl

section Concludes
variable (hr : h.LinksResolve)
include hr

theorem unbind_concludes (links : Nat) (ho : h.Usable (.object o)) :
    Concludes (h.unbind links o) ∧ ∀ f, h.unbind links o = .ok f → h.Usable (.object f) := by
  induction links generalizing o with
  | zero => exact ⟨.error (by simp), fun f hf => nomatch hf⟩
  | succ links ih =>
    obtain ⟨object, hobject⟩ := ho
    cases htarget : object.payload.target? with
    | none =>
      rw [unbind_of_no_target hobject htarget]
      exact ⟨.ok _, fun f hf => ⟨object, Except.ok.inj hf ▸ hobject⟩⟩
    | some p =>
      rw [unbind_of_target hobject htarget]
      exact ih (hr.targets o object hobject p htarget)

theorem searchChain_concludes (question : Object → Option α) (links : Nat) (ho : h.Usable (.object o)) :
    Concludes (h.searchChain question links o) := by
  induction links generalizing o with
  | zero =>
    obtain ⟨object, hobject⟩ := ho
    rw [searchChain_of_object hobject]
    cases question object with
    | some answer => exact .ok _
    | none => exact .error (by simp)
  | succ links ih =>
    obtain ⟨object, hobject⟩ := ho
    rw [searchChain_of_object hobject]
    cases question object with
    | some answer => exact .ok _
    | none =>
      cases hp : object.prototype? with
      | none => exact .ok _
      | some p => exact ih (hr.prototypes o object hobject p hp)

theorem reaches_concludes (target : ObjectRef) (links : Nat) {o? : Option ObjectRef}
    (ho : ∀ o, o? = some o → h.Usable (.object o)) : Concludes (h.reaches target links o?) := by
  induction links generalizing o? with
  | zero =>
    unfold reaches
    split
    · exact .ok _
    · split
      · exact .ok _
      · exact .error (by simp)
  | succ links ih =>
    cases o? with
    | none => rw [reaches]; exact .ok _
    | some o =>
      obtain ⟨object, hobject⟩ := ho o rfl
      by_cases heq : o = target
      · rw [heq, reaches_target]
        exact .ok _
      · rw [reaches_of_ne hobject heq]
        exact ih (hr.prototypes o object hobject)

theorem hasInstance_concludes (hf : h.Usable (.object f)) (hv : ∀ x, v = .object x → h.Usable (.object x)) :
    Concludes (h.hasInstance f v) := by
  cases v with
  | object x =>
    obtain ⟨object, hobject⟩ := hv x rfl
    rw [hasInstance_object hobject]
    refine (searchChain_concludes hr _ chainLimit hf).bind fun property _ => ?_
    split
    · exact reaches_concludes hr _ chainLimit (hr.prototypes x object hobject)
    · exact .error (by simp)
  | _ => exact .ok _

theorem instanceOf_concludes (hy : h.objectClass y = .ok (.function d))
    (hv : ∀ x, v = .object x → h.Usable (.object x)) : Concludes (h.instanceOf v (.object y)) := by
  obtain ⟨object, hobject, -⟩ := object_of_objectClass hy
  obtain ⟨hunbind, hfound⟩ := unbind_concludes hr chainLimit ⟨object, hobject⟩
  rw [instanceOf_callable hy]
  exact hunbind.bind fun f hf => hasInstance_concludes hr (hfound f hf) hv

end Concludes

/-! ### Heaps with more objects -/

section More
variable (hr : h.LinksResolve) (hkeep : ∀ o object, h.object o = .ok object → h'.object o = .ok object)
include hr hkeep

theorem searchChain_of_objects (question : Object → Option α) (links : Nat) (ho : h.Usable (.object o)) :
    h'.searchChain question links o = h.searchChain question links o := by
  induction links generalizing o with
  | zero =>
    obtain ⟨object, hobject⟩ := ho
    rw [searchChain_of_object hobject, searchChain_of_object (hkeep o object hobject)]
    cases question object <;> rfl
  | succ links ih =>
    obtain ⟨object, hobject⟩ := ho
    rw [searchChain_of_object hobject, searchChain_of_object (hkeep o object hobject)]
    cases question object with
    | some answer => rfl
    | none =>
      cases hp : object.prototype? with
      | none => rfl
      | some p => exact ih (hr.prototypes o object hobject p hp)

theorem reaches_of_objects (target : ObjectRef) (links : Nat) {o? : Option ObjectRef}
    (ho : ∀ o, o? = some o → h.Usable (.object o)) : h'.reaches target links o? = h.reaches target links o? := by
  induction links generalizing o? with
  | zero => cases o? <;> rfl
  | succ links ih =>
    cases o? with
    | none => rfl
    | some o =>
      obtain ⟨object, hobject⟩ := ho o rfl
      by_cases heq : o = target
      · rw [heq, reaches_target, reaches_target]
      · rw [reaches_of_ne hobject heq, reaches_of_ne (hkeep o object hobject) heq]
        exact ih (hr.prototypes o object hobject)

theorem hasInstance_of_objects (hf : h.Usable (.object f)) (hv : ∀ x, v = .object x → h.Usable (.object x)) :
    h'.hasInstance f v = h.hasInstance f v := by
  cases v with
  | object x =>
    obtain ⟨object, hobject⟩ := hv x rfl
    rw [hasInstance_object hobject, hasInstance_object (hkeep x object hobject), findProperty, findProperty,
      searchChain_of_objects hr hkeep _ chainLimit hf]
    refine bind_congr fun property => ?_
    cases property.bind Value.object? with
    | none => rfl
    | some target => exact reaches_of_objects hr hkeep target chainLimit (hr.prototypes x object hobject)
  | _ => rfl

end More

/-! ### Binding -/

end Heap

/-- A function bound so many times. -/
def bindTimes : Nat → ObjectRef → HeapM ObjectRef
  | 0, f => return f
  | n + 1, f => do newBoundFunction (← bindTimes n f)

namespace Heap

variable {h h' : Heap} {f g : ObjectRef} {n : Nat}

/-- The second heap has a function bound so many times, and all objects of the first one as they were. -/
structure Binds (h : Heap) (f : ObjectRef) (n : Nat) (g : ObjectRef) (h' : Heap) : Prop where
  keeps : ∀ o object, h.object o = .ok object → h'.object o = .ok object
  size : h'.objects.size = h.objects.size + n
  bound : h'.Leads (·.payload.target?) n g f
  callable : ∃ d, h'.objectClass g = .ok (.function d)

/-- One more binding takes one more object. -/
theorem Binds.newBoundFunction (hb : h.Binds f n g h') (hroom : h.objects.size + n < 2 ^ 32) :
    ∃ g' h'', (newBoundFunction g).runOn h' = (.ok g', h'') ∧ h.Binds f (n + 1) g' h'' := by
  have hkeeps : ∀ o object, h'.object o = .ok object →
      (h'.addObject { payload := .function (.bound g) }).2.object o = .ok object :=
    fun o object ho => object_addObject.mpr (.inl ho)
  have hnew : (h'.addObject { payload := .function (.bound g) }).2.object ⟨UInt32.ofNat h'.objects.size⟩ =
      .ok { payload := .function (.bound g) } := by
    refine object_addObject.mpr (.inr ⟨?_, rfl⟩)
    rw [UInt32.toNat_ofNat', hb.size, Nat.mod_eq_of_lt hroom]
  refine ⟨_, _, rfl, fun o object ho => hkeeps o object (hb.keeps o object ho), ?_, ?_, ?_⟩
  · show (h'.objects.push _).size = _
    rw [Array.size_push, hb.size, Nat.add_assoc]
  · exact .link hnew rfl (hb.bound.of_objects hkeeps)
  · exact ⟨_, objectClass_of_object hnew⟩

theorem exists_binds {d : FunctionData} (hf : h.objectClass f = .ok (.function d)) (n : Nat)
    (hroom : h.objects.size + n ≤ 2 ^ 32) : ∃ g h', (bindTimes n f).runOn h = (.ok g, h') ∧ h.Binds f n g h' := by
  induction n with
  | zero => exact ⟨f, h, rfl, fun _ _ ho => ho, rfl, .refl f, d, hf⟩
  | succ n ih =>
    obtain ⟨g, h', hrun, hb⟩ := ih (Nat.le_of_succ_le hroom)
    obtain ⟨g', h'', hrun', hb'⟩ := hb.newBoundFunction hroom
    refine ⟨g', h'', ?_, hb'⟩
    rw [bindTimes, runOn_bind, hrun]
    exact hrun'

/-- A function has the instances that it has when it is bound. -/
theorem instanceOf_bindTimes (hr : h.LinksResolve) {entry : Address}
    (hf : h.objectClass f = .ok (.function (.ordinary entry))) (hn : n < chainLimit)
    (hroom : h.objects.size + n ≤ 2 ^ 32) :
    ∃ g h', (bindTimes n f).runOn h = (.ok g, h') ∧
      ∀ v, (∀ x, v = .object x → h.Usable (.object x)) →
        h'.instanceOf v (.object g) = h.instanceOf v (.object f) := by
  obtain ⟨g, h', hrun, hb⟩ := exists_binds hf n hroom
  refine ⟨g, h', hrun, fun v hv => ?_⟩
  obtain ⟨object, hobject, hpayload⟩ := object_of_objectClass hf
  have hnone : object.payload.target? = none := by rw [hpayload]; rfl
  obtain ⟨d, hd⟩ := hb.callable
  rw [instanceOf_of_leads hd hb.bound (hb.keeps f object hobject) hnone,
    instanceOf_of_leads hf (.refl f) hobject hnone, if_pos hn, if_pos (by decide)]
  exact hasInstance_of_objects hr hb.keeps ⟨object, hobject⟩ hv

end Heap

/-- A function's instances are what its `prototype` is further up from, on a chain that ends; what is no object is
no instance. A circle of bound functions, or of prototypes that the object is not on, ends with an internal error,
and any other chain with an answer or an error. Being bound makes no difference to a function, however often
it is. -/
theorem instanceOf_reachability (h : Heap) (hr : h.LinksResolve) (y : ObjectRef) (d : FunctionData)
    (hy : h.objectClass y = .ok (.function d)) :
    (∀ n f depth p, h.Constructs y n f depth p →
      (n < chainLimit → depth ≤ chainLimit →
        (∀ v, v.isObject = false → h.instanceOf v (.object y) = .ok false) ∧
        ∀ x, h.EndsWithin (·.prototype?) (chainLimit + 1) x →
          ∃ b, h.instanceOf (.object x) (.object y) = .ok b ∧
            (b = true ↔ ∃ k, h.Leads (·.prototype?) (k + 1) x p)) ∧
      ∀ x, h.IsCyclic (·.prototype?) x → (∀ k, ¬ h.Leads (·.prototype?) (k + 1) x p) →
        (h.instanceOf (.object x) (.object y)).mapError Error.kind = .error .internalError) ∧
    (h.IsCyclic (·.payload.target?) y → ∀ v,
      (h.instanceOf v (.object y)).mapError Error.kind = .error .internalError) ∧
    (∀ v, (∀ x, v = .object x → h.Usable (.object x)) → Concludes (h.instanceOf v (.object y))) ∧
    (∀ n f entry, h.Leads (·.payload.target?) n y f → h.objectClass f = .ok (.function (.ordinary entry)) →
      n < chainLimit → ∀ v, h.instanceOf v (.object y) = h.instanceOf v (.object f)) ∧
    ∀ entry n, d = .ordinary entry → n < chainLimit → h.objects.size + n ≤ 2 ^ 32 →
      ∃ g h', (bindTimes n y).runOn h = (.ok g, h') ∧
        ∀ v, (∀ x, v = .object x → h.Usable (.object x)) →
          h'.instanceOf v (.object g) = h.instanceOf v (.object y) := by
  refine ⟨fun n f depth p hc => ⟨fun hn hdepth => ⟨fun v hv => ?_, fun x hx => ?_⟩, fun x hx hmissing => ?_⟩,
    fun hcyclic v => ?_, fun v hv => ?_, fun n f entry hleads hf hn v => ?_, ?_⟩
  · obtain ⟨object, hobject, hnone⟩ := hc.unbound
    rw [instanceOf_of_leads hy hc.bound hobject hnone, if_pos hn, hasInstance_of_not_object hv]
  · exact instanceOf_of_endsWithin hy hc hn hdepth hx
  · exact instanceOf_of_isCyclic hy hc hx hmissing
  · exact instanceOf_of_bound_cycle hy hcyclic v
  · exact instanceOf_concludes hr hy hv
  · obtain ⟨object, hobject, hpayload⟩ := object_of_objectClass hf
    have hnone : object.payload.target? = none := by rw [hpayload]; rfl
    rw [instanceOf_of_leads hy hleads hobject hnone, instanceOf_of_leads hf (.refl f) hobject hnone, if_pos hn,
      if_pos (by decide)]
  · rintro entry n rfl hn hroom
    exact instanceOf_bindTimes hr hy hn hroom

/-- A function bound once, an instance of it, an object that is its own prototype, and a function bound to
itself. -/
def family : Heap :=
  { objects := #[
      { payload := .object },
      { payload := .function (.ordinary 0),
        properties := [((Text.ofBuiltin .prototype).units, .object ⟨0⟩)] },
      { payload := .function (.bound ⟨1⟩) },
      { payload := .object, prototype? := some ⟨0⟩ },
      { payload := .object, prototype? := some ⟨4⟩ },
      { payload := .function (.bound ⟨5⟩) }] }

theorem linksResolve_family : family.LinksResolve := by
  have hall : ∀ object ∈ family.objects, (∀ p, object.prototype? = some p → family.Usable (.object p)) ∧
      ∀ p, object.payload.target? = some p → family.Usable (.object p) := by
    intro object hmem
    simp only [family, List.mem_toArray, List.mem_cons, List.not_mem_nil, or_false] at hmem
    obtain rfl | rfl | rfl | rfl | rfl | rfl := hmem <;> constructor <;> intro p hp <;> cases hp <;> exact ⟨_, rfl⟩
  exact ⟨fun o object ho => (hall object (mem_of_object ho)).1, fun o object ho => (hall object (mem_of_object ho)).2⟩

theorem constructs_family : family.Constructs ⟨2⟩ 1 ⟨1⟩ 0 ⟨0⟩ where
  bound := .link rfl rfl (.refl _)
  unbound := ⟨_, rfl, rfl⟩
  prototype := .here rfl (by simp [Object.property?, family])

/-- Above the object that is its own prototype there is nothing else. -/
theorem eq_of_leads_family {n : Nat} {q : ObjectRef} (hq : family.Leads (·.prototype?) n ⟨4⟩ q) : q = ⟨4⟩ := by
  induction n with
  | zero => cases hq; rfl
  | succ n ih =>
    have hobject : family.object ⟨4⟩ = .ok { payload := .object, prototype? := some ⟨4⟩ } := rfl
    obtain ⟨p, hp, hq⟩ := hq.cases_next hobject
    obtain rfl := Option.some.inj hp
    exact ih hq

theorem instanceOf_reachability_family :
    family.LinksResolve ∧ family.objectClass ⟨2⟩ = .ok (.function (.bound ⟨1⟩)) ∧
    family.instanceOf (.object ⟨3⟩) (.object ⟨2⟩) = .ok true ∧
    family.instanceOf (.int32 0) (.object ⟨2⟩) = .ok false ∧
    (family.instanceOf (.object ⟨4⟩) (.object ⟨2⟩)).mapError Error.kind = .error .internalError ∧
    (family.instanceOf (.object ⟨3⟩) (.object ⟨5⟩)).mapError Error.kind = .error .internalError := by
  obtain ⟨hconstructs, -⟩ := instanceOf_reachability family linksResolve_family ⟨2⟩ (.bound ⟨1⟩) rfl
  obtain ⟨-, hcircle, -⟩ := instanceOf_reachability family linksResolve_family ⟨5⟩ (.bound ⟨5⟩) rfl
  obtain ⟨hanswers, hcyclic⟩ := hconstructs 1 ⟨1⟩ 0 ⟨0⟩ constructs_family
  obtain ⟨hother, hobject⟩ := hanswers (by decide) (by decide)
  have hends : family.EndsWithin (·.prototype?) (chainLimit + 1) ⟨3⟩ := by
    refine EndsWithin.mono (m := 2) (by decide) ⟨_, rfl, fun p hp => ?_⟩
    obtain rfl := Option.some.inj hp
    exact ⟨_, rfl, fun _ hp => nomatch hp⟩
  obtain ⟨b, hb, hiff⟩ := hobject ⟨3⟩ hends
  have htrue : b = true := hiff.mpr ⟨0, .link rfl rfl (.refl _)⟩
  have hown : family.IsCyclic (·.prototype?) ⟨4⟩ := ⟨⟨4⟩, 0, 0, .refl _, .link rfl rfl (.refl _)⟩
  have hmissing : ∀ k, ¬ family.Leads (·.prototype?) (k + 1) ⟨4⟩ ⟨0⟩ :=
    fun k hk => absurd (eq_of_leads_family hk) (by decide)
  have hbound : family.IsCyclic (·.payload.target?) ⟨5⟩ := ⟨⟨5⟩, 0, 0, .refl _, .link rfl rfl (.refl _)⟩
  exact ⟨linksResolve_family, rfl, htrue ▸ hb, hother (.int32 0) rfl, hcyclic ⟨4⟩ hown hmissing, hcircle hbound _⟩

end ScriptCore
