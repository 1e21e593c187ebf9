import Wiring.Proofs.Building
import Wiring.Proofs.Restriction

set_option autoImplicit false

namespace Wiring

variable {c : Catalog} {S : InjectorId → Bool}

namespace Catalog

theorem closureFrom_restrict (steps : Nat) (pending : List SpecificationId)
    (reached : List Specification) :
    (c.restrict S).closureFrom steps pending reached = c.closureFrom steps pending reached := by
  induction steps generalizing pending reached with
  | zero => rfl
  | succ steps ih =>
    cases pending with
    | nil => rfl
    | cons id pending =>
      simp only [closureFrom, ih]
      rfl

theorem reaches_restrict (target : TypeName) (steps : Nat) (pending seen : List TypeName) :
    (c.restrict S).reaches target steps pending seen = c.reaches target steps pending seen := by
  induction steps generalizing pending seen with
  | zero => rfl
  | succ steps ih =>
    cases pending with
    | nil => rfl
    | cons t pending =>
      simp only [reaches, ih]
      rfl

theorem isAssignable_restrict (source target : TypeName) :
    (c.restrict S).isAssignable source target = c.isAssignable source target := by
  unfold isAssignable
  rw [reaches_restrict]
  rfl

end Catalog

namespace Lookup

variable {l : Lookup} {k : Key}

def restrict (l : Lookup) (S : InjectorId → Bool) : Lookup :=
  { l with catalog := l.catalog.restrict S }

theorem resolveFrom_restrict (steps : Nat) (ch : AliasChain) :
    (l.restrict S).resolveFrom steps ch = l.resolveFrom steps ch := by
  induction steps generalizing ch with
  | zero => rfl
  | succ steps ih =>
    have hfind : (l.restrict S).find ch.current = l.find ch.current := rfl
    have hfollow : ∀ d, ch.follow (l.restrict S).catalog d = ch.follow l.catalog d := fun d => by
      unfold AliasChain.follow
      simp only [restrict, Catalog.isAssignable_restrict]
    simp only [resolveFrom, hfind, hfollow, ih]

theorem resolve_restrict : (l.restrict S).resolve k = l.resolve k := resolveFrom_restrict _ _

theorem visit_restrict (depth : Nat) : (l.restrict S).visit depth = l.visit depth := by
  induction depth with
  | zero => rfl
  | succ depth ih =>
    funext trail asker k s
    simp only [visit, resolve_restrict, ih]

theorem walk_restrict {s : Store} : (l.restrict S).walk k s = l.walk k s := by
  unfold walk
  rw [visit_restrict]
  rfl

end Lookup

namespace Site

variable {s : Site}

def restrict (s : Site) (S : InjectorId → Bool) : Site := { s with lookup := s.lookup.restrict S }

theorem walk_restrict (k : Key) :
    (s.restrict S).walk k = ((s.walk k).1, (s.walk k).2.restrict S) := by
  unfold walk restrict
  simp only [Lookup.walk_restrict]

theorem unnoticed_restrict (S : InjectorId → Bool) : Unnoticed (·.restrict S) where
  id _ := rfl
  completion _ _ := rfl
  walk _ := walk_restrict
  report _ _ := rfl
  providers _ _ := rfl
  builders _ _ := rfl

theorem addArgument_restrict (missing : List Key) (location : Option Location) (k : Key) :
    (s.restrict S).addArgument missing location k = ((s.addArgument missing location k).1,
      (s.addArgument missing location k).2.1,
        (s.addArgument missing location k).2.2.restrict S) := by
  unfold addArgument
  rw [walk_restrict]
  dsimp only
  split
  · rfl
  · split <;> rfl

theorem addArguments_restrict (missing : List Key) (location : Option Location) (ks : List Key) :
    (s.restrict S).addArguments missing location ks = ((s.addArguments missing location ks).1,
      (s.addArguments missing location ks).2.1,
        (s.addArguments missing location ks).2.2.restrict S) := by
  induction ks generalizing s missing with
  | nil => rfl
  | cons k ks ih => simp only [addArguments, addArgument_restrict, ih]

theorem requiredBy_restrict {child : InjectorId} (h : S child) :
    requiredBy (c.restrict S) child = requiredBy c child := by
  unfold requiredBy
  rw [Catalog.get?_injectors_restrict, if_pos h]
  rfl

theorem addChildren_restrict (missing : List Key) {as : List ChildAccessor}
    (h : ∀ a ∈ as, S a.injector) :
    (s.restrict S).addChildren missing as = (s.addChildren missing as).restrict S := by
  induction as generalizing s missing with
  | nil => rfl
  | cons a as ih =>
    obtain ⟨ha, has⟩ := List.forall_mem_cons.1 h
    have hkeys : requiredBy (s.restrict S).lookup.catalog a.injector =
        requiredBy s.lookup.catalog a.injector :=
      requiredBy_restrict ha
    simp only [addChildren, hkeys, addArguments_restrict]
    generalize s.addArguments missing a.location (requiredBy s.lookup.catalog a.injector) = r
    exact ih (s := { r.2.2 with children := r.2.2.children ++ [⟨a, r.1⟩] }) r.2.1 has

theorem buildLocal_restrict (h : ∀ a ∈ s.injector.children, S a.injector) :
    (s.restrict S).buildLocal = s.buildLocal.restrict S := by
  rw [buildLocal_eq, buildLocal_eq]
  exact (congrArg (addChildren · [] s.injector.children)
    ((unnoticed_restrict S).addMethods s _ _)).trans
    (addChildren_restrict [] h)

theorem start_restrict (autoBinding : Bool) (i : Injector) :
    start (c.restrict S) autoBinding i = (start c autoBinding i).map (·.restrict S) := by
  have hspecifications : (c.restrict S).specificationClosure i = c.specificationClosure i :=
    Catalog.closureFrom_restrict _ _ _
  have hinterfaces : (c.restrict S).interfacesOf i = c.interfacesOf i := rfl
  unfold start
  rw [hspecifications, hinterfaces]
  cases Registry.register (c.specificationClosure i) (c.interfacesOf i) <;> rfl

theorem exportKey_restrict (k : Key) :
    (s.restrict S).exportKey k = ((s.exportKey k).1, (s.exportKey k).2.restrict S) := by
  unfold exportKey
  rw [walk_restrict]
  dsimp only
  split <;> rfl

theorem refuse_restrict (r : Requirement) : (s.restrict S).refuse r = (s.refuse r).restrict S := by
  have hchildren : (s.restrict S).children = s.children := rfl
  unfold refuse
  rw [hchildren]
  cases s.children[r.child]? <;> rfl

theorem serve_restrict (q : Request) : (s.restrict S).serve q = (s.serve q).restrict S := by
  cases q with
  | offer k => exact congrArg Prod.snd (exportKey_restrict k)
  | pass | satisfy => rfl
  | refuse r => exact refuse_restrict r

theorem serveAll_restrict (qs : List Request) :
    (s.restrict S).serveAll qs = (s.serveAll qs).restrict S := by
  unfold serveAll
  exact List.foldl_hom (fun t : Site => t.restrict S) fun _ => serve_restrict

end Site

namespace SiteState

variable {state : SiteState}

def restrict : SiteState → (InjectorId → Bool) → SiteState
  | .building s, S => .building (s.restrict S)
  | .failed ds, _ => .failed ds

theorem build_restrict (autoBinding : Bool) {i : Injector} (h : ∀ a ∈ i.children, S a.injector) :
    build (c.restrict S) autoBinding i = (build c autoBinding i).restrict S := by
  unfold build
  rw [Site.start_restrict]
  cases hs : Site.start c autoBinding i with
  | error ds => rfl
  | ok s =>
    obtain ⟨registry, rfl⟩ := Site.start_ok hs
    exact congrArg building (Site.buildLocal_restrict h)

theorem serveAll_restrict (qs : List Request) :
    (state.restrict S).serveAll qs = (state.serveAll qs).restrict S := by
  cases state with
  | building s => exact congrArg building (Site.serveAll_restrict qs)
  | failed ds => rfl

/-- What becomes of an injector in the end does not depend on the catalog any more. -/
theorem finish_restrict : (state.restrict S).finish = state.finish := by
  cases state <;> rfl

end SiteState

end Wiring
