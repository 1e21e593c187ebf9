import Wiring.Construction.Site

/-!
What an injector lacks for its children is drawn from its ancestors: a key is supplied by an
injector that resolves it, or else by one whose parents all supply it. Every answer is kept.
-/

set_option autoImplicit false

namespace Wiring

/-- An injector with conflicting declarations was never built. -/
inductive SiteState where
  | building (site : Site)
  | failed (diagnostics : List Diagnostic)
  deriving DecidableEq

structure Demand where
  injector : InjectorId
  key : Key
  deriving DecidableEq, Repr

namespace Demand

theorem ext_parts {d e : Demand} (hi : d.injector = e.injector) (hk : d.key = e.key) : d = e := by
  cases d; cases e; simp_all

instance : Ord Demand where
  compare := compareLex (compareOn injector) (compareOn key)

instance : Std.TransOrd Demand :=
  inferInstanceAs (Std.TransCmp (compareLex (compareOn injector) (compareOn key)))

instance : Std.LawfulEqOrd Demand where
  toReflCmp := inferInstanceAs (Std.ReflCmp (compare : Demand → Demand → Ordering))
  eq_of_compare {d e} h := by
    change compareLex _ _ _ _ = _ at h
    simp only [compareLex, Ordering.then_eq_eq, compareOn, Std.LawfulEqOrd.compare_eq_iff_eq] at h
    exact ext_parts h.1 h.2

end Demand

structure Hierarchy where
  sites : Table InjectorId SiteState
  answers : Table Demand Bool
  deriving DecidableEq

namespace Hierarchy

def site? (h : Hierarchy) (id : InjectorId) : Option Site :=
  match h.sites.get? id with
  | some (.building s) => some s
  | _ => none

def update (h : Hierarchy) (id : InjectorId) (f : Site → Site) : Hierarchy :=
  match h.site? id with
  | some s => { h with sites := h.sites.insert id (.building (f s)) }
  | none => h

def answer (h : Hierarchy) (d : Demand) (supplied : Bool) : Hierarchy :=
  { h with answers := h.answers.insert d supplied }

def all (supply : InjectorId → Hierarchy → Bool × Hierarchy) :
    List InjectorId → Hierarchy → Bool × Hierarchy
  | [], h => (true, h)
  | id :: ids, h =>
    match supply id h with
    | (true, h) => all supply ids h
    | (false, h) => (false, h)

def fromParents (c : Catalog) (supply : InjectorId → Hierarchy → Bool × Hierarchy) (id : InjectorId)
    (h : Hierarchy) : Bool × Hierarchy :=
  match (c.parents id).map (·.1) with
  | [] => (false, h)
  | ids => all supply ids h

/-- Whether an injector supplies a key, from its own bindings or from all of its parents. Parents
are never among their descendants, so the number of injectors bounds the depth. -/
def supply (c : Catalog) (key : Key) : Nat → InjectorId → Hierarchy → Bool × Hierarchy
  | 0, _, h => (false, h)
  | depth + 1, id, h =>
    match h.answers.get? ⟨id, key⟩ with
    | some known => (known, h)
    | none =>
      match h.site? id with
      | none => (false, h.answer ⟨id, key⟩ false)
      | some s =>
        let (exported, s) := s.exportKey key
        let h := h.update id fun _ => s
        match exported with
        | some _ => (true, h.answer ⟨id, key⟩ true)
        | none =>
          match fromParents c (supply c key depth) id h with
          | (true, h) => (true, (h.update id (·.forward key)).answer ⟨id, key⟩ true)
          | (false, h) => (false, h.answer ⟨id, key⟩ false)

def settle (c : Catalog) (id : InjectorId) (h : Hierarchy) (r : Requirement) : Hierarchy :=
  match fromParents c (supply c r.key c.injectors.entries.length) id h with
  | (true, h) => h.update id (·.satisfy r)
  | (false, h) => h.update id (·.refuse r)

def settleAll (c : Catalog) (h : Hierarchy) (id : InjectorId) : Hierarchy :=
  match h.site? id with
  | some s => s.pending.foldl (settle c id) h
  | none => h

def link (c : Catalog) (sites : Table InjectorId SiteState) : Table InjectorId SiteState :=
  (sites.keys.foldl (settleAll c) ⟨sites, .empty⟩).sites

end Hierarchy

end Wiring
