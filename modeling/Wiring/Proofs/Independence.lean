import Wiring.Proofs.Answers
import Wiring.Proofs.Outcomes
import Wiring.Proofs.Rebasing

/-!
Hierarchies that no accessor connects do not notice each other. What the settling of a batch does to
some of them is what it does without the others, although all of them share one record of what has
been answered.
-/

set_option autoImplicit false

namespace Wiring

namespace Move

variable {id : InjectorId} {log : List Move} {S : InjectorId → Bool}

theorem requestsTo_of_other (h : ∀ m ∈ log, m.injector ≠ id) : requestsTo id log = [] :=
  List.filterMap_eq_nil_iff.2 fun m hm => if_neg (h m hm)

theorem requestsTo_filter (hid : S id) :
    requestsTo id (log.filter (S ·.injector)) = requestsTo id log := by
  rw [requestsTo, List.filterMap_filter]
  refine List.filterMap_congr fun m _ => ?_
  by_cases hm : m.injector = id
  · simp [hm, hid]
  · simp [hm]

end Move

namespace SiteState

variable {sites : Table InjectorId SiteState} {S : InjectorId → Bool} {id : InjectorId}

def members (S : InjectorId → Bool)
    (sites : Table InjectorId SiteState) : Table InjectorId SiteState :=
  (sites.restrict S).filterMap fun _ state => some (state.restrict S)

theorem get?_members :
    (members S sites).get? id = if S id then (sites.get? id).map (·.restrict S) else none := by
  rw [members, Table.get?_filterMap, Table.get?_restrict]
  split
  · cases sites.get? id <;> rfl
  · rfl

theorem keys_members : (members S sites).keys = sites.keys.filter S := by
  rw [← Table.keys_restrict]
  simp [members, Table.keys, Table.filterMap, Function.comp_def]

theorem flatMap_members {α : Type} {f : SiteState → List α}
    (hf : ∀ state : SiteState, f (state.restrict S) = f state) :
    (members S sites).values.flatMap f = (sites.entries.filter fun e => S e.1).flatMap
      fun e => f e.2 := by
  simp [members, Table.values, Table.filterMap, Table.restrict, List.flatMap_map, hf]

end SiteState

namespace Catalog

variable {c : Catalog} {S : InjectorId → Bool} {id p : InjectorId} {autoBinding : Bool}

theorem parentIds_restrict (hc : c.Sound) (hS : c.Closed S) (hid : S id) :
    (c.restrict S).parentIds id = c.parentIds id := congrArg _ (parents_restrict hc hS hid)

theorem Closed.parentIds (hS : c.Closed S) (hc : c.Sound) (hp : p ∈ c.parentIds id) : S p = S id :=
  (hS _ _ (hc.mem_parents.1 hp)).symm

theorem sites_restrict (hS : c.Closed S) :
    (c.restrict S).sites autoBinding = SiteState.members S (c.sites autoBinding) := by
  refine Table.ext_get? fun id => ?_
  rw [SiteState.get?_members, sites, sites, Table.get?_filterMap, Table.get?_filterMap,
    get?_injectors_restrict]
  split
  · rename_i hid
    cases hi : c.injectors.get? id with
    | none => rfl
    | some i =>
      have hchildren : ∀ a ∈ i.children, S a.injector := fun a ha => by
        rw [hS id _ (mem_childrenOf.2 ⟨i, hi, a, ha, rfl⟩), hid]
      exact congrArg some (SiteState.build_restrict autoBinding hchildren)
  · rfl

end Catalog

namespace Hierarchy

variable {c : Catalog} {S : InjectorId → Bool} {key : Key} {id : InjectorId} {ids : List InjectorId}
  {h h' h₁ h₂ : Hierarchy} {log log' : List Move} {b b' : Bool} {d : Demand} {m : Move} {s : Site}
  {es : List (InjectorId × Requirement)}

theorem Asks.unique (ha : Asks c key ids h log b h₁) (ha' : Asks c key ids h log' b' h₂) :
    log' = log ∧ b' = b ∧ h₂ = h₁ := by
  induction ha generalizing log' b' h₂ with
  | nil =>
    cases ha'
    exact ⟨rfl, rfl, rfl⟩
  | granted hg _ ih =>
    cases ha' with
    | granted _ hrest => exact ih hrest
    | _ => simp_all
  | denied hd => cases ha' <;> simp_all
  | absent hn hs => cases ha' <;> simp_all
  | exported hn hs hx _ ih =>
    cases ha' with
    | exported _ _ _ hrest =>
      obtain ⟨rfl, rfl, rfl⟩ := ih hrest
      exact ⟨rfl, rfl, rfl⟩
    | _ => simp_all
  | forwarded hn hs hx hne _ _ ih ih' =>
    cases ha' with
    | forwarded _ _ _ _ hup hrest =>
      obtain ⟨rfl, _, rfl⟩ := ih hup
      obtain ⟨rfl, rfl, rfl⟩ := ih' hrest
      exact ⟨rfl, rfl, rfl⟩
    | refused _ _ _ hb hup =>
      obtain ⟨_, rfl, _⟩ := ih hup
      simp [hne] at hb
    | _ => simp_all
  | refused hn hs hx hb _ ih =>
    cases ha' with
    | forwarded _ _ _ hne hup _ =>
      obtain ⟨_, rfl, _⟩ := ih hup
      simp [hne] at hb
    | refused _ _ _ _ hup =>
      obtain ⟨rfl, rfl, rfl⟩ := ih hup
      exact ⟨rfl, rfl, rfl⟩
    | _ => simp_all

theorem Settles.unique (hs : Settles c es h log h₁) (hs' : Settles c es h log' h₂) :
    log' = log ∧ h₂ = h₁ := by
  induction hs generalizing log' h₂ with
  | nil =>
    cases hs'
    exact ⟨rfl, rfl⟩
  | cons ha _ ih =>
    cases hs' with
    | cons ha' hrest =>
      obtain ⟨rfl, rfl, rfl⟩ := ha.unique ha'
      obtain ⟨rfl, rfl⟩ := ih hrest
      exact ⟨rfl, rfl⟩

/-- The members are in the same state in both, and have given the same answers. -/
structure Mirrors (S : InjectorId → Bool) (h h' : Hierarchy) : Prop where
  site? : ∀ {id : InjectorId}, S id → h'.site? id = (h.site? id).map (·.restrict S)
  answers : ∀ {d : Demand}, S d.injector → h'.answers.get? d = h.answers.get? d

theorem Mirrors.building (hm : Mirrors S h h') (hid : S id) (hs : h.site? id = some s) :
    h'.site? id = some (s.restrict S) := by
  rw [hm.site? hid, hs]
  rfl

theorem Mirrors.answer (hm : Mirrors S h h') (d : Demand) (b : Bool) :
    Mirrors S (h.answer d b) (h'.answer d b) where
  site? hid := hm.site? hid
  answers he := by rw [get?_answer, get?_answer, hm.answers he]

theorem Mirrors.perform (hm : Mirrors S h h') (m : Move) :
    Mirrors S (h.perform m) (h'.perform m) where
  site? hid := by
    rw [site?_perform, site?_perform, hm.site? hid, Option.map_map, Option.map_map]
    simp only [Function.comp_def, Site.serveAll_restrict]
  answers he := by rw [answers_perform, answers_perform, hm.answers he]

theorem Mirrors.perform_other (hm : Mirrors S h h') (ho : S m.injector = false) :
    Mirrors S (h.perform m) h' where
  site? {id} hid := by
    have hnone : Move.requestsTo id [m] = [] := Move.requestsTo_of_other fun m' hm' he => by
      rw [List.mem_singleton.1 hm'] at he
      rw [← he, ho] at hid
      cases hid
    rw [site?_perform, hnone, hm.site? hid]
    cases h.site? id <;> rfl
  answers he := by rw [answers_perform, hm.answers he]

section Closed

variable (hc : c.Sound) (hS : c.Closed S)

include hc hS

theorem Asks.mirror (ha : Asks c key ids h log b h₁) (hids : ∀ id ∈ ids, S id)
    (hm : Mirrors S h h') : ∃ h₁', Asks (c.restrict S) key ids h' log b h₁' ∧ Mirrors S h₁ h₁' := by
  induction ha generalizing h' with
  | nil => exact ⟨h', .nil, hm⟩
  | granted hg _ ih =>
    obtain ⟨hid, hids⟩ := List.forall_mem_cons.1 hids
    obtain ⟨h₁', ha', hm'⟩ := ih hids hm
    exact ⟨h₁', .granted ((hm.answers hid).trans hg) ha', hm'⟩
  | denied hd =>
    have hid := hids _ List.mem_cons_self
    exact ⟨h', .denied ((hm.answers hid).trans hd), hm⟩
  | absent hn hs =>
    have hid := hids _ List.mem_cons_self
    exact ⟨_, .absent ((hm.answers hid).trans hn) (by rw [hm.site? hid, hs]; rfl), hm.answer _ _⟩
  | exported hn hs hx _ ih =>
    obtain ⟨hid, hids⟩ := List.forall_mem_cons.1 hids
    obtain ⟨h₁', ha', hm'⟩ := ih hids ((hm.perform _).answer _ _)
    exact ⟨h₁', .exported ((hm.answers hid).trans hn) (hm.building hid hs)
      (by rw [Site.exportKey_restrict]; exact hx) ha', hm'⟩
  | refused hn hs hx hb _ ih =>
    have hid := hids _ List.mem_cons_self
    have hparents := Catalog.parentIds_restrict hc hS hid
    obtain ⟨h₁', ha', hm'⟩ := ih (fun p hp => (hS.parentIds hc hp).trans hid) (hm.perform _)
    exact ⟨_, .refused ((hm.answers hid).trans hn) (hm.building hid hs)
      (by rw [Site.exportKey_restrict]; exact hx) (by rw [hparents]; exact hb)
      (by rw [hparents]; exact ha'), hm'.answer _ _⟩
  | forwarded hn hs hx hne _ _ ih ih' =>
    obtain ⟨hid, hids⟩ := List.forall_mem_cons.1 hids
    have hparents := Catalog.parentIds_restrict hc hS hid
    obtain ⟨h₁', ha', hm'⟩ := ih (fun p hp => (hS.parentIds hc hp).trans hid) (hm.perform _)
    obtain ⟨h₂', ha'', hm''⟩ := ih' hids ((hm'.perform _).answer _ _)
    exact ⟨h₂', .forwarded ((hm.answers hid).trans hn) (hm.building hid hs)
      (by rw [Site.exportKey_restrict]; exact hx) (by rw [hparents]; exact hne)
      (by rw [hparents]; exact ha')
      ha'', hm''⟩

/-- The moves of a search are made by members if it begins with members, and by others if it begins
with others. -/
theorem Asks.side {v : Bool} (ha : Asks c key ids h log b h₁) (hids : ∀ id ∈ ids, S id = v) :
    ∀ m ∈ log, S m.injector = v := fun _ hm =>
  ha.within (P := fun id => S id = v) (fun _ hid _ hp => (hS.parentIds hc hp).trans hid) hids hm

theorem Asks.unseen (ha : Asks c key ids h log b h₁) (hids : ∀ id ∈ ids, S id = false)
    (hm : Mirrors S h h') : Mirrors S h₁ h' where
  site? {id} hid := by
    have hnone : Move.requestsTo id log = [] := Move.requestsTo_of_other fun m hlog he => by
      have ho := ha.side hc hS hids m hlog
      rw [he, hid] at ho
      cases ho
    rw [ha.replays, hnone, hm.site? hid]
    cases h.site? id <;> rfl
  answers {d} hd := by
    have hup : ∀ child, S child = false → ∀ p ∈ c.parentIds child, S p = false := fun _ hid _ hp =>
      (hS.parentIds hc hp).trans hid
    rw [hm.answers hd, ha.untouched hup hids (by simp [hd])]

/-- Settling a part takes the moves that its members make when the whole is settled. -/
theorem Settles.mirror (hs : Settles c es h log h₁) (hm : Mirrors S h h') :
    ∃ h₁', Settles (c.restrict S) (es.filter (S ·.1)) h' (log.filter (S ·.injector)) h₁' ∧
      Mirrors S h₁ h₁' := by
  induction hs generalizing h' with
  | nil => exact ⟨h', .nil, hm⟩
  | @cons id r es h h₁ h₂ log log' b ha _ ih =>
    have hside : ∀ m ∈ log, S m.injector = S id :=
      ha.side hc hS fun p hp => hS.parentIds hc hp
    rw [List.filter_append]
    cases hid : S id with
    | true =>
      have hparents := Catalog.parentIds_restrict hc hS hid
      have hverdict : verdict (c.restrict S) id r b = verdict c id r b := by
        unfold verdict
        rw [hparents]
      obtain ⟨h₁', ha', hm'⟩ := ha.mirror hc hS (fun p hp => (hS.parentIds hc hp).trans hid) hm
      obtain ⟨h₂', hs', hm''⟩ := ih (hm'.perform (verdict c id r b))
      have hes : ((id, r) :: es).filter (S ·.1) = (id, r) :: es.filter (S ·.1) :=
        List.filter_cons_of_pos hid
      have hlog : (verdict c id r b :: log').filter (S ·.injector) =
          verdict c id r b :: log'.filter (S ·.injector) := List.filter_cons_of_pos hid
      refine ⟨h₂', ?_, hm''⟩
      rw [List.filter_eq_self.2 fun m hm => (hside m hm).trans hid, hes, hlog, ← hverdict]
      rw [← hverdict] at hs'
      exact .cons (by rw [hparents]; exact ha') hs'
    | false =>
      have hother : ¬S id := Bool.eq_false_iff.1 hid
      have hm' := ha.unseen hc hS (fun p hp => (hS.parentIds hc hp).trans hid) hm
      have hes : ((id, r) :: es).filter (S ·.1) = es.filter (S ·.1) :=
        List.filter_cons_of_neg hother
      have hlog : (verdict c id r b :: log').filter (S ·.injector) = log'.filter (S ·.injector) :=
        List.filter_cons_of_neg hother
      rw [List.filter_eq_nil_iff.2 fun m hm =>
        Bool.eq_false_iff.1 ((hside m hm).trans hid), hes, hlog]
      exact ih (hm'.perform_other hid)

end Closed

end Hierarchy

namespace Catalog

variable {c : Catalog} {S : InjectorId → Bool} {id : InjectorId} {autoBinding : Bool}

theorem mirrors_built (hS : c.Closed S) (autoBinding : Bool) :
    Hierarchy.Mirrors S (c.built autoBinding) ((c.restrict S).built autoBinding) where
  site? {id} hid := by
    unfold Hierarchy.site? built
    dsimp only
    rw [sites_restrict hS, SiteState.get?_members, if_pos hid]
    cases (c.sites autoBinding).get? id with
    | none => rfl
    | some state => cases state <;> rfl
  answers _ := rfl

theorem requirements_restrict (hS : c.Closed S) : ((c.restrict S).built autoBinding).requirements =
    (c.built autoBinding).requirements.filter (S ·.1) := by
  have hkeys : ((c.restrict S).built autoBinding).sites.keys =
      (c.built autoBinding).sites.keys.filter S := by
    unfold built
    dsimp only
    rw [sites_restrict hS, SiteState.keys_members]
  unfold Hierarchy.requirements
  rw [hkeys, filter_flatMap_eq (p := S)]
  · refine List.flatMap_congr fun id hid => ?_
    unfold Hierarchy.requirementsOf
    rw [(mirrors_built hS autoBinding).site? (List.mem_filter.1 hid).2]
    cases (c.built autoBinding).site? id <;> rfl
  · intro id _ e he
    unfold Hierarchy.requirementsOf at he
    cases hs : (c.built autoBinding).site? id with
    | none => simp [hs] at he
    | some s =>
      rw [hs] at he
      obtain ⟨r, _, rfl⟩ := List.mem_map.1 he
      rfl

theorem moves_restrict (hc : c.Sound) (hS : c.Closed S) :
    (c.restrict S).moves autoBinding = (c.moves autoBinding).filter (S ·.injector) := by
  obtain ⟨h₁, hs, _⟩ := settles hc autoBinding
  obtain ⟨h₂, hs', _⟩ := settles (hc.restrict hS) autoBinding
  obtain ⟨h₃, hpart, _⟩ := hs.mirror hc hS (mirrors_built hS autoBinding)
  rw [← requirements_restrict hS] at hpart
  exact (hpart.unique hs').1

theorem linked_restrict (hc : c.Sound) (hS : c.Closed S) (autoBinding : Bool) :
    ((c.restrict S).linked autoBinding).sites =
      SiteState.members S (c.linked autoBinding).sites := by
  refine Table.ext_get? fun id => ?_
  rw [get?_linked (hc.restrict hS), sites_restrict hS, SiteState.get?_members,
    SiteState.get?_members, get?_linked hc]
  split
  · rename_i hid
    have hrequests : (c.restrict S).requests autoBinding id = c.requests autoBinding id := by
      unfold requests
      rw [moves_restrict hc hS, Move.requestsTo_filter hid]
    rw [hrequests, Option.map_map, Option.map_map]
    simp only [Function.comp_def, SiteState.serveAll_restrict]
  · rfl

end Catalog

namespace Resolution

variable {sites : Table InjectorId SiteState} {res : Resolution} {S : InjectorId → Bool}
  {c : Catalog}

def restrict (r : Resolution) (S : InjectorId → Bool) : Resolution where
  graphs := r.graphs.restrict S
  diagnostics := r.diagnostics.filter (S ·.injector)
  cancelled := r.cancelled.filter S

theorem reports_restrict {state : SiteState} : reports (state.restrict S) = reports state := by
  unfold reports
  rw [SiteState.finish_restrict]

theorem ofSites_members (h : ofSites sites = some res)
    (hall : ∀ id state, sites.get? id = some state →
      ∀ out, state.finish = some out → Concerns id out) :
    ofSites (SiteState.members S sites) = some (res.restrict S) := by
  obtain ⟨hfinish, rfl⟩ := ofSites_eq_some h
  rw [ofSites_of_finish]
  · congr 2
    · refine Table.ext_get? fun id => ?_
      rw [Table.get?_filterMap, SiteState.get?_members, Table.get?_restrict, Table.get?_filterMap]
      split
      · cases sites.get? id with
        | none => rfl
        | some state => simp [SiteState.finish_restrict]
      · rfl
    · rw [SiteState.flatMap_members fun _ => reports_restrict, Table.values, List.flatMap_map]
      refine (filter_flatMap_eq fun e he d hd => ?_).symm
      rw [injector_of_mem_reports (hall e.1 e.2 (Table.get?_eq_some_iff.2 he)) hd]
  · intro id state hs
    rw [SiteState.get?_members] at hs
    split at hs
    · obtain ⟨whole, hwhole, rfl⟩ := Option.map_eq_some_iff.1 hs
      rw [SiteState.finish_restrict]
      exact hfinish id whole hwhole
    · cases hs

theorem allCancelled_restrict : allCancelled (c.restrict S) = (allCancelled c).restrict S := by
  unfold allCancelled restrict
  congr 1
  exact Table.keys_restrict

end Resolution

theorem Catalog.resolve_restrict {c : Catalog} {S : InjectorId → Bool} {autoBinding : Bool}
    {res : Resolution} (hc : c.Sound) (hS : c.Closed S) (hr : c.resolve autoBinding = some res) :
    (c.restrict S).resolve autoBinding = some (res.restrict S) := by
  change Resolution.ofSites ((c.restrict S).linked autoBinding).sites = _
  rw [linked_restrict hc hS]
  exact Resolution.ofSites_members hr fun _ _ hs _ ho => concerns_finish hc hs ho

/-- The graphs, diagnostics and cancelled ids of a part that no accessor leads into or out of are
those that it has when it is resolved by itself. The tokens may differ, as long as both are found
cancelled or neither is. -/
theorem Model.resolveDuring_restrict {m : Model} {S : InjectorId → Bool} {s : Settings}
    {course course' : Course} {t t' : Token} {res : Resolution} (hS : m.Closed S)
    (h : m.resolveDuring s course t = .ok (some res))
    (hsame : course'.abandons (s.batchToken course'.start t') =
      course.abandons (s.batchToken course.start t)) :
    (m.restrict S).resolveDuring s course' t' = .ok (some (res.restrict S)) := by
  obtain ⟨c, hm, hres⟩ := resolveDuring_eq_some h
  unfold resolveDuring
  rw [bind_ok]
  refine ⟨c.restrict S, Catalog.ofModel_restrict hm hS, ?_⟩
  rw [Catalog.resolveDuring_eq, hsame]
  split at hres
  · rename_i hgiven
    rw [if_pos hgiven, hres, Resolution.allCancelled_restrict]
  · rename_i hgiven
    have hpart :=
      Catalog.resolve_restrict (Catalog.sound_of_ofModel hm) (Catalog.closed_of_ofModel hm hS) hres
    rw [if_neg hgiven, hpart]

/-- `Top` passes a value on to `Low`. `Bad` has nothing to do with them and asks for what nobody
provides. -/
def apartModel : Model where
  injectors := [
    { id := "Bad", providers := [{ name := "x", key := ⟨"X", none⟩ }] },
    { id := "Low", dependencies := ["I"] },
    { id := "Top", specifications := ["S"], children := [{ name := "low", injector := "Low" }] }]
  specifications := [{ id := "S", factories := [{ name := "make", provides := ⟨"K", none⟩ }] }]
  interfaces := [{ id := "I", keys := [⟨"K", none⟩] }]

theorem apart_independent : apartModel.Closed (· != "Bad") ∧
    ∃ res, apartModel.resolveDuring {} (.still {} 0 (Nat.zero_le _)) ⟨0, none⟩ = .ok (some res) ∧
      (apartModel.restrict (· != "Bad")).resolveDuring {} (.still {} 1 (by decide)) ⟨0, none⟩ =
        .ok (some (res.restrict (· != "Bad"))) := by
  have hclosed : apartModel.Closed (· != "Bad") := ⟨by decide, by decide⟩
  have hruns : (apartModel.resolveDuring {} (.still {} 0 (Nat.zero_le _)) ⟨0, none⟩).toOption.any
      (·.isSome) := by
    decide +kernel
  obtain ⟨out, hout, hsome⟩ := exists_of_any hruns
  obtain ⟨res, rfl⟩ := Option.isSome_iff_exists.1 hsome
  exact ⟨hclosed, res, hout, Model.resolveDuring_restrict hclosed hout (by decide)⟩

end Wiring
