import Wiring.Course
import Wiring.Proofs.Catalogs
import Wiring.Proofs.Settling
import Wiring.Proofs.Building

set_option autoImplicit false

namespace Wiring

theorem lt_of_compare {a b : String} (h : compare a b = .lt) : a < b := compareOfLessAndEq_eq_lt.1 h

inductive Place where
  | graphs
  | diagnostics
  | cancelled
  deriving DecidableEq, Repr

namespace Resolution

/-- Where a resolution speaks of an injector. -/
def places (r : Resolution) (id : InjectorId) : List Place :=
  (if r.graphs.contains id then [.graphs] else []) ++
    (if r.diagnosticsFor id = [] then [] else [.diagnostics]) ++
    if r.cancelled.contains id then [.cancelled] else []

/-- A resolution speaks of each of some injectors in one place and of no others. The graphs are
filed under the injectors that they are of, and the diagnostics of an injector stand together, in
the order of the ids. -/
structure Accounts (r : Resolution) (ids : List InjectorId) : Prop where
  places : ∀ id, (r.places id).length = if id ∈ ids then 1 else 0
  own : ∀ id g, r.graph? id = some g → g.injector = id
  grouped : r.diagnostics.Pairwise fun d e => d.injector = e.injector ∨ d.injector < e.injector
  increasing : r.cancelled.Pairwise (· < ·)

def Void (r : Resolution) (ids : List InjectorId) : Prop :=
  r.graphs.entries = [] ∧ r.diagnostics = [] ∧ ∀ id, id ∈ r.cancelled ↔ id ∈ ids

end Resolution

namespace Site

variable {s : Site} {i : Injector} {l : Lookup} {qs : List Request} {d : Diagnostic}

theorem id_serveAll : ((buildLocal { injector := i, lookup := l }).serveAll qs).id = i.id := by
  rw [Site.id, keeps_serveAll.injector, (Grows.buildLocal _).injector]

theorem injector_of_mem_diagnostics
    (hd : d ∈ ((buildLocal { injector := i, lookup := l }).serveAll qs).diagnostics) :
    d.injector = i.id := by
  have hgrows := Grows.buildLocal { injector := i, lookup := l }
  have hid : (buildLocal { injector := i, lookup := l }).id = i.id := @id_serveAll i l []
  rw [diagnostics_serveAll] at hd
  rcases List.mem_append.1 hd with hd | hd
  · rcases hgrows.reports d hd with hd | hd
    · cases hd
    · exact hd
  · obtain ⟨⟨r, b⟩, _, hd⟩ := List.mem_flatMap.1 hd
    dsimp only at hd
    split at hd
    · cases hd
    · obtain ⟨a, _, rfl⟩ := List.mem_map.1 hd
      exact hid

theorem start_conflicts {c : Catalog} {autoBinding : Bool} {ds : List Diagnostic}
    (h : start c autoBinding i = .error ds) : ∃ es,
      Registry.register (c.specificationClosure i) (c.interfacesOf i) = .error es ∧
        ds = es.map fun e => .of i.id e [] i.location := by
  unfold start at h
  split at h
  · cases h
  · rename_i es hes
    cases h
    exact ⟨es, hes, rfl⟩

theorem start_error {c : Catalog} {autoBinding : Bool} {ds : List Diagnostic}
    (h : start c autoBinding i = .error ds) : ds ≠ [] ∧ ∀ d ∈ ds, d.injector = i.id := by
  obtain ⟨es, hes, rfl⟩ := start_conflicts h
  refine ⟨fun hnil => ?_, fun d hd => ?_⟩
  · rw [List.map_eq_nil_iff] at hnil
    unfold Registry.register at hes
    dsimp only at hes
    split at hes
    · cases hes
    · rename_i hne
      cases hes
      exact hne hnil
  · obtain ⟨e, _, rfl⟩ := List.mem_map.1 hd
    rfl

end Site

/-- What is said of an injector: a graph of its own, or diagnostics, of which there is one at least.
-/
def Concerns (id : InjectorId) : Except (List Diagnostic) Graph → Prop
  | .ok g => g.injector = id
  | .error ds => ds ≠ [] ∧ ∀ d ∈ ds, d.injector = id

theorem Draft.freeze_injector {d : Draft} {id : InjectorId} {g : Graph} (h : d.freeze id = some g) :
    g.injector = id := by
  simp only [Draft.freeze, Option.bind_eq_bind, Option.bind_eq_some_iff, Option.some.injEq] at h
  obtain ⟨_, _, _, _, _, _, _, _, rfl⟩ := h
  rfl

namespace Catalog

variable {c : Catalog} {autoBinding : Bool} {id : InjectorId} {state : SiteState}

theorem get?_linked (hc : c.Sound) : (c.linked autoBinding).sites.get? id =
    ((c.sites autoBinding).get? id).map (·.serveAll (c.requests autoBinding id)) := by
  obtain ⟨h', hs, hsites⟩ := settles hc autoBinding
  rw [← hsites, hs.follows]
  rfl

theorem concerns_finish (hc : c.Sound) (hs : (c.linked autoBinding).sites.get? id = some state)
    {out : Except (List Diagnostic) Graph} (ho : state.finish = some out) : Concerns id out := by
  rw [get?_linked hc, sites, Table.get?_filterMap] at hs
  obtain ⟨built, hbuilt, rfl⟩ := Option.map_eq_some_iff.1 hs
  obtain ⟨i, hi, hbuilt⟩ := Option.bind_eq_some_iff.1 hbuilt
  obtain rfl := Option.some.inj hbuilt
  have hid := hc.own_id hi
  unfold SiteState.build at ho
  cases hstart : Site.start c autoBinding i with
  | error ds =>
    rw [hstart] at ho
    cases ho
    obtain ⟨hne, hall⟩ := Site.start_error hstart
    exact ⟨hne, fun d hd => (hall d hd).trans hid⟩
  | ok s =>
    rw [hstart] at ho
    obtain ⟨registry, rfl⟩ := Site.start_ok hstart
    simp only [SiteState.serveAll, SiteState.finish, Site.finish] at ho
    split at ho
    · obtain ⟨g, hg, rfl⟩ := Option.map_eq_some_iff.1 ho
      exact (Draft.freeze_injector hg).trans (Site.id_serveAll.trans hid)
    · rename_i hne
      cases ho
      exact ⟨hne, fun d hd => (Site.injector_of_mem_diagnostics hd).trans hid⟩

theorem mem_keys_linked (hc : c.Sound) :
    id ∈ (c.linked autoBinding).sites.keys ↔ id ∈ c.injectors.keys := by
  simp only [Table.mem_keys_iff, get?_linked hc, sites, Table.get?_filterMap,
    Option.map_eq_some_iff, Option.bind_eq_some_iff, Option.some.injEq]
  constructor
  · rintro ⟨_, _, ⟨i, hi, _⟩, _⟩
    exact ⟨i, hi⟩
  · rintro ⟨i, hi⟩
    exact ⟨_, _, ⟨i, hi, rfl⟩, rfl⟩

end Catalog

namespace Resolution

variable {sites : Table InjectorId SiteState} {res : Resolution} {id : InjectorId} {d : Diagnostic}

def reports (state : SiteState) : List Diagnostic :=
  match state.finish with
  | some (.error ds) => ds
  | _ => []

theorem ofSites_eq_some (h : ofSites sites = some res) :
    (∀ id state, sites.get? id = some state → ∃ out, state.finish = some out) ∧
      res = ⟨sites.filterMap fun _ s => s.finish.bind Except.toOption,
        sites.values.flatMap reports, []⟩ := by
  unfold ofSites at h
  split at h
  · rename_i hall
    cases h
    refine ⟨fun id state hs => ?_, rfl⟩
    have hm := List.all_eq_true.1 hall state (Table.mem_values_iff.2 ⟨id, hs⟩)
    exact Option.isSome_iff_exists.1 hm
  · cases h

theorem ofSites_of_finish
    (h : ∀ id state, sites.get? id = some state → ∃ out, state.finish = some out) : ofSites sites =
      some ⟨sites.filterMap fun _ s => s.finish.bind Except.toOption,
        sites.values.flatMap reports, []⟩ := by
  refine if_pos (List.all_eq_true.2 fun state hm => ?_)
  obtain ⟨id, hs⟩ := Table.mem_values_iff.1 hm
  exact Option.isSome_iff_exists.2 (h id state hs)

theorem get?_graphs_ofSites (h : ofSites sites = some res) :
    res.graphs.get? id = (sites.get? id).bind fun s => s.finish.bind Except.toOption := by
  rw [(ofSites_eq_some h).2, Table.get?_filterMap]

theorem mem_diagnostics_ofSites (h : ofSites sites = some res) :
    d ∈ res.diagnostics ↔ ∃ id state, sites.get? id = some state ∧ d ∈ reports state := by
  rw [(ofSites_eq_some h).2]
  simp only [List.mem_flatMap, Table.mem_values_iff]
  constructor
  · rintro ⟨state, ⟨id, hs⟩, hd⟩
    exact ⟨id, state, hs, hd⟩
  · rintro ⟨id, state, hs, hd⟩
    exact ⟨state, ⟨id, hs⟩, hd⟩

theorem injector_of_mem_reports {state : SiteState}
    (hall : ∀ out, state.finish = some out → Concerns id out) (hd : d ∈ reports state) :
    d.injector = id := by
  unfold reports at hd
  split at hd
  · rename_i ds hds
    exact (hall _ hds).2 d hd
  · cases hd

section Concerned

variable (h : ofSites sites = some res)
  (hall : ∀ id state, sites.get? id = some state → ∀ out, state.finish = some out → Concerns id out)

include h hall

theorem mem_diagnosticsFor_ofSites :
    d ∈ res.diagnosticsFor id ↔ ∃ state, sites.get? id = some state ∧ d ∈ reports state := by
  simp only [diagnosticsFor, List.mem_filter, mem_diagnostics_ofSites h, decide_eq_true_eq]
  constructor
  · rintro ⟨⟨id', state, hs, hd⟩, rfl⟩
    rw [injector_of_mem_reports (hall id' state hs) hd]
    exact ⟨state, hs, hd⟩
  · rintro ⟨state, hs, hd⟩
    exact ⟨⟨id, state, hs, hd⟩, injector_of_mem_reports (hall id state hs) hd⟩

theorem diagnosticsFor_ofSites_eq_nil : res.diagnosticsFor id = [] ↔
    ∀ state, sites.get? id = some state → reports state = [] := by
  simp only [List.eq_nil_iff_forall_not_mem, mem_diagnosticsFor_ofSites h hall, not_exists, not_and]
  exact ⟨fun hd state hs d => hd d state hs, fun hs d state hstate => hs state hstate d⟩

theorem places_ofSites : (res.places id).length = if id ∈ sites.keys then 1 else 0 := by
  obtain ⟨hfinish, hres⟩ := ofSites_eq_some h
  have hcancelled : res.cancelled = [] := by rw [hres]
  have hgraph : res.graphs.get? id = _ := get?_graphs_ofSites h
  have hdiagnostics : res.diagnosticsFor id = [] ↔ _ := diagnosticsFor_ofSites_eq_nil h hall
  unfold places Table.contains
  rw [hgraph, hcancelled]
  cases hs : sites.get? id with
  | none =>
    have hnone : res.diagnosticsFor id = [] := hdiagnostics.2 (by simp [hs])
    simp [Table.mem_keys_iff, hs, hnone]
  | some state =>
    obtain ⟨out, hout⟩ := hfinish id state hs
    have hreports : res.diagnosticsFor id = [] ↔ reports state = [] := by
      simpa [hs] using hdiagnostics
    unfold reports at hreports
    rw [hout] at hreports
    cases out with
    | ok g =>
      have hnone : res.diagnosticsFor id = [] := hreports.2 rfl
      simp [Table.mem_keys_iff, hs, hnone, hout, Except.toOption]
    | error ds =>
      have hsome : res.diagnosticsFor id ≠ [] :=
        fun hnil => (hall id state hs _ hout).1 (hreports.1 hnil)
      simp [Table.mem_keys_iff, hs, hsome, hout, Except.toOption]

theorem own_ofSites {g : Graph} (hg : res.graph? id = some g) : g.injector = id := by
  rw [graph?, get?_graphs_ofSites h] at hg
  obtain ⟨state, hs, hg⟩ := Option.bind_eq_some_iff.1 hg
  obtain ⟨out, hout, hg⟩ := Option.bind_eq_some_iff.1 hg
  cases out with
  | error ds => cases hg
  | ok g' =>
    cases hg
    exact hall id state hs _ hout

theorem grouped_ofSites :
    res.diagnostics.Pairwise fun d e => d.injector = e.injector ∨ d.injector < e.injector := by
  have hinjector : ∀ e ∈ sites.entries, ∀ d ∈ reports e.2, d.injector = e.1 := fun e he d hd =>
    injector_of_mem_reports (hall e.1 e.2 (Table.get?_eq_some_iff.2 he)) hd
  rw [(ofSites_eq_some h).2]
  dsimp only
  rw [Table.values, List.flatMap_map, List.pairwise_flatMap]
  refine ⟨fun e he => ?_, sites.sorted.imp_of_mem fun {a b} ha hb hlt d hd d' hd' => .inr ?_⟩
  · refine List.pairwise_of_forall_mem_list fun d hd d' hd' => .inl ?_
    rw [hinjector e he d hd, hinjector e he d' hd']
  · rw [hinjector a ha d hd, hinjector b hb d' hd']
    exact lt_of_compare hlt

/-- If all that is said of each injector concerns it, every injector has its place. -/
theorem accounts_ofSites : res.Accounts sites.keys where
  places _ := places_ofSites h hall
  own _ _ hg := own_ofSites h hall hg
  grouped := grouped_ofSites h hall
  increasing := by
    rw [(ofSites_eq_some h).2]
    exact .nil

end Concerned

theorem accounts_allCancelled (c : Catalog) : (allCancelled c).Accounts c.injectors.keys where
  places id := by
    by_cases hid : id ∈ c.injectors.keys <;>
      simp [places, allCancelled, diagnosticsFor, Table.contains, hid]
  own id g hg := by simp [graph?, allCancelled] at hg
  grouped := .nil
  increasing := by
    have hsorted := c.injectors.sorted
    rw [allCancelled, Table.keys, List.pairwise_map]
    exact hsorted.imp lt_of_compare

end Resolution

theorem Catalog.graph?_of_site {c : Catalog} {autoBinding : Bool} {res : Resolution}
    {id : InjectorId} {s : Site} {g : Graph} (hr : c.resolve autoBinding = some res)
    (hs : (c.linked autoBinding).site? id = some s) (hd : s.diagnostics = [])
    (hg : s.draft.freeze s.id = some g) : res.graph? id = some g := by
  have hstate : (c.linked autoBinding).sites.get? id = some (.building s) :=
    Hierarchy.get?_of_site? hs
  have hfinish : s.finish = some (.ok g) := by simp [Site.finish, hd, hg]
  rw [Resolution.graph?, Resolution.get?_graphs_ofSites hr]
  change ((c.linked autoBinding).sites.get? id).bind _ = _
  rw [hstate, Option.bind_some, SiteState.finish, hfinish]
  rfl

theorem Resolution.Accounts.congr {r : Resolution} {ids ids' : List InjectorId} (h : r.Accounts ids)
    (hids : ∀ id, id ∈ ids ↔ id ∈ ids') : r.Accounts ids' :=
  ⟨fun id => by rw [h.places]; simp only [hids], h.own, h.grouped, h.increasing⟩

theorem Catalog.accounts_resolve {c : Catalog} {autoBinding : Bool} {res : Resolution}
    (hc : c.Sound) (hr : c.resolve autoBinding = some res) : res.Accounts c.injectors.keys :=
  (Resolution.accounts_ofSites hr fun _ _ hs _ ho => concerns_finish hc hs ho).congr fun _ =>
    mem_keys_linked hc

namespace Course

variable {course : Course} {s : Settings} {t : Token}

theorem isCancelled_batchToken {i : Instant} (h : course.isCancelled t i) :
    course.isCancelled (s.batchToken course.start t) i := by
  unfold Settings.batchToken
  split
  · simp only [isCancelled, Tokens.isCancelled, Token.isExpired, Token.within,
      Bool.or_eq_true] at h ⊢
    refine h.imp_right fun h => ?_
    cases hd : t.deadline with
    | none => simp [hd] at h
    | some d =>
      simp only [hd, decide_eq_true_eq] at h
      cases Instant.after? course.start _ with
      | none => simpa [earlier] using h
      | some e => simp [earlier, h]
  · exact h

theorem isCancelled_of_timeout (h : s.timeoutMs = some 0) :
    course.isCancelled (s.batchToken course.start t) course.start := by
  have hnow : Instant.after? course.start 0 = some course.start := by
    simp [Instant.after?, course.possible]
  simp only [Settings.batchToken, h, isCancelled, Tokens.isCancelled, Token.isExpired, Token.within,
    hnow, Bool.or_eq_true]
  right
  cases t.deadline <;> simp [earlier]

end Course

namespace Model

variable {m : Model} {s : Settings} {course : Course} {t : Token} {res : Resolution} {c : Catalog}

theorem resolveDuring_eq_some (h : m.resolveDuring s course t = .ok (some res)) :
    ∃ c, Catalog.ofModel m = .ok c ∧ if course.abandons (s.batchToken course.start t) then
      res = .allCancelled c else c.resolve s.autoBinding = some res := by
  unfold resolveDuring at h
  rw [bind_ok] at h
  obtain ⟨c, hc, h⟩ := h
  refine ⟨c, hc, ?_⟩
  rw [Catalog.resolveDuring_eq, Except.ok.injEq] at h
  by_cases hgiven : course.abandons (s.batchToken course.start t)
  · rw [if_pos hgiven] at h ⊢
    exact (Option.some.inj h).symm
  · rw [if_neg hgiven] at h ⊢
    exact h

/-- Every injector of a model ends in one place, and nothing else does. A batch that begins with a
cancelled token or without time comes to nothing, and one that never finds its token cancelled
cancels nothing. -/
theorem resolveDuring_accounts (h : m.resolveDuring s course t = .ok (some res)) :
    res.Accounts (m.injectors.map (·.id)) ∧
      (course.isCancelled t course.start ∨ s.timeoutMs = some 0 →
        res.Void (m.injectors.map (·.id))) ∧
      ((∀ i ∈ course.settling :: course.meanwhile,
        course.isCancelled (s.batchToken course.start t) i = false) → res.cancelled = []) := by
  obtain ⟨c, hc, hres⟩ := resolveDuring_eq_some h
  have hids : ∀ id, id ∈ c.injectors.keys ↔ id ∈ m.injectors.map (·.id) := fun _ =>
    Catalog.mem_injectors_keys hc
  refine ⟨?_, fun hstart => ?_, fun hnever => ?_⟩
  · split at hres
    · rw [hres]
      exact (Resolution.accounts_allCancelled c).congr hids
    · exact (Catalog.accounts_resolve (Catalog.sound_of_ofModel hc) hres).congr hids
  · have hcancelled : course.isCancelled (s.batchToken course.start t) course.start :=
      hstart.elim Course.isCancelled_batchToken Course.isCancelled_of_timeout
    rw [if_pos (Course.abandons_of_settling course.begun hcancelled)] at hres
    rw [hres]
    exact ⟨rfl, rfl, hids⟩
  · have hgoes : course.abandons (s.batchToken course.start t) = false := by
      rw [Course.abandons, List.any_eq_false]
      exact fun i hi => Bool.eq_false_iff.1 (hnever i hi)
    rw [hgoes] at hres
    exact Resolution.cancelled_ofSites hres

end Model

def mixedModel : Model where
  injectors :=
    [{ id := "Good" }, { id := "Bad", providers := [{ name := "k", key := ⟨"K", none⟩ }] }]

theorem mixed_accounts :
    (∃ res, mixedModel.resolveDuring {} (.still {} 0 (Nat.zero_le _)) ⟨0, none⟩ = .ok (some res) ∧
      res.Accounts ["Good", "Bad"] ∧ res.cancelled = []) ∧
    ∃ res,
      mixedModel.resolveDuring { timeoutMs := some 0 } (.still {} 0 (Nat.zero_le _)) ⟨0, none⟩ =
      .ok (some res) ∧ res.Void ["Good", "Bad"] := by
  have run : ∀ {s : Settings},
    (mixedModel.resolveDuring s (.still {} 0 (Nat.zero_le _)) ⟨0, none⟩).toOption.any
      (·.isSome) → ∃ res, mixedModel.resolveDuring s (.still {} 0 (Nat.zero_le _)) ⟨0, none⟩ =
        .ok (some res) := by
    intro s h
    obtain ⟨out, hout, hsome⟩ := exists_of_any h
    obtain ⟨res, rfl⟩ := Option.isSome_iff_exists.1 hsome
    exact ⟨res, hout⟩
  obtain ⟨res, hres⟩ := run (s := {}) (by decide +kernel)
  obtain ⟨void, hvoid⟩ := run (s := { timeoutMs := some 0 }) (by decide +kernel)
  obtain ⟨haccounts, _, hnever⟩ := Model.resolveDuring_accounts hres
  exact ⟨⟨res, hres, haccounts, hnever (by decide +kernel)⟩, void, hvoid,
    (Model.resolveDuring_accounts hvoid).2.1 (.inr rfl)⟩

end Wiring
