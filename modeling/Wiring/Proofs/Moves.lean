import Wiring.Batch
import Wiring.Proofs.Ancestry

/-!
The settling of a hierarchy, written down move by move. A move asks one thing of one injector, so
what becomes of an injector depends on the requests made to it and on nothing else.
-/

set_option autoImplicit false

namespace Wiring

/-- What is asked of an injector after it has been built from its own bindings. -/
inductive Request where
  | offer (k : Key)
  | pass (k : Key)
  | satisfy (r : Requirement)
  | refuse (r : Requirement)
  deriving DecidableEq, Repr

/-- The key of a value that is drawn to serve a request: it is passed on, or given to a child. -/
def Request.drawn? : Request → Option Key
  | .pass k => some k
  | .satisfy r => some r.key
  | _ => none

def Site.serve (s : Site) : Request → Site
  | .offer k => (s.exportKey k).2
  | .pass k => s.forward k
  | .satisfy r => s.satisfy r
  | .refuse r => s.refuse r

def Site.serveAll (s : Site) (qs : List Request) : Site := qs.foldl Site.serve s

theorem Site.serveAll_append {s : Site} {qs qs' : List Request} :
    s.serveAll (qs ++ qs') = (s.serveAll qs).serveAll qs' := List.foldl_append

theorem Site.serveAll_take_succ {s : Site} {qs : List Request} {n : Nat} :
    s.serveAll (qs.take (n + 1)) =
    match qs[n]? with
    | some q => (s.serveAll (qs.take n)).serve q
    | none => s.serveAll (qs.take n) := by
  rw [List.take_add_one, serveAll_append]
  cases qs[n]? <;> rfl

def SiteState.serveAll : SiteState → List Request → SiteState
  | .building s, qs => .building (s.serveAll qs)
  | .failed ds, _ => .failed ds

theorem SiteState.serveAll_append {state : SiteState} {qs qs' : List Request} :
    state.serveAll (qs ++ qs') = (state.serveAll qs).serveAll qs' := by
  cases state with
  | building s => exact congrArg _ Site.serveAll_append
  | failed ds => rfl

structure Move where
  injector : InjectorId
  request : Request
  deriving DecidableEq, Repr

def Move.requestsTo (id : InjectorId) (log : List Move) : List Request :=
  log.filterMap fun m => if m.injector = id then some m.request else none

theorem Move.requestsTo_append {id : InjectorId} {log log' : List Move} :
    requestsTo id (log ++ log') = requestsTo id log ++ requestsTo id log' := List.filterMap_append

theorem Move.requestsTo_cons {id : InjectorId} {m : Move} {log : List Move} :
    requestsTo id (m :: log) = requestsTo id [m] ++ requestsTo id log := by
  rw [← requestsTo_append, List.singleton_append]

theorem Move.mem_requestsTo {id : InjectorId} {q : Request} {log : List Move} :
    q ∈ requestsTo id log ↔ ⟨id, q⟩ ∈ log := by
  simp only [requestsTo, List.mem_filterMap]
  constructor
  · rintro ⟨⟨i, q'⟩, hm, h⟩
    split at h
    · rename_i hi
      cases h
      cases hi
      exact hm
    · cases h
  · intro h
    exact ⟨_, h, if_pos rfl⟩

def Catalog.parentIds (c : Catalog) (id : InjectorId) : List InjectorId := (c.parents id).map (·.1)

namespace Hierarchy

def perform (h : Hierarchy) (m : Move) : Hierarchy := h.update m.injector (·.serve m.request)

section Moves

variable (c : Catalog) (key : Key)

/-- The moves of a search along a list of injectors, which ends with the first that does not supply
the key. -/
def movesAlong (supply : InjectorId → Hierarchy → Bool × Hierarchy)
    (moves : InjectorId → Hierarchy → List Move) : List InjectorId → Hierarchy → List Move
  | [], _ => []
  | id :: ids, h =>
    moves id h ++
      match supply id h with
      | (true, h) => movesAlong supply moves ids h
      | (false, _) => []

/-- The moves made to have an injector supply a key: it is asked for an offer, and if it has none
and all of its parents supply the key, it is asked to pass it on. -/
def movesToSupply : Nat → InjectorId → Hierarchy → List Move
  | 0, _, _ => []
  | depth + 1, id, h =>
    match h.answers.get? ⟨id, key⟩, h.site? id with
    | none, some s =>
      ⟨id, .offer key⟩ ::
        match (s.exportKey key).1 with
        | some _ => []
        | none =>
          let h := h.perform ⟨id, .offer key⟩
          movesAlong (supply c key depth) (movesToSupply depth) (c.parentIds id) h ++
            if (fromParents c (supply c key depth) id h).1 then [⟨id, .pass key⟩] else []
    | _, _ => []

def movesToSettle (id : InjectorId) (r : Requirement) (h : Hierarchy) : List Move :=
  let depth := c.injectors.entries.length
  movesAlong (supply c r.key depth) (movesToSupply c r.key depth) (c.parentIds id) h ++
    [⟨id, if (fromParents c (supply c r.key depth) id h).1 then .satisfy r else .refuse r⟩]

def movesToSettleAll : List (InjectorId × Requirement) → Hierarchy → List Move
  | [], _ => []
  | e :: es, h => movesToSettle c e.1 e.2 h ++ movesToSettleAll es (settle c e.1 h e.2)

end Moves

/-- Everything that the injectors of a batch leave to their ancestors, in the order in which it is
settled. -/
def requirementsOf (h : Hierarchy) (id : InjectorId) : List (InjectorId × Requirement) :=
  ((h.site? id).map fun s => s.pending.map (id, ·)).getD []

def requirements (h : Hierarchy) : List (InjectorId × Requirement) :=
  h.sites.keys.flatMap h.requirementsOf

end Hierarchy

namespace Catalog

def built (c : Catalog) (autoBinding : Bool) : Hierarchy := ⟨c.sites autoBinding, .empty⟩

def linked (c : Catalog) (autoBinding : Bool) : Hierarchy :=
  ⟨Hierarchy.link c (c.sites autoBinding), .empty⟩

def moves (c : Catalog) (autoBinding : Bool) : List Move :=
  Hierarchy.movesToSettleAll c (c.built autoBinding).requirements (c.built autoBinding)

def requests (c : Catalog) (autoBinding : Bool) (id : InjectorId) : List Request :=
  Move.requestsTo id (c.moves autoBinding)

end Catalog

namespace Hierarchy

variable {c : Catalog} {key k : Key} {id j : InjectorId} {ids : List InjectorId}
  {h h' h₁ : Hierarchy} {f : Site → Site} {d e : Demand} {b : Bool} {m : Move} {s : Site}
  {log : List Move} {r : Requirement}

theorem get?_of_site? (hs : h.site? id = some s) : h.sites.get? id = some (.building s) := by
  unfold site? at hs
  split at hs
  · rename_i hstate
    rw [hstate, Option.some.inj hs]
  · cases hs

theorem site?_update :
    (h.update id f).site? j = if j = id then (h.site? id).map f else h.site? j := by
  unfold update
  cases hs : h.site? id with
  | none =>
    by_cases hj : j = id
    · subst hj
      simp [hs]
    · simp [hj]
  | some s =>
    simp only [site?, Table.get?_insert]
    by_cases hj : j = id
    · simp [hj]
    · simp [hj]

theorem answers_update : (h.update id f).answers = h.answers := by
  unfold update
  split <;> rfl

@[simp] theorem site?_answer : (h.answer d b).site? j = h.site? j := rfl

theorem get?_answer : (h.answer d b).answers.get? e = if e = d then some b else h.answers.get? e :=
  Table.get?_insert

theorem answers_perform : (h.perform m).answers = h.answers := answers_update

theorem site?_perform :
    (h.perform m).site? j = (h.site? j).map (·.serveAll (Move.requestsTo j [m])) := by
  rw [perform, site?_update]
  by_cases hj : j = m.injector
  · subst hj
    simp [Move.requestsTo, Site.serveAll]
  · simp [Move.requestsTo, Ne.symm hj, hj, Site.serveAll]

/-- A list of injectors is asked for a key: the moves that are made, and whether all of them supply
it. -/
inductive Asks (c : Catalog) (key : Key) :
    List InjectorId → Hierarchy → List Move → Bool → Hierarchy → Prop where
  | nil {h : Hierarchy} : Asks c key [] h [] true h
  | granted {id : InjectorId} {ids : List InjectorId} {h h' : Hierarchy}
      {log : List Move} {b : Bool} :
      h.answers.get? ⟨id, key⟩ = some true → Asks c key ids h log b h' →
      Asks c key (id :: ids) h log b h'
  | denied {id : InjectorId} {ids : List InjectorId} {h : Hierarchy} :
      h.answers.get? ⟨id, key⟩ = some false → Asks c key (id :: ids) h [] false h
  | absent {id : InjectorId} {ids : List InjectorId} {h : Hierarchy} :
      h.answers.get? ⟨id, key⟩ = none → h.site? id = none →
      Asks c key (id :: ids) h [] false (h.answer ⟨id, key⟩ false)
  | exported {id : InjectorId} {ids : List InjectorId} {h h' : Hierarchy} {s : Site} {i : Nat}
      {log : List Move} {b : Bool} :
      h.answers.get? ⟨id, key⟩ = none → h.site? id = some s → (s.exportKey key).1 = some i →
      Asks c key ids ((h.perform ⟨id, .offer key⟩).answer ⟨id, key⟩ true) log b h' →
      Asks c key (id :: ids) h (⟨id, .offer key⟩ :: log) b h'
  | forwarded {id : InjectorId} {ids : List InjectorId} {h h₁ h' : Hierarchy} {s : Site}
      {log log' : List Move} {b : Bool} :
      h.answers.get? ⟨id, key⟩ = none → h.site? id = some s → (s.exportKey key).1 = none →
      c.parentIds id ≠ [] →
      Asks c key (c.parentIds id) (h.perform ⟨id, .offer key⟩) log true h₁ →
      Asks c key ids ((h₁.perform ⟨id, .pass key⟩).answer ⟨id, key⟩ true) log' b h' →
      Asks c key (id :: ids) h (⟨id, .offer key⟩ :: (log ++ ⟨id, .pass key⟩ :: log')) b h'
  | refused {id : InjectorId} {ids : List InjectorId} {h h₁ : Hierarchy} {s : Site}
      {log : List Move} {b : Bool} :
      h.answers.get? ⟨id, key⟩ = none → h.site? id = some s → (s.exportKey key).1 = none →
      (b && !(c.parentIds id).isEmpty) = false →
      Asks c key (c.parentIds id) (h.perform ⟨id, .offer key⟩) log b h₁ →
      Asks c key (id :: ids) h (⟨id, .offer key⟩ :: log) false (h₁.answer ⟨id, key⟩ false)

/-- Every injector has served the requests made to it, and nothing else has happened to it. -/
def Follows (h : Hierarchy) (log : List Move) (h' : Hierarchy) : Prop :=
  ∀ j, h'.sites.get? j = (h.sites.get? j).map (·.serveAll (Move.requestsTo j log))

theorem Follows.refl : Follows h [] h := by
  intro j
  cases hs : h.sites.get? j with
  | none => rfl
  | some state => cases state <;> rfl

theorem Follows.append {log' : List Move} (hf : Follows h log h₁) (hf' : Follows h₁ log' h') :
    Follows h (log ++ log') h' := by
  intro j
  rw [hf', hf, Option.map_map, Move.requestsTo_append]
  simp only [Function.comp_def, SiteState.serveAll_append]

theorem Follows.perform : Follows h [m] (h.perform m) := by
  intro j
  have hother : ∀ {state : SiteState}, j ≠ m.injector ∨ (∀ s, state ≠ .building s) →
      state.serveAll (Move.requestsTo j [m]) = state := by
    intro state hj
    cases state with
    | failed ds => rfl
    | building s =>
      have hne : m.injector ≠ j := Ne.symm (hj.resolve_right fun hb => hb s rfl)
      simp [Move.requestsTo, hne, SiteState.serveAll, Site.serveAll]
  rw [Hierarchy.perform, update]
  unfold site?
  cases hm : h.sites.get? m.injector with
  | none =>
    by_cases hj : j = m.injector
    · simp [hj, hm]
    · simp [hother (.inl hj)]
  | some state =>
    cases state with
    | failed ds =>
      by_cases hj : j = m.injector
      · simp [hj, hm, SiteState.serveAll]
      · simp [hother (.inl hj)]
    | building s =>
      dsimp only
      rw [Table.get?_insert]
      by_cases hj : j = m.injector
      · subst hj
        simp [hm, SiteState.serveAll, Move.requestsTo, Site.serveAll]
      · simp [hj, hother (.inl hj)]

theorem Follows.cons (hf : Follows (h.perform m) log h') : Follows h (m :: log) h' :=
  Follows.perform.append hf

def Replays (h : Hierarchy) (log : List Move) (h' : Hierarchy) : Prop :=
  ∀ j, h'.site? j = (h.site? j).map (·.serveAll (Move.requestsTo j log))

theorem Replays.append {log' : List Move} (hr : Replays h log h₁) (hr' : Replays h₁ log' h') :
    Replays h (log ++ log') h' := by
  intro j
  rw [hr', hr, Option.map_map, Move.requestsTo_append]
  simp only [Function.comp_def, Site.serveAll_append]

theorem Replays.perform : Replays h [m] (h.perform m) := fun _ => site?_perform

theorem Replays.cons (hr : Replays (h.perform m) log h') : Replays h (m :: log) h' :=
  Replays.perform.append hr

theorem Follows.replays (hf : Follows h log h') : Replays h log h' := by
  intro j
  unfold site?
  rw [hf j]
  cases h.sites.get? j with
  | none => rfl
  | some state => cases state <;> rfl

theorem Asks.follows (ha : Asks c key ids h log b h') : Follows h log h' := by
  induction ha with
  | nil | denied | absent => exact .refl
  | granted _ _ ih => exact ih
  | exported _ _ _ _ ih => exact .cons ih
  | refused _ _ _ _ _ ih => exact .cons ih
  | forwarded _ _ _ _ _ _ ih ih' => exact .cons (ih.append (.cons ih'))

theorem Asks.replays (ha : Asks c key ids h log b h') : Replays h log h' := ha.follows.replays

theorem Asks.request (ha : Asks c key ids h log b h') (hm : m ∈ log) :
    m.request = .offer key ∨ m.request = .pass key := by
  induction ha with
  | nil | denied | absent => cases hm
  | granted _ _ ih => exact ih hm
  | exported _ _ _ _ ih =>
    rcases List.mem_cons.1 hm with rfl | hm
    · exact .inl rfl
    · exact ih hm
  | refused _ _ _ _ _ ih =>
    rcases List.mem_cons.1 hm with rfl | hm
    · exact .inl rfl
    · exact ih hm
  | forwarded _ _ _ _ _ _ ih ih' =>
    rcases List.mem_cons.1 hm with rfl | hm
    · exact .inl rfl
    · rcases List.mem_append.1 hm with hm | hm
      · exact ih hm
      · rcases List.mem_cons.1 hm with rfl | hm
        · exact .inr rfl
        · exact ih' hm

theorem Asks.key_eq (ha : Asks c key ids h log b h') (hm : m ∈ log)
    (hk : m.request = .offer k ∨ m.request = .pass k) : k = key := by
  rcases ha.request hm with hr | hr <;> rw [hr] at hk <;> simpa [eq_comm] using hk

theorem Asks.within {P : InjectorId → Prop} (hup : ∀ child, P child → ∀ p ∈ c.parentIds child, P p)
    (ha : Asks c key ids h log b h') (hids : ∀ id ∈ ids, P id) (hm : m ∈ log) : P m.injector := by
  induction ha with
  | nil | denied | absent => cases hm
  | granted _ _ ih => exact ih (fun x hx => hids x (List.mem_cons_of_mem _ hx)) hm
  | exported _ _ _ _ ih =>
    rcases List.mem_cons.1 hm with rfl | hm
    · exact hids _ List.mem_cons_self
    · exact ih (fun x hx => hids x (List.mem_cons_of_mem _ hx)) hm
  | refused _ _ _ _ _ ih =>
    have hid := hids _ List.mem_cons_self
    rcases List.mem_cons.1 hm with rfl | hm
    · exact hid
    · exact ih (hup _ hid) hm
  | forwarded _ _ _ _ _ _ ih ih' =>
    have hid := hids _ List.mem_cons_self
    rcases List.mem_cons.1 hm with rfl | hm
    · exact hid
    rcases List.mem_append.1 hm with hm | hm
    · exact ih (hup _ hid) hm
    rcases List.mem_cons.1 hm with rfl | hm
    · exact hid
    · exact ih' (fun x hx => hids x (List.mem_cons_of_mem _ hx)) hm

theorem fromParents_eq {supply : InjectorId → Hierarchy → Bool × Hierarchy} :
    fromParents c supply id h =
      ((all supply (c.parentIds id) h).1 && !(c.parentIds id).isEmpty,
        (all supply (c.parentIds id) h).2) := by
  unfold fromParents Catalog.parentIds
  cases hp : (c.parents id).map (·.1) with
  | nil => rfl
  | cons p ps => simp

section Depth

variable {depth i : Nat}

theorem supply_known (c : Catalog) (depth : Nat) (ha : h.answers.get? ⟨id, key⟩ = some b) :
    supply c key (depth + 1) id h = (b, h) ∧ movesToSupply c key (depth + 1) id h = [] := by
  simp only [supply, movesToSupply, ha, and_self]

theorem supply_absent (c : Catalog) (depth : Nat) (ha : h.answers.get? ⟨id, key⟩ = none)
    (hs : h.site? id = none) :
    supply c key (depth + 1) id h = (false, h.answer ⟨id, key⟩ false) ∧
      movesToSupply c key (depth + 1) id h = [] := by
  simp only [supply, movesToSupply, ha, hs, and_self]

theorem supply_exported (c : Catalog) (depth : Nat) (ha : h.answers.get? ⟨id, key⟩ = none)
    (hs : h.site? id = some s) (hx : (s.exportKey key).1 = some i) :
    supply c key (depth + 1) id h = (true, (h.perform ⟨id, .offer key⟩).answer ⟨id, key⟩ true) ∧
      movesToSupply c key (depth + 1) id h = [⟨id, .offer key⟩] := by
  simp [supply, movesToSupply, ha, hs, hx, perform, update, Site.serve]

theorem supply_unexported (c : Catalog) (depth : Nat) (ha : h.answers.get? ⟨id, key⟩ = none)
    (hs : h.site? id = some s) (hx : (s.exportKey key).1 = none) {up : Bool × Hierarchy}
    (hup : all (supply c key depth) (c.parentIds id) (h.perform ⟨id, .offer key⟩) = up) :
    let log := movesAlong (supply c key depth) (movesToSupply c key depth) (c.parentIds id)
      (h.perform ⟨id, .offer key⟩)
    if up.1 && !(c.parentIds id).isEmpty then
      supply c key (depth + 1) id h = (true, (up.2.perform ⟨id, .pass key⟩).answer ⟨id, key⟩ true) ∧
        movesToSupply c key (depth + 1) id h = ⟨id, .offer key⟩ :: (log ++ [⟨id, .pass key⟩])
    else
      supply c key (depth + 1) id h = (false, up.2.answer ⟨id, key⟩ false) ∧
        movesToSupply c key (depth + 1) id h = ⟨id, .offer key⟩ :: log := by
  have hoffer : h.update id (fun _ => (s.exportKey key).2) = h.perform ⟨id, .offer key⟩ := by
    simp [perform, update, hs, Site.serve]
  subst hup
  dsimp only
  simp only [supply, movesToSupply, ha, hs, hx, hoffer, fromParents_eq]
  cases hb : (all (supply c key depth) (c.parentIds id) (h.perform ⟨id, .offer key⟩)).1 &&
      !(c.parentIds id).isEmpty with
  | true => exact ⟨rfl, rfl⟩
  | false => exact ⟨rfl, by simp⟩

variable {rank : InjectorId → Nat}

/-- A search with enough levels asks for the key. -/
theorem all_asks (hrank : ∀ child p, p ∈ c.parentIds child → rank p < rank child) (depth : Nat) :
    ∀ (ids : List InjectorId) {h : Hierarchy}, (∀ id ∈ ids, rank id < depth) →
      Asks c key ids h (movesAlong (supply c key depth) (movesToSupply c key depth) ids h)
        (all (supply c key depth) ids h).1 (all (supply c key depth) ids h).2 := by
  induction depth with
  | zero =>
    intro ids h hids
    cases ids with
    | nil => exact .nil
    | cons id ids => exact absurd (hids id List.mem_cons_self) (Nat.not_lt_zero _)
  | succ depth ihd =>
    intro ids
    induction ids with
    | nil => exact fun _ => .nil
    | cons id ids ihids =>
      intro h hids
      have hid : rank id < depth + 1 := hids id List.mem_cons_self
      have hrest : ∀ id ∈ ids, rank id < depth + 1 := fun x hx => hids x (List.mem_cons_of_mem _ hx)
      have hup : ∀ p ∈ c.parentIds id, rank p < depth := fun p hp => by
        have := hrank id p hp
        omega
      unfold all movesAlong
      cases ha : h.answers.get? ⟨id, key⟩ with
      | some known =>
        obtain ⟨hsupply, hmoves⟩ := supply_known c depth ha
        rw [hsupply, hmoves]
        cases known with
        | true => exact .granted ha (ihids hrest)
        | false => exact .denied ha
      | none =>
        cases hs : h.site? id with
        | none =>
          obtain ⟨hsupply, hmoves⟩ := supply_absent c depth ha hs
          rw [hsupply, hmoves]
          exact .absent ha hs
        | some s =>
          cases hx : (s.exportKey key).1 with
          | some i =>
            obtain ⟨hsupply, hmoves⟩ := supply_exported c depth ha hs hx
            rw [hsupply, hmoves]
            exact .exported ha hs hx (ihids hrest)
          | none =>
            have hasks := ihd (c.parentIds id) (h := h.perform ⟨id, .offer key⟩) hup
            have hstep := supply_unexported c depth ha hs hx rfl
            dsimp only at hstep
            split at hstep
            · rename_i hb
              obtain ⟨hsupply, hmoves⟩ := hstep
              obtain ⟨hb, hne⟩ := Bool.and_eq_true_iff.1 hb
              rw [hb] at hasks
              rw [hsupply, hmoves, List.cons_append, List.append_assoc]
              exact .forwarded ha hs hx (by simpa using hne) hasks (ihids hrest)
            · rename_i hb
              obtain ⟨hsupply, hmoves⟩ := hstep
              rw [hsupply, hmoves]
              simpa using Asks.refused ha hs hx (Bool.eq_false_iff.2 hb) hasks

end Depth

def verdict (c : Catalog) (id : InjectorId) (r : Requirement) (b : Bool) : Move :=
  ⟨id, if b && !(c.parentIds id).isEmpty then .satisfy r else .refuse r⟩

theorem verdict_asks_nothing :
    ¬ ((verdict c id r b).request = .offer k ∨ (verdict c id r b).request = .pass k) := by
  unfold verdict
  dsimp only
  split <;> simp

/-- Requirements are settled one after another, each with the moves that it takes. -/
inductive Settles (c : Catalog) :
    List (InjectorId × Requirement) → Hierarchy → List Move → Hierarchy → Prop where
  | nil {h : Hierarchy} : Settles c [] h [] h
  | cons {id : InjectorId} {r : Requirement} {es : List (InjectorId × Requirement)}
      {h h₁ h' : Hierarchy} {log log' : List Move} {b : Bool} :
      Asks c r.key (c.parentIds id) h log b h₁ →
      Settles c es (h₁.perform (verdict c id r b)) log' h' →
      Settles c ((id, r) :: es) h (log ++ verdict c id r b :: log') h'

theorem settle_asks (hc : c.Sound) (h : Hierarchy) (id : InjectorId) (r : Requirement) :
    ∃ log b h₁, Asks c r.key (c.parentIds id) h log b h₁ ∧
      settle c id h r = h₁.perform (verdict c id r b) ∧
      movesToSettle c id r h = log ++ [verdict c id r b] := by
  obtain ⟨rank, hrank, hlt⟩ := hc.exists_rank
  have hup : ∀ p ∈ c.parentIds id, rank p < c.injectors.entries.length := by
    intro p hp
    obtain ⟨i, hi, _⟩ := Catalog.mem_childrenOf.1 (hc.mem_parents.1 hp)
    exact hlt p (Table.mem_keys_iff.2 ⟨i, hi⟩)
  refine ⟨_, _, _, all_asks hrank _ _ hup, ?_, ?_⟩
  · unfold settle verdict
    rw [fromParents_eq]
    cases hb : (all (supply c r.key c.injectors.entries.length) (c.parentIds id) h).1 &&
      !(c.parentIds id).isEmpty <;> rfl
  · unfold movesToSettle verdict
    dsimp only
    rw [fromParents_eq]

theorem settles_foldl (hc : c.Sound) (es : List (InjectorId × Requirement)) {h : Hierarchy} :
    Settles c es h (movesToSettleAll c es h) (es.foldl (fun h e => settle c e.1 h e.2) h) := by
  induction es generalizing h with
  | nil => exact .nil
  | cons e es ih =>
    obtain ⟨log, b, h₁, ha, hsettle, hmoves⟩ := settle_asks hc h e.1 e.2
    rw [movesToSettleAll, hmoves, List.append_assoc, List.foldl_cons]
    refine .cons ha ?_
    rw [← hsettle]
    exact ih

theorem Settles.follows {es : List (InjectorId × Requirement)} (hs : Settles c es h log h') :
    Follows h log h' := by
  induction hs with
  | nil => exact .refl
  | cons ha _ ih => exact ha.follows.append (.cons ih)

theorem Settles.replays {es : List (InjectorId × Requirement)} (hs : Settles c es h log h') :
    Replays h log h' := hs.follows.replays

theorem Settles.within {P : InjectorId → Prop} {es : List (InjectorId × Requirement)}
    (hup : ∀ child, P child → ∀ p ∈ c.parentIds child, P p) (hs : Settles c es h log h')
    (hes : ∀ e ∈ es, ∀ p ∈ c.parentIds e.1, P p) (hm : m ∈ log) :
    P m.injector ∨ ∃ e ∈ es, m.injector = e.1 := by
  induction hs with
  | nil => cases hm
  | @cons id r es _ _ _ _ _ _ ha _ ih =>
    rcases List.mem_append.1 hm with hm | hm
    · exact .inl (ha.within hup (hes _ List.mem_cons_self) hm)
    rcases List.mem_cons.1 hm with rfl | hm
    · exact .inr ⟨(id, r), List.mem_cons_self, rfl⟩
    · refine (ih (fun e he => hes e (List.mem_cons_of_mem _ he)) hm).imp_right ?_
      rintro ⟨e, he, hid⟩
      exact ⟨e, List.mem_cons_of_mem _ he, hid⟩

theorem children_exportKey : (s.exportKey k).2.children = s.children := by
  unfold Site.exportKey
  dsimp only
  split <;> rfl

theorem children_serveAll {qs : List Request} (hq : ∀ q ∈ qs, q = .offer k ∨ q = .pass k) :
    (s.serveAll qs).children = s.children := by
  induction qs generalizing s with
  | nil => rfl
  | cons q qs ih =>
    have hchildren : (s.serve q).children = s.children := by
      rcases hq q List.mem_cons_self with rfl | rfl
      · exact children_exportKey
      · rfl
    exact (ih fun q hm => hq q (List.mem_cons_of_mem _ hm)).trans hchildren

theorem pending_settle (hc : c.Sound) (hj : j ≠ id) :
    ((settle c id h r).site? j).map Site.pending = (h.site? j).map Site.pending := by
  obtain ⟨log, b, h₁, ha, hsettle, _⟩ := settle_asks hc h id r
  have hnone : Move.requestsTo j [verdict c id r b] = [] := by
    simp [Move.requestsTo, verdict, Ne.symm hj]
  have hq : ∀ q ∈ Move.requestsTo j log, q = .offer r.key ∨ q = .pass r.key :=
    fun q hm => ha.request (Move.mem_requestsTo.1 hm)
  rw [hsettle, site?_perform, ha.replays, Option.map_map, Option.map_map, hnone]
  cases h.site? j with
  | none => rfl
  | some s =>
    change some (s.serveAll _).pending = some s.pending
    unfold Site.pending
    rw [children_serveAll hq]

theorem pending_foldl_settle (hc : c.Sound) (hj : j ≠ id) (rs : List Requirement) :
    ((rs.foldl (settle c id) h).site? j).map Site.pending = (h.site? j).map Site.pending := by
  induction rs generalizing h with
  | nil => rfl
  | cons r rs ih => rw [List.foldl_cons, ih, pending_settle hc hj]

theorem pending_settleAll (hc : c.Sound) (hj : j ≠ id) :
    ((settleAll c h id).site? j).map Site.pending = (h.site? j).map Site.pending := by
  unfold settleAll
  split
  · exact pending_foldl_settle hc hj _
  · rfl

theorem settleAll_eq : settleAll c h id =
    (h.requirementsOf id).foldl (fun h e => settle c e.1 h e.2) h := by
  unfold settleAll requirementsOf
  cases h.site? id with
  | none => rfl
  | some s => simp [List.foldl_map]

theorem foldl_settleAll (hc : c.Sound) (h₀ : Hierarchy) (hn : ids.Nodup)
    (hids : ∀ id ∈ ids, (h.site? id).map Site.pending = (h₀.site? id).map Site.pending) :
    ids.foldl (settleAll c) h =
      (ids.flatMap h₀.requirementsOf).foldl (fun h e => settle c e.1 h e.2) h := by
  induction ids generalizing h with
  | nil => rfl
  | cons id ids ih =>
    obtain ⟨hid, hn⟩ := List.nodup_cons.1 hn
    have hsame : h.requirementsOf id = h₀.requirementsOf id := by
      have hp := hids id List.mem_cons_self
      unfold requirementsOf
      cases hs : h.site? id <;> cases hs₀ : h₀.site? id <;> simp_all
    rw [List.foldl_cons, List.flatMap_cons, List.foldl_append, ← hsame, ← settleAll_eq]
    refine ih hn fun x hx => ?_
    have hne : x ≠ id := by
      rintro rfl
      exact hid hx
    rw [pending_settleAll hc hne]
    exact hids x (List.mem_cons_of_mem _ hx)

end Hierarchy

namespace Catalog

variable {c : Catalog} {autoBinding : Bool} {id : InjectorId} {s : Site}

theorem settles (hc : c.Sound) (autoBinding : Bool) :
    ∃ h', Hierarchy.Settles c (c.built autoBinding).requirements (c.built autoBinding)
      (c.moves autoBinding) h' ∧ h'.sites = (c.linked autoBinding).sites := by
  refine ⟨_, Hierarchy.settles_foldl hc _, ?_⟩
  have hf := congrArg Hierarchy.sites (Hierarchy.foldl_settleAll hc (c.built autoBinding)
    (h := c.built autoBinding) (Table.keys_nodup (c.sites autoBinding)) fun _ _ => rfl)
  exact hf.symm

theorem site?_linked (hc : c.Sound) : (c.linked autoBinding).site? id =
    ((c.built autoBinding).site? id).map (·.serveAll (c.requests autoBinding id)) := by
  obtain ⟨h', hs, hsites⟩ := settles hc autoBinding
  have hsame : (c.linked autoBinding).site? id = h'.site? id := by
    simp [Hierarchy.site?, hsites]
  rw [hsame, hs.replays]
  rfl

end Catalog

end Wiring
