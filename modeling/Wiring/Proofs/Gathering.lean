import Mathlib.Data.List.Perm.Subperm
import Wiring.Proofs.Links
import Wiring.Proofs.Stores

/-!
Visits without a bound on their depth. A visit gathers the nodes of what its provider needs, so one
relation on lists of keys describes everything that a walk does, and the bound that the program uses
is always enough.
-/

set_option autoImplicit false

namespace Wiring

def Resolved.node (r : Resolved) (args : List Nat) : Node :=
  ⟨r.key, r.provider.binding, args, r.provider.location⟩

abbrev Gathered := Except (Option Report) (List Nat)

def Outcome.gathered : Outcome → Gathered
  | .node i => .ok [i]
  | .failed r => .error r

theorem Gathered.map_eq_ok_iff {out : Gathered} {i : Nat} {is : List Nat} :
    out.map (i :: ·) = .ok is ↔ ∃ js, out = .ok js ∧ is = i :: js := by
  cases out <;> simp [Except.map, eq_comm]

theorem Gathered.map_eq_error_iff {out : Gathered} {i : Nat} {e : Option Report} :
    out.map (i :: ·) = .error e ↔ out = .error e := by
  cases out <;> simp [Except.map]

namespace Lookup

/-- The first key of a list is known, or fails, or shares the node of its provider, or has its
provider built; the others follow if it has a node. -/
inductive Gathers (l : Lookup) :
    List Key → Option Location → List Key → Store → Gathered → Store → Prop where
  | nil {trail : List Key} {asker : Option Location} {s : Store} :
      Gathers l trail asker [] s (.ok []) s
  | known {trail : List Key} {asker : Option Location} {k : Key} {ks : List Key} {s s' : Store}
      {i : Nat} {out : Gathered} :
      s.status? k = some (.done i) → Gathers l trail asker ks s out s' →
      Gathers l trail asker (k :: ks) s (out.map (i :: ·)) s'
  | closing {trail : List Key} {asker : Option Location} {k : Key} {ks : List Key} {s : Store} :
      s.status? k = some .inProgress →
      Gathers l trail asker (k :: ks) s (.error (some ⟨.cyclic k, trail ++ [k], asker⟩)) s
  | refused {trail : List Key} {asker : Option Location} {k : Key} {ks : List Key} {s : Store} :
      s.status? k = some .failed → Gathers l trail asker (k :: ks) s (.error none) s
  | unresolved {trail : List Key} {asker : Option Location} {k : Key} {ks : List Key} {s : Store}
      {e : BindingError} :
      s.status? k = none → l.resolve k = .error e →
      Gathers l trail asker (k :: ks) s (.error (some ⟨e, trail ++ [k], asker⟩))
        (s.remember k .failed)
  | looping {trail : List Key} {asker : Option Location} {k : Key} {ks : List Key} {s : Store}
      {r : Resolved} :
      s.status? k = none → l.resolve k = .ok r → s.status? r.key = some .inProgress →
      Gathers l trail asker (k :: ks) s (.error (some ⟨.cyclic r.key, trail ++ [k], asker⟩))
        (s.remember k .failed)
  | spoiled {trail : List Key} {asker : Option Location} {k : Key} {ks : List Key} {s : Store}
      {r : Resolved} :
      s.status? k = none → l.resolve k = .ok r → s.status? r.key = some .failed →
      Gathers l trail asker (k :: ks) s (.error none)
        ((s.rememberAll r.via .failed).remember k .failed)
  | shared {trail : List Key} {asker : Option Location} {k : Key} {ks : List Key} {s s' : Store}
      {r : Resolved} {i : Nat} {out : Gathered} :
      s.status? k = none → l.resolve k = .ok r → s.status? r.key = some (.done i) →
      Gathers l trail asker ks (s.rememberAll r.via (.done i)) out s' →
      Gathers l trail asker (k :: ks) s (out.map (i :: ·)) s'
  | broken {trail : List Key} {asker : Option Location} {k : Key} {ks : List Key} {s s₁ : Store}
      {r : Resolved} {e : Option Report} :
      s.status? k = none → l.resolve k = .ok r → s.status? r.key = none →
      Gathers l (trail ++ [r.key]) r.provider.location r.provider.dependencies (s.claim r)
        (.error e) s₁ →
      Gathers l trail asker (k :: ks) s (.error e) (s₁.release r .failed)
  | built {trail : List Key} {asker : Option Location} {k : Key} {ks : List Key} {s s₁ s' : Store}
      {r : Resolved} {args : List Nat} {out : Gathered} :
      s.status? k = none → l.resolve k = .ok r → s.status? r.key = none →
      Gathers l (trail ++ [r.key]) r.provider.location r.provider.dependencies (s.claim r)
        (.ok args) s₁ →
      Gathers l trail asker ks
        ((s₁.addNode (r.node args)).release r (.done s₁.nodes.length)) out s' →
      Gathers l trail asker (k :: ks) s (out.map (s₁.nodes.length :: ·)) s'

variable {l : Lookup} {trail : List Key} {asker : Option Location} {k j : Key} {ks : List Key}
  {s s' s₁ : Store} {out : Gathered} {p : Provider}

/-- What one step changes, and what one step after another changes, all gatherings change. -/
theorem Gathers.induct_steps {R : Store → Store → Prop} (refl : ∀ s, R s s)
    (trans : ∀ {s s' s''}, R s s' → R s' s'' → R s s'')
    (fail : ∀ s k, s.status? k = none →
      (∀ r, l.resolve k = .ok r → s.status? r.key ≠ none) → R s (s.remember k .failed))
    (share : ∀ s k r i, l.resolve k = .ok r → s.status? r.key = some (.done i) →
      R s (s.rememberAll r.via (.done i)))
    (spoil : ∀ s k r, s.status? k = none → l.resolve k = .ok r → s.status? r.key = some .failed →
      R s ((s.rememberAll r.via .failed).remember k .failed))
    (broke : ∀ s s₁ k r, l.resolve k = .ok r → s.status? r.key = none → R (s.claim r) s₁ →
      R s (s₁.release r .failed))
    (made : ∀ s s₁ k r args, l.resolve k = .ok r → s.status? r.key = none → R (s.claim r) s₁ →
      R s ((s₁.addNode (r.node args)).release r (.done s₁.nodes.length)))
    (h : l.Gathers trail asker ks s out s') : R s s' := by
  induction h with
  | nil | closing | refused => exact refl _
  | known _ _ ih => exact ih
  | unresolved hk hr => exact fail _ _ hk fun r hr' => by simp [hr] at hr'
  | looping hk hr hs =>
    refine fail _ _ hk fun r hr' => ?_
    rw [hr] at hr'
    cases hr'
    simp [hs]
  | spoiled hk hr hs => exact spoil _ _ _ hk hr hs
  | shared _ hr hs _ ih => exact trans (share _ _ _ _ hr hs) ih
  | broken _ hr hs _ ih => exact broke _ _ _ _ hr hs ih
  | built _ hr hs _ _ ih ih' => exact trans (made _ _ _ _ _ hr hs ih) ih'

theorem Gathers.extends (h : l.Gathers trail asker ks s out s') : s.Extends s' := by
  refine h.induct_steps Store.Extends.refl Store.Extends.trans ?_ ?_ ?_ ?_ ?_
  · exact fun s k _ _ => .remember _ _ _
  · exact fun s k r i _ _ => .rememberAll _ _ _
  · exact fun s k r _ _ _ => (Store.Extends.rememberAll _ _ _).trans (.remember _ _ _)
  · exact fun s s₁ k r _ _ h => ((Store.Extends.claim s r).trans h).trans (.release _ _ _)
  · exact fun s s₁ k r args _ _ h =>
      (((Store.Extends.claim s r).trans h).trans (.addNode _ _)).trans (.release _ _ _)

theorem Gathers.status?_settled (h : l.Gathers trail asker ks s out s')
    (hv : ∀ {k r}, l.resolve k = .ok r → j ∉ r.via) (hs : s.status? j ≠ none) :
    s'.status? j = s.status? j := by
  refine h.induct_steps (R := fun s s' => s.status? j ≠ none → s'.status? j = s.status? j)
    ?_ ?_ ?_ ?_ ?_ ?_ ?_ hs
  · exact fun s _ => rfl
  · intro s s' s'' h h' hs
    rw [h' (by rw [h hs]; exact hs), h hs]
  · intro s k hk _ hs
    have hne : j ≠ k := by rintro rfl; exact hs hk
    rw [Store.status?_remember, if_neg hne]
  · intro s k r i hr _ _
    rw [Store.status?_rememberAll, if_neg (hv hr)]
  · intro s k r hk hr _ hs
    have hne : j ≠ k := by rintro rfl; exact hs hk
    rw [Store.status?_remember, if_neg hne, Store.status?_rememberAll, if_neg (hv hr)]
  · intro s s₁ k r hr hk h hs
    have hne : ¬ (j = r.key ∨ j ∈ r.via) := by
      rintro (rfl | hm)
      · exact hs hk
      · exact hv hr hm
    rw [Store.status?_claim, if_neg hne] at h
    rw [Store.status?_release, if_neg hne, h hs]
  · intro s s₁ k r args hr hk h hs
    have hne : ¬ (j = r.key ∨ j ∈ r.via) := by
      rintro (rfl | hm)
      · exact hs hk
      · exact hv hr hm
    rw [Store.status?_claim, if_neg hne] at h
    rw [Store.status?_release, if_neg hne, Store.status?_addNode, h hs]

theorem Gathers.status?_provided (h : l.Gathers trail asker ks s out s')
    (hp : l.find j = .provider p) (hs : s.status? j ≠ none) : s'.status? j = s.status? j :=
  h.status?_settled (notMem_via_of_find hp) hs

theorem Gathers.status?_unresolved {e : BindingError} (h : l.Gathers trail asker ks s out s')
    (he : l.resolve j = .error e) (hs : s.status? j ≠ none) : s'.status? j = s.status? j := by
  refine h.status?_settled (fun hr hm => ?_) hs
  obtain ⟨via, hv⟩ := resolve_via hr hm
  rw [he] at hv
  cases hv

theorem Gathers.inProgress_before (h : l.Gathers trail asker ks s out s')
    (hs : s'.status? j = some .inProgress) : s.status? j = some .inProgress := by
  refine h.induct_steps
    (R := fun s s' => s'.status? j = some .inProgress → s.status? j = some .inProgress)
    (fun _ h => h) (fun h h' hs => h (h' hs)) ?_ ?_ ?_ ?_ ?_ hs
  · exact fun s k _ _ hs => Store.status?_of_remember hs (by simp)
  · exact fun s k r i _ _ hs => Store.status?_of_rememberAll hs (by simp)
  · intro s k r _ _ _ hs
    exact Store.status?_of_rememberAll (Store.status?_of_remember hs (by simp)) (by simp)
  · exact fun s s₁ k r _ _ h hs => Store.status?_of_visit hs (by simp) h
  · exact fun s s₁ k r args _ _ h hs => Store.status?_of_visit hs (by simp) h

/-- The keys that can have a provider of their own. -/
def targets (l : Lookup) : List Key :=
  l.registry.factories.keys ++ l.registry.externals.keys ++ l.catalog.types.keys.map (Key.mk · none)

theorem length_targets : l.targets.length = l.targetCount := by
  simp [targets, targetCount, Table.keys, Nat.add_assoc]

theorem mem_targets (h : l.find j = .provider p) : j ∈ l.targets := by
  unfold find at h
  simp only [targets, List.mem_append, Table.mem_keys_iff, List.mem_map]
  split at h
  · rename_i d hd
    exact .inl (.inl ⟨d, hd⟩)
  · split at h
    · rename_i i hi
      exact .inl (.inr ⟨i, hi⟩)
    · split at h
      · cases h
      · split at h
        · unfold implicit? at h
          split at h
          · cases h
          · rename_i t ht
            unfold plainType? at ht
            split at ht
            · rename_i hq
              obtain ⟨type, q⟩ := j
              obtain rfl : q = none := hq
              exact .inr ⟨type, ⟨t, ht⟩, rfl⟩
            · cases ht
        · cases h

/-- The keys on the way to a visit wait for it, and few enough levels of the way have been used up.
-/
structure Fits (l : Lookup) (trail : List Key) (s : Store) (depth : Nat) : Prop where
  bound : l.targetCount < depth + trail.length
  nodup : trail.Nodup
  waits : ∀ t ∈ trail, s.status? t = some .inProgress
  provided : ∀ t ∈ trail, ∃ p, l.find t = .provider p

namespace Fits

variable {depth : Nat} {r : Resolved}

theorem length_le (h : Fits l trail s depth) : trail.length ≤ l.targetCount := by
  rw [← length_targets]
  refine (List.subperm_of_subset h.nodup fun t ht => ?_).length_le
  obtain ⟨p, hp⟩ := h.provided t ht
  exact mem_targets hp

theorem depth_pos (h : Fits l trail s depth) : 0 < depth := by
  have := h.bound
  have := h.length_le
  omega

theorem congr (h : Fits l trail s depth) (hs : ∀ t ∈ trail, s'.status? t = s.status? t) :
    Fits l trail s' depth where
  bound := h.bound
  nodup := h.nodup
  waits t ht := by rw [hs t ht, h.waits t ht]
  provided := h.provided

theorem notMem (h : Fits l trail s depth) (hk : s.status? k ≠ some .inProgress) : k ∉ trail :=
  fun hm => hk (h.waits k hm)

theorem notMem_via (h : Fits l trail s depth) (hr : l.resolve k = .ok r) {t : Key}
    (ht : t ∈ trail) : t ∉ r.via := by
  obtain ⟨p, hp⟩ := h.provided t ht
  exact notMem_via_of_find hp hr

theorem share (h : Fits l trail s depth) (hr : l.resolve k = .ok r) (st : Status) :
    Fits l trail (s.rememberAll r.via st) depth := by
  refine h.congr fun t ht => ?_
  rw [Store.status?_rememberAll, if_neg (h.notMem_via hr ht)]

theorem claim (h : Fits l trail s (depth + 1)) (hr : l.resolve k = .ok r)
    (hs : s.status? r.key = none) : Fits l (trail ++ [r.key]) (s.claim r) depth where
  bound := by
    have := h.bound
    simp only [List.length_append, List.length_singleton]
    omega
  nodup := by
    have hm : r.key ∉ trail := h.notMem (by simp [hs])
    exact List.nodup_append.2 ⟨h.nodup, by simp, by grind⟩
  waits t ht := by
    rw [Store.status?_claim]
    split
    · rfl
    · rename_i hne
      rcases List.mem_append.1 ht with ht | ht
      · exact h.waits t ht
      · exact absurd (.inl (List.mem_singleton.1 ht)) hne
  provided t ht := by
    rcases List.mem_append.1 ht with ht | ht
    · exact h.provided t ht
    · obtain rfl := List.mem_singleton.1 ht
      exact ⟨_, find_key hr⟩

theorem release (h : Fits l trail s depth) (hr : l.resolve k = .ok r) (hs : s.status? r.key = none)
    {way : List Key} (hg : l.Gathers way asker ks (s.claim r) out s₁) {n : Node} {st : Status} :
    Fits l trail ((s₁.addNode n).release r st) depth := by
  refine h.congr fun t ht => ?_
  obtain ⟨p, hp⟩ := h.provided t ht
  have hne : ¬ (t = r.key ∨ t ∈ r.via) := by
    rintro (rfl | hv)
    · exact h.notMem (by simp [hs]) ht
    · exact h.notMem_via hr ht hv
  have hc : (s.claim r).status? t = s.status? t := by rw [Store.status?_claim, if_neg hne]
  rw [Store.status?_release, if_neg hne, Store.status?_addNode,
    hg.status?_provided hp (by rw [hc, h.waits t ht]; simp), hc]

end Fits

section Search

variable {visit : Key → Store → Outcome × Store} {cyclic : Key → Report} {depth i : Nat}
  {e : Option Report} {r : Resolved}

theorem depend_done (hk : s.status? k = some (.done i)) :
    depend visit cyclic k s = (.node i, s) := by
  simp only [depend, hk]

theorem depend_inProgress (hk : s.status? k = some .inProgress) :
    depend visit cyclic k s = (.failed (some (cyclic k)), s) := by
  simp only [depend, hk]

theorem depend_failed (hk : s.status? k = some .failed) :
    depend visit cyclic k s = (.failed none, s) := by
  simp only [depend, hk]

theorem depend_none (hk : s.status? k = none) : depend visit cyclic k s = visit k s := by
  simp only [depend, hk]

theorem gather_cons_node (h : depend visit cyclic k s = (.node i, s')) :
    gather visit cyclic (k :: ks) s =
      ((gather visit cyclic ks s').1.map (i :: ·), (gather visit cyclic ks s').2) := by
  rw [gather, h]
  dsimp only
  cases hg : gather visit cyclic ks s' with
  | mk out s'' => cases out <;> rfl

theorem gather_cons_failed (h : depend visit cyclic k s = (.failed e, s')) :
    gather visit cyclic (k :: ks) s = (.error e, s') := by
  rw [gather, h]

theorem visit_shared (hr : l.resolve k = .ok r) (hs : s.status? r.key = some (.done i)) :
    l.visit (depth + 1) trail asker k s = (.node i, s.rememberAll r.via (.done i)) := by
  simp only [visit, hr, hs]

theorem visit_looping (hr : l.resolve k = .ok r) (hs : s.status? r.key = some .inProgress) :
    l.visit (depth + 1) trail asker k s =
      (.failed (some ⟨.cyclic r.key, trail ++ [k], asker⟩), s.remember k .failed) := by
  simp only [visit, hr, hs]

theorem visit_spoiled (hr : l.resolve k = .ok r) (hs : s.status? r.key = some .failed) :
    l.visit (depth + 1) trail asker k s =
      (.failed none, (s.rememberAll r.via .failed).remember k .failed) := by
  simp only [visit, hr, hs]

theorem visit_fresh (hr : l.resolve k = .ok r) (hs : s.status? r.key = none) :
    l.visit (depth + 1) trail asker k s =
      match gather (l.visit depth (trail ++ [r.key]) r.provider.location)
          (fun d => ⟨.cyclic d, trail ++ [r.key] ++ [d], r.provider.location⟩)
          r.provider.dependencies (s.claim r) with
      | (.error e, s₁) => (.failed e, s₁.release r .failed)
      | (.ok args, s₁) =>
        (.node s₁.nodes.length, (s₁.addNode (r.node args)).release r (.done s₁.nodes.length)) := by
  obtain ⟨target, via, provider⟩ := r
  simp only [visit, hr, hs]
  rfl

theorem gather_gathers (l : Lookup) (depth : Nat) :
    ∀ {trail : List Key} {asker : Option Location} (ks : List Key) {s : Store},
      Fits l trail s depth →
      l.Gathers trail asker ks s
        (gather (l.visit depth trail asker) (fun d => ⟨.cyclic d, trail ++ [d], asker⟩) ks s).1
        (gather (l.visit depth trail asker)
          (fun d => ⟨.cyclic d, trail ++ [d], asker⟩) ks s).2 := by
  induction depth with
  | zero => exact fun _ _ h => absurd h.depth_pos (Nat.lt_irrefl 0)
  | succ depth ihd =>
    intro trail asker ks
    induction ks with
    | nil => exact fun _ => .nil
    | cons k ks ihk =>
      intro s h
      cases hk : s.status? k with
      | some st =>
        cases st with
        | done i =>
          rw [gather_cons_node (depend_done hk)]
          exact .known hk (ihk h)
        | inProgress =>
          rw [gather_cons_failed (depend_inProgress hk)]
          exact .closing hk
        | failed =>
          rw [gather_cons_failed (depend_failed hk)]
          exact .refused hk
      | none =>
        cases hr : l.resolve k with
        | error e =>
          rw [gather_cons_failed (by rw [depend_none hk, visit, hr])]
          exact .unresolved hk hr
        | ok r =>
          cases hs : s.status? r.key with
          | some st =>
            cases st with
            | done i =>
              rw [gather_cons_node (i := i) (by rw [depend_none hk, visit_shared hr hs])]
              exact .shared hk hr hs (ihk (h.share hr _))
            | inProgress =>
              rw [gather_cons_failed (by rw [depend_none hk, visit_looping hr hs])]
              exact .looping hk hr hs
            | failed =>
              rw [gather_cons_failed (by rw [depend_none hk, visit_spoiled hr hs])]
              exact .spoiled hk hr hs
          | none =>
            have hin := @ihd _ r.provider.location r.provider.dependencies _ (h.claim hr hs)
            cases hg : gather (l.visit depth (trail ++ [r.key]) r.provider.location)
                (fun d => ⟨.cyclic d, trail ++ [r.key] ++ [d], r.provider.location⟩)
                r.provider.dependencies (s.claim r) with
            | mk inner s₁ =>
              rw [hg] at hin
              cases inner with
              | error e =>
                rw [gather_cons_failed (by rw [depend_none hk, visit_fresh hr hs, hg])]
                exact .broken hk hr hs hin
              | ok args =>
                rw [gather_cons_node (i := s₁.nodes.length)
                  (by rw [depend_none hk, visit_fresh hr hs, hg])]
                exact .built hk hr hs hin (ihk (h.release hr hs hin))

end Search

theorem Gathers.idle (h : l.Gathers trail asker ks s out s') (hs : s.Idle) : s'.Idle :=
  fun _ hk => hs _ (h.inProgress_before hk)

theorem walk_gathers (hs : s.Idle) :
    l.Gathers [] none [k] s (l.walk k s).1.gathered (l.walk k s).2 := by
  unfold walk
  cases hk : s.status? k with
  | some st =>
    cases st with
    | done i =>
      have hnil : l.Gathers [] none [] s (.ok []) s := .nil
      have hknown := Gathers.known hk hnil
      exact hknown
    | inProgress => exact absurd hk (hs k)
    | failed => exact .refused hk
  | none =>
    have hf : Fits l [] s (l.targetCount + 1) :=
      ⟨by simp, List.nodup_nil, by simp, by simp⟩
    have hg := @gather_gathers l _ [] none [k] s hf
    dsimp only
    cases hv : l.visit (l.targetCount + 1) [] none k s with
    | mk o s' =>
      cases o with
      | node i =>
        rw [gather_cons_node ((depend_none hk).trans hv)] at hg
        exact hg
      | failed e =>
        rw [gather_cons_failed ((depend_none hk).trans hv)] at hg
        exact hg

section Determined

variable {trail' : List Key} {asker' : Option Location} {s'' : Store} {out' : Gathered}
  {r : Resolved} {i : Nat}

theorem Gathers.of_known (h : l.Gathers trail asker (k :: ks) s out s')
    (hk : s.status? k = some (.done i)) :
    ∃ out', out = out'.map (i :: ·) ∧ l.Gathers trail asker ks s out' s' := by
  cases h with
  | known hk' h =>
    cases hk.symm.trans hk'
    exact ⟨_, rfl, h⟩
  | closing hk' | refused hk' | unresolved hk' | looping hk' | spoiled hk' | shared hk'
  | broken hk' | built hk' =>
    cases hk.symm.trans hk'

section FirstKey

variable (h : l.Gathers trail asker (k :: ks) s out s') (hk : s.status? k = none)
  (hr : l.resolve k = .ok r)
include h hk hr

theorem Gathers.of_shared (hs : s.status? r.key = some (.done i)) :
    ∃ out', out = out'.map (i :: ·) ∧
      l.Gathers trail asker ks (s.rememberAll r.via (.done i)) out' s' := by
  cases h with
  | known hk' | closing hk' | refused hk' => cases hk.symm.trans hk'
  | unresolved _ hr' => cases hr.symm.trans hr'
  | looping _ hr' hs' | spoiled _ hr' hs' | broken _ hr' hs' | built _ hr' hs' =>
    cases hr.symm.trans hr'
    cases hs.symm.trans hs'
  | shared _ hr' hs' h =>
    cases hr.symm.trans hr'
    cases hs.symm.trans hs'
    exact ⟨_, rfl, h⟩

theorem Gathers.of_spoiled (hs : s.status? r.key = some .failed) :
    out = .error none ∧ s' = (s.rememberAll r.via .failed).remember k .failed := by
  cases h with
  | known hk' | closing hk' | refused hk' => cases hk.symm.trans hk'
  | unresolved _ hr' => cases hr.symm.trans hr'
  | looping _ hr' hs' | shared _ hr' hs' | broken _ hr' hs' | built _ hr' hs' =>
    cases hr.symm.trans hr'
    cases hs.symm.trans hs'
  | spoiled _ hr' =>
    cases hr.symm.trans hr'
    exact ⟨rfl, rfl⟩

theorem Gathers.of_fresh (hs : s.status? r.key = none) : ∃ inner s₁,
    l.Gathers (trail ++ [r.key]) r.provider.location r.provider.dependencies (s.claim r) inner s₁ ∧
      ((∃ e, inner = .error e ∧ out = .error e ∧ s' = s₁.release r .failed) ∨
        ∃ args out', inner = .ok args ∧ out = out'.map (s₁.nodes.length :: ·) ∧
          l.Gathers trail asker ks
            ((s₁.addNode (r.node args)).release r (.done s₁.nodes.length)) out' s') := by
  cases h with
  | known hk' | closing hk' | refused hk' => cases hk.symm.trans hk'
  | unresolved _ hr' => cases hr.symm.trans hr'
  | looping _ hr' hs' | shared _ hr' hs' | spoiled _ hr' hs' =>
    cases hr.symm.trans hr'
    cases hs.symm.trans hs'
  | broken _ hr' _ h =>
    cases hr.symm.trans hr'
    exact ⟨_, _, h, .inl ⟨_, rfl, rfl, rfl⟩⟩
  | built _ hr' _ h hrest =>
    cases hr.symm.trans hr'
    exact ⟨_, _, h, .inr ⟨_, _, rfl, rfl, hrest⟩⟩

end FirstKey

/-- Whoever asks, the same keys gathered from the same store lead to the same nodes and to the same
store. -/
theorem Gathers.unique (h : l.Gathers trail asker ks s out s')
    (h' : l.Gathers trail' asker' ks s out' s'') : out'.toOption = out.toOption ∧ s'' = s' := by
  have first : ∀ {i : Nat} {out out' : Gathered}, out'.toOption = out.toOption →
      (out'.map (i :: ·)).toOption = (out.map (i :: ·)).toOption := by
    intro i out out' ho
    cases out <;> cases out' <;> cases ho <;> rfl
  induction h generalizing trail' asker' out' s'' with
  | nil =>
    cases h'
    exact ⟨rfl, rfl⟩
  | known hk _ ih =>
    obtain ⟨out', rfl, hrest⟩ := h'.of_known hk
    obtain ⟨ho, rfl⟩ := ih hrest
    exact ⟨first ho, rfl⟩
  | closing hk | refused hk =>
    cases h' with
    | closing | refused => exact ⟨rfl, rfl⟩
    | known hk' | unresolved hk' | looping hk' | spoiled hk' | shared hk'
    | broken hk' | built hk' =>
      cases hk.symm.trans hk'
  | unresolved hk hr =>
    cases h' with
    | unresolved => exact ⟨rfl, rfl⟩
    | known hk' | closing hk' | refused hk' => cases hk.symm.trans hk'
    | looping _ hr' | spoiled _ hr' | shared _ hr' | broken _ hr' | built _ hr' =>
      cases hr.symm.trans hr'
  | looping hk hr hs =>
    cases h' with
    | looping => exact ⟨rfl, rfl⟩
    | known hk' | closing hk' | refused hk' => cases hk.symm.trans hk'
    | unresolved _ hr' => cases hr.symm.trans hr'
    | spoiled _ hr' hs' | shared _ hr' hs' | broken _ hr' hs' | built _ hr' hs' =>
      cases hr.symm.trans hr'
      cases hs.symm.trans hs'
  | spoiled hk hr hs =>
    obtain ⟨rfl, rfl⟩ := h'.of_spoiled hk hr hs
    exact ⟨rfl, rfl⟩
  | shared hk hr hs _ ih =>
    obtain ⟨out', rfl, hrest⟩ := h'.of_shared hk hr hs
    obtain ⟨ho, rfl⟩ := ih hrest
    exact ⟨first ho, rfl⟩
  | broken hk hr hs _ ih =>
    obtain ⟨inner, t, hin, ⟨e, rfl, rfl, rfl⟩ | ⟨args, out', rfl, -, -⟩⟩ := h'.of_fresh hk hr hs
    · obtain ⟨_, rfl⟩ := ih hin
      exact ⟨rfl, rfl⟩
    · cases (ih hin).1
  | built hk hr hs _ _ ih ih' =>
    obtain ⟨inner, t, hin, ⟨e, rfl, -, -⟩ | ⟨args, out', rfl, rfl, hrest⟩⟩ := h'.of_fresh hk hr hs
    · cases (ih hin).1
    · obtain ⟨ho, rfl⟩ := ih hin
      cases ho
      obtain ⟨ho, rfl⟩ := ih' hrest
      exact ⟨first ho, rfl⟩

end Determined

end Lookup

end Wiring
