import Wiring.Proofs.Drawing

/-!
Which nodes of a draft are of use. What is made for a provider, for a builder, for a child that is
listed, or for an export is reached from there. A failed offer is taken back, and a failure of an
own method is reported; but what has been made for a child that cannot be listed stays.
-/

set_option autoImplicit false

namespace Wiring

variable {l : Lookup} {trail : List Key} {asker : Option Location} {k : Key} {ks : List Key}
  {i j n : Nat}

namespace Node

variable {ns ns' : List Node} {roots roots' : List Nat}

/-- Following dependencies from some nodes. -/
inductive Reached (ns : List Node) (roots : List Nat) : Nat → Prop where
  | root {i : Nat} : i ∈ roots → Reached ns roots i
  | step {i j : Nat} {n : Node} : Reached ns roots i → ns[i]? = some n → j ∈ n.dependencies →
      Reached ns roots j

theorem Reached.mono (h : Reached ns roots i) (hns : ns <+: ns')
    (hroots : ∀ r ∈ roots, Reached ns' roots' r) : Reached ns' roots' i := by
  induction h with
  | root hi => exact hroots _ hi
  | step _ hn hj ih => exact ih.step (getElem?_mono hns hn) hj

theorem Reached.subset (h : Reached ns roots i) (hns : ns <+: ns') (hroots : roots ⊆ roots') :
    Reached ns' roots' i :=
  h.mono hns fun _ hr => .root (hroots hr)

theorem not_reached_nil : ¬ Reached ns [] i := by
  intro h
  induction h with
  | root hi => cases hi
  | step _ _ _ ih => exact ih

end Node

/-- Whatever is new is reached from some nodes. -/
def Store.Adds (s s' : Store) (roots : List Nat) : Prop :=
  ∀ i, s.nodes.length ≤ i → i < s'.nodes.length → Node.Reached s'.nodes roots i

namespace Store

variable {s s' s'' : Store} {roots roots' : List Nat}

theorem Adds.of_nodes (h : s'.nodes = s.nodes) : s.Adds s' roots := by
  intro i hi hlt
  rw [h] at hlt
  exact absurd hi (Nat.not_le.2 hlt)

theorem Adds.subset (h : s.Adds s' roots) (hroots : roots ⊆ roots') : s.Adds s' roots' :=
  fun i hi hlt => (h i hi hlt).subset (List.prefix_refl _) hroots

theorem Adds.trans (h : s.Adds s' roots) (h' : s'.Adds s'' roots)
    (hnodes : s'.nodes <+: s''.nodes) : s.Adds s'' roots := by
  intro i hi hlt
  rcases Nat.lt_or_ge i s'.nodes.length with hlt' | hge
  · exact (h i hi hlt').subset hnodes (List.Subset.refl _)
  · exact h' i hge hlt

end Store

namespace Lookup

variable {s s' : Store} {out : Gathered}

theorem Gathers.adds (h : l.Gathers trail asker ks s out s') {is : List Nat} (hout : out = .ok is) :
    s.Adds s' is := by
  induction h generalizing is with
  | nil => exact .of_nodes rfl
  | closing | refused | unresolved | looping | spoiled | broken => cases hout
  | known _ _ ih =>
    obtain ⟨js, hjs, rfl⟩ := Gathered.map_eq_ok_iff.1 hout
    exact (ih hjs).subset (List.subset_cons_self _ _)
  | shared _ _ _ _ ih =>
    obtain ⟨js, hjs, rfl⟩ := Gathered.map_eq_ok_iff.1 hout
    have hrest := ih hjs
    rw [Store.Adds, Store.nodes_rememberAll] at hrest
    exact Store.Adds.subset hrest (List.subset_cons_self _ _)
  | @built _ _ _ _ s s₁ s' r args out _ _ _ hin hrest ih ih' =>
    obtain ⟨js, hjs, rfl⟩ := Gathered.map_eq_ok_iff.1 hout
    have hmade : ((s₁.addNode (r.node args)).release r (.done s₁.nodes.length)).nodes =
        s₁.nodes ++ [r.node args] := by
      rw [Store.nodes_release, Store.nodes_addNode]
    have hnodes : s₁.nodes ++ [r.node args] <+: s'.nodes := hmade ▸ hrest.extends.nodes
    have hnew : s'.nodes[s₁.nodes.length]? = some (r.node args) :=
      getElem?_mono hnodes List.getElem?_concat_length
    intro i hi hlt
    rcases Nat.lt_trichotomy i s₁.nodes.length with hlt₁ | rfl | hgt
    · have hold := ih rfl i (by rwa [Store.nodes_claim]) hlt₁
      refine hold.mono ((List.prefix_append _ _).trans hnodes) fun a ha => ?_
      exact (Node.Reached.root List.mem_cons_self).step hnew ha
    · exact .root List.mem_cons_self
    · have hlen : (s₁.nodes ++ [r.node args]).length ≤ i := by
        rw [List.length_append, List.length_singleton]
        omega
      exact ((ih' hjs).subset (List.subset_cons_self _ js)) i (hmade ▸ hlen) hlt

theorem walk_adds (hi : s.Idle) (ho : (l.walk k s).1 = .node i) : s.Adds (l.walk k s).2 [i] := by
  have hg := walk_gathers (l := l) (k := k) hi
  rw [ho] at hg
  exact hg.adds rfl

theorem nodes_walk_of_error {e : BindingError} (hr : l.resolve k = .error e) :
    (l.walk k s).2.nodes = s.nodes := by
  unfold walk
  split
  · rfl
  · rfl
  · simp [visit, hr]

end Lookup

namespace Site

variable {s s' : Site} {missing : List Key} {location : Option Location} {requestedBy : Option Key}

def methodNodes (s : Site) : List Nat := s.providers.map (·.2.2) ++ s.builders.flatMap (·.args)

/-- Everything so far has been made for the methods. -/
structure Tidy (s : Site) : Prop where
  clean : s.Clean
  adds : Store.empty.Adds s.store s.methodNodes

theorem Tidy.fresh (i : Injector) (l : Lookup) : Tidy { injector := i, lookup := l } where
  clean := .fresh i l
  adds := .of_nodes rfl

theorem Clean.request_adds (h : s.Clean)
    (hd : (s.request requestedBy location k).2.diagnostics = []) :
    ∃ i, (s.request requestedBy location k).1 = some i ∧
      s.store.Adds (s.request requestedBy location k).2.store [i] := by
  obtain ⟨⟨i, hi⟩, _⟩ := h.request hd
  refine ⟨i, hi, Lookup.walk_adds h.idle ?_⟩
  change (s.lookup.walk k s.store).1.node? = some i at hi
  cases ho : (s.lookup.walk k s.store).1 with
  | node j =>
    rw [ho] at hi
    cases hi
    rfl
  | failed r =>
    rw [ho] at hi
    cases hi

theorem Grows.nodes (h : s.Grows s') (hi : s.store.Idle) : s.store.nodes <+: s'.store.nodes := by
  have hstep : ∀ {t : Store} {k : Key}, t.Idle → s.store.nodes <+: t.nodes →
      s.store.nodes <+: (s.lookup.walk k t).2.nodes :=
    fun hi hn => hn.trans (Lookup.walk_gathers hi).extends.nodes
  exact (Lookup.walked_keeps h.store hstep hi (List.prefix_refl _)).2

theorem Clean.requestAll_adds (h : s.Clean)
    (hd : (s.requestAll requestedBy location ks).2.diagnostics = []) :
    s.store.Adds (s.requestAll requestedBy location ks).2.store
      (s.requestAll requestedBy location ks).1 := by
  induction ks generalizing s with
  | nil => exact .of_nodes rfl
  | cons k ks ih =>
    have hrest := Grows.requestAll (s.request requestedBy location k).2 requestedBy location ks
    have hd' := hrest.diagnostics_nil hd
    obtain ⟨i, hi, hadds⟩ := h.request_adds hd'
    have hclean := (h.request hd').2
    have hlist : (s.requestAll requestedBy location (k :: ks)).1 =
        i :: ((s.request requestedBy location k).2.requestAll requestedBy location ks).1 := by
      simp only [Site.requestAll, hi, Option.toList_some, List.singleton_append]
    rw [hlist]
    refine (hadds.subset ?_).trans ((ih hclean hd).subset (List.subset_cons_self _ _))
      (hrest.nodes hclean.idle)
    exact List.cons_subset_cons _ (List.nil_subset _)

theorem Tidy.addProvider (h : s.Tidy) {m : ProviderMethod}
    (hd : (s.addProvider m).diagnostics = []) : (s.addProvider m).Tidy := by
  have hd' : (s.request none m.location m.key).2.diagnostics = [] := by
    unfold Site.addProvider at hd
    dsimp only at hd
    split at hd <;> exact hd
  obtain ⟨i, hi, hadds⟩ := h.clean.request_adds hd'
  refine ⟨(h.clean.addProvider hd).1, ?_⟩
  have hgrows := (Grows.request s none m.location m.key).nodes h.clean.idle
  have hadd : s.addProvider m = { (s.request none m.location m.key).2 with
      providers := s.providers ++ [(m.name, m.key, i)] } := by
    simp only [Site.addProvider, hi]
    rfl
  rw [hadd]
  refine (h.adds.subset ?_).trans (hadds.subset ?_) hgrows
  · intro x hx
    simp only [methodNodes, List.map_append, List.mem_append] at hx ⊢
    exact hx.imp_left .inl
  · simp [methodNodes]

theorem Tidy.addBuilder (h : s.Tidy) {m : BuilderMethod} (hd : (s.addBuilder m).diagnostics = []) :
    (s.addBuilder m).Tidy := by
  refine ⟨(h.clean.addBuilder hd).1, ?_⟩
  unfold Site.addBuilder at hd ⊢
  cases hc : s.lookup.completion m.key with
  | error e => simp [hc, Site.report] at hd
  | ok completion =>
    simp only [hc] at hd ⊢
    have hd' : (s.requestAll (some m.key) (completion.location <|> m.location)
        completion.dependencies).2.diagnostics = [] := by
      split at hd <;> exact hd
    have hadds := h.clean.requestAll_adds hd'
    have hgrows := (Grows.requestAll s (some m.key) (completion.location <|> m.location)
      completion.dependencies).nodes h.clean.idle
    obtain ⟨hp, hb, _⟩ := requestAll_lists s (some m.key) (completion.location <|> m.location)
      completion.dependencies
    rw [if_pos (h.clean.requestAll hd').1]
    refine (h.adds.subset ?_).trans (hadds.subset ?_) hgrows
    · intro x hx
      simp only [methodNodes, hp, hb, List.flatMap_append, List.mem_append] at hx ⊢
      exact hx.imp_right .inl
    · intro x hx
      simp only [methodNodes, List.flatMap_append, List.flatMap_singleton, List.mem_append]
      exact .inr (.inr hx)

theorem Tidy.addMethods (ps : List ProviderMethod) (bs : List BuilderMethod) (h : s.Tidy)
    (hd : (bs.foldl Site.addBuilder (ps.foldl Site.addProvider s)).diagnostics = []) :
    (bs.foldl Site.addBuilder (ps.foldl Site.addProvider s)).Tidy := by
  induction ps generalizing s with
  | cons m ps ih =>
    have hrest :=
      (Grows.foldl Grows.addProvider (s.addProvider m) ps).trans (Grows.foldl Grows.addBuilder _ bs)
    exact ih (h.addProvider (hrest.diagnostics_nil hd)) hd
  | nil =>
    rw [List.foldl_nil] at hd ⊢
    induction bs generalizing s with
    | nil => exact h
    | cons m bs ih =>
      have hrest := Grows.foldl Grows.addBuilder (s.addBuilder m) bs
      exact ih (h.addBuilder (hrest.diagnostics_nil hd)) hd

theorem store_addArgument :
    (s.addArgument missing location k).2.2.store = (s.lookup.walk k s.store).2 := by
  unfold Site.addArgument
  dsimp only
  split
  · rfl
  · split <;> rfl

theorem walk_of_resolved (h : (s.addArgument missing location k).1 = .resolved i) :
    (s.lookup.walk k s.store).1 = .node i := by
  unfold Site.addArgument at h
  dsimp only at h
  split at h
  · rename_i ho
    cases h
    exact ho
  · split at h <;> cases h

def argumentNodes (args : List (Key × Argument)) : List Nat := args.filterMap (·.2.node?)

/-- What is built for the arguments of a child is reached from them, unless one of them fails. -/
theorem Sifted.addArguments_adds {ks : List Key} :
    ∀ {s : Site} {missing : List Key}, s.Sifted missing →
    (s.addArguments missing location ks).2.2.diagnostics = [] →
    s.store.Adds (s.addArguments missing location ks).2.2.store
        (argumentNodes (s.addArguments missing location ks).1) ∨
      ∃ e ∈ (s.addArguments missing location ks).1, e.2 = .failed := by
  induction ks with
  | nil => exact fun _ _ => .inl (.of_nodes rfl)
  | cons k ks ih =>
    intro s missing h hd
    have hrest := Grows.addArguments (s.addArgument missing location k).2.2
      (s.addArgument missing location k).2.1 location ks
    have hd' := hrest.diagnostics_nil hd
    obtain ⟨h', hjudges⟩ := h.addArgument hd'
    have hnodes := hrest.nodes h'.right.sane.idle
    have hargs : (s.addArguments missing location (k :: ks)).1 =
      (k, (s.addArgument missing location k).1) ::
      ((s.addArgument missing location k).2.2.addArguments
        (s.addArgument missing location k).2.1 location ks).1 := rfl
    rw [hargs]
    rcases ih h' hd with hadds | ⟨e, he, hfailed⟩
    · cases ha : (s.addArgument missing location k).1 with
      | resolved i =>
        have hfirst := Lookup.walk_adds h.right.sane.idle (walk_of_resolved ha)
        have hstore : (s.addArgument missing location k).2.2.store = (s.lookup.walk k s.store).2 :=
          store_addArgument
        rw [← hstore] at hfirst
        refine .inl ((hfirst.subset ?_).trans (hadds.subset ?_) hnodes)
        · exact List.cons_subset_cons _ (List.nil_subset _)
        · exact List.subset_cons_self _ _
      | pending =>
        obtain ⟨e, hr⟩ := hjudges.pending ha
        have hsame : (s.addArgument missing location k).2.2.store.nodes = s.store.nodes := by
          rw [store_addArgument, Lookup.nodes_walk_of_error hr]
        exact .inl ((Store.Adds.of_nodes hsame).trans hadds hnodes)
      | failed => exact .inr ⟨_, List.mem_cons_self, rfl⟩
    · exact .inr ⟨e, List.mem_cons_of_mem _ he, hfailed⟩

theorem children_addChildren (as : List ChildAccessor) (s : Site) (missing : List Key) :
    s.children <+: (s.addChildren missing as).children := by
  induction as generalizing s missing with
  | nil => exact List.prefix_refl _
  | cons a as ih =>
    rw [addChildren_cons]
    have hfirst : s.children <+: (s.addChild missing a).2.children := by
      rw [children_addChild]
      exact List.prefix_append _ _
    exact hfirst.trans (ih _ _)

theorem Sifted.addChildren_adds {as : List ChildAccessor} :
    ∀ {s : Site} {missing : List Key}, s.Sifted missing →
    (s.addChildren missing as).diagnostics = [] → ∀ i, s.store.nodes.length ≤ i →
    i < (s.addChildren missing as).store.nodes.length →
    ∃ n ch, (s.addChildren missing as).children[s.children.length + n]? = some ch ∧
      (s.addChildren missing (as.take n)).store.nodes.length ≤ i ∧
      i < (s.addChildren missing (as.take (n + 1))).store.nodes.length ∧
      (Node.Reached (s.addChildren missing as).store.nodes (argumentNodes ch.args) i ∨
        ∃ e ∈ ch.args, e.2 = .failed) := by
  induction as with
  | nil => exact fun _ _ i hi hlt => absurd hi (Nat.not_le.2 hlt)
  | cons a as ih =>
    intro s missing h hd i hi hlt
    rw [addChildren_cons] at hd hlt ⊢
    have hrest := Grows.addChildren (s.addChild missing a).2 (s.addChild missing a).1 as
    have hd' := hrest.diagnostics_nil hd
    have hsifted := h.addChild hd'
    have hnodes := hrest.nodes hsifted.right.sane.idle
    have hchildren := children_addChildren as (s.addChild missing a).2 (s.addChild missing a).1
    rw [children_addChild] at hchildren
    rcases Nat.lt_or_ge i (s.addChild missing a).2.store.nodes.length with hlt' | hge
    · refine ⟨0, _, getElem?_mono hchildren List.getElem?_concat_length, hi, hlt', ?_⟩
      rcases h.addArguments_adds hd' with hadds | hfailed
      · exact .inl ((hadds i hi hlt').subset hnodes (List.Subset.refl _))
      · exact .inr hfailed
    · obtain ⟨n, ch, hch, hlow, hhigh, hreached⟩ := ih hsifted hd i hge hlt
      refine ⟨n + 1, ch, ?_, hlow, hhigh, hreached⟩
      rw [children_addChild, List.length_append, List.length_singleton] at hch
      rw [← hch]
      congr 1
      omega

end Site

namespace Site

variable {s : Site} {q : Request} {qs qs' : List Request} {r : Requirement}

def Fresh (s : Site) : List Request → Prop
  | [] => True
  | q :: qs => (∀ k, q = .offer k ∨ q = .pass k → s.exports.get? k = none) ∧ (s.serve q).Fresh qs

theorem fresh_append : s.Fresh (qs ++ qs') ↔ s.Fresh qs ∧ (s.serveAll qs).Fresh qs' := by
  induction qs generalizing s with
  | nil => simp [Fresh, serveAll]
  | cons q qs ih =>
    rw [List.cons_append, Fresh, Fresh, ih, and_assoc]
    rfl

theorem Fresh.exports_stay (h : s.Fresh qs) (hk : s.exports.get? k = some i) :
    (s.serveAll qs).exports.get? k = some i := by
  induction qs generalizing s with
  | nil => exact hk
  | cons q qs ih =>
    obtain ⟨hq, h⟩ := h
    refine ih h ?_
    rw [exports_serve_of_ne, hk]
    all_goals
      rintro rfl
      have hnone := hq k (by simp)
      rw [hk] at hnone
      cases hnone

/-- A request leads to new nodes below an export, or to a node for an argument. -/
theorem serve_adds (hi : s.store.Idle) (hlow : s.store.nodes.length ≤ i)
    (hhigh : i < (s.serve q).store.nodes.length) :
    (∃ k j, (s.serve q).exports.get? k = some j ∧ Node.Reached (s.serve q).store.nodes [j] i) ∨
      ∃ r, q = .satisfy r ∧ (s.inherit r.key).1 = i := by
  have inherited : ∀ {k : Key}, i < (s.inherit k).2.store.nodes.length → (s.inherit k).1 = i := by
    intro k hlt
    rcases inherit_new (List.getElem?_eq_getElem hlt) with hold | ⟨_, hi⟩
    · exact absurd (List.getElem?_eq_some_iff.1 hold).1 (Nat.not_lt.2 hlow)
    · exact hi.symm
  cases q with
  | offer k =>
    simp only [serve] at hhigh ⊢
    rcases s.exportKey_cases k with ⟨j, ho, hs⟩ | ⟨e, _, hs⟩
    · rw [hs] at hhigh ⊢
      have hadds := Lookup.walk_adds hi ho i hlow hhigh
      exact .inl ⟨k, j, by simp [Table.get?_insert], hadds⟩
    · rw [hs] at hhigh
      have hsame := Store.nodes_rollback (Lookup.walk_gathers (l := s.lookup) (k := k) hi).extends
      change i < ((s.lookup.walk k s.store).2.rollback s.store).nodes.length at hhigh
      rw [hsame] at hhigh
      exact absurd hlow (Nat.not_le.2 hhigh)
  | pass k =>
    refine .inl ⟨k, i, ?_, .root List.mem_cons_self⟩
    simp only [serve, forward, Table.get?_insert, if_true]
    rw [inherited hhigh]
  | satisfy r => exact .inr ⟨r, rfl, inherited hhigh⟩
  | refuse r =>
    have hsame : (s.serve (.refuse r)).store = s.store := by
      simp only [serve, refuse]
      split <;> rfl
    rw [hsame] at hhigh
    exact absurd hlow (Nat.not_le.2 hhigh)

theorem isSome_argument?_serve : ((s.serve q).argument? i j).isSome = (s.argument? i j).isSome := by
  cases hq : q.verdict? with
  | none => rw [argument?_serve_of_none hq]
  | some rv =>
    obtain ⟨n, hn⟩ := argument?_serve_of_some (s := s) (c := i) (i := j) hq
    rw [hn]
    split
    · rw [Option.isSome_map]
    · rfl

theorem serveAll_adds (hi : s.store.Idle) (hf : s.Fresh qs)
    (hd : (qs.filterMap Request.verdict?).Pairwise fun rv rv' =>
      ¬ (rv.1.child = rv'.1.child ∧ rv.1.argument = rv'.1.argument))
    (ha : ∀ rv ∈ qs.filterMap Request.verdict?, (s.argument? rv.1.child rv.1.argument).isSome)
    (hlow : s.store.nodes.length ≤ i) (hhigh : i < (s.serveAll qs).store.nodes.length) :
    (∃ k j, (s.serveAll qs).exports.get? k = some j ∧
      Node.Reached (s.serveAll qs).store.nodes [j] i) ∨
      ∃ n a k, (s.serveAll qs).argument? n a = some (k, .resolved i) := by
  induction qs generalizing s with
  | nil => exact absurd hlow (Nat.not_le.2 hhigh)
  | cons q qs ih =>
    have hi' := idle_serve (q := q) hi
    rcases Nat.lt_or_ge i (s.serve q).store.nodes.length with hlt | hge
    · rcases serve_adds hi hlow hlt with ⟨k, j, hx, hreached⟩ | ⟨r, rfl, hnode⟩
      · exact .inl ⟨k, j, hf.2.exports_stay hx,
          hreached.subset (nodes_serveAll hi') (List.Subset.refl _)⟩
      · obtain ⟨hother, _⟩ := List.pairwise_cons.1 hd
        obtain ⟨e, he⟩ := Option.isSome_iff_exists.1 (ha (r, true) List.mem_cons_self)
        have hset : (s.serve (.satisfy r)).argument? r.child r.argument =
            some (e.1, .resolved i) := by
          have hsame : (s.inherit r.key).2.argument? r.child r.argument = some e := he
          rw [serve, satisfy, argument?_setArgument, if_pos ⟨rfl, rfl⟩, hsame, hnode]
          rfl
        exact .inr ⟨_, _, _, (argument?_serveAll_of_other hother).trans hset⟩
    · have hsub : List.Sublist (qs.filterMap Request.verdict?)
        ((q :: qs).filterMap Request.verdict?) :=
        (List.sublist_cons_self q qs).filterMap _
      refine ih hi' hf.2 (hd.sublist hsub) (fun rv hrv => ?_) hge hhigh
      rw [isSome_argument?_serve]
      exact ha rv (hsub.subset hrv)

end Site

namespace Hierarchy

variable {c : Catalog} {autoBinding : Bool} {h h' h₁ : Hierarchy} {key : Key}
  {ids : List InjectorId} {log log' : List Move} {m : Move} {b : Bool}
  {es : List (InjectorId × Requirement)}

def Fresh (h : Hierarchy) (log : List Move) : Prop :=
  ∀ id s, h.site? id = some s → s.Fresh (Move.requestsTo id log)

theorem Fresh.append (hf : h.Fresh log) (hr : Replays h log h₁) (hf' : h₁.Fresh log') :
    h.Fresh (log ++ log') := by
  intro id s hs
  rw [Move.requestsTo_append, Site.fresh_append]
  exact ⟨hf id s hs, hf' id _ (by rw [hr, hs]; rfl)⟩

theorem Fresh.cons
    (hm : ∀ s, h.site? m.injector = some s → ∀ k, m.request = .offer k ∨ m.request = .pass k →
    s.exports.get? k = none) (hf : (h.perform m).Fresh log) : h.Fresh (m :: log) := by
  have hfirst : h.Fresh [m] := by
    intro id s hs
    by_cases hid : m.injector = id
    · subst hid
      simpa [Move.requestsTo, Site.Fresh] using hm s hs
    · simp [Move.requestsTo, hid, Site.Fresh]
  exact hfirst.append .perform hf

theorem Asks.fresh {rank : InjectorId → Nat}
    (hrank : ∀ child p, p ∈ c.parentIds child → rank p < rank child)
    (ha : Asks c key ids h log b h') (hc : h.Consistent c autoBinding) : h.Fresh log := by
  -- only those are asked who have not answered
  have asked : ∀ {h : Hierarchy} {id : InjectorId} {q : Request}, h.Consistent c autoBinding →
      h.answers.get? ⟨id, key⟩ = none → (q = .offer key ∨ q = .pass key) →
      ∀ s, h.site? id = some s →
      ∀ k, q = .offer k ∨ q = .pass k → s.exports.get? k = none := by
    rintro h id q hc hn hq s hs k hk
    obtain rfl : k = key := by
      rcases hq with rfl | rfl <;> rcases hk with hk | hk <;> cases hk <;> rfl
    exact hc.exports_none hn hs
  induction ha with
  | nil | denied | absent => exact fun _ _ _ => trivial
  | granted _ _ ih => exact ih hc
  | exported hn hs hx _ ih =>
    exact .cons (asked hc hn (.inl rfl))
      (ih (hc.grant hs fun k => Site.exports_offer (Option.isSome_of_mem hx)))
  | refused hn hs hx _ _ ih => exact .cons (asked hc hn (.inl rfl)) (ih (hc.unexported hs hx))
  | @forwarded id ids h h₁ h' s log log' b hn hs hx hne ha _ ih ih' =>
    have hc₀ := hc.unexported hs hx
    have hc₁ := ha.consistent hrank hc₀
    have hself := (ha.frame_self hrank key).1
    rw [answers_perform, hn] at hself
    have hs₁ := ha.replays id
    rw [site?_perform, hs] at hs₁
    have hpassed := ih' (hc₁.grant hs₁ fun k => Site.exports_pass)
    exact .cons (asked hc hn (.inl rfl))
      ((ih hc₀).append ha.replays (.cons (asked hc₁ hself (.inr rfl)) hpassed))

theorem Settles.fresh {rank : InjectorId → Nat}
    (hrank : ∀ child p, p ∈ c.parentIds child → rank p < rank child) (hs : Settles c es h log h')
    (hc : h.Consistent c autoBinding) : h.Fresh log := by
  induction hs with
  | nil => exact fun _ _ _ => trivial
  | cons ha _ ih =>
    have hc₁ := ha.consistent hrank hc
    refine (ha.fresh hrank hc).append ha.replays (.cons (fun s _ k hk => ?_) (ih hc₁.verdict))
    exact absurd hk verdict_asks_nothing

end Hierarchy

/-- The nodes that are wanted from outside, for the injector's own surface or for its descendants.
-/
def Draft.roots (d : Draft) : List Nat := d.wanted ++ d.exports.values

def Draft.Reaches (d : Draft) (i : Nat) : Prop := Node.Reached d.nodes d.roots i

namespace Site

variable {s : Site}

/-- An injector built anew with its methods and the first of its children. -/
def upTo (s : Site) (n : Nat) : Site :=
  let fresh : Site := { injector := s.injector, lookup := s.lookup }
  (s.injector.builders.foldl addBuilder
    (s.injector.providers.foldl addProvider fresh)).addChildren [] (s.injector.children.take n)

/-- A node that was built when the arguments of a child were asked for, or that is one of them. -/
def MadeFor (s : Site) (n i : Nat) : Prop :=
  (s.upTo n).store.nodes.length ≤ i ∧ i < (s.upTo (n + 1)).store.nodes.length ∨
    ∃ a k, s.argument? n a = some (k, .resolved i)

end Site

namespace Site

variable {s : Site} {ch : ChildSite} {a : Argument}

theorem methodNodes_subset_roots : s.methodNodes ⊆ s.draft.roots := by
  intro i hi
  simp only [methodNodes, Draft.roots, Draft.wanted, draft, List.mem_append] at hi ⊢
  exact .inl (hi.imp_right .inl)

theorem mem_roots_of_argument (hch : ch ∈ s.children) (hlisted : ch.draft?.isSome)
    (ha : (k, .resolved i) ∈ ch.args) : i ∈ s.draft.roots := by
  obtain ⟨w, hw⟩ := Option.isSome_iff_exists.1 hlisted
  have hmem : w ∈ s.draft.children := List.mem_filterMap.2 ⟨ch, hch, hw⟩
  obtain ⟨args, hargs, rfl⟩ := Option.map_eq_some_iff.1 hw
  obtain ⟨e, he, hnode⟩ := exists_of_forall₂ (mapM_eq_some_iff.1 hargs).flip ha
  obtain rfl : (k, i) = e := Option.some.inj hnode
  simp only [Draft.roots, Draft.wanted, List.mem_append, List.mem_flatMap]
  exact .inl (.inr (.inr ⟨_, hmem, List.mem_map_of_mem he⟩))

end Site

namespace Catalog

variable {m : Model} {c : Catalog} {autoBinding : Bool} {id : InjectorId} {s : Site}

theorem requests_fresh (hc : c.Sound) (hs : (c.built autoBinding).site? id = some s) :
    s.Fresh (c.requests autoBinding id) := by
  obtain ⟨rank, hrank, _⟩ := hc.exists_rank
  obtain ⟨h', hsettles, _⟩ := settles hc autoBinding
  exact hsettles.fresh hrank (consistent_built c autoBinding) id s hs

theorem argument?_of_settled (hc : c.Sound) (hs : (c.built autoBinding).site? id = some s)
    {n i : Nat} {k : Key} {a : Argument} (ha : s.argument? n i = some (k, a)) (hne : a ≠ .pending) :
    (s.serveAll (c.requests autoBinding id)).argument? n i = some (k, a) := by
  rw [Site.argument?_serveAll_of_other, ha]
  rintro rv hrv ⟨rfl, rfl⟩
  rw [(verdicts_requests hc hs).1] at hrv
  obtain ⟨r, hr, rfl⟩ := List.mem_map.1 hrv
  have hpending := Site.mem_pending.1 hr
  rw [ha] at hpending
  cases hpending
  exact hne rfl

/-- When an injector has been built without a diagnostic, its nodes are reached from its methods and
from its arguments, but for those that were built for a child of which some argument has failed. -/
theorem built_reached (hs : (c.built autoBinding).site? id = some s) (hd : s.diagnostics = [])
    (hi : i < s.store.nodes.length) : Node.Reached s.store.nodes s.methodNodes i ∨
      ∃ n ch, s.children[n]? = some ch ∧ (s.upTo n).store.nodes.length ≤ i ∧
        i < (s.upTo (n + 1)).store.nodes.length ∧
        (Node.Reached s.store.nodes (Site.argumentNodes ch.args) i ∨
          ∃ e ∈ ch.args, e.2 = .failed) := by
  obtain ⟨inj, s₀, _, hs₀, rfl⟩ := site?_built.1 hs
  obtain ⟨registry, rfl⟩ := Site.start_ok hs₀
  have hgrows := Site.Grows.buildLocal { injector := inj, lookup := ⟨c, registry, autoBinding⟩ }
  simp only [Site.upTo, hgrows.injector, hgrows.lookup]
  rw [Site.buildLocal_eq] at hd hi ⊢
  dsimp only at hd hi ⊢
  have hd' := (Site.Grows.addChildren _ _ _).diagnostics_nil hd
  obtain ⟨hsifted, _, hchildren, _⟩ := Site.addMethods_sifted hd'
  have htidy :=
    Site.Tidy.addMethods inj.providers inj.builders (.fresh inj ⟨c, registry, autoBinding⟩) hd'
  generalize inj.builders.foldl Site.addBuilder (inj.providers.foldl Site.addProvider
    { injector := inj, lookup := ⟨c, registry, autoBinding⟩ }) =
    t at hd hi hsifted hchildren htidy ⊢
  have hnodes := (Site.Grows.addChildren t [] inj.children).nodes hsifted.right.sane.idle
  rcases Nat.lt_or_ge i t.store.nodes.length with hlt | hge
  · have hreached := (htidy.adds i (Nat.zero_le _) hlt).subset hnodes (List.Subset.refl _)
    obtain ⟨hp, hb⟩ := Site.addChildren_lists inj.children t []
    left
    rwa [Site.methodNodes, hp, hb]
  · obtain ⟨n, ch, hch, hrest⟩ := hsifted.addChildren_adds hd i hge hi
    rw [hchildren, List.length_nil, Nat.zero_add] at hch
    exact .inr ⟨n, ch, hch, hrest⟩

theorem mem_args_of_settled (hc : c.Sound) (hs : (c.built autoBinding).site? id = some s)
    {ch ch' : ChildSite} {e : Key × Argument} (hch : s.children[n]? = some ch)
    (hch' : (s.serveAll (c.requests autoBinding id)).children[n]? = some ch') (he : e ∈ ch.args)
    (hne : e.2 ≠ .pending) : e ∈ ch'.args := by
  obtain ⟨a, ha⟩ := List.mem_iff_getElem?.1 he
  have hbuilt : s.argument? n a = some e := by rw [Site.argument?, hch, Option.bind_some, ha]
  have hfinal := argument?_of_settled hc hs hbuilt hne
  rw [Site.argument?, hch', Option.bind_some] at hfinal
  exact List.mem_of_getElem? hfinal

theorem linked_reaches_built (hc : c.Sound) (hs : (c.built autoBinding).site? id = some s)
    (hd : s.diagnostics = []) (hi : i < s.store.nodes.length) :
    (s.serveAll (c.requests autoBinding id)).draft.Reaches i ∨
      ∃ n ch, (s.serveAll (c.requests autoBinding id)).children[n]? = some ch ∧ ch.draft? = none ∧
        (s.serveAll (c.requests autoBinding id)).MadeFor n i := by
  have hkeeps : s.Keeps (s.serveAll (c.requests autoBinding id)) := Site.keeps_serveAll
  have hnodes : s.store.nodes <+: (s.serveAll (c.requests autoBinding id)).store.nodes :=
    Site.nodes_serveAll (idle_built id s hs)
  rcases built_reached hs hd hi with hreached | ⟨n, ch, hch, hlow, hhigh, hreached⟩
  · refine .inl (hreached.subset hnodes fun j hj => Site.methodNodes_subset_roots ?_)
    rwa [Site.methodNodes, hkeeps.providers, hkeeps.builders]
  · obtain ⟨ch', hch', _⟩ : ∃ ch',
      (s.serveAll (c.requests autoBinding id)).children[n]? = some ch' ∧
        ch'.accessor = ch.accessor := by
      have hn : (s.serveAll (c.requests autoBinding id)).accessors[n]? = s.accessors[n]? := by
        rw [hkeeps.accessors]
      simpa only [Site.accessors, List.getElem?_map, hch, Option.map_some, Option.map_eq_some_iff]
        using hn
    by_cases hlisted : ch'.draft?.isSome
    · left
      rcases hreached with hreached | ⟨e, he, hfailed⟩
      · refine hreached.mono hnodes fun j hj => .root ?_
        obtain ⟨⟨k, a⟩, he, hnode⟩ := List.mem_filterMap.1 hj
        cases a with
        | resolved j' =>
          cases hnode
          exact Site.mem_roots_of_argument (List.mem_of_getElem? hch') hlisted
            (mem_args_of_settled hc hs hch hch' he (by simp))
        | pending | failed => cases hnode
      · -- a child with a failed argument is not listed
        have he' := mem_args_of_settled hc hs hch hch' he (by simp [hfailed])
        rw [ChildSite.draft?_isSome, List.all_eq_true] at hlisted
        have hnode := hlisted e he'
        rw [hfailed] at hnode
        cases hnode
    · refine .inr ⟨n, ch', hch', by simpa using hlisted, .inl ?_⟩
      simpa only [Site.upTo, hkeeps.injector, hkeeps.lookup] using And.intro hlow hhigh

/-- A node of an injector that ends without a diagnostic is reached from outside, unless it was made
for a child that is not listed. So if all children are listed no node is there in vain. -/
theorem linked_reaches (hm : Catalog.ofModel m = .ok c)
    (hs : (c.linked autoBinding).site? id = some s) (hd : s.diagnostics = []) :
    (∀ i, i < s.draft.nodes.length → s.draft.Reaches i ∨
      ∃ n ch, s.children[n]? = some ch ∧ ch.draft? = none ∧ s.MadeFor n i) ∧
    ((∀ ch ∈ s.children, ch.draft?.isSome) →
      ∀ i, i < s.draft.nodes.length → s.draft.Reaches i) := by
  have hmain : ∀ i, i < s.draft.nodes.length → s.draft.Reaches i ∨
      ∃ n ch, s.children[n]? = some ch ∧ ch.draft? = none ∧ s.MadeFor n i := by
    have hc := sound_of_ofModel hm
    rw [site?_linked hc] at hs
    obtain ⟨b, hb, rfl⟩ := Option.map_eq_some_iff.1 hs
    rw [Site.diagnostics_serveAll, List.append_eq_nil_iff] at hd
    obtain ⟨hverdicts, _⟩ := verdicts_requests hc hb
    intro i hlt
    rcases Nat.lt_or_ge i b.store.nodes.length with hlt' | hge
    · exact linked_reaches_built hc hb hd.1 hlt'
    · have hserved := Site.serveAll_adds (idle_built id b hb) (requests_fresh hc hb)
        (by rw [hverdicts, List.pairwise_map]; exact Site.pending_pairwise)
        (by rw [hverdicts, List.forall_mem_map]; exact fun r hr =>
          by rw [Site.mem_pending.1 hr]; rfl) hge hlt
      rcases hserved with ⟨k, j, hx, hreached⟩ | ⟨n, a, k, ha⟩
      · refine .inl (hreached.subset (List.prefix_refl _)
          (List.cons_subset.2 ⟨?_, List.nil_subset _⟩))
        exact List.mem_append_right _ (Table.mem_values_iff.2 ⟨k, hx⟩)
      · obtain ⟨ch, hch, harg⟩ := Option.bind_eq_some_iff.1 ha
        by_cases hlisted : ch.draft?.isSome
        · have hargs := List.mem_of_getElem? harg
          exact .inl (.root (Site.mem_roots_of_argument (List.mem_of_getElem? hch) hlisted hargs))
        · exact .inr ⟨n, ch, hch, by simpa using hlisted, .inr ⟨a, k, ha⟩⟩
  refine ⟨hmain, fun hall i hlt => (hmain i hlt).resolve_right ?_⟩
  rintro ⟨n, ch, hch, hnone, _⟩
  have hsome := hall ch (List.mem_of_getElem? hch)
  rw [hnone] at hsome
  cases hsome

end Catalog

/-- `Mid` passes `K` on from `Root` to `Leaf`, for which it has a node. -/
theorem linked_reaches_mid : ∃ c s, Catalog.ofModel (quietModel [⟨"K", none⟩]) = .ok c ∧
    (c.linked true).site? "Mid" = some s ∧ s.diagnostics = [] ∧ s.draft.nodes.length = 1 ∧
    ∀ i, i < s.draft.nodes.length → s.draft.Reaches i := by
  have h : (Catalog.ofModel (quietModel [⟨"K", none⟩])).toOption.any fun c =>
      ((c.linked true).site? "Mid").any fun s =>
        decide (s.diagnostics = [] ∧ s.draft.nodes.length = 1 ∧
        ∀ ch ∈ s.children, ch.draft?.isSome) := by
    decide +kernel
  obtain ⟨c, hc, h⟩ := exists_of_any h
  obtain ⟨s, hs, h⟩ := (Option.any_eq_true _ _).1 h
  obtain ⟨hd, hlength, hall⟩ := of_decide_eq_true h
  exact ⟨c, s, hc, hs, hd, hlength, (Catalog.linked_reaches hc hs hd).2 hall⟩

/-- `Mid` draws `K` for `Leaf`, and then cannot list `Leaf`, for which `S` has failed silently. -/
theorem linked_keeps_dead_node :
    ∃ c s, Catalog.ofModel (quietModel [⟨"K", none⟩, ⟨"S", none⟩]) = .ok c ∧
    (c.linked true).site? "Mid" = some s ∧ s.diagnostics = [] ∧ (s.draft.freeze s.id).isSome ∧
    0 < s.draft.nodes.length ∧ ¬ s.draft.Reaches 0 := by
  have h : (Catalog.ofModel (quietModel [⟨"K", none⟩, ⟨"S", none⟩])).toOption.any fun c =>
      ((c.linked true).site? "Mid").any fun s =>
        decide (s.diagnostics = [] ∧ (s.draft.freeze s.id).isSome ∧
        0 < s.draft.nodes.length ∧ s.draft.roots = []) := by
    decide +kernel
  obtain ⟨c, hc, h⟩ := exists_of_any h
  obtain ⟨s, hs, h⟩ := (Option.any_eq_true _ _).1 h
  obtain ⟨hd, hfreeze, hlength, hroots⟩ := of_decide_eq_true h
  refine ⟨c, s, hc, hs, hd, hfreeze, hlength, fun hreached => ?_⟩
  rw [Draft.Reaches, hroots] at hreached
  exact Node.not_reached_nil hreached

end Wiring
