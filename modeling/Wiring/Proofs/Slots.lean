import Mathlib.Data.List.Forall2
import Wiring.Proofs.Freezing

set_option autoImplicit false

namespace Wiring

namespace Expr

def calls : Expr → List (Nat × List Expr)
  | .invoke i args => (i, args) :: args.flatMap calls
  | .use _ => []

def made (e : Expr) : List Nat := e.calls.map (·.1)

def used : Expr → List Use
  | .invoke _ args => args.flatMap used
  | .use u => [u]

/-- No call is nested in another. -/
def Flat (e : Expr) : Prop := ∀ i args, e = .invoke i args → ∀ a ∈ args, ∃ u, a = .use u

variable {i : Nat} {args : List Expr} {u : Use}

theorem Flat.calls (h : (invoke i args).Flat) : (invoke i args).calls = [(i, args)] := by
  rw [Expr.calls, List.flatMap_eq_nil_iff.2 fun a ha => ?_]
  obtain ⟨u, rfl⟩ := h i args rfl a ha
  rw [Expr.calls]

theorem Flat.made (h : (invoke i args).Flat) : (invoke i args).made = [i] := by
  rw [Expr.made, h.calls, List.map_singleton]

theorem Flat.mem_used (h : (invoke i args).Flat) : u ∈ (invoke i args).used ↔ .use u ∈ args := by
  rw [Expr.used, List.mem_flatMap]
  constructor
  · rintro ⟨a, ha, hu⟩
    obtain ⟨v, rfl⟩ := h i args rfl a ha
    rw [Expr.used, List.mem_singleton] at hu
    rwa [hu]
  · exact fun hu => ⟨_, hu, by rw [Expr.used]; exact List.mem_singleton.2 rfl⟩

end Expr

def Node.scopedIds (ns : List Node) : List Nat :=
  (List.range ns.length).filter fun i => ns[i]?.any (·.binding.isScoped)

/-- The nodes that are wanted from outside: for providers, then for builders, then for children. -/
def Draft.wanted (d : Draft) : List Nat :=
  d.providers.map (·.2.2) ++ (d.builders.flatMap (·.args) ++ d.children.flatMap fun c =>
    c.args.map (·.2))

namespace Graph

def roots (g : Graph) : List Expr :=
  g.providers.map (·.expr) ++ (g.builders.flatMap (·.args) ++ g.children.flatMap fun c =>
    c.args.map (·.2))

def exprs (g : Graph) : List Expr := g.roots ++ (g.slots.map (·.init) ++ g.recipes.values)

/-- Among all expressions the one at a slot alone makes the slot's node. Whatever else wants the
node, as a root or to make another node, reads the slot. -/
structure MadeOnce (g : Graph) (d : Draft) (s : ScopedSlot) : Prop where
  init : s.init.made = [s.node]
  once : (g.exprs.flatMap Expr.made).count s.node = 1
  kept : .recurrent s.node ∉ g.exprs.flatMap Expr.used
  roots : List.Forall₂ (fun i e => i = s.node → e = .use (.scoped s.slot)) d.wanted g.roots
  args : ∀ i args, (i, args) ∈ g.exprs.flatMap Expr.calls → ∃ n, g.node? i = some n ∧
    List.Forall₂ (fun j a => j = s.node → a = .use (.scoped s.slot)) n.dependencies args

end Graph

section MapM

variable {α β : Type} {f : α → Option β} {l : List α} {r : List β}

theorem mapM_eq_some_iff : l.mapM f = some r ↔ List.Forall₂ (fun a b => f a = some b) l r := by
  induction l generalizing r with
  | nil => cases r <;> simp
  | cons a as ih =>
    simp only [List.mapM_cons, Option.pure_def, Option.bind_eq_bind, Option.bind_eq_some_iff,
      Option.some.injEq, List.forall₂_cons_left_iff, ih]
    constructor
    · rintro ⟨b, hb, bs, hbs, rfl⟩
      exact ⟨b, bs, hb, hbs, rfl⟩
    · rintro ⟨b, bs, hb, hbs, rfl⟩
      exact ⟨b, hb, bs, hbs, rfl⟩

end MapM

theorem exists_of_forall₂ {α β : Type} {R : α → β → Prop} {l : List α} {r : List β} {b : β}
    (h : List.Forall₂ R l r) (hb : b ∈ r) : ∃ a ∈ l, R a b := by
  induction h with
  | nil => cases hb
  | @cons a _ _ _ hab _ ih =>
    rcases List.mem_cons.1 hb with rfl | hb
    · exact ⟨a, List.mem_cons_self, hab⟩
    · obtain ⟨a', ha', hr⟩ := ih hb
      exact ⟨a', List.mem_cons_of_mem _ ha', hr⟩

theorem Node.scopedIds_append {ns : List Node} {n : Node} : scopedIds (ns ++ [n]) =
    scopedIds ns ++ if n.binding.isScoped then [ns.length] else [] := by
  unfold scopedIds
  rw [List.length_append, List.length_singleton, List.range_succ, List.filter_append]
  congr 1
  · refine List.filter_congr fun i hi => ?_
    rw [List.getElem?_append_left (List.mem_range.1 hi)]
  · rw [List.filter_singleton, List.getElem?_concat_length]
    simp only [Option.any_some, Bool.cond_eq_ite]

theorem Node.scopedIds_nodup (ns : List Node) : (scopedIds ns).Nodup := List.nodup_range.filter _

theorem Node.mem_scopedIds {ns : List Node} {i : Nat} :
    i ∈ scopedIds ns ↔ ∃ n, ns[i]? = some n ∧ n.binding.isScoped := by
  simp only [scopedIds, List.mem_filter, List.mem_range, Option.any_eq_true]
  refine ⟨fun h => h.2, fun h => ⟨?_, h⟩⟩
  obtain ⟨n, hn, _⟩ := h
  exact (List.getElem?_eq_some_iff.1 hn).1

namespace Expressions

variable {es es' : Expressions} {ns : List Node} {n : Node} {i j : Nat} {e : Expr} {u : Use}
  {a : Expr}

/-- The making of a node from the values that its dependencies are used by. -/
def Makes (es : Expressions) (ns : List Node) (i : Nat) (e : Expr) : Prop :=
  ∃ n args, ns[i]? = some n ∧ e = .invoke i args ∧
    List.Forall₂ (fun j a => es.use? j = some a) n.dependencies args

theorem add_cases (h : es.add n = some es') :
    (n.binding.mode = Option.none ∧ ∃ u, (u = .external n.key ∨ u = .inherited n.key) ∧
      es' = { es with uses := es.uses ++ [.use u] }) ∨
    ∃ args, List.Forall₂ (fun j a => es.use? j = some a) n.dependencies args ∧
      (n.binding.mode = some .scoped ∧ es' = { es with
          uses := es.uses ++ [.use (.scoped es.slots.length)]
          slots := es.slots ++ [⟨es.slots.length, es.uses.length, .invoke es.uses.length args⟩] } ∨
        n.binding.mode = some .recurrent ∧ es' = { es with
          uses := es.uses ++ [.use (.recurrent es.uses.length)]
          recipes := es.recipes.insert es.uses.length (.invoke es.uses.length args) }) := by
  unfold add at h
  dsimp only at h
  split at h
  · rename_i hb
    cases h
    exact .inl ⟨by rw [hb]; rfl, _, .inl rfl, rfl⟩
  · rename_i hb
    cases h
    exact .inl ⟨by rw [hb]; rfl, _, .inr rfl, rfl⟩
  all_goals
    rename_i hb
    simp only [Option.bind_eq_bind, Option.bind_eq_some_iff] at h
    obtain ⟨args, hargs, h⟩ := h
    refine .inr ⟨args, mapM_eq_some_iff.1 hargs, ?_⟩
    split at h <;> cases h
    · exact .inl ⟨by rw [hb]; rfl, rfl⟩
    · exact .inr ⟨by rw [hb]; rfl, rfl⟩

/-- What is known of the expressions for a list of nodes. -/
structure Describes (es : Expressions) (ns : List Node) : Prop where
  length : es.uses.length = ns.length
  slotIds : es.slots.map (·.slot) = List.range es.slots.length
  slotNodes : es.slots.map (·.node) = Node.scopedIds ns
  flat : ∀ j a, es.use? j = some a → ∃ u, a = .use u
  inits : ∀ s ∈ es.slots, es.use? s.node = some (.use (.scoped s.slot)) ∧ es.Makes ns s.node s.init
  recipes : ∀ i e, es.recipes.get? i = some e →
    es.Makes ns i e ∧ ∃ n, ns[i]? = some n ∧ n.binding.mode = some .recurrent
  recurrent : ∀ j i, es.use? j = some (.use (.recurrent i)) → j = i

theorem uses_add (h : es.add n = some es') : ∃ u, es'.uses = es.uses ++ [.use u] := by
  rcases add_cases h with ⟨_, u, _, rfl⟩ | ⟨args, _, ⟨_, rfl⟩ | ⟨_, rfl⟩⟩ <;> exact ⟨_, rfl⟩

theorem use?_add (ha : es.add n = some es') (h : es.use? i = some a) : es'.use? i = some a := by
  obtain ⟨v, hv⟩ := uses_add ha
  obtain ⟨hlt, _⟩ := List.getElem?_eq_some_iff.1 h
  rw [use?, hv, List.getElem?_append_left hlt]
  exact h

theorem use?_last (hu : es'.uses = es.uses ++ [a]) : es'.use? es.uses.length = some a := by
  rw [use?, hu, List.getElem?_concat_length]

theorem use?_concat {b : Expr} (hu : es'.uses = es.uses ++ [b]) (h : es'.use? i = some a) :
    es.use? i = some a ∨ i = es.uses.length ∧ a = b := by
  rw [use?, hu, List.getElem?_append] at h
  split at h
  · exact .inl h
  · obtain ⟨hlt, h⟩ := List.getElem?_eq_some_iff.1 h
    simp only [List.length_singleton] at hlt
    exact .inr ⟨by omega, by simpa using h.symm⟩

theorem Makes.add (h : es.Makes ns i e) (ha : es.add n = some es') : es'.Makes (ns ++ [n]) i e := by
  obtain ⟨m, args, hm, rfl, hargs⟩ := h
  obtain ⟨hlt, _⟩ := List.getElem?_eq_some_iff.1 hm
  exact ⟨m, args, by rw [List.getElem?_append_left hlt, hm], rfl, hargs.imp fun _ _ => use?_add ha⟩

theorem Describes.inits_add (h : es.Describes ns) (ha : es.add n = some es') : ∀ s ∈ es.slots,
    es'.use? s.node = some (.use (.scoped s.slot)) ∧
    es'.Makes (ns ++ [n]) s.node s.init := fun s hs =>
  ⟨use?_add ha (h.inits s hs).1, (h.inits s hs).2.add ha⟩

theorem Describes.recipes_add (h : es.Describes ns) (ha : es.add n = some es') : ∀ i e,
    es.recipes.get? i = some e → es'.Makes (ns ++ [n]) i e ∧
      ∃ m, (ns ++ [n])[i]? = some m ∧ m.binding.mode = some .recurrent := by
  intro i e he
  obtain ⟨hmakes, m, hm, hmode⟩ := h.recipes i e he
  obtain ⟨hlt, _⟩ := List.getElem?_eq_some_iff.1 hm
  exact ⟨hmakes.add ha, m, by rw [List.getElem?_append_left hlt, hm], hmode⟩

theorem Describes.add (h : es.Describes ns) (ha : es.add n = some es') :
    es'.Describes (ns ++ [n]) := by
  have hlength : es'.uses.length = (ns ++ [n]).length := by
    rw [length_uses_add ha, h.length, List.length_append, List.length_singleton]
  have hlast : (ns ++ [n])[es.uses.length]? = some n := by
    rw [h.length, List.getElem?_concat_length]
  have hinits := h.inits_add ha
  have hrecipes := h.recipes_add ha
  have hflat : ∀ j a, es'.use? j = some a → ∃ u, a = .use u := by
    obtain ⟨u, hu⟩ := uses_add ha
    intro j a hj
    rcases use?_concat hu hj with hold | ⟨_, rfl⟩
    · exact h.flat j a hold
    · exact ⟨u, rfl⟩
  have hmakes : ∀ {args : List Expr},
    List.Forall₂ (fun j a => es.use? j = some a) n.dependencies args →
      es'.Makes (ns ++ [n]) es.uses.length (.invoke es.uses.length args) := fun hargs =>
    ⟨n, _, hlast, rfl, hargs.imp fun _ _ => use?_add ha⟩
  rcases add_cases ha with ⟨hmode, u, hu, rfl⟩ | ⟨args, hargs, ⟨hmode, rfl⟩ | ⟨hmode, rfl⟩⟩
  · refine ⟨hlength, h.slotIds, ?_, hflat, hinits, hrecipes, fun j i hj => ?_⟩
    · rw [Node.scopedIds_append, h.slotNodes]
      simp [Binding.isScoped, hmode]
    · rcases use?_concat rfl hj with hold | ⟨_, he⟩
      · exact h.recurrent j i hold
      · cases he
        rcases hu with hu | hu <;> cases hu
  · refine ⟨hlength, ?_, ?_, hflat, fun s hs => ?_, hrecipes, fun j i hj => ?_⟩
    · rw [List.map_append, h.slotIds, List.length_append, List.length_singleton, List.range_succ]
      rfl
    · rw [List.map_append, h.slotNodes, Node.scopedIds_append, h.length]
      simp [Binding.isScoped, hmode]
    · rcases List.mem_append.1 hs with hs | hs
      · exact hinits s hs
      · obtain rfl := List.mem_singleton.1 hs
        exact ⟨use?_last rfl, hmakes hargs⟩
    · rcases use?_concat rfl hj with hold | ⟨_, hu⟩
      · exact h.recurrent j i hold
      · cases hu
  · refine ⟨hlength, h.slotIds, ?_, hflat, hinits, fun i e he => ?_, fun j i hj => ?_⟩
    · rw [Node.scopedIds_append, h.slotNodes]
      simp [Binding.isScoped, hmode]
    · dsimp only at he
      rw [Table.get?_insert] at he
      split at he
      · rename_i hi
        cases he
        subst hi
        exact ⟨hmakes hargs, n, hlast, hmode⟩
      · exact hrecipes i e he
    · rcases use?_concat rfl hj with hold | ⟨hlast, hu⟩
      · exact h.recurrent j i hold
      · cases hu
        exact hlast

theorem Describes.foldlM {ms : List Node} (h : es.Describes ns)
    (hm : ms.foldlM Expressions.add es = some es') : es'.Describes (ns ++ ms) := by
  induction ms generalizing es ns with
  | nil =>
    cases hm
    rwa [List.append_nil]
  | cons n ms ih =>
    simp only [List.foldlM_cons, Option.bind_eq_bind, Option.bind_eq_some_iff] at hm
    obtain ⟨es₁, ha, hm⟩ := hm
    have := ih (h.add ha) hm
    rwa [List.append_assoc, List.singleton_append] at this

theorem describes_ofNodes (h : ofNodes ns = some es) : es.Describes ns := by
  have hnone : Expressions.none.Describes [] :=
    ⟨rfl, rfl, rfl, by simp [Expressions.none, use?], by simp [Expressions.none],
      by simp [Expressions.none], by simp [Expressions.none, use?]⟩
  exact hnone.foldlM h

theorem Describes.use?_node (h : es.Describes ns) {s : ScopedSlot} (hs : s ∈ es.slots)
    (hu : es.use? j = some a) :
    (j = s.node → a = .use (.scoped s.slot)) ∧ a ≠ .use (.recurrent s.node) := by
  have hnode := (h.inits s hs).1
  constructor
  · rintro rfl
    rw [hnode] at hu
    exact (Option.some.inj hu).symm
  · rintro rfl
    rw [h.recurrent j _ hu, hnode] at hu
    cases hu

theorem Describes.not_recurrent (h : es.Describes ns) {s : ScopedSlot} (hs : s ∈ es.slots) :
    es.recipes.get? s.node = Option.none := by
  cases hr : es.recipes.get? s.node with
  | none => rfl
  | some e =>
    obtain ⟨_, n, hn, hmode⟩ := h.recipes _ e hr
    have hm : s.node ∈ Node.scopedIds ns := h.slotNodes ▸ List.mem_map_of_mem hs
    obtain ⟨n', hn', hscoped⟩ := Node.mem_scopedIds.1 hm
    rw [hn] at hn'
    cases hn'
    simp [Binding.isScoped, hmode] at hscoped

/-- What a making takes are values that have been made elsewhere. -/
theorem Makes.flat (h : es.Makes ns i e) (hes : es.Describes ns) : e.Flat := by
  obtain ⟨_, args, _, rfl, hargs⟩ := h
  rintro _ _ ⟨⟩ a ha
  obtain ⟨j, _, hj⟩ := exists_of_forall₂ hargs ha
  exact hes.flat j a hj

theorem Makes.made (h : es.Makes ns i e) (hes : es.Describes ns) : e.made = [i] := by
  have hflat := h.flat hes
  obtain ⟨_, _, _, rfl, _⟩ := h
  exact hflat.made

theorem root?_cases (h : es.root? i = some e) :
    es.recipes.get? i = some e ∨ es.use? i = some e := by
  unfold root? at h
  cases hr : es.recipes.get? i with
  | some e' =>
    rw [hr] at h
    exact .inl h
  | none =>
    rw [hr] at h
    exact .inr h

structure Extends (es es' : Expressions) : Prop where
  uses : es.uses <+: es'.uses
  slots : es.slots <+: es'.slots
  recipes : ∀ i, i < es.uses.length → es'.recipes.get? i = es.recipes.get? i

theorem Extends.refl (es : Expressions) : es.Extends es :=
  ⟨List.prefix_refl _, List.prefix_refl _, fun _ _ => rfl⟩

theorem Extends.trans {es'' : Expressions} (h : es.Extends es') (h' : es'.Extends es'') :
    es.Extends es'' where
  uses := h.uses.trans h'.uses
  slots := h.slots.trans h'.slots
  recipes i hi := by rw [h'.recipes i (Nat.lt_of_lt_of_le hi h.uses.length_le), h.recipes i hi]

theorem Extends.add (h : es.add n = some es') : es.Extends es' := by
  rcases add_cases h with ⟨_, u, _, rfl⟩ | ⟨args, _, ⟨_, rfl⟩ | ⟨_, rfl⟩⟩
  · exact ⟨List.prefix_append _ _, List.prefix_refl _, fun _ _ => rfl⟩
  · exact ⟨List.prefix_append _ _, List.prefix_append _ _, fun _ _ => rfl⟩
  · refine ⟨List.prefix_append _ _, List.prefix_refl _, fun i hi => ?_⟩
    dsimp only
    rw [Table.get?_insert, if_neg (Nat.ne_of_lt hi)]

theorem Extends.foldlM (h : ns.foldlM Expressions.add es = some es') : es.Extends es' := by
  induction ns generalizing es with
  | nil =>
    cases h
    exact .refl _
  | cons n ns ih =>
    simp only [List.foldlM_cons, Option.bind_eq_bind, Option.bind_eq_some_iff] at h
    obtain ⟨es₁, ha, h⟩ := h
    exact (Extends.add ha).trans (ih h)

theorem Extends.use? (h : es.Extends es') (hi : i < es.uses.length) : es'.use? i = es.use? i := by
  rw [Expressions.use?, Expressions.use?, List.getElem?_eq_getElem hi]
  exact List.prefix_iff_getElem?.1 h.uses i hi

theorem Extends.root? (h : es.Extends es') (hi : i < es.uses.length) :
    es'.root? i = es.root? i := by
  rw [Expressions.root?, Expressions.root?, h.recipes i hi, h.use? hi]

theorem exists_ofNodes_of_prefix {ns' : List Node} (hp : ns <+: ns') (h : ofNodes ns' = some es') :
    ∃ es, ofNodes ns = some es ∧ es.Extends es' := by
  obtain ⟨ms, rfl⟩ := hp
  simp only [ofNodes, List.foldlM_append, Option.bind_eq_bind, Option.bind_eq_some_iff] at h
  obtain ⟨es, hes, h⟩ := h
  exact ⟨es, hes, .foldlM h⟩

end Expressions

namespace Graph

variable {g : Graph} {d : Draft} {id : InjectorId} {es : Expressions} {e : Expr} {u : Use}
  {s : ScopedSlot}

structure Expressed (g : Graph) (d : Draft) (es : Expressions) : Prop where
  describes : es.Describes g.nodes
  slots : g.slots = es.slots
  recipes : g.recipes = es.recipes
  roots : List.Forall₂ (fun i e => es.root? i = some e) d.wanted g.roots

/-- The parts of a graph, each written from its part of the draft. -/
structure Frozen (g : Graph) (d : Draft) (es : Expressions) : Prop where
  nodes : Expressions.ofNodes g.nodes = some es
  providers : List.Forall₂ (fun w p => Draft.freezeProvider es w = some p) d.providers g.providers
  builders : List.Forall₂ (fun w b => Draft.freezeBuilder es w = some b) d.builders g.builders
  children : List.Forall₂ (fun w c => Draft.freezeChild es w = some c) d.children g.children
  slots : g.slots = es.slots
  recipes : g.recipes = es.recipes

theorem exists_frozen (h : d.freeze id = some g) : ∃ es, g.Frozen d es := by
  simp only [Draft.freeze, Option.bind_eq_bind, Option.bind_eq_some_iff, Option.some.injEq] at h
  obtain ⟨es, hes, ps, hps, bs, hbs, cs, hcs, rfl⟩ := h
  exact ⟨es, hes, mapM_eq_some_iff.1 hps, mapM_eq_some_iff.1 hbs, mapM_eq_some_iff.1 hcs, rfl, rfl⟩

theorem Frozen.expressed (hf : g.Frozen d es) : g.Expressed d es := by
  refine ⟨Expressions.describes_ofNodes hf.nodes, hf.slots, hf.recipes, ?_⟩
  have hproviders : List.Forall₂ (fun i e => es.root? i = some e) (d.providers.map (·.2.2))
      (g.providers.map (·.expr)) := by
    rw [List.forall₂_map_left_iff, List.forall₂_map_right_iff]
    refine hf.providers.imp fun e p hp => ?_
    obtain ⟨m, k, i⟩ := e
    obtain ⟨x, hx, rfl⟩ := Option.map_eq_some_iff.1 hp
    exact hx
  have hbuilders : List.Forall₂ (fun i e => es.root? i = some e) (d.builders.flatMap (·.args))
      (g.builders.flatMap (·.args)) := by
    refine List.rel_flatMap hf.builders fun b b' hb => ?_
    obtain ⟨args, hargs, rfl⟩ := Option.map_eq_some_iff.1 hb
    exact mapM_eq_some_iff.1 hargs
  have hchildren : List.Forall₂ (fun i e => es.root? i = some e)
      (d.children.flatMap fun c => c.args.map (·.2))
        (g.children.flatMap fun c => c.args.map (·.2)) := by
    refine List.rel_flatMap hf.children fun c c' hc => ?_
    obtain ⟨args, hargs, rfl⟩ := Option.map_eq_some_iff.1 hc
    rw [List.forall₂_map_left_iff, List.forall₂_map_right_iff]
    refine (mapM_eq_some_iff.1 hargs).imp fun a b hb => ?_
    obtain ⟨x, hx, rfl⟩ := Option.map_eq_some_iff.1 hb
    exact hx
  exact List.rel_append hproviders (List.rel_append hbuilders hchildren)

theorem exists_expressed (h : d.freeze id = some g) : ∃ es, g.Expressed d es := by
  obtain ⟨es, hf⟩ := exists_frozen h
  exact ⟨es, hf.expressed⟩

namespace Expressed

theorem exists_root (h : g.Expressed d es) (he : e ∈ g.roots) : ∃ i, es.root? i = some e := by
  obtain ⟨i, _, hi⟩ := exists_of_forall₂ h.roots he
  exact ⟨i, hi⟩

theorem mem_exprs (h : g.Expressed d es) (he : e ∈ g.exprs) :
    (∃ j u, es.use? j = some e ∧ e = .use u) ∨ ∃ i, es.Makes g.nodes i e := by
  have hrecipes : ∀ i, g.recipes.get? i = some e → es.Makes g.nodes i e := fun i hi =>
    (h.describes.recipes i e (h.recipes ▸ hi)).1
  rcases List.mem_append.1 he with he | he
  · obtain ⟨i, hi⟩ := h.exists_root he
    rcases Expressions.root?_cases hi with hr | hu
    · exact .inr ⟨i, hrecipes i (by rw [h.recipes, hr])⟩
    · obtain ⟨u, rfl⟩ := h.describes.flat i e hu
      exact .inl ⟨i, u, hu, rfl⟩
  rcases List.mem_append.1 he with he | he
  · obtain ⟨s, hs, rfl⟩ := List.mem_map.1 he
    exact .inr ⟨s.node, (h.describes.inits s (h.slots ▸ hs)).2⟩
  · obtain ⟨i, hi⟩ := Table.mem_values_iff.1 he
    exact .inr ⟨i, hrecipes i hi⟩

theorem flat (h : g.Expressed d es) (he : e ∈ g.exprs) : e.Flat := by
  rcases h.mem_exprs he with ⟨_, u, _, rfl⟩ | ⟨i, hmakes⟩
  · rintro _ _ ⟨⟩
  · exact hmakes.flat h.describes

theorem exists_used (h : g.Expressed d es) (he : e ∈ g.exprs) (hu : u ∈ e.used) :
    ∃ j, es.use? j = some (.use u) := by
  have hflat := h.flat he
  rcases h.mem_exprs he with ⟨j, v, hj, rfl⟩ | ⟨_, _, args, _, rfl, hargs⟩
  · rw [Expr.used, List.mem_singleton] at hu
    exact ⟨j, hu ▸ hj⟩
  · obtain ⟨j, _, hj⟩ := exists_of_forall₂ hargs (hflat.mem_used.1 hu)
    exact ⟨j, hj⟩

theorem made_init (h : g.Expressed d es) (hs : s ∈ g.slots) : s.init.made = [s.node] :=
  (h.describes.inits s (h.slots ▸ hs)).2.made h.describes

/-- A scoped node is made by the initialiser of its slot alone. -/
theorem count_made (h : g.Expressed d es) (hs : s ∈ g.slots) :
    (g.exprs.flatMap Expr.made).count s.node = 1 := by
  have hnone : es.recipes.get? s.node = none := h.describes.not_recurrent (h.slots ▸ hs)
  have hrecipe : ∀ i e, es.recipes.get? i = some e → s.node ∉ e.made := by
    intro i e he hm
    rw [(h.describes.recipes i e he).1.made h.describes] at hm
    obtain rfl := List.mem_singleton.1 hm
    rw [hnone] at he
    cases he
  have hroots : (g.roots.flatMap Expr.made).count s.node = 0 := by
    refine List.count_eq_zero.2 fun hm => ?_
    obtain ⟨e, he, hm⟩ := List.mem_flatMap.1 hm
    obtain ⟨i, hi⟩ := h.exists_root he
    rcases Expressions.root?_cases hi with hr | hu
    · exact hrecipe i e hr hm
    · obtain ⟨u, rfl⟩ := h.describes.flat i e hu
      rw [Expr.made, Expr.calls] at hm
      cases hm
  have hrecipes : (g.recipes.values.flatMap Expr.made).count s.node = 0 := by
    refine List.count_eq_zero.2 fun hm => ?_
    obtain ⟨e, he, hm⟩ := List.mem_flatMap.1 hm
    obtain ⟨i, hi⟩ := Table.mem_values_iff.1 he
    exact hrecipe i e (h.recipes ▸ hi) hm
  have hslots : (g.slots.map (·.init)).flatMap Expr.made = Node.scopedIds g.nodes := by
    rw [← h.describes.slotNodes, ← h.slots, List.flatMap_map, List.map_eq_flatMap]
    exact List.flatMap_congr fun s hs => h.made_init hs
  have hmem : s.node ∈ Node.scopedIds g.nodes := by
    rw [← h.describes.slotNodes, ← h.slots]
    exact List.mem_map_of_mem hs
  rw [exprs, List.flatMap_append, List.flatMap_append, List.count_append, List.count_append, hroots,
    hrecipes, hslots, (Node.scopedIds_nodup _).count, if_pos hmem]

theorem madeOnce (h : g.Expressed d es) (hs : s ∈ g.slots) : g.MadeOnce d s := by
  have hs' : s ∈ es.slots := h.slots ▸ hs
  refine ⟨h.made_init hs, h.count_made hs, fun hm => ?_, h.roots.imp fun i e he hi => ?_,
    fun i args hm => ?_⟩
  · obtain ⟨e, he, hu⟩ := List.mem_flatMap.1 hm
    obtain ⟨j, hj⟩ := h.exists_used he hu
    exact (h.describes.use?_node hs' hj).2 rfl
  · rcases Expressions.root?_cases he with hr | hu
    · rw [hi, h.describes.not_recurrent hs'] at hr
      cases hr
    · exact (h.describes.use?_node hs' hu).1 hi
  · obtain ⟨e, he, hm⟩ := List.mem_flatMap.1 hm
    have hflat := h.flat he
    rcases h.mem_exprs he with ⟨_, u, _, rfl⟩ | ⟨_, n, _, hn, rfl, hargs⟩
    · rw [Expr.calls] at hm
      cases hm
    · rw [hflat.calls] at hm
      cases List.mem_singleton.1 hm
      exact ⟨n, hn, hargs.imp fun j a hj => (h.describes.use?_node hs' hj).1⟩

end Expressed

end Graph

end Wiring
