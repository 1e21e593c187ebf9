import Wiring.Graph
import Wiring.Proofs.Tables

set_option autoImplicit false

namespace Wiring

variable {α β γ : Type} {f : α → Option β} {l : List α}

theorem mapM_isSome_iff : (l.mapM f).isSome ↔ ∀ a ∈ l, (f a).isSome := by
  induction l with
  | nil => simp
  | cons a as ih =>
    rw [List.forall_mem_cons, ← ih]
    rw [List.mapM_cons]
    cases f a <;> cases as.mapM f <;> simp

theorem mapM_isSome (h : ∀ a ∈ l, (f a).isSome) : (l.mapM f).isSome := mapM_isSome_iff.2 h

theorem mapM_congr {g : α → Option β} (h : ∀ a ∈ l, f a = g a) : l.mapM f = l.mapM g := by
  induction l with
  | nil => rfl
  | cons a as ih =>
    obtain ⟨ha, has⟩ := List.forall_mem_cons.1 h
    rw [List.mapM_cons, List.mapM_cons, ha, ih has]

theorem mem_of_mem_mapM {r : List β} {b : β} (hr : l.mapM f = some r) (hb : b ∈ r) :
    ∃ a ∈ l, f a = some b := by
  induction l generalizing r with
  | nil =>
    cases hr
    cases hb
  | cons a as ih =>
    simp only [List.mapM_cons, Option.pure_def, Option.bind_eq_bind, Option.bind_eq_some_iff,
      Option.some.injEq] at hr
    obtain ⟨b', hb', bs, hbs, rfl⟩ := hr
    rcases List.mem_cons.1 hb with rfl | hb
    · exact ⟨a, List.mem_cons_self, hb'⟩
    · obtain ⟨x, hx, hfx⟩ := ih hbs hb
      exact ⟨x, List.mem_cons_of_mem _ hx, hfx⟩

theorem map_mapM {r : List β} {g : β → γ} {g' : α → γ} (hr : l.mapM f = some r)
    (h : ∀ a b, f a = some b → g b = g' a) : r.map g = l.map g' := by
  induction l generalizing r with
  | nil =>
    cases hr
    rfl
  | cons a as ih =>
    simp only [List.mapM_cons, Option.pure_def, Option.bind_eq_bind, Option.bind_eq_some_iff,
      Option.some.injEq] at hr
    obtain ⟨b, hb, bs, hbs, rfl⟩ := hr
    rw [List.map_cons, List.map_cons, h a b hb, ih hbs]

/-- Dependencies come before the nodes that need them, and whatever else is listed names nodes that
are there. -/
structure Draft.InOrder (d : Draft) : Prop where
  nodes : ∀ i (n : Node), d.nodes[i]? = some n → ∀ j ∈ n.dependencies, j < i
  keys : ∀ k i, d.keys.get? k = some i → i < d.nodes.length
  providers : ∀ e ∈ d.providers, e.2.2 < d.nodes.length
  builders : ∀ b ∈ d.builders, ∀ i ∈ b.args, i < d.nodes.length
  children : ∀ c ∈ d.children, ∀ e ∈ c.args, e.2 < d.nodes.length
  exports : ∀ k i, d.exports.get? k = some i → i < d.nodes.length

def Node.Ordered (ns : List Node) : Prop :=
  ∀ i (n : Node), ns[i]? = some n → ∀ j ∈ n.dependencies, j < i

/-- What freezing a draft takes: its nodes are in order, and those that are wanted from outside are
there. -/
structure Draft.Ready (d : Draft) : Prop where
  nodes : Node.Ordered d.nodes
  providers : ∀ e ∈ d.providers, e.2.2 < d.nodes.length
  builders : ∀ b ∈ d.builders, ∀ i ∈ b.args, i < d.nodes.length
  children : ∀ c ∈ d.children, ∀ e ∈ c.args, e.2 < d.nodes.length

theorem Draft.InOrder.ready {d : Draft} (h : d.InOrder) : d.Ready :=
  ⟨h.nodes, h.providers, h.builders, h.children⟩

namespace Expressions

variable {es es' : Expressions} {n : Node} {i : Nat}

theorem use?_isSome (h : i < es.uses.length) : (es.use? i).isSome := by
  simp [use?, h]

theorem root?_isSome (h : i < es.uses.length) : (es.root? i).isSome := by
  obtain ⟨u, hu⟩ := Option.isSome_iff_exists.1 (use?_isSome h)
  cases hr : es.recipes.get? i <;> simp [root?, hu, hr]

theorem add_isSome (h : ∀ j ∈ n.dependencies, j < es.uses.length) : (es.add n).isSome := by
  obtain ⟨args, hargs⟩ := Option.isSome_iff_exists.1 (mapM_isSome fun j hj => use?_isSome (h j hj))
  unfold add
  cases n.binding with
  | external => rfl
  | inherited => rfl
  | factory _ _ _ m => cases m <;> simp [hargs]
  | auto _ _ m _ => cases m <;> simp [hargs]

theorem foldlM_add {ns : List Node}
    (h : ∀ i n, ns[i]? = some n → ∀ j ∈ n.dependencies, j < es.uses.length + i) :
    ∃ es', ns.foldlM add es = some es' ∧ es'.uses.length = es.uses.length + ns.length := by
  induction ns generalizing es with
  | nil => exact ⟨es, rfl, rfl⟩
  | cons n ns ih =>
    obtain ⟨es₁, hes₁⟩ := Option.isSome_iff_exists.1 (add_isSome (h 0 n rfl))
    have hlen := length_uses_add hes₁
    obtain ⟨es', hes', hlen'⟩ := @ih es₁ fun i m hm j hj => by
      have := h (i + 1) m hm j hj
      omega
    refine ⟨es', by simp [List.foldlM_cons, hes₁, hes'], ?_⟩
    rw [List.length_cons]
    omega

end Expressions

namespace Draft

variable {d : Draft} {id : InjectorId} {g : Graph}

theorem Ready.freeze_isSome (h : d.Ready) : (d.freeze id).isSome := by
  obtain ⟨es, hes, hlen⟩ := @Expressions.foldlM_add .none d.nodes fun i n hn j hj => by
    have := h.nodes i n hn j hj
    exact Nat.lt_of_lt_of_le this (Nat.le_add_left _ _)
  have hlen : es.uses.length = d.nodes.length := by simpa [Expressions.none] using hlen
  have hp : (d.providers.mapM (freezeProvider es)).isSome := mapM_isSome fun e he => by
    obtain ⟨m, k, i⟩ := e
    simpa [freezeProvider] using Expressions.root?_isSome (hlen ▸ h.providers _ he)
  have hb : (d.builders.mapM (freezeBuilder es)).isSome := mapM_isSome fun b hb => by
    have hargs : (b.args.mapM es.root?).isSome :=
      mapM_isSome fun i hi => Expressions.root?_isSome (hlen ▸ h.builders b hb i hi)
    simpa [freezeBuilder] using hargs
  have hc : (d.children.mapM (freezeChild es)).isSome := mapM_isSome fun c hc => by
    have hargs : (c.args.mapM fun (e : Key × Nat) => (es.root? e.2).map (e.1, ·)).isSome :=
      mapM_isSome fun e he => by
        simpa using Expressions.root?_isSome (hlen ▸ h.children c hc e he)
    simpa [freezeChild] using hargs
  obtain ⟨ps, hps⟩ := Option.isSome_iff_exists.1 hp
  obtain ⟨bs, hbs⟩ := Option.isSome_iff_exists.1 hb
  obtain ⟨cs, hcs⟩ := Option.isSome_iff_exists.1 hc
  simp [freeze, Expressions.ofNodes, hes, hps, hbs, hcs]

theorem freeze_isSome (h : d.InOrder) : (d.freeze id).isSome := h.ready.freeze_isSome

theorem freeze_some (h : d.freeze id = some g) :
    g.nodes = d.nodes ∧ g.keys = d.keys ∧ g.exports = d.exports ∧
      g.providers.map (fun p => (p.method, p.key)) = d.providers.map (fun e => (e.1, e.2.1)) ∧
      g.builders.map (fun b => (b.method, b.key)) = d.builders.map (fun b => (b.method, b.key)) ∧
      g.children.map (fun c => (c.method, c.child)) =
        d.children.map (fun c => (c.method, c.child)) := by
  simp only [freeze, Option.bind_eq_bind, Option.bind_eq_some_iff, Option.some.injEq] at h
  obtain ⟨es, _, ps, hps, bs, hbs, cs, hcs, rfl⟩ := h
  refine ⟨rfl, rfl, rfl, map_mapM hps ?_, map_mapM hbs ?_, map_mapM hcs ?_⟩
  · rintro ⟨m, k, i⟩ p hp
    simp only [freezeProvider, Option.map_eq_some_iff] at hp
    obtain ⟨e, _, rfl⟩ := hp
    rfl
  · intro b b' hb
    simp only [freezeBuilder, Option.map_eq_some_iff] at hb
    obtain ⟨args, _, rfl⟩ := hb
    rfl
  · intro c c' hc
    simp only [freezeChild, Option.map_eq_some_iff] at hc
    obtain ⟨args, _, rfl⟩ := hc
    rfl

theorem freeze_providers (h : d.freeze id = some g) :
    g.providers.map (fun p => (p.method, p.key, p.node)) = d.providers := by
  simp only [freeze, Option.bind_eq_bind, Option.bind_eq_some_iff, Option.some.injEq] at h
  obtain ⟨es, _, ps, hps, _, _, _, _, rfl⟩ := h
  have hmap : ps.map (fun p => (p.method, p.key, p.node)) = d.providers.map fun e => e := by
    refine map_mapM hps ?_
    rintro ⟨m, k, i⟩ p hp
    simp only [freezeProvider, Option.map_eq_some_iff] at hp
    obtain ⟨e, _, rfl⟩ := hp
    rfl
  rw [hmap, List.map_id']

end Draft

end Wiring
