import Mathlib.Algebra.GroupWithZero.Nat
import Mathlib.Algebra.Order.BigOperators.Group.List
import Mathlib.Algebra.Order.Group.Nat
import Mathlib.Logic.Relation
import Wiring.Proofs.Slots

/-!
What the expressions of a graph stand for. A graph writes every making down once and refers to it
from elsewhere. Replacing references by what they refer to, wherever and in whatever order, comes to
an end, and what is left in each place is the making in full of the node that the draft wants there.
-/

set_option autoImplicit false

namespace Wiring

open Relation

namespace Expr

@[induction_eliminator]
theorem induct {motive : Expr → Prop}
    (invoke : ∀ node args, (∀ e ∈ args, motive e) → motive (.invoke node args))
    (use : ∀ value, motive (.use value)) : ∀ e, motive e
  | .invoke i args => invoke i args fun e _ => induct invoke use e
  | .use u => use u

def makes : Expr → Nat
  | .invoke _ args => (args.map makes).sum + 1
  | .use _ => 0

def fill (f : Use → Expr) : Expr → Expr
  | .invoke i args => .invoke i (args.map (fill f))
  | .use u => f u

variable {f : Use → Expr} {e : Expr} {i : Nat} {args : List Expr}

theorem makes_le_fill : e.makes ≤ (e.fill f).makes := by
  induction e with
  | use u => simp [makes]
  | invoke i args ih =>
    simp only [makes, fill, List.map_map]
    exact Nat.add_le_add_right (List.sum_le_sum ih) 1

theorem Flat.makes (h : (invoke i args).Flat) : (invoke i args).makes = 1 := by
  have hnone : args.map Expr.makes = args.map fun _ => 0 := List.map_congr_left fun a ha => by
    obtain ⟨u, rfl⟩ := h i args rfl a ha
    rw [Expr.makes]
  rw [Expr.makes, hnone]
  simp

end Expr

/-- The making of a node in full, down to the values that are not made here. A node is made from
earlier ones. -/
def Node.tree? (ns : List Node) (i : Nat) : Option Expr :=
  match ns[i]? with
  | none => none
  | some n =>
    match n.binding with
    | .external _ => some (.use (.external n.key))
    | .inherited => some (.use (.inherited n.key))
    | .factory _ _ _ _ | .auto _ _ _ _ =>
      (n.dependencies.mapM fun j => if j < i then tree? ns j else none).map (.invoke i)
termination_by i

namespace Graph

/-- A reference somewhere in an expression is replaced by what it refers to. -/
inductive Unfolds (g : Graph) : Expr → Expr → Prop where
  | slot {s : ScopedSlot} : s ∈ g.slots → Unfolds g (.use (.scoped s.slot)) s.init
  | recipe {i : Nat} {e : Expr} : g.recipes.get? i = some e → Unfolds g (.use (.recurrent i)) e
  | arg {i : Nat} {before after : List Expr} {t t' : Expr} : Unfolds g t t' →
      Unfolds g (.invoke i (before ++ t :: after)) (.invoke i (before ++ t' :: after))

/-- However its references are replaced, an expression comes to an end, and it has come to its end
exactly when it is written out in full. -/
structure WritesOut (g : Graph) (t full : Expr) : Prop where
  ends : Acc (fun t' t => g.Unfolds t t') t
  result : ∀ t', ReflTransGen g.Unfolds t t' → ((∀ t'', ¬ g.Unfolds t' t'') ↔ t' = full)

def Spells (g : Graph) (e : Expr) (i : Nat) : Prop :=
  ∃ t, Node.tree? g.nodes i = some t ∧ g.WritesOut e t

/-- A graph that says the same as its draft. Whatever is made is made from values that have been
made elsewhere. -/
structure Realizes (g : Graph) (d : Draft) : Prop where
  nodes : g.nodes = d.nodes
  keys : g.keys = d.keys
  exports : g.exports = d.exports
  providers : List.Forall₂ (fun w p => (p.method, p.key, p.node) = w ∧ g.Spells p.expr p.node)
    d.providers g.providers
  builders : List.Forall₂ (fun w b => b.method = w.method ∧ b.key = w.key ∧ b.builder = w.builder ∧
    List.Forall₂ (fun i e => g.Spells e i) w.args b.args) d.builders g.builders
  children : List.Forall₂ (fun w c => c.method = w.method ∧ c.child = w.child ∧
    List.Forall₂ (fun a e => e.1 = a.1 ∧ g.Spells e.2 a.2) w.args c.args) d.children g.children
  slots : ∀ s ∈ g.slots, g.Spells s.init s.node
  recipes : ∀ i e, g.recipes.get? i = some e → g.Spells e i
  kept : ∀ i n, g.nodes[i]? = some n → n.binding.isConstructed →
    (g.slots.map (·.node)).count i = (if n.binding.isScoped then 1 else 0) ∧
      ((g.recipes.get? i).isSome ↔ ¬ n.binding.isScoped)
  flat : ∀ e ∈ g.exprs, e.Flat

/-- Expressions for values that agree with what references are replaced by. -/
structure Reads (g : Graph) (f : Use → Expr) : Prop where
  slot : ∀ s ∈ g.slots, s.init.makes = 1 ∧ s.init.fill f = f (.scoped s.slot)
  recipe : ∀ i e, g.recipes.get? i = some e → e.makes = 1 ∧ e.fill f = f (.recurrent i)
  rest : ∀ u, (∀ t, ¬ g.Unfolds (.use u) t) → f u = .use u

namespace Reads

variable {g : Graph} {f : Use → Expr} {t t' : Expr}

theorem unfolds (h : g.Reads f) (hu : g.Unfolds t t') :
    t'.fill f = t.fill f ∧ t'.makes = t.makes + 1 := by
  induction hu with
  | slot hs => simpa [Expr.fill, Expr.makes] using (h.slot _ hs).symm
  | recipe hr => simpa [Expr.fill, Expr.makes] using (h.recipe _ _ hr).symm
  | arg _ ih =>
    obtain ⟨hfill, hmakes⟩ := ih
    simp only [Expr.fill, Expr.makes, List.map_append, List.map_cons, List.sum_append,
      List.sum_cons, hfill, hmakes, true_and]
    omega

theorem fill_of_reached (h : g.Reads f) (hr : ReflTransGen g.Unfolds t t') :
    t'.fill f = t.fill f := by
  induction hr with
  | refl => rfl
  | tail _ hu ih => rw [(h.unfolds hu).1, ih]

theorem fill_of_final (h : g.Reads f) (ht : ∀ t', ¬ g.Unfolds t t') : t.fill f = t := by
  induction t with
  | use u => simpa [Expr.fill] using h.rest u ht
  | invoke i args ih =>
    have hargs : ∀ t ∈ args, t.fill f = t := fun t hm => ih t hm fun t' hu => by
      obtain ⟨before, after, rfl⟩ := List.append_of_mem hm
      exact ht _ (.arg hu)
    simp only [Expr.fill, List.map_congr_left hargs, List.map_id']

/-- An expression that stands for itself has no reference, as replacing one would add a call. -/
theorem final_of_fill (h : g.Reads f) (ht : t.fill f = t) : ¬ g.Unfolds t t' := by
  intro hu
  obtain ⟨hfill, hmakes⟩ := h.unfolds hu
  have hle := Expr.makes_le_fill (f := f) (e := t')
  rw [hfill, ht] at hle
  omega

theorem ends (h : g.Reads f) (t : Expr) : Acc (fun t' t => g.Unfolds t t') t := by
  -- the calls that are still to be added become fewer
  induction hn : (t.fill f).makes - t.makes using Nat.strong_induction_on generalizing t with
  | _ n ih =>
    refine ⟨_, fun t' hu => ih _ ?_ t' rfl⟩
    obtain ⟨hfill, hmakes⟩ := h.unfolds hu
    have hle := Expr.makes_le_fill (f := f) (e := t')
    rw [hfill] at hle ⊢
    omega

theorem writesOut (h : g.Reads f) (t : Expr) : g.WritesOut t (t.fill f) where
  ends := h.ends t
  result t' hr := by
    have hfill := h.fill_of_reached hr
    constructor
    · intro ht
      rw [← hfill, h.fill_of_final ht]
    · rintro rfl t''
      exact h.final_of_fill hfill

end Reads

end Graph

namespace Node

variable {ns : List Node} {n : Node} {i : Nat}

theorem tree?_external {id : InterfaceId} (hn : ns[i]? = some n) (hb : n.binding = .external id) :
    tree? ns i = some (.use (.external n.key)) := by
  rw [tree?.eq_def]
  simp only [hn, hb]

theorem tree?_inherited (hn : ns[i]? = some n) (hb : n.binding = .inherited) :
    tree? ns i = some (.use (.inherited n.key)) := by
  rw [tree?.eq_def]
  simp only [hn, hb]

theorem tree?_constructed (hn : ns[i]? = some n) (hb : n.binding.isConstructed)
    (hdeps : ∀ j ∈ n.dependencies, j < i) :
    tree? ns i = (n.dependencies.mapM (tree? ns)).map (.invoke i) := by
  have hargs : (n.dependencies.mapM fun j => if j < i then tree? ns j else none) =
      n.dependencies.mapM (tree? ns) :=
    mapM_congr fun j hj => if_pos (hdeps j hj)
  rw [tree?.eq_def, ← hargs]
  simp only [hn]
  split
  · rename_i h
    simp [h, Binding.isConstructed, Binding.mode] at hb
  · rename_i h
    simp [h, Binding.isConstructed, Binding.mode] at hb
  · rfl
  · rfl

theorem tree?_isSome (h : Node.Ordered ns) (hi : i < ns.length) :
    (tree? ns i).isSome := by
  induction i using Nat.strong_induction_on with
  | _ i ih =>
    have hn := List.getElem?_eq_getElem hi
    cases hb : ns[i].binding with
    | external id => simp [tree?_external hn hb]
    | inherited => simp [tree?_inherited hn hb]
    | factory | auto =>
      rw [tree?_constructed hn (by simp [hb, Binding.isConstructed, Binding.mode]) (h i _ hn),
        Option.isSome_map]
      refine mapM_isSome fun j hj => ?_
      have hlt := h i _ hn j hj
      exact ih j hlt (Nat.lt_trans hlt hi)

end Node

namespace Expressions

variable {es es' : Expressions} {ns : List Node} {n : Node} {i j : Nat} {u : Use}

/-- How a node is used tells how its value comes about. -/
def Uses (es : Expressions) (n : Node) (j : Nat) : Use → Prop
  | .external k => (∃ id, n.binding = .external id) ∧ k = n.key
  | .inherited k => n.binding = .inherited ∧ k = n.key
  | .scoped s => ∃ slot ∈ es.slots, slot.slot = s ∧ slot.node = j
  | .recurrent i => i = j ∧ (es.recipes.get? j).isSome

theorem uses_of_add (h : es.add n = some es') :
    ∃ u, es'.use? es.uses.length = some (.use u) ∧ es'.Uses n es.uses.length u := by
  unfold add at h
  dsimp only at h
  split at h
  · rename_i hb
    cases h
    exact ⟨_, use?_last rfl, ⟨_, hb⟩, rfl⟩
  · rename_i hb
    cases h
    exact ⟨_, use?_last rfl, hb, rfl⟩
  all_goals
    simp only [Option.bind_eq_bind, Option.bind_eq_some_iff] at h
    obtain ⟨args, _, h⟩ := h
    split at h <;> cases h
    · exact ⟨_, use?_last rfl, _, List.mem_append_right _ List.mem_cons_self, rfl, rfl⟩
    · exact ⟨_, use?_last rfl, rfl, by simp [Table.get?_insert]⟩

theorem Extends.uses_of (h : es.Extends es') (hu : es.Uses n j u) (hj : j < es.uses.length) :
    es'.Uses n j u := by
  rcases u with s | i | k | k
  · obtain ⟨slot, hs, hslot⟩ := hu
    exact ⟨slot, h.slots.subset hs, hslot⟩
  · exact ⟨hu.1, by rw [h.recipes j hj]; exact hu.2⟩
  · exact hu
  · exact hu

theorem uses_ofNodes (h : ofNodes ns = some es) (hn : ns[j]? = some n) :
    ∃ u, es.use? j = some (.use u) ∧ es.Uses n j u := by
  obtain ⟨hj, rfl⟩ := List.getElem?_eq_some_iff.1 hn
  have hp : ns.take j ++ [ns[j]] <+: ns := by
    rw [List.take_concat_get' ns j hj]
    exact List.take_prefix _ _
  obtain ⟨es₁, h₁, hext⟩ := exists_ofNodes_of_prefix hp h
  obtain ⟨es₀, h₀, -⟩ := exists_ofNodes_of_prefix (List.prefix_append _ _) h₁
  have hlength : es₀.uses.length = j := by
    rw [(describes_ofNodes h₀).length, List.length_take]
    omega
  have hadd : es₀.add ns[j] = some es₁ := by
    simp only [ofNodes, List.foldlM_append, List.foldlM_cons, List.foldlM_nil] at h₁ h₀
    simpa [h₀] using h₁
  obtain ⟨u, hu, huses⟩ := uses_of_add hadd
  rw [hlength] at hu huses
  have hlt : j < es₁.uses.length := (List.getElem?_eq_some_iff.1 hu).1
  exact ⟨u, by rw [hext.use? hlt, hu], hext.uses_of huses hlt⟩

end Expressions

namespace Graph

/-- What values stand for in a graph: a slot and a recipe stand for the making of their node in
full. -/
def full (g : Graph) : Use → Expr
  | .scoped s => (g.slots[s]?.bind fun slot => Node.tree? g.nodes slot.node).getD (.use (.scoped s))
  | .recurrent i =>
    ((g.recipes.get? i).bind fun _ => Node.tree? g.nodes i).getD (.use (.recurrent i))
  | .external k => .use (.external k)
  | .inherited k => .use (.inherited k)

variable {g : Graph} {d : Draft} {id : InjectorId} {es : Expressions} {e : Expr} {s : ScopedSlot}
  {u : Use} {i j : Nat}

theorem Frozen.slot_eq (h : g.Frozen d es) (hs : g.slots[i]? = some s) : s.slot = i := by
  have hids := congrArg (·[i]?) (Expressions.describes_ofNodes h.nodes).slotIds
  rw [← h.slots, List.getElem?_map, hs,
    List.getElem?_range (List.getElem?_eq_some_iff.1 hs).1] at hids
  exact Option.some.inj hids

theorem full_scoped (h : g.Frozen d es) {t : Expr} (hs : s ∈ g.slots)
    (ht : Node.tree? g.nodes s.node = some t) : g.full (.scoped s.slot) = t := by
  obtain ⟨i, hi⟩ := List.mem_iff_getElem?.1 hs
  rw [full, h.slot_eq hi, hi, Option.bind_some, ht, Option.getD_some]

theorem full_recurrent {t : Expr} (he : g.recipes.get? i = some e)
    (ht : Node.tree? g.nodes i = some t) : g.full (.recurrent i) = t := by
  rw [full, he, Option.bind_some, ht, Option.getD_some]

namespace Frozen

theorem tree?_of_use? (h : g.Frozen d es) (ho : Node.Ordered g.nodes) (he : es.use? j = some e) :
    Node.tree? g.nodes j = some (e.fill g.full) := by
  have hlt : j < g.nodes.length := by
    rw [← (Expressions.describes_ofNodes h.nodes).length]
    exact (List.getElem?_eq_some_iff.1 he).1
  obtain ⟨t, ht⟩ := Option.isSome_iff_exists.1 (Node.tree?_isSome ho hlt)
  have hn := List.getElem?_eq_getElem hlt
  obtain ⟨u, hu, huses⟩ := Expressions.uses_ofNodes h.nodes hn
  obtain rfl : .use u = e := Option.some.inj (hu.symm.trans he)
  rw [Expr.fill]
  rcases u with s | i | k | k
  · obtain ⟨s, hs, rfl, rfl⟩ := huses
    rw [full_scoped h (h.slots ▸ hs) ht, ht]
  · obtain ⟨rfl, hr⟩ := huses
    obtain ⟨e, he⟩ := Option.isSome_iff_exists.1 hr
    rw [full_recurrent (h.recipes ▸ he) ht, ht]
  · obtain ⟨⟨id, hb⟩, rfl⟩ := huses
    exact Node.tree?_external hn hb
  · obtain ⟨hb, rfl⟩ := huses
    exact Node.tree?_inherited hn hb

theorem tree?_of_makes (h : g.Frozen d es) (ho : Node.Ordered g.nodes) (he : es.Makes g.nodes i e)
    (hb : ∀ n, g.nodes[i]? = some n → n.binding.isConstructed) :
    e.makes = 1 ∧ Node.tree? g.nodes i = some (e.fill g.full) := by
  have hflat := he.flat (Expressions.describes_ofNodes h.nodes)
  obtain ⟨n, args, hn, rfl, hargs⟩ := he
  have htrees : n.dependencies.mapM (Node.tree? g.nodes) = some (args.map (Expr.fill g.full)) := by
    rw [mapM_eq_some_iff, List.forall₂_map_right_iff]
    exact hargs.imp fun j a ha => h.tree?_of_use? ho ha
  refine ⟨hflat.makes, ?_⟩
  rw [Node.tree?_constructed hn (hb n hn) (ho i n hn), htrees, Expr.fill]
  rfl

theorem tree?_of_slot (h : g.Frozen d es) (ho : Node.Ordered g.nodes) (hs : s ∈ g.slots) :
    s.init.makes = 1 ∧ Node.tree? g.nodes s.node = some (s.init.fill g.full) := by
  have hes := Expressions.describes_ofNodes h.nodes
  refine h.tree?_of_makes ho (hes.inits s (h.slots ▸ hs)).2 fun n hn => ?_
  have hm : s.node ∈ Node.scopedIds g.nodes := by
    rw [← hes.slotNodes, ← h.slots]
    exact List.mem_map_of_mem hs
  obtain ⟨n', hn', hscoped⟩ := Node.mem_scopedIds.1 hm
  obtain rfl : n = n' := Option.some.inj (hn.symm.trans hn')
  simp only [Binding.isScoped, decide_eq_true_eq] at hscoped
  rw [Binding.isConstructed, hscoped]
  rfl

theorem tree?_of_recipe (h : g.Frozen d es) (ho : Node.Ordered g.nodes)
    (he : g.recipes.get? i = some e) :
    e.makes = 1 ∧ Node.tree? g.nodes i = some (e.fill g.full) := by
  obtain ⟨hmakes, n', hn', hmode⟩ :=
    (Expressions.describes_ofNodes h.nodes).recipes i e (h.recipes ▸ he)
  refine h.tree?_of_makes ho hmakes fun n hn => ?_
  obtain rfl : n = n' := Option.some.inj (hn.symm.trans hn')
  rw [Binding.isConstructed, hmode]
  rfl

theorem tree?_of_root (h : g.Frozen d es) (ho : Node.Ordered g.nodes) (he : es.root? i = some e) :
    Node.tree? g.nodes i = some (e.fill g.full) := by
  rcases Expressions.root?_cases he with hr | hu
  · exact (h.tree?_of_recipe ho (h.recipes ▸ hr)).2
  · exact h.tree?_of_use? ho hu

theorem reads (h : g.Frozen d es) (ho : Node.Ordered g.nodes) : g.Reads g.full where
  slot s hs :=
    have ht := h.tree?_of_slot ho hs
    ⟨ht.1, (full_scoped h hs ht.2).symm⟩
  recipe i e he :=
    have ht := h.tree?_of_recipe ho he
    ⟨ht.1, (full_recurrent he ht.2).symm⟩
  rest u hu := by
    rcases u with p | i | k | k
    · cases hp : g.slots[p]? with
      | none => rw [full, hp, Option.bind_none, Option.getD_none]
      | some s =>
        obtain rfl := h.slot_eq hp
        exact absurd (.slot (List.mem_of_getElem? hp)) (hu _)
    · cases hr : g.recipes.get? i with
      | none => rw [full, hr, Option.bind_none, Option.getD_none]
      | some e => exact absurd (.recipe hr) (hu _)
    · rfl
    · rfl

theorem spells (h : g.Frozen d es) (ho : Node.Ordered g.nodes)
    (ht : Node.tree? g.nodes i = some (e.fill g.full)) : g.Spells e i :=
  ⟨_, ht, (h.reads ho).writesOut _⟩

theorem kept (h : g.Frozen d es) {n : Node} (hn : g.nodes[i]? = some n)
    (hb : n.binding.isConstructed) :
    (g.slots.map (·.node)).count i = (if n.binding.isScoped then 1 else 0) ∧
      ((g.recipes.get? i).isSome ↔ ¬ n.binding.isScoped) := by
  have hes := Expressions.describes_ofNodes h.nodes
  have hscoped : i ∈ Node.scopedIds g.nodes ↔ n.binding.isScoped := by
    rw [Node.mem_scopedIds, hn]
    simp
  refine ⟨?_, fun hr => ?_, fun hs => ?_⟩
  · rw [h.slots, hes.slotNodes, (Node.scopedIds_nodup _).count]
    simp only [hscoped]
  · obtain ⟨e, he⟩ := Option.isSome_iff_exists.1 hr
    obtain ⟨_, n', hn', hmode⟩ := hes.recipes i e (h.recipes ▸ he)
    obtain rfl : n = n' := Option.some.inj (hn.symm.trans hn')
    simp [Binding.isScoped, hmode]
  · obtain ⟨u, _, huses⟩ := Expressions.uses_ofNodes h.nodes hn
    rcases u with p | j | k | k
    · obtain ⟨s, hslot, _, rfl⟩ := huses
      refine absurd (hscoped.1 ?_) hs
      rw [← hes.slotNodes]
      exact List.mem_map_of_mem hslot
    · rw [h.recipes]
      exact huses.2
    · obtain ⟨⟨id, hext⟩, _⟩ := huses
      simp [hext, Binding.isConstructed, Binding.mode] at hb
    · simp [huses.1, Binding.isConstructed, Binding.mode] at hb

end Frozen

end Graph

/-- Freezing keeps what a draft means. -/
theorem Draft.freeze_realizes {d : Draft} (h : d.Ready) (id : InjectorId) :
    ∃ g, d.freeze id = some g ∧ g.Realizes d := by
  have hsome : (d.freeze id).isSome := h.freeze_isSome
  obtain ⟨g, hg⟩ := Option.isSome_iff_exists.1 hsome
  obtain ⟨es, hf⟩ := Graph.exists_frozen hg
  obtain ⟨hnodes, hkeys, hexports, -⟩ := freeze_some hg
  have ho : Node.Ordered g.nodes := hnodes ▸ h.nodes
  have hroot : ∀ i e, es.root? i = some e → g.Spells e i :=
    fun i e he => hf.spells ho (hf.tree?_of_root ho he)
  refine ⟨g, hg, hnodes, hkeys, hexports, ?_, ?_, ?_, ?_, ?_, ?_, ?_⟩
  · refine hf.providers.imp fun w p hp => ?_
    obtain ⟨method, key, node⟩ := w
    obtain ⟨e, he, rfl⟩ := Option.map_eq_some_iff.1 hp
    exact ⟨rfl, hroot _ _ he⟩
  · refine hf.builders.imp fun w b hb => ?_
    obtain ⟨args, hargs, rfl⟩ := Option.map_eq_some_iff.1 hb
    exact ⟨rfl, rfl, rfl, (mapM_eq_some_iff.1 hargs).imp hroot⟩
  · refine hf.children.imp fun w c hc => ?_
    obtain ⟨args, hargs, rfl⟩ := Option.map_eq_some_iff.1 hc
    refine ⟨rfl, rfl, (mapM_eq_some_iff.1 hargs).imp fun a e he => ?_⟩
    obtain ⟨x, hx, rfl⟩ := Option.map_eq_some_iff.1 he
    exact ⟨rfl, hroot _ _ hx⟩
  · exact fun s hs => hf.spells ho (hf.tree?_of_slot ho hs).2
  · exact fun i e he => hf.spells ho (hf.tree?_of_recipe ho he).2
  · exact fun i n hn => hf.kept hn
  · exact fun e he => hf.expressed.flat he

/-- A recurrent node that is wanted twice, over a scoped one. -/
def Draft.diamond : Draft where
  nodes := [
    ⟨⟨"Int", none⟩, .external "Input", [], none⟩,
    ⟨⟨"Pool", none⟩, .factory "Base" "pool" .method .scoped, [0], none⟩,
    ⟨⟨"Link", none⟩, .factory "Base" "link" .method .recurrent, [0, 1], none⟩,
    ⟨⟨"Pair", none⟩, .auto "Pair" none .recurrent [], [2, 2, 1], none⟩]
  keys := .empty
  providers := [("pair", ⟨"Pair", none⟩, 3)]
  builders := [⟨"fill", ⟨"Form", none⟩, .auto ["link"], [2]⟩]
  children := [⟨"child", "Child", [(⟨"Pool", none⟩, 1)]⟩]
  exports := .empty

theorem Draft.diamond_realizes : Draft.diamond.Ready ∧
    ∃ g, Draft.diamond.freeze "Root" = some g ∧ g.Realizes Draft.diamond := by
  have hready : Draft.diamond.Ready := by
    refine ⟨?_, by decide, by decide, by decide⟩
    rintro (_ | _ | _ | _ | i) n ⟨⟩
    all_goals decide
  exact ⟨hready, Draft.freeze_realizes hready "Root"⟩

end Wiring
