import Mathlib.Data.List.Chain
import Mathlib.Data.List.Nodup
import Wiring.Proofs.Ancestry

set_option autoImplicit false

namespace Wiring

open Relation

/-- A way along a relation that ends where it began and passes nothing else twice. -/
structure Closes {α : Type} (P : α → α → Prop) (chain : List α) : Prop where
  two : 2 ≤ chain.length
  closed : chain.head? = chain.getLast?
  distinct : chain.dropLast.Nodup
  linked : chain.IsChain P

namespace Closes

variable {α : Type} {P : α → α → Prop} {chain way : List α} {a : α}

theorem of_met [BEq α] [LawfulBEq α] (hway : (way ++ [a]).IsChain P) (hn : way.Nodup)
    (ha : a ∈ way) : Closes P (way.dropWhile (· != a) ++ [a]) := by
  obtain ⟨before, after, rfl⟩ := List.append_of_mem ha
  obtain ⟨-, hafter, hapart⟩ := List.nodup_append.1 hn
  have hbefore : ∀ b ∈ before, b != a := fun b hb => bne_iff_ne.2 (hapart b hb a List.mem_cons_self)
  have hcut : (before ++ a :: after).dropWhile (· != a) = a :: after := by
    rw [List.dropWhile_append_of_pos hbefore, List.dropWhile_cons_of_neg (by simp)]
  rw [hcut]
  refine ⟨by simp, ?_, ?_, ?_⟩
  · rw [List.getLast?_concat]
    rfl
  · rwa [List.dropLast_concat]
  · rw [List.append_assoc] at hway
    exact hway.right_of_append

theorem exists_next (h : Closes P chain) (ha : a ∈ chain) : ∃ b, P a b := by
  obtain ⟨htwo, hclosed, -, hlinked⟩ := h
  obtain ⟨before, after, rfl⟩ := List.append_of_mem ha
  cases after with
  | cons b after => exact ⟨b, (List.isChain_cons_cons.1 hlinked.right_of_append).1⟩
  | nil =>
    rw [List.getLast?_concat] at hclosed
    rcases before with _ | ⟨x, _ | ⟨b, xs⟩⟩
    · simp at htwo
    · obtain rfl := Option.some.inj hclosed
      exact ⟨x, (List.isChain_cons_cons.1 hlinked).1⟩
    · obtain rfl := Option.some.inj hclosed
      exact ⟨b, (List.isChain_cons_cons.1 hlinked).1⟩

theorem transGen (h : Closes P chain) : ∃ a, TransGen P a a := by
  obtain ⟨htwo, hclosed, -, hlinked⟩ := h
  match chain with
  | [] | [_] => simp at htwo
  | a :: b :: as =>
    rw [List.isChain_cons_cons] at hlinked
    rw [List.head?_cons, List.getLast?_cons_cons,
      List.getLast?_eq_some_getLast (List.cons_ne_nil b as)] at hclosed
    have hback : ReflTransGen P b a :=
      List.relationReflTransGen_of_exists_isChain_cons as hlinked.2 (Option.some.inj hclosed).symm
    exact ⟨a, TransGen.head' hlinked.1 hback⟩

end Closes

namespace Catalog

variable {c : Catalog} {depth : Nat} {way done chain : List InjectorId} {id : InjectorId}
  {P : InjectorId → InjectorId → Prop}

theorem foldlM_error {α β ε : Type} {f : β → α → Except ε β} {l : List α} {b : β} {e : ε}
    (h : l.foldlM f b = .error e) : ∃ a ∈ l, ∃ b', f b' a = .error e := by
  induction l generalizing b with
  | nil => cases h
  | cons a as ih =>
    rw [List.foldlM_cons] at h
    cases ha : f b a with
    | error e' =>
      rw [ha] at h
      cases h
      exact ⟨a, List.mem_cons_self, b, ha⟩
    | ok b' =>
      rw [ha] at h
      obtain ⟨x, hx, hb⟩ := ih h
      exact ⟨x, List.mem_cons_of_mem _ hx, hb⟩

theorem closes_of_visitDown (hP : ∀ id, ∀ child ∈ c.childrenOf id, P id child)
    (hway : (way ++ [id]).IsChain P) (hn : way.Nodup)
    (h : c.visitDown depth way done id = .error chain) : Closes P chain := by
  induction depth generalizing way done chain id with
  | zero => cases h
  | succ depth ih =>
    unfold visitDown at h
    split at h
    · cases h
    · split at h
      · rename_i hmem
        cases h
        exact .of_met hway hn (by simpa using hmem)
      · rename_i hmem
        cases hbelow : (c.childrenOf id).foldlM (c.visitDown depth (way ++ [id])) done with
        | ok below =>
          rw [hbelow] at h
          cases h
        | error chain' =>
          rw [hbelow] at h
          cases h
          obtain ⟨child, hchild, done', hdown⟩ := foldlM_error hbelow
          have hnext : (way ++ [id] ++ [child]).IsChain P :=
            hway.append (.singleton child) (by simpa using hP id child hchild)
          have hid : id ∉ way := by simpa using hmem
          exact ih hnext (hn.append (List.nodup_singleton id) (List.disjoint_singleton.2 hid)) hdown

/-- What is reported as a cycle of the hierarchy is one. -/
theorem closes_of_hierarchyCycle? (hP : ∀ id, ∀ child ∈ c.childrenOf id, P id child)
    (h : c.hierarchyCycle? = some chain) : Closes P chain := by
  unfold hierarchyCycle? at h
  split at h
  · cases h
  · rename_i herror
    cases h
    obtain ⟨id, _, done, hdown⟩ := foldlM_error herror
    exact closes_of_visitDown hP (.singleton id) List.nodup_nil hdown

end Catalog

end Wiring
