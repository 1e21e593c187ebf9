import Mathlib.Data.Finset.Card
import Mathlib.Data.List.Perm.Subperm
import Wiring.Proofs.Catalogs

set_option autoImplicit false

namespace Wiring

namespace Catalog

variable {c : Catalog} {m : Model} {id child : InjectorId}

structure Sound (c : Catalog) : Prop where
  own_id : ∀ {k : InjectorId} {i : Injector}, c.injectors.get? k = some i → i.id = k
  present : ∀ {k : InjectorId} {i : Injector} {a : ChildAccessor}, c.injectors.get? k = some i →
    a ∈ i.children → c.injectors.contains a.injector
  acyclic : c.hierarchyCycle? = none

theorem sound_of_ofModel (h : Catalog.ofModel m = .ok c) : c.Sound := by
  obtain ⟨_, _, hdangling, hcycle⟩ := ofModel_ok_iff.1 h
  refine ⟨fun hk => ((get?_injectors h).1 hk).2, fun {k i a} hk ha => ?_, hcycle⟩
  have hm : Reference.child i.id a ∈ c.references := List.mem_append_right _
    (List.mem_flatMap.2 ⟨i, Table.mem_values_iff.2 ⟨k, hk⟩,
      List.mem_append_right _ (List.mem_map_of_mem ha)⟩)
  have hn := hdangling _ hm
  simp only [danglingDefect?, ite_eq_left_iff] at hn
  simpa using hn

theorem mem_childrenOf : child ∈ c.childrenOf id ↔
    ∃ i, c.injectors.get? id = some i ∧ ∃ a ∈ i.children, a.injector = child := by
  unfold childrenOf
  cases c.injectors.get? id <;> simp

theorem Sound.mem_parents (hc : c.Sound) :
    id ∈ (c.parents child).map (·.1) ↔ child ∈ c.childrenOf id := by
  simp only [parents, mem_childrenOf, List.mem_map, List.mem_flatMap, List.mem_filter,
    Table.mem_values_iff, decide_eq_true_eq]
  constructor
  · rintro ⟨_, ⟨i, ⟨k, hk⟩, a, ⟨ha, hchild⟩, rfl⟩, rfl⟩
    exact ⟨i, by rw [hc.own_id hk]; exact hk, a, ha, hchild⟩
  · rintro ⟨i, hi, a, ha, hchild⟩
    exact ⟨_, ⟨i, ⟨id, hi⟩, a, ⟨ha, hchild⟩, rfl⟩, hc.own_id hi⟩

def Descending (c : Catalog) : List InjectorId → Prop
  | [] => True
  | id :: ids => (∀ child ∈ c.childrenOf id, child ∈ ids) ∧ c.Descending ids

def Lists (c : Catalog)
    (visit : List InjectorId → InjectorId → Except (List InjectorId) (List InjectorId)) : Prop :=
  ∀ {done done' : List InjectorId} {id : InjectorId}, id ∈ c.injectors.keys → c.Descending done →
    visit done id = .ok done' → c.Descending done' ∧ id ∈ done' ∧ done ⊆ done'

theorem Lists.foldlM
    {visit : List InjectorId → InjectorId → Except (List InjectorId) (List InjectorId)}
    (hv : c.Lists visit) {ids done done' : List InjectorId} (hids : ids ⊆ c.injectors.keys)
    (hd : c.Descending done) (h : ids.foldlM visit done = .ok done') :
    c.Descending done' ∧ ids ⊆ done' ∧ done ⊆ done' := by
  induction ids generalizing done with
  | nil =>
    cases h
    exact ⟨hd, List.nil_subset _, List.Subset.refl _⟩
  | cons x xs ih =>
    rw [List.foldlM_cons, bind_ok] at h
    obtain ⟨mid, hmid, h⟩ := h
    obtain ⟨hx, hxs⟩ := List.cons_subset.1 hids
    obtain ⟨hd₁, hm₁, hs₁⟩ := hv hx hd hmid
    obtain ⟨hd₂, hm₂, hs₂⟩ := ih hxs hd₁ h
    exact ⟨hd₂, List.cons_subset.2 ⟨hs₂ hm₁, hm₂⟩, fun y hy => hs₂ (hs₁ hy)⟩

theorem Sound.childrenOf_subset (hc : c.Sound) : c.childrenOf id ⊆ c.injectors.keys := by
  intro x hx
  obtain ⟨i, hi, a, ha, rfl⟩ := mem_childrenOf.1 hx
  exact Table.mem_keys_iff.2 (Option.isSome_iff_exists.1 (hc.present hi ha))

theorem Sound.visitDown_lists (hc : c.Sound) (depth : Nat) : ∀ {way : List InjectorId},
    c.injectors.entries.length < depth + way.length → way.Nodup → way ⊆ c.injectors.keys →
    c.Lists (c.visitDown depth way) := by
  induction depth with
  | zero =>
    intro way hlen hn hw
    have hle := (List.subperm_of_subset hn hw).length_le
    simp only [Table.keys, List.length_map] at hle
    omega
  | succ depth ih =>
    intro way hlen hn hw done done' id hid hd h
    unfold visitDown at h
    split at h
    · rename_i hmem
      cases h
      exact ⟨hd, by simpa using hmem, List.Subset.refl _⟩
    · split at h
      · cases h
      · rename_i hway
        have hnid : id ∉ way := by simpa using hway
        rw [bind_ok] at h
        obtain ⟨below, hbelow, h⟩ := h
        cases h
        have hlists : c.Lists (c.visitDown depth (way ++ [id])) := by
          apply ih
          · simp only [List.length_append, List.length_singleton]
            omega
          · exact List.nodup_append.2 ⟨hn, by simp, by grind⟩
          · exact List.append_subset.2 ⟨hw, by simpa using hid⟩
        obtain ⟨hd', hm, hs⟩ := hlists.foldlM hc.childrenOf_subset hd hbelow
        exact ⟨⟨fun _ hx => hm hx, hd'⟩, by simp, fun y hy => List.mem_cons_of_mem _ (hs hy)⟩

theorem Descending.mem_of_mem_childrenOf {ids : List InjectorId} (h : c.Descending ids)
    (hid : id ∈ ids) (hchild : child ∈ c.childrenOf id) : child ∈ ids := by
  induction ids with
  | nil => cases hid
  | cons a as ih =>
    rcases List.mem_cons.1 hid with rfl | hm
    · exact List.mem_cons_of_mem _ (h.1 _ hchild)
    · exact List.mem_cons_of_mem _ (ih h.2 hm)

def height : List InjectorId → InjectorId → Nat
  | [], _ => 0
  | _ :: as, id => if id ∈ as then height as id else as.length + 1

theorem height_le {ids : List InjectorId} : height ids id ≤ ids.length := by
  induction ids with
  | nil => exact Nat.le_refl 0
  | cons _ _ ih =>
    unfold height
    split
    · exact Nat.le_succ_of_le ih
    · exact Nat.le_refl _

theorem Descending.height_lt {ids : List InjectorId} (h : c.Descending ids) (hid : id ∈ ids)
    (hchild : child ∈ c.childrenOf id) : height ids child < height ids id := by
  induction ids with
  | nil => cases hid
  | cons a as ih =>
    unfold height
    by_cases hm : id ∈ as
    · rw [if_pos (h.2.mem_of_mem_childrenOf hm hchild), if_pos hm]
      exact ih h.2 hm
    · obtain rfl : id = a := (List.mem_cons.1 hid).resolve_right hm
      rw [if_pos (h.1 _ hchild), if_neg hm]
      exact Nat.lt_succ_of_le height_le

/-- The levels above an injector are fewer than there are injectors, and fewer above a parent. -/
theorem Sound.exists_rank (hc : c.Sound) : ∃ rank : InjectorId → Nat,
    (∀ child id, id ∈ (c.parents child).map (·.1) → rank id < rank child) ∧
    ∀ id ∈ c.injectors.keys, rank id < c.injectors.entries.length := by
  have hcycle := hc.acyclic
  unfold hierarchyCycle? at hcycle
  split at hcycle
  · rename_i done hdone
    have hlists : c.Lists (c.visitDown (c.injectors.entries.length + 1) []) :=
      hc.visitDown_lists _ (by simp) List.nodup_nil (List.nil_subset _)
    have hnil : c.Descending [] := trivial
    obtain ⟨hd, hm, _⟩ := hlists.foldlM (List.Subset.refl _) hnil hdone
    -- the higher ones, counted once each
    let above (id : InjectorId) : Finset InjectorId :=
      c.injectors.keys.toFinset.filter fun x => height done id < height done x
    have hkeys : c.injectors.keys.toFinset.card = c.injectors.entries.length := by
      rw [List.toFinset_card_of_nodup (Table.keys_nodup _)]
      simp [Table.keys]
    refine ⟨fun id => (above id).card, fun child id hp => ?_, fun id hid => ?_⟩
    · have hchild := hc.mem_parents.1 hp
      obtain ⟨i, hi, _⟩ := mem_childrenOf.1 hchild
      have hid : id ∈ c.injectors.keys := Table.mem_keys_iff.2 ⟨i, hi⟩
      have hlt := hd.height_lt (hm hid) hchild
      refine Finset.card_lt_card (Finset.ssubset_iff_of_subset ?_ |>.2 ⟨id, ?_, ?_⟩)
      · intro x hx
        simp only [above, Finset.mem_filter] at hx ⊢
        exact ⟨hx.1, by omega⟩
      · simp only [above, Finset.mem_filter, List.mem_toFinset]
        exact ⟨hid, hlt⟩
      · simp [above]
    · rw [← hkeys]
      refine Finset.card_lt_card (Finset.filter_ssubset.2 ⟨id, by simpa using hid, by simp⟩)
  · cases hcycle

end Catalog

end Wiring
