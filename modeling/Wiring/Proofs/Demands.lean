import Mathlib.Data.List.Count
import Wiring.Proofs.Supply

set_option autoImplicit false

namespace Wiring

def Request.asks : Request → Bool
  | .offer _ | .pass _ => true
  | .satisfy _ | .refuse _ => false

namespace Hierarchy

/-- The injectors that wait for each other in a search that an injector has begun, the last asked
first. Those before have no answer and nothing to export, and the parents asked so far supply the
key. -/
inductive Awaits (c : Catalog) (key : Key) (id : InjectorId) (h : Hierarchy) :
    List InjectorId → Hierarchy → Prop where
  | begun {p : InjectorId} {asked later : List InjectorId} {log : List Move} {h' : Hierarchy} :
      c.parentIds id = asked ++ p :: later → Asks c key asked h log true h' →
        Awaits c key id h [p] h'
  | further {p q : InjectorId} {way asked later : List InjectorId} {s : Site} {log : List Move}
      {h₁ h' : Hierarchy} :
      Awaits c key id h (q :: way) h₁ → h₁.answers.get? ⟨q, key⟩ = none → h₁.site? q = some s →
      (s.exportKey key).1 = none → c.parentIds q = asked ++ p :: later →
      Asks c key asked (h₁.perform ⟨q, .offer key⟩) log true h' →
      Awaits c key id h (p :: q :: way) h'

/-- Why a key is passed on after some moves: its injector has been asked for an offer and had none,
and all of its parents export the key. -/
structure Warrants (c : Catalog) (h : Hierarchy) (k : Key) (id : InjectorId)
    (pre : List Move) : Prop where
  offered : ∃ s earlier later, h.site? id = some s ∧ pre = earlier ++ ⟨id, .offer k⟩ :: later ∧
    ((s.serveAll (Move.requestsTo id earlier)).exportKey k).1 = none
  parents : c.parentIds id ≠ []
  supplied : ∀ p ∈ c.parentIds id, ∃ s, h.site? p = some s ∧
    ((s.serveAll (Move.requestsTo p pre)).exports.get? k).isSome

def PassIn (c : Catalog) (h : Hierarchy) (log : List Move) (k : Key) (id : InjectorId) : Prop :=
  ∃ pre post, log = pre ++ ⟨id, .pass k⟩ :: post ∧ h.Warrants c k id pre

variable {c : Catalog} {autoBinding : Bool} {rank : InjectorId → Nat} {key k : Key}
  {id : InjectorId} {ids way : List InjectorId} {h h' h₁ : Hierarchy} {log log' pre : List Move}
  {b : Bool} {m : Move}
  {es : List (InjectorId × Requirement)}

theorem Awaits.ascends (ha : Awaits c key id h way h') :
    (way ++ [id]).IsChain fun p q => p ∈ c.parentIds q := by
  induction ha with
  | begun hp _ => exact .cons_cons (by simp [hp]) (.singleton _)
  | further _ _ _ _ hp _ ih => exact .cons_cons (by simp [hp]) ih

theorem isSome_answer {d e : Demand} (hd : d = e ∨ (h.answers.get? d).isSome) :
    ((h.answer e b).answers.get? d).isSome := by
  rw [get?_answer]
  split
  · rfl
  · exact hd.resolve_left ‹_›

theorem Asks.isSome_stands {d : Demand} (ha : Asks c key ids h log b h')
    (hd : (h.answers.get? d).isSome) : (h'.answers.get? d).isSome := by
  obtain ⟨b', hb⟩ := Option.isSome_iff_exists.1 hd
  exact Option.isSome_iff_exists.2 ⟨b', ha.answers_stand hb⟩

theorem Asks.answered_of_mem (ha : Asks c key ids h log b h') (hm : m ∈ log) :
    (h'.answers.get? ⟨m.injector, key⟩).isSome := by
  induction ha with
  | nil | denied | absent => cases hm
  | granted _ _ ih => exact ih hm
  | exported _ _ _ ha ih =>
    rcases List.mem_cons.1 hm with rfl | hm
    · exact ha.isSome_stands (isSome_answer (.inl rfl))
    · exact ih hm
  | refused _ _ _ _ _ ih =>
    rcases List.mem_cons.1 hm with rfl | hm
    · exact isSome_answer (.inl rfl)
    · exact isSome_answer (.inr (ih hm))
  | forwarded _ _ _ _ _ ha ih ih' =>
    rcases List.mem_cons.1 hm with rfl | hm
    · exact ha.isSome_stands (isSome_answer (.inl rfl))
    rcases List.mem_append.1 hm with hm | hm
    · exact ha.isSome_stands (isSome_answer (.inr (by rw [answers_perform]; exact ih hm)))
    rcases List.mem_cons.1 hm with rfl | hm
    · exact ha.isSome_stands (isSome_answer (.inl rfl))
    · exact ih' hm

theorem Asks.notMem (ha : Asks c key ids h log b h')
    (hd : (h.answers.get? ⟨m.injector, key⟩).isSome) : m ∉ log := by
  intro hm
  rw [ha.unanswered hm] at hd
  cases hd

theorem Asks.nodup (hrank : ∀ child p, p ∈ c.parentIds child → rank p < rank child)
    (ha : Asks c key ids h log b h') : log.Nodup := by
  induction ha with
  | nil | denied | absent => exact .nil
  | granted _ _ ih => exact ih
  | exported _ _ _ ha ih => exact List.nodup_cons.2 ⟨ha.notMem (isSome_answer (.inl rfl)), ih⟩
  | refused _ _ _ _ ha ih =>
    exact List.nodup_cons.2 ⟨fun hm => (ha.frame_self hrank key).2 _ hm rfl, ih⟩
  | @forwarded id _ _ _ _ _ log log' _ _ _ _ _ ha ha' ih ih' =>
    -- the injector is not asked by its parents, and nobody who was asked by then is asked
    -- afterwards
    have hself : ∀ q, ⟨id, q⟩ ∉ log := fun q hm => (ha.frame_self hrank key).2 _ hm rfl
    have hlater : ∀ q, ⟨id, q⟩ ∉ log' := fun q => ha'.notMem (isSome_answer (.inl rfl))
    have hasked : ∀ m ∈ log, m ∉ log' := fun m hm =>
      ha'.notMem (isSome_answer (.inr (by rw [answers_perform]; exact ha.answered_of_mem hm)))
    refine List.nodup_cons.2 ⟨by simp [hself, hlater], List.nodup_append.2 ⟨ih, ?_, ?_⟩⟩
    · exact List.nodup_cons.2 ⟨hlater _, ih'⟩
    · rintro m hm m' hm' rfl
      rcases List.mem_cons.1 hm' with rfl | hm'
      · exact hself _ hm
      · exact hasked _ hm hm'

theorem Asks.filter_asks (ha : Asks c key ids h log b h') : log.filter (·.request.asks) = log := by
  refine List.filter_eq_self.2 fun m hm => ?_
  rcases ha.request hm with hr | hr <;> rw [hr] <;> rfl

/-- Over a batch nothing is asked for twice, since an answer is kept. -/
theorem Settles.nodup (hrank : ∀ child p, p ∈ c.parentIds child → rank p < rank child)
    (hs : Settles c es h log h') : (log.filter (·.request.asks)).Nodup := by
  induction hs with
  | nil => exact .nil
  | @cons id r _ _ _ _ _ log' b ha hs ih =>
    have hverdict : (verdict c id r b).request.asks = false := by
      unfold verdict
      dsimp only
      split <;> rfl
    rw [List.filter_append, ha.filter_asks, List.filter_cons_of_neg (by simp [hverdict])]
    refine List.nodup_append.2 ⟨ha.nodup hrank, ih, ?_⟩
    rintro m hm m' hm' rfl
    have hanswered := ha.answered_of_mem hm
    have hnone := hs.unanswered (List.mem_of_mem_filter hm') (ha.request hm)
    rw [answers_perform] at hnone
    rw [hnone] at hanswered
    cases hanswered

theorem Replays.answer {d : Demand} (hr : Replays h log h') : Replays h log (h'.answer d b) := hr

theorem Replays.earlier {s' : Site} (hr : Replays h log h') (hs : h'.site? id = some s') :
    ∃ s, h.site? id = some s ∧ s.serveAll (Move.requestsTo id log) = s' := by
  rw [hr] at hs
  exact Option.map_eq_some_iff.1 hs

theorem Warrants.right (hr : Replays h log h₁) (hw : h₁.Warrants c k id pre) :
    h.Warrants c k id (log ++ pre) := by
  refine ⟨?_, hw.parents, fun p hp => ?_⟩
  · obtain ⟨s₁, earlier, later, hs₁, rfl, hx⟩ := hw.offered
    obtain ⟨s, hs, rfl⟩ := hr.earlier hs₁
    refine ⟨s, log ++ earlier, later, hs, by simp, ?_⟩
    rwa [Move.requestsTo_append, Site.serveAll_append]
  · obtain ⟨s₁, hs₁, hx⟩ := hw.supplied p hp
    obtain ⟨s, hs, rfl⟩ := hr.earlier hs₁
    refine ⟨s, hs, ?_⟩
    rwa [Move.requestsTo_append, Site.serveAll_append]

theorem PassIn.left (hp : h.PassIn c log k id) : h.PassIn c (log ++ log') k id := by
  obtain ⟨pre, post, rfl, hw⟩ := hp
  exact ⟨pre, post ++ log', by simp, hw⟩

theorem PassIn.right (hr : Replays h log h₁) (hp : h₁.PassIn c log' k id) :
    h.PassIn c (log ++ log') k id := by
  obtain ⟨pre, post, rfl, hw⟩ := hp
  exact ⟨log ++ pre, post, by simp, hw.right hr⟩

/-- A search has a key passed on only by injectors that have none to offer, after all of their
parents. -/
theorem Asks.passIn (hrank : ∀ child p, p ∈ c.parentIds child → rank p < rank child)
    (hc : h.Consistent c autoBinding) (ha : Asks c key ids h log b h')
    (hm : ⟨id, .pass key⟩ ∈ log) : h.PassIn c log key id := by
  induction ha with
  | nil | denied | absent => cases hm
  | granted _ _ ih => exact ih hc hm
  | exported _ hs hx _ ih =>
    rcases List.mem_cons.1 hm with hm | hm
    · cases hm
    · have hlater := ih (hc.grant hs fun _ => Site.exports_offer (Option.isSome_of_mem hx)) hm
      exact .right (Replays.perform.answer) hlater
  | refused _ hs hx _ _ ih =>
    rcases List.mem_cons.1 hm with hm | hm
    · cases hm
    · exact .right .perform (ih (hc.unexported hs hx) hm)
  | @forwarded j _ _ _ _ s log log' _ _ hs hx hne ha ha' ih ih' =>
    have hc₀ := hc.unexported hs hx
    have hc₁ := ha.consistent hrank hc₀
    rcases List.mem_cons.1 hm with hm | hm
    · cases hm
    rcases List.mem_append.1 hm with hm | hm
    · exact .right .perform (ih hc₀ hm).left
    rcases List.mem_cons.1 hm with hm | hm
    · obtain rfl : id = j := congrArg Move.injector hm
      refine ⟨⟨id, .offer key⟩ :: log, log', rfl, ⟨s, [], log, hs, rfl, hx⟩, hne, fun p hp => ?_⟩
      obtain ⟨t₁, ht₁, hexports⟩ := (hc₁.exports p key).1 (ha.answered p hp)
      obtain ⟨t, ht, rfl⟩ := (Replays.cons ha.replays).earlier ht₁
      exact ⟨t, ht, hexports⟩
    · have hs₁ := ha.replays j
      rw [site?_perform, hs] at hs₁
      have hlater := ih' (hc₁.grant hs₁ fun _ => Site.exports_pass) hm
      have hlift := PassIn.right ((Replays.cons ha.replays).append .perform).answer hlater
      simpa only [List.cons_append, List.append_assoc, List.nil_append] using hlift

theorem Settles.passIn (hrank : ∀ child p, p ∈ c.parentIds child → rank p < rank child)
    (hc : h.Consistent c autoBinding) (hs : Settles c es h log h') (hm : ⟨id, .pass k⟩ ∈ log) :
    h.PassIn c log k id := by
  induction hs with
  | nil => cases hm
  | @cons j r _ _ _ _ _ _ _ ha hs ih =>
    rcases List.mem_append.1 hm with hm | hm
    · obtain rfl : k = r.key := ha.key_eq hm (.inr rfl)
      exact (ha.passIn hrank hc hm).left
    rcases List.mem_cons.1 hm with hm | hm
    · exact absurd (.inr (congrArg Move.request hm.symm)) verdict_asks_nothing
    · have hlift :=
        PassIn.right (ha.replays.append .perform) (ih (ha.consistent hrank hc).verdict hm)
      simpa only [List.append_assoc, List.cons_append, List.nil_append] using hlift

end Hierarchy

namespace Catalog

variable {m : Model} {c : Catalog}

theorem Sound.mem_keys_of_parentIds (hc : c.Sound) {id p : InjectorId} (hp : p ∈ c.parentIds id) :
    p ∈ c.injectors.keys ∧ id ∈ c.injectors.keys := by
  have hchild := hc.mem_parents.1 hp
  obtain ⟨i, hi, _⟩ := mem_childrenOf.1 hchild
  exact ⟨Table.mem_keys_iff.2 ⟨i, hi⟩, hc.childrenOf_subset hchild⟩

theorem Sound.nodup_of_ascends (hc : c.Sound) {ids : List InjectorId}
    (h : ids.IsChain fun p q => p ∈ c.parentIds q) : ids.Nodup := by
  obtain ⟨rank, hrank, _⟩ := hc.exists_rank
  have hlt : ids.Pairwise fun p q => rank p < rank q :=
    (h.imp fun p q hp => hrank q p hp).pairwise
  exact hlt.imp fun hpq heq => Nat.ne_of_lt hpq (congrArg rank heq)

theorem mem_keys_of_awaits (hc : c.Sound) {key : Key} {id : InjectorId} {h h' : Hierarchy}
    {way : List InjectorId} (ha : Hierarchy.Awaits c key id h way h') :
    way ++ [id] ⊆ c.injectors.keys := by
  induction ha with
  | begun hp _ =>
    obtain ⟨hp, hid⟩ :=
      hc.mem_keys_of_parentIds (by rw [hp]; exact List.mem_append_right _ List.mem_cons_self)
    exact List.cons_subset.2 ⟨hp, List.cons_subset.2 ⟨hid, List.nil_subset _⟩⟩
  | further _ _ _ _ hp _ ih =>
    obtain ⟨hp, -⟩ :=
      hc.mem_keys_of_parentIds (by rw [hp]; exact List.mem_append_right _ List.mem_cons_self)
    exact List.cons_subset.2 ⟨hp, ih⟩

/-- Settling ends and does nothing twice. Every search comes to an answer; those who wait for each
other in it are different injectors. Over the batch each injector is asked at most once to offer a
key and at most once to pass it on, and passes it on only after its own offer has failed and all of
its parents export the key. -/
theorem settles_once (hm : Catalog.ofModel m = .ok c) (autoBinding : Bool) :
    (∀ id h r, ∃ log b h', Hierarchy.Asks c r.key (c.parentIds id) h log b h' ∧
      Hierarchy.settle c id h r = h'.perform (Hierarchy.verdict c id r b)) ∧
    (∀ key id h way h', Hierarchy.Awaits c key id h way h' →
      (way ++ [id]).Nodup ∧ (way ++ [id]).length ≤ m.injectors.length) ∧
    (∃ h', Hierarchy.Settles c (c.built autoBinding).requirements (c.built autoBinding)
      (c.moves autoBinding) h' ∧ h'.sites = (c.linked autoBinding).sites) ∧
    (∀ id k, (c.moves autoBinding).count ⟨id, .offer k⟩ ≤ 1 ∧
      (c.moves autoBinding).count ⟨id, .pass k⟩ ≤ 1) ∧
    ∀ id k pre post, c.moves autoBinding = pre ++ ⟨id, .pass k⟩ :: post →
      (c.built autoBinding).Warrants c k id pre := by
  have hc := sound_of_ofModel hm
  obtain ⟨rank, hrank, _⟩ := hc.exists_rank
  obtain ⟨h', hs, hsites⟩ := settles hc autoBinding
  have honce : ∀ mv : Move, mv.request.asks → (c.moves autoBinding).count mv ≤ 1 := by
    intro mv hasks
    rw [← List.count_filter (p := (·.request.asks)) hasks]
    exact List.nodup_iff_count_le_one.1 (hs.nodup hrank) mv
  refine ⟨fun id h r => ?_, fun key id h way h' ha => ?_, ⟨h', hs, hsites⟩,
    fun id k => ⟨honce _ rfl, honce _ rfl⟩, fun id k pre post hlog => ?_⟩
  · obtain ⟨log, b, h', ha, hsettle, _⟩ := Hierarchy.settle_asks hc h id r
    exact ⟨log, b, h', ha, hsettle⟩
  · have hnodup := hc.nodup_of_ascends ha.ascends
    have hsubset : way ++ [id] ⊆ m.injectors.map (·.id) := fun x hx =>
      (mem_injectors_keys hm).1 (mem_keys_of_awaits hc ha hx)
    refine ⟨hnodup, ?_⟩
    simpa using (List.subperm_of_subset hnodup hsubset).length_le
  · have hmem : ⟨id, .pass k⟩ ∈ c.moves autoBinding := by simp [hlog]
    obtain ⟨pre', post', hlog', hw⟩ := hs.passIn hrank (consistent_built c autoBinding) hmem
    -- the move occurs once, so this is the only way to split the log
    have hcount := honce ⟨id, .pass k⟩ rfl
    rw [hlog, List.count_append, List.count_cons_self] at hcount
    obtain ⟨hpre, hpost⟩ : pre.count ⟨id, .pass k⟩ = 0 ∧ post.count ⟨id, .pass k⟩ = 0 := by omega
    obtain ⟨rfl, -, -⟩ :=
      (List.append_cons_inj_of_notMem (List.count_eq_zero.1 hpre) (List.count_eq_zero.1 hpost)).1
      (hlog.symm.trans hlog')
    exact hw

end Catalog

/-- `Top` makes `D`, and `Left` and `Right` are both between it and `Low`, which needs `D` for two
children. -/
def forkedModel : Model where
  injectors := [
    { id := "Top", specifications := ["T"],
      children :=
        [{ name := "left", injector := "Left" }, { name := "right", injector := "Right" }] },
    { id := "Left", children := [{ name := "low", injector := "Low" }] },
    { id := "Right", children := [{ name := "low", injector := "Low" },
      { name := "again", injector := "Low" }] },
    { id := "Low", children := [{ name := "leaf", injector := "Leaf" },
      { name := "other", injector := "Leaf" }] },
    { id := "Leaf", dependencies := ["I"] }]
  specifications := [{ id := "T", factories := [.ofKey "make_d" ⟨"D", none⟩] }]
  interfaces := [{ id := "I", keys := [⟨"D", none⟩] }]

theorem settles_once_forked : ∃ c pre post, Catalog.ofModel forkedModel = .ok c ∧
    c.moves true = pre ++ ⟨"Right", .pass ⟨"D", none⟩⟩ :: post ∧
    (c.built true).Warrants c ⟨"D", none⟩ "Right" pre ∧
    (c.moves true).count ⟨"Top", .offer ⟨"D", none⟩⟩ = 1 := by
  have h : (Catalog.ofModel forkedModel).toOption.any fun c =>
      decide ((⟨"Right", .pass ⟨"D", none⟩⟩ : Move) ∈ c.moves true) &&
        decide ((⟨"Top", .offer ⟨"D", none⟩⟩ : Move) ∈ c.moves true) := by
    decide +kernel
  obtain ⟨c, hc, h⟩ := exists_of_any h
  obtain ⟨hright, htop⟩ := Bool.and_eq_true_iff.1 h
  obtain ⟨pre, post, hlog⟩ := List.append_of_mem (of_decide_eq_true hright)
  obtain ⟨-, -, -, honce, hwarrants⟩ := Catalog.settles_once hc true
  exact ⟨c, pre, post, hc, hlog, hwarrants _ _ _ _ hlog,
    Nat.le_antisymm (honce _ _).1 (List.count_pos_iff.2 (of_decide_eq_true htop))⟩

end Wiring
