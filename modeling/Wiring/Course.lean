import Wiring.Batch

/-!
A batch whose token is cancelled, or runs out, while it is at work. The token is read again and
again. Whoever finds it cancelled gives up, and at the end of the settling nothing is finished
unless every reading has found it uncancelled.
-/

set_option autoImplicit false

namespace Wiring

/-- The tokens at each instant, and the instants at which a batch reads its own: any number while an
injector is built, one before the hierarchy is settled, after all that has been built, and any
number meanwhile. What has been cancelled stays so. -/
structure Course where
  tokens : Instant → Tokens
  start : Instant
  building : InjectorId → List Instant
  settling : Instant
  meanwhile : List Instant
  possible : start ≤ Instant.latest
  grows : ∀ {i j : Instant}, i ≤ j → (tokens i).cancelled ⊆ (tokens j).cancelled
  begun : start ≤ settling
  built : ∀ id, ∀ i ∈ building id, i ≤ settling

namespace Course

variable {course : Course} {t : Token} {id : InjectorId} {i j : Instant}

def isCancelled (course : Course) (t : Token) (i : Instant) : Bool :=
  (course.tokens i).isCancelled i t

/-- An injector is not built to the end if the token is found cancelled on the way. -/
def interrupts (course : Course) (t : Token) (id : InjectorId) : Bool :=
  (course.building id).any (course.isCancelled t)

def abandons (course : Course) (t : Token) : Bool :=
  (course.settling :: course.meanwhile).any (course.isCancelled t)

def still (ts : Tokens) (now : Instant) (h : now ≤ Instant.latest) : Course where
  tokens _ := ts
  start := now
  building _ := [now]
  settling := now
  meanwhile := []
  possible := h
  grows _ := List.Subset.refl _
  begun := Nat.le_refl _
  built := by simp

theorem isCancelled_mono (h : i ≤ j) (hi : course.isCancelled t i) : course.isCancelled t j := by
  simp only [isCancelled, Tokens.isCancelled, Token.isExpired, Bool.or_eq_true,
    List.contains_iff_mem] at hi ⊢
  rcases hi with hi | hi
  · exact .inl (course.grows h hi)
  · refine .inr ?_
    split at hi
    · simp only [decide_eq_true_eq] at hi ⊢
      exact Nat.le_trans hi h
    · cases hi

theorem abandons_of_settling (h : i ≤ course.settling) (hi : course.isCancelled t i) :
    course.abandons t := by
  unfold abandons
  rw [List.any_cons, isCancelled_mono h hi, Bool.true_or]

theorem interrupts_of_not_abandons (h : course.abandons t = false) :
    course.interrupts t id = false := by
  refine Bool.eq_false_iff.2 fun hi => ?_
  obtain ⟨i, hmem, hi⟩ := List.any_eq_true.1 hi
  rw [abandons_of_settling (course.built id i hmem) hi] at h
  cases h

end Course

/-- What comes of a batch in the course of which the token may turn out to be cancelled. -/
def Catalog.resolveDuring (c : Catalog) (autoBinding : Bool) (course : Course) (t : Token) :
    Option Resolution :=
  if course.abandons t then some (.allCancelled c)
  else
    let sites := c.injectors.filterMap fun id i =>
      if course.interrupts t id then none else some (.build c autoBinding i)
    (Resolution.ofSites (Hierarchy.link c sites)).map fun res =>
      { res with cancelled := c.injectors.keys.filter (course.interrupts t) }

def Model.resolveDuring (m : Model) (s : Settings) (course : Course) (t : Token) :
    Except Defect (Option Resolution) := do
  let c ← Catalog.ofModel m
  .ok (c.resolveDuring s.autoBinding course (s.batchToken course.start t))

theorem Resolution.cancelled_ofSites {sites : Table InjectorId SiteState} {res : Resolution}
    (h : ofSites sites = some res) : res.cancelled = [] := by
  unfold ofSites at h
  split at h
  · cases h
    rfl
  · cases h

theorem Catalog.resolveDuring_eq (c : Catalog) (autoBinding : Bool) (course : Course) (t : Token) :
    c.resolveDuring autoBinding course t =
      if course.abandons t then some (.allCancelled c) else c.resolve autoBinding := by
  unfold resolveDuring
  split
  · rfl
  · rename_i h
    have hnone : ∀ id, course.interrupts t id = false := fun id =>
      Course.interrupts_of_not_abandons (Bool.eq_false_iff.2 h)
    have hcancelled : c.injectors.keys.filter (course.interrupts t) = [] := by
      simp [hnone]
    simp only [hnone, Bool.false_eq_true, if_false, hcancelled]
    change Option.map _ (c.resolve autoBinding) = _
    cases hr : c.resolve autoBinding with
    | none => rfl
    | some res =>
      rw [Option.map_some, ← Resolution.cancelled_ofSites hr]

/-- A batch during which nothing happens to the tokens is one that reads its token once. -/
theorem Model.resolveDuring_still (m : Model) (s : Settings) (ts : Tokens) (t : Token)
    {now : Instant} (h : now ≤ Instant.latest) :
    m.resolveDuring s (.still ts now h) t = m.resolve s ts t now := by
  have habandons : (Course.still ts now h).abandons (s.batchToken now t) =
      ts.isCancelled now (s.batchToken now t) := by
    simp [Course.abandons, Course.still, Course.isCancelled]
  unfold resolveDuring resolve
  simp only [Catalog.resolveDuring_eq]
  rw [← habandons]
  rfl

end Wiring
