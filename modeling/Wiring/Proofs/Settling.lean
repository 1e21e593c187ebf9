import Wiring.Proofs.Answers

set_option autoImplicit false

namespace Wiring

theorem flatMap_ite_eq {α β : Type} [DecidableEq α] {a : α} {as : List α} {bs : List β}
    (hn : as.Nodup) (ha : a ∈ as) : as.flatMap (fun x => if x = a then bs else []) = bs := by
  induction as with
  | nil => cases ha
  | cons x as ih =>
    obtain ⟨hx, hn⟩ := List.nodup_cons.1 hn
    rw [List.flatMap_cons]
    rcases List.mem_cons.1 ha with rfl | ha
    · have hrest : as.flatMap (fun x => if x = a then bs else []) = [] := by
        rw [List.flatMap_eq_nil_iff]
        intro y hy
        rw [if_neg]
        rintro rfl
        exact hx hy
      rw [if_pos rfl, hrest, List.append_nil]
    · rw [if_neg, ih hn ha, List.nil_append]
      rintro rfl
      exact hx ha

/-- The argument that a request settles, and whether it is satisfied. -/
def Request.verdict? : Request → Option (Requirement × Bool)
  | .satisfy r => some (r, true)
  | .refuse r => some (r, false)
  | _ => none

namespace Site

variable {s s' : Site} {q : Request} {qs : List Request} {r : Requirement} {a : Argument}
  {c i : Nat} {k : Key}

def accessors (s : Site) : List ChildAccessor := s.children.map (·.accessor)

def argument? (s : Site) (c i : Nat) : Option (Key × Argument) :=
  s.children[c]?.bind fun child => child.args[i]?

def incomplete (s : Site) (r : Requirement) : List Diagnostic :=
  s.accessors[r.child]?.toList.map fun a =>
    .of s.id (.incomplete s.id a.injector r.key) [r.key] a.location

structure Keeps (s s' : Site) : Prop where
  injector : s'.injector = s.injector
  lookup : s'.lookup = s.lookup
  providers : s'.providers = s.providers
  builders : s'.builders = s.builders
  accessors : s'.accessors = s.accessors

theorem Keeps.refl (s : Site) : s.Keeps s := ⟨rfl, rfl, rfl, rfl, rfl⟩

theorem Keeps.trans {s'' : Site} (h : s.Keeps s') (h' : s'.Keeps s'') : s.Keeps s'' :=
  ⟨h'.injector.trans h.injector, h'.lookup.trans h.lookup, h'.providers.trans h.providers,
    h'.builders.trans h.builders, h'.accessors.trans h.accessors⟩

theorem Keeps.incomplete (h : s.Keeps s') : s'.incomplete r = s.incomplete r := by
  simp only [Site.incomplete, Site.id, h.injector, h.accessors]

theorem keeps_setArgument : s.Keeps (s.setArgument r a) := by
  refine ⟨rfl, rfl, rfl, rfl, ?_⟩
  simp only [Site.accessors, Site.setArgument]
  apply List.ext_getElem?
  intro n
  simp only [List.getElem?_map, List.getElem?_modify]
  cases s.children[n]? with
  | none => rfl
  | some child => by_cases hn : r.child = n <;> simp [hn]

theorem keeps_serve : s.Keeps (s.serve q) := by
  cases q with
  | offer k =>
    simp only [Site.serve, Site.exportKey]
    split <;> exact ⟨rfl, rfl, rfl, rfl, rfl⟩
  | pass k => exact ⟨rfl, rfl, rfl, rfl, rfl⟩
  | satisfy r =>
    have h : s.Keeps (s.inherit r.key).2 := ⟨rfl, rfl, rfl, rfl, rfl⟩
    exact h.trans keeps_setArgument
  | refuse r =>
    simp only [Site.serve, Site.refuse]
    split
    · exact .refl s
    · have h := keeps_setArgument (s := s) (r := r) (a := .failed)
      exact ⟨h.injector, h.lookup, h.providers, h.builders, h.accessors⟩

theorem keeps_serveAll : s.Keeps (s.serveAll qs) := by
  induction qs generalizing s with
  | nil => exact .refl s
  | cons q qs ih => exact keeps_serve.trans ih

theorem argument?_setArgument : (s.setArgument r a).argument? c i =
    if c = r.child ∧ i = r.argument then (s.argument? c i).map fun e => (e.1, a)
    else s.argument? c i := by
  simp only [argument?, setArgument, List.getElem?_modify]
  cases s.children[c]? with
  | none => simp
  | some child =>
    by_cases hc : r.child = c
    · by_cases hi : r.argument = i
      · simp [hc, hi]
      · simp [hc, hi, Ne.symm hi]
    · simp [hc, Ne.symm hc]

theorem argument?_serve_of_none (hq : q.verdict? = none) :
    (s.serve q).argument? c i = s.argument? c i := by
  cases q with
  | offer k => simp only [Site.serve, argument?, Hierarchy.children_exportKey]
  | pass k => rfl
  | satisfy r => cases hq
  | refuse r => cases hq

theorem argument?_serve_of_some {v : Bool} (hq : q.verdict? = some (r, v)) :
    ∃ n, (s.serve q).argument? c i =
      if c = r.child ∧ i = r.argument then
        (s.argument? c i).map fun e => (e.1, if v then .resolved n else .failed)
      else s.argument? c i := by
  cases q with
  | offer k => cases hq
  | pass k => cases hq
  | satisfy r =>
    cases hq
    exact ⟨_, argument?_setArgument⟩
  | refuse r =>
    cases hq
    refine ⟨0, ?_⟩
    simp only [Site.serve, Site.refuse]
    split
    · rename_i hnone
      split
      · rename_i hpos
        simp [argument?, hpos.1, hnone]
      · rfl
    · exact argument?_setArgument

theorem argument?_serveAll_of_other
    (h : ∀ rv ∈ qs.filterMap Request.verdict?, ¬ (c = rv.1.child ∧ i = rv.1.argument)) :
    (s.serveAll qs).argument? c i = s.argument? c i := by
  induction qs generalizing s with
  | nil => rfl
  | cons q qs ih =>
    have hstep : (s.serve q).argument? c i = s.argument? c i := by
      cases hq : q.verdict? with
      | none => exact argument?_serve_of_none hq
      | some rv =>
        obtain ⟨n, hn⟩ := argument?_serve_of_some (s := s) (c := c) (i := i) hq
        rw [hn, if_neg (h rv (by simp [hq]))]
    refine (ih fun rv hrv => h rv ?_).trans hstep
    rw [List.filterMap_cons]
    split <;> simp [hrv]

/-- Requests of which no two settle the same argument settle each as its request says. -/
theorem argument?_serveAll {v : Bool}
    (hd : (qs.filterMap Request.verdict?).Pairwise fun rv rv' =>
      ¬ (rv.1.child = rv'.1.child ∧ rv.1.argument = rv'.1.argument))
    (hr : (r, v) ∈ qs.filterMap Request.verdict?)
    (ha : s.argument? r.child r.argument = some (k, a)) :
    ∃ n, (s.serveAll qs).argument? r.child r.argument =
      some (k, if v then .resolved n else .failed) := by
  induction qs generalizing s with
  | nil => cases hr
  | cons q qs ih =>
    have hserve : s.serveAll (q :: qs) = (s.serve q).serveAll qs := rfl
    rw [hserve]
    cases hq : q.verdict? with
    | none =>
      rw [List.filterMap_cons_none hq] at hd hr
      exact ih hd hr (by rw [argument?_serve_of_none hq, ha])
    | some rv =>
      rw [List.filterMap_cons_some hq] at hd hr
      obtain ⟨hother, hd⟩ := List.pairwise_cons.1 hd
      obtain ⟨n, hn⟩ := argument?_serve_of_some (s := s) (c := r.child) (i := r.argument) hq
      rcases List.mem_cons.1 hr with rfl | hr
      · refine ⟨n, ?_⟩
        rw [argument?_serveAll_of_other hother, hn, if_pos ⟨rfl, rfl⟩, ha]
        rfl
      · refine ih hd hr ?_
        rw [hn, if_neg ?_, ha]
        rintro ⟨hc, hi⟩
        exact hother _ hr ⟨hc.symm, hi.symm⟩

theorem diagnostics_serveAll : (s.serveAll qs).diagnostics = s.diagnostics ++
    (qs.filterMap Request.verdict?).flatMap fun rv => if rv.2 then [] else s.incomplete rv.1 := by
  induction qs generalizing s with
  | nil => simp [serveAll]
  | cons q qs ih =>
    have hserve : s.serveAll (q :: qs) = (s.serve q).serveAll qs := rfl
    rw [hserve, ih]
    simp only [(keeps_serve (s := s) (q := q)).incomplete]
    cases q with
    | offer k =>
      have hd : (s.serve (.offer k)).diagnostics = s.diagnostics := by
        simp only [Site.serve, Site.exportKey]
        split <;> rfl
      rw [hd]
      rfl
    | pass k => rfl
    | satisfy r => rfl
    | refuse r =>
      have hd : (s.serve (.refuse r)).diagnostics = s.diagnostics ++ s.incomplete r := by
        simp only [Site.serve, Site.refuse, Site.incomplete, Site.accessors, List.getElem?_map]
        split <;> simp_all [Site.report, Site.setArgument]
      rw [hd, List.append_assoc]
      rfl

theorem mem_pending : r ∈ s.pending ↔ s.argument? r.child r.argument = some (r.key, .pending) := by
  simp only [pending, argument?, List.mem_flatMap, List.mem_filterMap, Prod.exists,
    List.mem_zipIdx_iff_getElem?, Option.bind_eq_some_iff]
  constructor
  · rintro ⟨child, c, hc, k, a, i, hi, h⟩
    split at h
    · rename_i ha
      cases h
      exact ⟨child, hc, by rw [hi, ← ha]⟩
    · cases h
  · rintro ⟨child, hc, hi⟩
    exact ⟨child, r.child, hc, r.key, .pending, r.argument, hi, by simp⟩

theorem incomplete_of_mem (hr : r ∈ s.pending) : ∃ a ∈ s.accessors, s.incomplete r =
    [.of s.id (.incomplete s.id a.injector r.key) [r.key] a.location] := by
  have ha := mem_pending.1 hr
  unfold argument? at ha
  obtain ⟨child, hchild, _⟩ := Option.bind_eq_some_iff.1 ha
  refine ⟨child.accessor, List.mem_map_of_mem (List.mem_of_getElem? hchild), ?_⟩
  simp [incomplete, accessors, hchild]

theorem pending_pairwise : s.pending.Pairwise fun r r' =>
    ¬ (r.child = r'.child ∧ r.argument = r'.argument) := by
  have increasing : ∀ {α : Type} (l : List α), l.zipIdx.Pairwise fun e e' => e.2 < e'.2 := by
    intro α l
    have h := List.pairwise_lt_range' (s := 0) (n := l.length)
    rw [← List.zipIdx_map_snd, List.pairwise_map] at h
    exact h
  have listed : ∀ {c i : Nat} {e : Key × Argument} {r : Requirement},
      (if e.2 = .pending then some (Requirement.mk c i e.1) else none) = some r →
        r.child = c ∧ r.argument = i := by
    intro c i e r h
    split at h
    · cases h
      exact ⟨rfl, rfl⟩
    · cases h
  unfold pending
  rw [List.pairwise_flatMap]
  constructor
  · rintro ⟨child, c⟩ _
    refine (increasing child.args).filterMap _ ?_
    rintro ⟨e, i⟩ ⟨e', i'⟩ hlt r hr r' hr' ⟨_, hi⟩
    rw [(listed hr).2, (listed hr').2] at hi
    simp only at hlt
    omega
  · refine (increasing s.children).imp ?_
    rintro ⟨child, c⟩ ⟨child', c'⟩ hlt r hr r' hr' ⟨hc, _⟩
    obtain ⟨_, _, hr⟩ := List.mem_filterMap.1 hr
    obtain ⟨_, _, hr'⟩ := List.mem_filterMap.1 hr'
    rw [(listed hr).1, (listed hr').1] at hc
    simp only at hlt
    omega

end Site

namespace Hierarchy

variable {c : Catalog} {id : InjectorId} {h h' : Hierarchy} {log : List Move} {s : Site} {b : Bool}
  {es : List (InjectorId × Requirement)} {ids : List InjectorId} {key : Key}

theorem Asks.verdicts (ha : Asks c key ids h log b h') :
    (Move.requestsTo id log).filterMap Request.verdict? = [] := by
  rw [List.filterMap_eq_nil_iff]
  intro q hq
  rcases ha.request (Move.mem_requestsTo.1 hq) with rfl | rfl <;> rfl

/-- An injector is told of each of its requirements once, in their order. A requirement is satisfied
if there are parents and all of them have been found to supply the key, and else one has been found
not to. -/
theorem Settles.verdicts (hs : Settles c es h log h') (id : InjectorId) :
    ((Move.requestsTo id log).filterMap Request.verdict?).map (·.1) =
        es.filterMap (fun e => if e.1 = id then some e.2 else none) ∧
      ∀ rv ∈ (Move.requestsTo id log).filterMap Request.verdict?,
        if rv.2 then c.parentIds id ≠ [] ∧
          ∀ p ∈ c.parentIds id, h'.answers.get? ⟨p, rv.1.key⟩ = some true
        else c.parentIds id ≠ [] →
          ∃ p ∈ c.parentIds id, h'.answers.get? ⟨p, rv.1.key⟩ = some false := by
  induction hs with
  | nil => simp [Move.requestsTo]
  | @cons j r es h h₁ h' log log' b ha hs ih =>
    have hanswered := ha.answered
    rw [Move.requestsTo_append, List.filterMap_append, ha.verdicts, List.nil_append,
      Move.requestsTo_cons, List.filterMap_append]
    by_cases hj : j = id
    · have hone : (Move.requestsTo id [verdict c j r b]).filterMap Request.verdict? =
          [(r, b && !(c.parentIds id).isEmpty)] := by
        subst hj
        cases hv : b && !(c.parentIds j).isEmpty <;>
          simp [Move.requestsTo, verdict, hv, Request.verdict?]
      rw [hone]
      refine ⟨by simp [ih.1, hj], fun rv hrv => ?_⟩
      rcases List.mem_append.1 hrv with hrv | hrv
      · obtain rfl := List.mem_singleton.1 hrv
        subst hj
        have stands : ∀ {p : InjectorId} {v : Bool}, h₁.answers.get? ⟨p, r.key⟩ = some v →
            h'.answers.get? ⟨p, r.key⟩ = some v :=
          fun hp => hs.answers_stand (by rw [answers_perform, hp])
        cases b with
        | true =>
          by_cases hne : c.parentIds j = []
          · simp [hne]
          · simpa [hne] using fun p hp => stands (hanswered p hp)
        | false =>
          obtain ⟨p, hp, hfalse⟩ := hanswered
          simpa using fun _ => ⟨p, hp, stands hfalse⟩
      · exact ih.2 rv hrv
    · have hnone : Move.requestsTo id [verdict c j r b] = [] := by
        simp [Move.requestsTo, verdict, hj]
      rw [hnone]
      simpa [hj] using ih

theorem requirementsOf_filterMap (hs : h.site? id = some s) (j : InjectorId) :
    (h.requirementsOf j).filterMap (fun e => if e.1 = id then some e.2 else none) =
      if j = id then s.pending else [] := by
  unfold requirementsOf
  by_cases hj : j = id
  · subst hj
    simp [hs, List.filterMap_map]
  · cases h.site? j with
    | none => simp [hj]
    | some t => simp [hj, List.filterMap_map]

theorem requirements_filterMap (hs : h.site? id = some s) :
    h.requirements.filterMap (fun e => if e.1 = id then some e.2 else none) = s.pending := by
  have hid : id ∈ h.sites.keys := Table.mem_keys_iff.2 ⟨_, get?_of_site? hs⟩
  unfold requirements
  rw [List.filterMap_flatMap]
  simp only [requirementsOf_filterMap hs]
  exact flatMap_ite_eq (Table.keys_nodup _) hid

end Hierarchy

end Wiring
