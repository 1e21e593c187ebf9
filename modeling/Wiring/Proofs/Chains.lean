import Wiring.Proofs.Missing

set_option autoImplicit false

namespace Wiring

open Relation

def BindingError.isDirect : BindingError → Bool
  | .missing _ | .duplicate .. | .invalidLink .. => true
  | .cyclic _ | .incomplete .. => false

theorem AliasChain.isDirect_of_follow {ch : AliasChain} {c : Catalog} {d : Link} {e : BindingError}
    (h : ch.follow c d = .error e) : e.isDirect := by
  unfold follow at h
  dsimp only at h
  split at h
  · cases h
    rfl
  · split at h
    · cases h
      rfl
    · cases h

namespace Lookup

variable {l : Lookup} {trail : List Key} {asker : Option Location} {k d last : Key}
  {ks passed : List Key} {s s' : Store} {out : Gathered} {r : Resolved}
  {e : BindingError} {rep : Report}

theorem isDirect_of_implicit? (h : l.implicit? k = .error e) : e.isDirect := by
  unfold implicit? at h
  split at h
  · cases h
    rfl
  · split at h
    · cases h
      rfl
    · cases h
    · cases h
      rfl

theorem isDirect_of_find (h : l.find k = .error e) : e.isDirect := by
  unfold find at h
  split at h
  · cases h
  · split at h
    · cases h
    · split at h
      · cases h
      · split at h
        · exact isDirect_of_implicit? h
        · cases h
          rfl

theorem isDirect_of_resolve (h : l.resolve k = .error e) : e.isDirect := by
  unfold resolve at h
  generalize linkBound l.registry + 1 = n at h
  generalize AliasChain.start k = ch at h
  induction n generalizing ch with
  | zero =>
    cases h
    rfl
  | succ n ih =>
    unfold resolveFrom at h
    split at h
    · cases h
    · rename_i hf
      cases h
      exact isDirect_of_find hf
    · split at h
      · exact ih _ h
      · rename_i ho
        cases h
        exact AliasChain.isDirect_of_follow ho

/-- A key leads to another one along the keys whose providers are needed on the way. -/
inductive Leads (l : Lookup) : Key → List Key → Key → Prop where
  | here {k : Key} : Leads l k [] k
  | there {k d last : Key} {r : Resolved} {passed : List Key} : l.resolve k = .ok r →
      d ∈ r.provider.dependencies → Leads l d passed last → Leads l k (r.key :: passed) last

/-- Why a way ends at its last key: it has no provider, or its provider has been passed and needs
itself. -/
inductive Stops (l : Lookup) (passed : List Key) (last : Key) : BindingError → Prop where
  | unresolved {e : BindingError} : e.isDirect → l.resolve last = .error e → Stops l passed last e
  | cyclic {k : Key} {r : Resolved} : l.resolve last = .ok r → r.key ∈ passed →
      k = last ∨ k = r.key →
      TransGen l.Needs last last → Stops l passed last (.cyclic k)

/-- A report of a search for some keys tells the way from one of them, behind the way that led to
the search. -/
def Explains (l : Lookup) (trail ks : List Key) (rep : Report) : Prop :=
  ∃ k ∈ ks, ∃ passed last, rep.trail = trail ++ passed ++ [last] ∧ l.Leads k passed last ∧
    l.Stops (trail ++ passed) last rep.error

theorem Explains.later (h : l.Explains trail ks rep) : l.Explains trail (k :: ks) rep := by
  obtain ⟨d, hd, hrest⟩ := h
  exact ⟨d, List.mem_cons_of_mem _ hd, hrest⟩

theorem Explains.within (h : l.Explains (trail ++ [r.key]) r.provider.dependencies rep)
    (hr : l.resolve k = .ok r) : l.Explains trail (k :: ks) rep := by
  obtain ⟨d, hd, passed, last, htrail, hleads, hstops⟩ := h
  have hway : trail ++ [r.key] ++ passed = trail ++ r.key :: passed := by simp
  rw [hway] at htrail hstops
  exact ⟨k, List.mem_cons_self, r.key :: passed, last, htrail, .there hr hd hleads, hstops⟩

theorem Awaited.cycle (h : l.Awaited trail (k :: ks) s) (hr : l.resolve k = .ok r)
    (hm : r.key ∈ trail) : TransGen l.Needs k k := by
  obtain ⟨d, hd, hdk⟩ := TransGen.head'_iff.1 (h.needed _ hm _ List.mem_cons_self)
  exact TransGen.head'_iff.2 ⟨d, (needs_key_iff hr).1 hd, hdk⟩

/-- A key in progress that is met again closes a cycle, since the keys in progress are led to the
way. -/
theorem Gathers.explains (h : l.Gathers trail asker ks s out s') (hw : l.Awaited trail ks s)
    (hout : out = .error (some rep)) : l.Explains trail ks rep := by
  induction h with
  | nil | refused | spoiled => simp at hout
  | known _ _ ih => exact (ih (hw.tail fun _ h => h) (Gathered.map_eq_error_iff.1 hout)).later
  | shared _ _ _ _ ih =>
    exact (ih (hw.tail fun _ hj => Store.status?_of_rememberAll hj (by simp))
      (Gathered.map_eq_error_iff.1 hout)).later
  | built _ _ _ h _ _ ih =>
    exact (ih (hw.tail fun _ hj => Store.status?_of_visit hj (by simp) h.inProgress_before)
      (Gathered.map_eq_error_iff.1 hout)).later
  | closing hk =>
    cases hout
    obtain ⟨r, hr, hm⟩ := hw.inProgress _ hk
    exact ⟨_, List.mem_cons_self, [], _, by simp, .here,
      .cyclic hr (by simpa using hm) (.inl rfl) (hw.cycle hr hm)⟩
  | looping _ hr hs =>
    cases hout
    obtain ⟨r', hr', hm⟩ := hw.inProgress _ hs
    cases (resolve_key hr).symm.trans hr'
    exact ⟨_, List.mem_cons_self, [], _, by simp, .here,
      .cyclic hr (by simpa using hm) (.inr rfl) (hw.cycle hr hm)⟩
  | unresolved _ hr =>
    cases hout
    exact ⟨_, List.mem_cons_self, [], _, by simp, .here, .unresolved (isDirect_of_resolve hr) hr⟩
  | broken _ hr _ _ ih => exact (ih (hw.claim hr) hout).within hr

theorem walk_explains (hs : s.Idle) (h : (l.walk k s).1.report? = some rep) :
    ∃ passed last, rep.trail = passed ++ [last] ∧ l.Leads k passed last ∧
      l.Stops passed last rep.error := by
  have hw : l.Awaited [] [k] s := ⟨fun j hj => absurd hj (hs j), by simp⟩
  have hout : (l.walk k s).1.gathered = .error (some rep) := by
    cases ho : (l.walk k s).1 with
    | node i => simp [ho, Outcome.report?] at h
    | failed e =>
      rw [ho] at h
      exact congrArg Except.error h
  obtain ⟨_, hk, hway⟩ := (walk_gathers hs).explains hw hout
  obtain rfl := List.mem_singleton.1 hk
  exact hway

end Lookup

/-- The keys that an injector asks for while it is built, some of them for a builder method. -/
inductive Injector.Asks (i : Injector) (l : Lookup) : Option Key → Key → Prop where
  | provider {m : ProviderMethod} : m ∈ i.providers → Asks i l none m.key
  | builder {m : BuilderMethod} {completion : Completion} {k : Key} : m ∈ i.builders →
      l.completion m.key = .ok completion → k ∈ completion.dependencies → Asks i l (some m.key) k
  | child {a : ChildAccessor} {j : Injector} {f : Interface} {k : Key} : a ∈ i.children →
      l.catalog.injectors.get? a.injector = some j → f ∈ l.catalog.interfacesOf j →
      k ∈ f.keys → Asks i l none k

/-- A chain that tells how an error comes about: the target of a builder method cannot be completed,
or a key that is asked for leads to one where the way ends. -/
inductive Injector.Genuine (i : Injector) (l : Lookup) : BindingError → List Key → Prop where
  | target {m : BuilderMethod} {e : BindingError} : m ∈ i.builders → l.completion m.key = .error e →
      Genuine i l e [m.key]
  | way {requestedBy : Option Key} {root last : Key} {passed : List Key} {e : BindingError} :
      i.Asks l requestedBy root → l.Leads root passed last → l.Stops passed last e →
      Genuine i l e (requestedBy.toList ++ passed ++ [last])

theorem Injector.asks_of_requiredBy {i : Injector} {l : Lookup} {a : ChildAccessor} {k : Key}
    (ha : a ∈ i.children) (hk : k ∈ Site.requiredBy l.catalog a.injector) : i.Asks l none k := by
  unfold Site.requiredBy at hk
  split at hk
  · cases hk
  · rename_i j hj
    obtain ⟨f, hf, hkey⟩ := List.mem_flatMap.1 (List.mem_eraseDups.1 hk)
    exact .child ha hj hf hkey

namespace Site

structure Honest (s : Site) : Prop where
  idle : s.store.Idle
  genuine : ∀ d ∈ s.diagnostics, s.injector.Genuine s.lookup d.error d.chain

namespace Honest

variable {s : Site} {requestedBy : Option Key} {k : Key} {ks missing : List Key}

theorem walk (h : s.Honest) (hk : s.injector.Asks s.lookup requestedBy k)
    (location : Option Location) :
    (s.lookup.walk k s.store).2.Idle ∧ ∀ r ∈ (s.lookup.walk k s.store).1.report?,
      s.injector.Genuine s.lookup (r.diagnostic s.id requestedBy location).error
        (r.diagnostic s.id requestedBy location).chain := by
  refine ⟨(Lookup.walk_gathers h.idle).idle h.idle, fun r hr => ?_⟩
  obtain ⟨passed, last, htrail, hleads, hstops⟩ := Lookup.walk_explains h.idle hr
  have hchain : (r.diagnostic s.id requestedBy location).chain =
      requestedBy.toList ++ passed ++ [last] := by
    rw [List.append_assoc, ← htrail]
    rfl
  rw [hchain]
  exact .way hk hleads hstops

theorem request (h : s.Honest) (hk : s.injector.Asks s.lookup requestedBy k)
    (location : Option Location) : (s.request requestedBy location k).2.Honest := by
  obtain ⟨hidle, hreport⟩ := h.walk hk location
  refine ⟨hidle, fun d hd => ?_⟩
  rcases List.mem_append.1 hd with hd | hd
  · exact h.genuine d hd
  · obtain ⟨r, hr, rfl⟩ := List.mem_map.1 hd
    exact hreport r (Option.mem_toList.1 hr)

theorem addProvider {m : ProviderMethod} (h : s.Honest) (hm : m ∈ s.injector.providers) :
    (s.addProvider m).Honest := by
  have hr := h.request (.provider hm) m.location
  unfold Site.addProvider
  dsimp only
  split
  · exact ⟨hr.idle, hr.genuine⟩
  · exact hr

theorem requestAll (h : s.Honest) (hks : ∀ k ∈ ks, s.injector.Asks s.lookup requestedBy k)
    (location : Option Location) : (s.requestAll requestedBy location ks).2.Honest := by
  induction ks generalizing s with
  | nil => exact h
  | cons k ks ih =>
    exact ih (h.request (hks k List.mem_cons_self) location) fun j hj =>
      hks j (List.mem_cons_of_mem _ hj)

theorem addBuilder {m : BuilderMethod} (h : s.Honest) (hm : m ∈ s.injector.builders) :
    (s.addBuilder m).Honest := by
  unfold Site.addBuilder
  cases hc : s.lookup.completion m.key with
  | error e =>
    refine ⟨h.idle, fun d hd => ?_⟩
    rcases List.mem_append.1 hd with hd | hd
    · exact h.genuine d hd
    · obtain rfl := List.mem_singleton.1 hd
      exact .target hm hc
  | ok completion =>
    have hr := h.requestAll (fun _ => .builder hm hc) (completion.location <|> m.location)
    dsimp only
    split
    · exact ⟨hr.idle, hr.genuine⟩
    · exact hr

theorem addArgument (h : s.Honest) (hk : s.injector.Asks s.lookup none k) (missing : List Key)
    (location : Option Location) : (s.addArgument missing location k).2.2.Honest := by
  obtain ⟨hidle, hreport⟩ := h.walk hk location
  unfold Site.addArgument
  dsimp only
  generalize ho : (s.walk k).1 = outcome
  change (s.lookup.walk k s.store).1 = _ at ho
  rw [ho] at hreport
  cases outcome with
  | node i => exact ⟨hidle, h.genuine⟩
  | failed r =>
    dsimp only
    split
    · exact ⟨hidle, h.genuine⟩
    · refine ⟨hidle, fun d hd => ?_⟩
      rcases List.mem_append.1 hd with hd | hd
      · exact h.genuine d hd
      · obtain ⟨rep, hrep, rfl⟩ := List.mem_map.1 hd
        exact hreport rep (Option.mem_toList.1 hrep)

theorem addArguments (h : s.Honest) (hks : ∀ k ∈ ks, s.injector.Asks s.lookup none k)
    (missing : List Key) (location : Option Location) :
    (s.addArguments missing location ks).2.2.Honest := by
  induction ks generalizing s missing with
  | nil => exact h
  | cons k ks ih =>
    have hgrows := Grows.addArgument s missing location k
    refine ih (h.addArgument (hks k List.mem_cons_self) missing location) (fun j hj => ?_) _
    rw [hgrows.injector, hgrows.lookup]
    exact hks j (List.mem_cons_of_mem _ hj)

theorem addChildren {as : List ChildAccessor} (h : s.Honest)
    (has : ∀ a ∈ as, a ∈ s.injector.children) (missing : List Key) :
    (s.addChildren missing as).Honest := by
  induction as generalizing s missing with
  | nil => exact h
  | cons a as ih =>
    have hchild : (s.addChild missing a).2.Honest := by
      have hargs := h.addArguments
        (fun k => Injector.asks_of_requiredBy (k := k) (has a List.mem_cons_self))
          missing a.location
      exact ⟨hargs.idle, hargs.genuine⟩
    rw [addChildren_cons]
    refine ih hchild (fun b hb => ?_) _
    rw [(Grows.addChild s missing a).injector]
    exact has b (List.mem_cons_of_mem _ hb)

theorem foldl {α : Type} {add : Site → α → Site} (h : s.Honest) (hgrows : ∀ s a, Grows s (add s a))
    (as : List α)
    (hadd : ∀ {t : Site} {a : α}, t.Honest → t.injector = s.injector → a ∈ as → (add t a).Honest) :
    (as.foldl add s).Honest := by
  induction as generalizing s with
  | nil => exact h
  | cons a as ih =>
    refine ih (hadd h rfl List.mem_cons_self) fun ht hi hb => ?_
    exact hadd ht (hi.trans (hgrows s a).injector) (List.mem_cons_of_mem _ hb)

theorem buildLocal (h : s.Honest) : s.buildLocal.Honest := by
  have hproviders :=
    h.foldl Grows.addProvider s.injector.providers fun ht hi hm => ht.addProvider (hi ▸ hm)
  have hp := (Grows.foldl Grows.addProvider s s.injector.providers).injector
  have hbuilders := hproviders.foldl Grows.addBuilder s.injector.builders fun ht hi hm =>
    ht.addBuilder (by rw [hi, hp]; exact hm)
  have hb :=
    (Grows.foldl Grows.addBuilder
      (s.injector.providers.foldl Site.addProvider s) s.injector.builders).injector
  rw [buildLocal_eq]
  refine hbuilders.addChildren (fun a ha => ?_) []
  rw [hb, hp]
  exact ha

end Honest

theorem diagnostic_cases {i : Injector} {l : Lookup} {qs : List Request} {d : Diagnostic}
    (hd : d ∈ ((buildLocal { injector := i, lookup := l }).serveAll qs).diagnostics) :
    i.Genuine l d.error d.chain ∨
    ∃ child k, d.error = .incomplete i.id child k ∧ d.chain = [k] := by
  have hgrows := Grows.buildLocal { injector := i, lookup := l }
  have hstart : Honest { injector := i, lookup := l } := ⟨Store.idle_empty, by simp⟩
  rw [diagnostics_serveAll] at hd
  rcases List.mem_append.1 hd with hd | hd
  · have hgenuine := hstart.buildLocal.genuine d hd
    rw [hgrows.injector, hgrows.lookup] at hgenuine
    exact .inl hgenuine
  · obtain ⟨⟨r, b⟩, _, hd⟩ := List.mem_flatMap.1 hd
    dsimp only at hd
    split at hd
    · cases hd
    · obtain ⟨a, _, rfl⟩ := List.mem_map.1 hd
      have hid : (buildLocal { injector := i, lookup := l }).id = i.id :=
        congrArg Injector.id hgrows.injector
      exact .inr ⟨a.injector, r.key, by rw [← hid]; rfl, rfl⟩

end Site

theorem Catalog.diagnosticsFor_cases {c : Catalog} {autoBinding : Bool} {i : Injector}
    {res : Resolution} {d : Diagnostic} (hc : c.Sound) (hi : c.injectors.get? i.id = some i)
    (hr : c.resolve autoBinding = some res) (hd : d ∈ res.diagnosticsFor i.id) :
    (∃ es, Registry.register (c.specificationClosure i) (c.interfacesOf i) = .error es ∧
      d.error ∈ es ∧ d.chain = []) ∨
    (∃ child k, d.error = .incomplete i.id child k ∧ d.chain = [k]) ∨
    ∃ l, c.lookup? autoBinding i.id = some l ∧ i.Genuine l d.error d.chain := by
  rw [diagnosticsFor_resolve hc hi hr] at hd
  unfold SiteState.build at hd
  cases hs : Site.start c autoBinding i with
  | error ds =>
    rw [hs] at hd
    obtain ⟨es, hregister, rfl⟩ := Site.start_conflicts hs
    obtain ⟨e, he, rfl⟩ := List.mem_map.1 hd
    exact .inl ⟨es, hregister, he, rfl⟩
  | ok s₀ =>
    have hbuilt : (c.built autoBinding).site? i.id = some s₀.buildLocal :=
      site?_built.2 ⟨i, s₀, hi, hs, rfl⟩
    have hl : c.lookup? autoBinding i.id = some s₀.lookup := by
      rw [← lookup?_eq, hbuilt, Option.map_some, (Site.Grows.buildLocal s₀).lookup]
    rw [hs] at hd
    obtain ⟨registry, rfl⟩ := Site.start_ok hs
    change d ∈ Resolution.reports (.building (Site.serveAll _ _)) at hd
    rw [Resolution.reports_building] at hd
    rcases Site.diagnostic_cases hd with hgenuine | hlacks
    · exact .inr (.inr ⟨_, hl, hgenuine⟩)
    · exact .inr (.inl hlacks)

/-- Whatever is reported of an injector, the chain is genuine, unless its declarations are in
conflict or a child of it lacks a key. -/
theorem Model.chain_genuine {m : Model} {c : Catalog} {s : Settings} {course : Course} {t : Token}
    {res : Resolution} {i : Injector} {d : Diagnostic} (hm : Catalog.ofModel m = .ok c)
    (h : m.resolveDuring s course t = .ok (some res)) (hi : i ∈ m.injectors)
    (hd : d ∈ res.diagnosticsFor i.id) :
    (∃ es, Registry.register (c.specificationClosure i) (c.interfacesOf i) = .error es ∧
      d.error ∈ es ∧ d.chain = []) ∨
    (∃ child k, d.error = .incomplete i.id child k ∧ d.chain = [k]) ∨
    ∃ l, c.lookup? s.autoBinding i.id = some l ∧ i.Genuine l d.error d.chain := by
  obtain ⟨c', hc', hres⟩ := resolveDuring_eq_some h
  obtain rfl : c = c' := Except.ok.inj (hm.symm.trans hc')
  split at hres
  · rw [hres] at hd
    cases hd
  · exact Catalog.diagnosticsFor_cases (Catalog.sound_of_ofModel hm)
      ((Catalog.get?_injectors hm).2 ⟨hi, rfl⟩) hres hd

def knottedInjector : Injector where
  id := "One"
  specifications := ["S"]
  providers := [{ name := "a", key := ⟨"A", none⟩ }]
  builders := [{ name := "t", key := ⟨"T", none⟩ }]

def knottedModel : Model where
  injectors := [knottedInjector]
  specifications := [
    { id := "S"
      factories := [(Factory.ofKey "make_b" ⟨"B", none⟩).parameter ⟨"C", none⟩,
        (Factory.ofKey "make_c" ⟨"C", none⟩).parameter ⟨"A", none⟩]
      builders := [(Builder.ofKey "fill_t" ⟨"T", none⟩).parameter ⟨"D", none⟩]
      links := [.between ⟨"A", none⟩ ⟨"B", none⟩] }]

theorem chain_genuine_knotted : ∃ c res l, Catalog.ofModel knottedModel = .ok c ∧
    knottedModel.resolveDuring {} (.still {} 0 (Nat.zero_le _)) ⟨0, none⟩ = .ok (some res) ∧
    c.lookup? true "One" = some l ∧
    (∃ d ∈ res.diagnosticsFor "One", d.error = .cyclic ⟨"A", none⟩ ∧
      d.chain = [⟨"B", none⟩, ⟨"C", none⟩, ⟨"A", none⟩]) ∧
    knottedInjector.Genuine l (.cyclic ⟨"A", none⟩) [⟨"B", none⟩, ⟨"C", none⟩, ⟨"A", none⟩] := by
  have h : (knottedModel.resolveDuring {} (.still {} 0 (Nat.zero_le _)) ⟨0, none⟩).toOption.any
      fun out => out.any fun res => (res.diagnosticsFor "One").any fun d =>
        decide (d.error = .cyclic ⟨"A", none⟩ ∧
          d.chain = [⟨"B", none⟩, ⟨"C", none⟩, ⟨"A", none⟩]) := by
    decide +kernel
  obtain ⟨res, hres, h⟩ := exists_of_any_any h
  obtain ⟨d, hd, h⟩ := List.any_eq_true.1 h
  obtain ⟨herror, hchain⟩ := of_decide_eq_true h
  obtain ⟨c, hc, -⟩ := Model.resolveDuring_eq_some hres
  rcases Model.chain_genuine (i := knottedInjector) hc hres List.mem_cons_self hd with
    ⟨_, _, _, hnil⟩ | ⟨_, _, hlacks, _⟩ | ⟨l, hl, hgenuine⟩
  · simp [hchain] at hnil
  · simp [herror] at hlacks
  · rw [herror, hchain] at hgenuine
    exact ⟨c, res, l, hc, hres, hl, ⟨d, hd, herror, hchain⟩, hgenuine⟩

end Wiring
