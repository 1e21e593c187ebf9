import Wiring.Lookup

set_option autoImplicit false

namespace Wiring

def AliasChain.after (ch : AliasChain) (d : Link) : AliasChain :=
  ⟨ch.aliases ++ [ch.current], d.next ch.current, d.next ch.current :: ch.visited⟩

/-- A link that can be followed leads to a type that fits and to a key that is new. -/
def AliasChain.Open (ch : AliasChain) (c : Catalog) (d : Link) : Prop :=
  c.isAssignable (d.next ch.current).type ch.current.type ≠ some false ∧
    d.next ch.current ∉ ch.visited

theorem AliasChain.follow_eq_ok_iff {ch ch' : AliasChain} {c : Catalog} {d : Link} :
    ch.follow c d = .ok ch' ↔ ch.Open c d ∧ ch' = ch.after d := by
  unfold follow Open after
  dsimp only
  split
  · simp_all
  · split
    · simp_all
    · simp_all [eq_comm]

namespace Lookup

variable {l : Lookup}

theorem resolveFrom_induct
    {motive : (n : Nat) → (ch : AliasChain) → (r : Resolved) → l.resolveFrom n ch = .ok r → Prop}
    (here : ∀ n ch p h, l.find ch.current = .provider p →
      motive (n + 1) ch ⟨ch.current, ch.aliases, p⟩ h)
    (there : ∀ n ch d r h, l.find ch.current = .link d → ch.Open l.catalog d →
      (hrun : l.resolveFrom n (ch.after d) = .ok r) → motive n (ch.after d) r hrun →
      motive (n + 1) ch r h)
    {n : Nat} {ch : AliasChain} {r : Resolved} (h : l.resolveFrom n ch = .ok r) :
    motive n ch r h := by
  induction n generalizing ch with
  | zero => cases h
  | succ n ih =>
    have hrun := h
    unfold resolveFrom at hrun
    cases hf : l.find ch.current with
    | provider p =>
      simp only [hf, Except.ok.injEq] at hrun
      subst hrun
      exact here n ch p h hf
    | error e => simp [hf] at hrun
    | link d =>
      simp only [hf] at hrun
      cases hd : ch.follow l.catalog d with
      | error e => simp [hd] at hrun
      | ok ch' =>
        simp only [hd] at hrun
        obtain ⟨ho, rfl⟩ := AliasChain.follow_eq_ok_iff.1 hd
        exact there n ch d r h hf ho hrun (ih hrun)

theorem resolveFrom_link {n : Nat} {ch : AliasChain} {d : Link} (hf : l.find ch.current = .link d)
    (ho : ch.Open l.catalog d) : l.resolveFrom (n + 1) ch = l.resolveFrom n (ch.after d) := by
  simp [resolveFrom, hf, AliasChain.follow_eq_ok_iff.2 ⟨ho, rfl⟩]

theorem resolveFrom_mono {n : Nat} {ch : AliasChain} {r : Resolved}
    (h : l.resolveFrom n ch = .ok r) :
    ∀ (m : Nat) (aliases visited : List Key), n ≤ m → visited ⊆ ch.visited →
      ∃ passed, r.via = ch.aliases ++ passed ∧
        l.resolveFrom m ⟨aliases, ch.current, visited⟩ =
          .ok ⟨r.key, aliases ++ passed, r.provider⟩ := by
  induction h using resolveFrom_induct with
  | here n ch p _ hf =>
    intro m aliases visited hn hv
    obtain ⟨m, rfl⟩ : ∃ k, m = k + 1 := ⟨m - 1, by omega⟩
    exact ⟨[], by simp [resolveFrom, hf]⟩
  | there n ch d r _ hf ho _ ih =>
    intro m aliases visited hn hv
    obtain ⟨m, rfl⟩ : ∃ k, m = k + 1 := ⟨m - 1, by omega⟩
    obtain ⟨passed, hvia, hrun⟩ := ih m (aliases ++ [ch.current]) (d.next ch.current :: visited)
      (by omega) (List.cons_subset_cons _ hv)
    have ho' : AliasChain.Open ⟨aliases, ch.current, visited⟩ l.catalog d :=
      ⟨ho.1, fun hm => ho.2 (hv hm)⟩
    refine ⟨ch.current :: passed, by simpa [AliasChain.after] using hvia, ?_⟩
    have hstep : l.resolveFrom (m + 1) ⟨aliases, ch.current, visited⟩ = l.resolveFrom m _ :=
      resolveFrom_link hf ho'
    rw [hstep]
    simpa [AliasChain.after] using hrun

theorem resolveFrom_find {n : Nat} {ch : AliasChain} {r : Resolved}
    (h : l.resolveFrom n ch = .ok r) :
    l.find r.key = .provider r.provider ∧
      ∀ a ∈ r.via, a ∈ ch.aliases ∨ ∃ d, l.find a = .link d := by
  induction h using resolveFrom_induct with
  | here n ch p _ hf => exact ⟨hf, fun a ha => .inl ha⟩
  | there n ch d r _ hf _ _ ih =>
    obtain ⟨hkey, hvia⟩ := ih
    refine ⟨hkey, fun a ha => ?_⟩
    rcases hvia a ha with hm | hl
    · rcases List.mem_append.1 hm with hm | hm
      · exact .inl hm
      · obtain rfl := List.mem_singleton.1 hm
        exact .inr ⟨d, hf⟩
    · exact .inr hl

theorem resolveFrom_passed {n : Nat} {ch : AliasChain} {r : Resolved}
    (h : l.resolveFrom n ch = .ok r) :
    n ≤ linkBound l.registry + 1 → ch.current ∈ ch.visited →
      ∀ a ∈ r.via, a ∈ ch.aliases ∨ ∃ via, l.resolve a = .ok ⟨r.key, via, r.provider⟩ := by
  induction h using resolveFrom_induct with
  | here => exact fun _ _ a ha => .inl ha
  | there n ch d r _ hf ho hrun ih =>
    intro hn hc a ha
    rcases ih (by omega) List.mem_cons_self a ha with hm | hr
    · rcases List.mem_append.1 hm with hm | hm
      · exact .inl hm
      · -- the run from here on is the run of a request for the current key
        obtain rfl := List.mem_singleton.1 hm
        rw [← resolveFrom_link hf ho] at hrun
        obtain ⟨passed, _, hfresh⟩ := resolveFrom_mono hrun _ [] [ch.current] hn
          (List.cons_subset.2 ⟨hc, List.nil_subset _⟩)
        exact .inr ⟨passed, hfresh⟩
    · exact .inr hr

theorem find_key {k : Key} {r : Resolved} (h : l.resolve k = .ok r) :
    l.find r.key = .provider r.provider := (resolveFrom_find h).1

theorem find_via {k a : Key} {r : Resolved} (h : l.resolve k = .ok r) (ha : a ∈ r.via) :
    ∃ d, l.find a = .link d := by
  rcases (resolveFrom_find h).2 a ha with hm | hd
  · cases hm
  · exact hd

theorem resolve_via {k a : Key} {r : Resolved} (h : l.resolve k = .ok r) (ha : a ∈ r.via) :
    ∃ via, l.resolve a = .ok ⟨r.key, via, r.provider⟩ := by
  rcases resolveFrom_passed h (Nat.le_refl _) List.mem_cons_self a ha with hm | hr
  · cases hm
  · exact hr

theorem resolve_of_find {k : Key} {p : Provider} (h : l.find k = .provider p) :
    l.resolve k = .ok ⟨k, [], p⟩ := by
  simp [resolve, resolveFrom, AliasChain.start, h]

theorem resolve_key {k : Key} {r : Resolved} (h : l.resolve k = .ok r) :
    l.resolve r.key = .ok ⟨r.key, [], r.provider⟩ := resolve_of_find (find_key h)

/-- Whatever leads to a provider leads to the same one. -/
theorem resolve_passed {j k : Key} {r : Resolved} (h : l.resolve k = .ok r)
    (hj : j = r.key ∨ j ∈ r.via) : ∃ via, l.resolve j = .ok ⟨r.key, via, r.provider⟩ := by
  rcases hj with rfl | hj
  · exact ⟨_, resolve_key h⟩
  · exact resolve_via h hj

theorem notMem_via_of_find {j k : Key} {r : Resolved} {p : Provider} (hj : l.find j = .provider p)
    (h : l.resolve k = .ok r) : j ∉ r.via := by
  intro hm
  obtain ⟨d, hd⟩ := find_via h hm
  rw [hj] at hd
  cases hd

theorem mem_via_or_eq_key {k : Key} {r : Resolved} (h : l.resolve k = .ok r) :
    k ∈ r.via ∨ k = r.key ∧ r.via = [] := by
  unfold resolve at h
  generalize hch : AliasChain.start k = ch at h
  generalize linkBound l.registry + 1 = steps at h
  induction h using resolveFrom_induct with
  | here =>
    subst hch
    exact .inr ⟨rfl, rfl⟩
  | there n ch d r _ _ _ hrun _ =>
    subst hch
    obtain ⟨passed, hvia, _⟩ := resolveFrom_mono hrun _ [] [] (Nat.le_refl _) (List.nil_subset _)
    exact .inl (by simp [hvia, AliasChain.after, AliasChain.start])

end Lookup

end Wiring
