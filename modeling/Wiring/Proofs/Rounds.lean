import Wiring.Proofs.Routes

set_option autoImplicit false

namespace Wiring

namespace Lookup

/-- What the loop does from a chain: the keys that it looks at, one in each round, and what it ends
with. -/
inductive Runs (l : Lookup) : AliasChain → List Key → Except BindingError Resolved → Prop where
  | provided {ch : AliasChain} {p : Provider} : l.find ch.current = .provider p →
      Runs l ch [ch.current] (.ok ⟨ch.current, ch.aliases, p⟩)
  | lacking {ch : AliasChain} {e : BindingError} : l.find ch.current = .error e →
      Runs l ch [ch.current] (.error e)
  | refused {ch : AliasChain} {d : Link} {e : BindingError} : l.find ch.current = .link d →
      ch.follow l.catalog d = .error e → Runs l ch [ch.current] (.error e)
  | followed {ch next : AliasChain} {d : Link} {keys : List Key}
      {out : Except BindingError Resolved} :
      l.find ch.current = .link d → ch.follow l.catalog d = .ok next → Runs l next keys out →
      Runs l ch (ch.current :: keys) out

/-- A chain that the loop may have come to from a key. -/
structure Started (l : Lookup) (k : Key) (ch : AliasChain) : Prop where
  route : l.Route k ch.aliases ch.current
  nodup : (ch.aliases ++ [ch.current]).Nodup
  visited : ch.visited = (ch.aliases ++ [ch.current]).reverse

variable {l : Lookup} {k : Key} {ch next : AliasChain} {d : Link} {keys keys' : List Key}
  {out out' : Except BindingError Resolved}

theorem hop?_of_find (hs : l.registry.Sorted) (h : l.find k = .link d) :
    l.hop? k = some (d, d.next k) := by
  rcases l.binds_or_hop_or_lacks k with ⟨p, hp⟩ | ⟨d', next, hhop⟩ | ⟨err, hlack⟩
  · rw [find_of_binds hp] at h
    cases h
  · obtain ⟨hfind, rfl⟩ := find_of_hop hs hhop
    obtain rfl : d' = d := Finding.link.inj (hfind.symm.trans h)
    exact hhop
  · rw [find_of_lacks hlack] at h
    cases h

theorem Runs.unique (h : l.Runs ch keys out) (h' : l.Runs ch keys' out') :
    keys = keys' ∧ out = out' := by
  induction h generalizing keys' with
  | provided hfind => cases h' <;> simp_all
  | lacking hfind => cases h' <;> simp_all
  | refused hfind hfollow => cases h' <;> simp_all
  | @followed ch next d keys out hfind hfollow _ ih =>
    cases h' with
    | provided hfind' | lacking hfind' | refused hfind' hfollow' => simp_all
    | @followed _ next' d' _ _ hfind' hfollow' hrest =>
      obtain rfl : d = d' := Finding.link.inj (hfind.symm.trans hfind')
      obtain rfl : next = next' := Except.ok.inj (hfollow.symm.trans hfollow')
      obtain ⟨rfl, rfl⟩ := ih hrest
      exact ⟨rfl, rfl⟩

theorem Runs.looks (h : l.Runs ch keys out) : ∃ followed, keys = ch.current :: followed := by
  cases h <;> exact ⟨_, rfl⟩

theorem Runs.resolveFrom_eq (h : l.Runs ch keys out) {n : Nat} (hn : keys.length ≤ n) :
    l.resolveFrom n ch = out := by
  induction h generalizing n with
  | provided hfind | lacking hfind =>
    obtain ⟨n, rfl⟩ := Nat.exists_eq_add_of_le' hn
    simp [resolveFrom, hfind]
  | refused hfind hfollow =>
    obtain ⟨n, rfl⟩ := Nat.exists_eq_add_of_le' hn
    simp [resolveFrom, hfind, hfollow]
  | followed hfind hfollow _ ih =>
    obtain ⟨n, rfl⟩ :=
      Nat.exists_eq_succ_of_ne_zero (Nat.ne_of_gt (Nat.lt_of_lt_of_le (Nat.succ_pos _) hn))
    simp only [resolveFrom, hfind, hfollow]
    exact ih (Nat.le_of_succ_le_succ hn)

theorem Started.start (l : Lookup) (k : Key) : l.Started k (.start k) :=
  ⟨.stay, List.nodup_singleton _, rfl⟩

theorem Started.follow (h : l.Started k ch) (hs : l.registry.Sorted)
    (hfind : l.find ch.current = .link d) (hfollow : ch.follow l.catalog d = .ok next) :
    l.Started k next ∧ next.aliases = ch.aliases ++ [ch.current] := by
  obtain ⟨⟨hadmits, hnew⟩, rfl⟩ := AliasChain.follow_eq_ok_iff.1 hfollow
  rw [h.visited, List.mem_reverse] at hnew
  refine ⟨⟨h.route.concat (hop?_of_find hs hfind) hadmits, ?_, ?_⟩, rfl⟩
  · exact h.nodup.append (List.nodup_singleton _) (List.disjoint_singleton.2 hnew)
  · simp [AliasChain.after, h.visited]

/-- The keys that a run looks at, behind those that the chain has passed, occur once and are not
many. -/
theorem Runs.bounded (h : l.Runs ch keys out) (hs : l.registry.Sorted) (hstart : l.Started k ch) :
    (ch.aliases ++ keys).Nodup ∧ (ch.aliases ++ keys).length ≤ linkBound l.registry + 1 := by
  induction h with
  | @followed ch next d keys out hfind hfollow _ ih =>
    obtain ⟨hnext, haliases⟩ := hstart.follow hs hfind hfollow
    rw [List.append_cons, ← haliases]
    exact ih hnext
  | _ =>
    refine ⟨hstart.nodup, ?_⟩
    rw [List.length_append]
    exact Nat.succ_le_succ (hstart.route.length_le (List.Nodup.of_append_left hstart.nodup))

theorem Started.exists_runs (hs : l.registry.Sorted) (h : l.Started k ch) :
    ∃ keys out, l.Runs ch keys out := by
  induction hn : linkBound l.registry - ch.aliases.length using Nat.strongRecOn generalizing ch with
  | ind n ih =>
    cases hfind : l.find ch.current with
    | provider p => exact ⟨_, _, .provided hfind⟩
    | error e => exact ⟨_, _, .lacking hfind⟩
    | link d =>
      cases hfollow : ch.follow l.catalog d with
      | error e => exact ⟨_, _, .refused hfind hfollow⟩
      | ok next =>
        obtain ⟨hnext, haliases⟩ := h.follow hs hfind hfollow
        have hle := hnext.route.length_le (List.Nodup.of_append_left hnext.nodup)
        rw [haliases, List.length_append, List.length_singleton] at hle
        obtain ⟨keys, out, hrun⟩ :=
          ih _ (by rw [haliases, List.length_append, List.length_singleton]; omega) hnext rfl
        exact ⟨_, _, .followed hfind hfollow hrun⟩

/-- The loop ends on every registry and for every key, with the answer that the key gets. It looks
at no key twice, and follows no more links than there are declared ones, and inheriting ones for
each qualifier that can come to them. -/
theorem runs_resolve {ss : List Specification} {is : List Interface} {r : Registry}
    (h : Registry.register ss is = .ok r) (c : Catalog) (autoBinding : Bool) (k : Key) :
    ∃ followed,
      (⟨c, r, autoBinding⟩ : Lookup).Runs (.start k) (k :: followed)
        ((⟨c, r, autoBinding⟩ : Lookup).resolve k) ∧
      (k :: followed).Nodup ∧
      followed.length ≤ r.links.entries.length + r.inheriting.entries.length *
        (r.links.entries.length + 1) ∧
      ∀ keys out, (⟨c, r, autoBinding⟩ : Lookup).Runs (.start k) keys out →
        keys = k :: followed ∧ out = (⟨c, r, autoBinding⟩ : Lookup).resolve k := by
  have hs := Registry.sorted_of_register h
  obtain ⟨keys, out, hrun⟩ := (Started.start ⟨c, r, autoBinding⟩ k).exists_runs hs
  obtain ⟨hnodup, hle⟩ := hrun.bounded hs (.start _ k)
  obtain ⟨followed, rfl⟩ := hrun.looks
  obtain rfl : Lookup.resolve ⟨c, r, autoBinding⟩ k = out := hrun.resolveFrom_eq hle
  exact ⟨followed, hrun, hnodup, Nat.le_of_succ_le_succ hle, fun _ _ h' => h'.unique hrun⟩

end Lookup

/-- `A` is linked to a qualified `B`, and the links between `B` and `C` hand the qualifier on to and
fro. -/
def circlingSpecification : Specification where
  id := "S"
  links := [.between ⟨"A", none⟩ ⟨"B", some (.label "q")⟩,
    (Link.between ⟨"B", none⟩ ⟨"C", none⟩).inheritQualifier,
    (Link.between ⟨"C", none⟩ ⟨"B", none⟩).inheritQualifier]

theorem runs_resolve_circling : ∃ r followed, Registry.register [circlingSpecification] [] = .ok r ∧
    (⟨⟨.empty, .empty, .empty, .empty⟩, r, true⟩ : Lookup).Runs (.start ⟨"A", none⟩)
      (⟨"A", none⟩ :: followed) (.error (.invalidLink ⟨"A", none⟩
        (.cycle [⟨"A", none⟩, ⟨"B", some (.label "q")⟩, ⟨"C", some (.label "q")⟩,
        ⟨"B", some (.label "q")⟩]) none)) ∧
    (⟨"A", none⟩ :: followed : List Key).Nodup ∧ followed.length ≤ 1 + 2 * (1 + 1) := by
  have h : (Registry.register [circlingSpecification] []).toOption.any fun r =>
      decide ((⟨⟨.empty, .empty, .empty, .empty⟩, r, true⟩ : Lookup).resolve ⟨"A", none⟩ =
        .error (.invalidLink ⟨"A", none⟩
          (.cycle [⟨"A", none⟩, ⟨"B", some (.label "q")⟩, ⟨"C", some (.label "q")⟩,
          ⟨"B", some (.label "q")⟩]) none)) &&
      decide (r.links.entries.length = 1 ∧ r.inheriting.entries.length = 2) := by
    decide +kernel
  obtain ⟨r, hr, h⟩ := exists_of_any h
  obtain ⟨hcycle, hcount⟩ := Bool.and_eq_true_iff.1 h
  obtain ⟨hlinks, hinheriting⟩ := of_decide_eq_true hcount
  obtain ⟨followed, hrun, hnodup, hle, -⟩ :=
    Lookup.runs_resolve hr ⟨.empty, .empty, .empty, .empty⟩ true ⟨"A", none⟩
  rw [of_decide_eq_true hcycle] at hrun
  rw [hlinks, hinheriting] at hle
  exact ⟨r, followed, hr, hrun, hnodup, hle⟩

end Wiring
