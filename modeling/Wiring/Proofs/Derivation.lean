import Mathlib.Logic.Relation
import Wiring.Proofs.Links

set_option autoImplicit false

namespace Wiring.Lookup

open Relation

/-- A key is derivable if it has a provider and all that the provider needs is derivable. -/
inductive Derivable (l : Lookup) : Key → Prop where
  | intro {k : Key} {r : Resolved} : l.resolve k = .ok r →
      (∀ d ∈ r.provider.dependencies, Derivable l d) → Derivable l k

/-- A key is attainable if it has been drawn, or has a provider that has been drawn or that only
needs what is attainable. -/
inductive Attainable (l : Lookup) (drawn : Key → Prop) : Key → Prop where
  | drawn {k : Key} : drawn k → Attainable l drawn k
  | shared {k : Key} {r : Resolved} : l.resolve k = .ok r → Attainable l drawn r.key →
      Attainable l drawn k
  | made {k : Key} {r : Resolved} : l.resolve k = .ok r →
      (∀ d ∈ r.provider.dependencies, Attainable l drawn d) → Attainable l drawn k

def Needs (l : Lookup) (k d : Key) : Prop := ∃ r, l.resolve k = .ok r ∧ d ∈ r.provider.dependencies

variable {l : Lookup} {j k d : Key} {r r' : Resolved}

theorem Derivable.resolve_ok (h : l.Derivable k) : ∃ r, l.resolve k = .ok r := by
  cases h with
  | intro hr _ => exact ⟨_, hr⟩

theorem Derivable.of_needs (h : l.Derivable k) (hd : l.Needs k d) : l.Derivable d := by
  cases h with
  | intro hr ih =>
    obtain ⟨r', hr', hm⟩ := hd
    rw [hr] at hr'
    cases hr'
    exact ih d hm

theorem derivable_iff (h : l.resolve k = .ok r) :
    l.Derivable k ↔ ∀ d ∈ r.provider.dependencies, l.Derivable d :=
  ⟨fun hk _ hd => hk.of_needs ⟨r, h, hd⟩, .intro h⟩

theorem derivable_congr (hj : l.resolve j = .ok r) (hk : l.resolve k = .ok r')
    (hp : r.provider = r'.provider) : l.Derivable j ↔ l.Derivable k := by
  rw [derivable_iff hj, derivable_iff hk, hp]

theorem needs_congr (hj : l.resolve j = .ok r) (hk : l.resolve k = .ok r')
    (hp : r.provider = r'.provider) : l.Needs j d ↔ l.Needs k d := by
  simp [Needs, hj, hk, hp]

theorem needs_key_iff (h : l.resolve k = .ok r) : l.Needs r.key d ↔ l.Needs k d :=
  needs_congr (resolve_key h) h rfl

theorem derivable_key_iff (h : l.resolve k = .ok r) : l.Derivable r.key ↔ l.Derivable k :=
  derivable_congr (resolve_key h) h rfl

theorem Attainable.mono {drawn drawn' : Key → Prop} (h : l.Attainable drawn k)
    (hd : ∀ j, drawn j → drawn' j) : l.Attainable drawn' k := by
  induction h with
  | drawn hk => exact .drawn (hd _ hk)
  | shared hr _ ih => exact .shared hr ih
  | made hr _ ih => exact .made hr ih

theorem attainable_none_iff : l.Attainable (fun _ => False) k ↔ l.Derivable k := by
  constructor
  · intro h
    induction h with
    | drawn hk => exact hk.elim
    | shared hr _ ih => exact (derivable_key_iff hr).1 ih
    | made hr _ ih => exact .intro hr ih
  · intro h
    induction h with
    | intro hr _ ih => exact .made hr ih

theorem Derivable.not_needs_self (h : l.Derivable k) : ¬ TransGen l.Needs k k := by
  induction h with
  | @intro k r hr _ ih =>
    intro hk
    obtain ⟨d, hd, hdk⟩ := TransGen.head'_iff.1 hk
    have hm : d ∈ r.provider.dependencies := by
      obtain ⟨r', hr', hm⟩ := hd
      rw [hr] at hr'
      cases hr'
      exact hm
    exact ih d hm (TransGen.tail'_iff.2 ⟨k, hdk, hd⟩)

theorem not_derivable_of_needs_key (h : l.resolve k = .ok r) (hk : TransGen l.Needs r.key k) :
    ¬ l.Derivable k := by
  intro hd
  obtain ⟨d, hkd, hdk⟩ := TransGen.head'_iff.1 hk
  exact hd.not_needs_self (TransGen.head'_iff.2 ⟨d, (needs_key_iff h).1 hkd, hdk⟩)

end Wiring.Lookup
