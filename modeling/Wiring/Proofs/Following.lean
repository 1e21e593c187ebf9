import Wiring.Proofs.Links
import Wiring.Proofs.Supertypes

set_option autoImplicit false

namespace Wiring

namespace AliasChain

variable {ch : AliasChain} {c : Catalog} {d : Link} {k j : Key}

/-- Follows a link on a chain that is kept if this fails. The next key is entered before the test
for cycles. -/
def advance (ch : AliasChain) (c : Catalog) (d : Link) : Except BindingError Key × AliasChain :=
  let next := d.next ch.current
  if c.isAssignable next.type ch.current.type = some false then
    (.error (.invalidLink ch.current (.typeMismatch ch.current.type next.type) d.location), ch)
  else
    let entered : AliasChain := { ch with visited := ch.visited.insert next }
    if ch.visited.contains next then
      let chain := ch.aliases ++ [ch.current, next]
      (.error (.invalidLink (chain.head?.getD next) (.cycle chain) d.location), entered)
    else (.ok next, { entered with aliases := ch.aliases ++ [ch.current], current := next })

/-- The chain after some links have been tried from a key, whether or not they are links for where
it then stands. -/
def along (c : Catalog) (k : Key) (ds : List Link) : AliasChain :=
  ds.foldl (fun ch d => (ch.advance c d).2) (.start k)

def keys (ch : AliasChain) : List Key := ch.aliases ++ [ch.current]

theorem advance_eq (ch : AliasChain) (c : Catalog) (d : Link) :
    ch.advance c d =
      match ch.follow c d with
      | .ok next => (.ok next.current, next)
      | .error e => (.error e, ch) := by
  unfold advance follow
  dsimp only
  split
  · rfl
  · split
    · rename_i hmem
      rw [List.insert_of_mem (List.contains_iff_mem.1 hmem)]
    · rename_i hnew
      rw [List.insert_of_not_mem (mt List.contains_iff_mem.2 hnew)]

/-- What every chain from a key is like, however far it has come. -/
structure Tracks (k : Key) (ch : AliasChain) : Prop where
  nodup : ch.keys.Nodup
  visited : ∀ j, j ∈ ch.visited ↔ j ∈ ch.keys
  head : ch.keys.head? = some k

theorem Tracks.start (k : Key) : Tracks k (.start k) :=
  ⟨List.nodup_singleton _, fun _ => Iff.rfl, rfl⟩

theorem Tracks.after (h : Tracks k ch) (hopen : ch.Open c d) : Tracks k (ch.after d) := by
  have hkeys : (ch.after d).keys = ch.keys ++ [d.next ch.current] := rfl
  have hnew : d.next ch.current ∉ ch.keys := mt (h.visited _).2 hopen.2
  refine ⟨?_, fun j => ?_, ?_⟩
  · rw [hkeys]
    exact h.nodup.append (List.nodup_singleton _) (List.disjoint_singleton.2 hnew)
  · rw [hkeys, List.mem_append, List.mem_singleton, ← h.visited, or_comm]
    exact List.mem_cons
  · rw [hkeys, List.head?_append, h.head]
    rfl

theorem Tracks.advance (h : Tracks k ch) : Tracks k (ch.advance c d).2 := by
  rw [advance_eq]
  split
  · rename_i next hfollow
    obtain ⟨hopen, rfl⟩ := follow_eq_ok_iff.1 hfollow
    exact h.after hopen
  · exact h

theorem along_concat (c : Catalog) (k : Key) (ds : List Link) (d : Link) :
    along c k (ds ++ [d]) = ((along c k ds).advance c d).2 := by
  rw [along, List.foldl_append]
  rfl

theorem Tracks.along (c : Catalog) (k : Key) (ds : List Link) :
    Tracks k (AliasChain.along c k ds) := by
  induction ds using List.reverseRecOn with
  | nil => exact .start k
  | append_singleton ds d ih =>
    rw [along_concat]
    exact ih.advance

theorem Tracks.follow_cycle_iff (h : Tracks k ch) {chain : List Key} {location : Option Location} :
    ch.follow c d = .error (.invalidLink j (.cycle chain) location) ↔
      c.isAssignable (d.next ch.current).type ch.current.type ≠ some false ∧
      d.next ch.current ∈ ch.keys ∧
        j = k ∧ chain = ch.keys ++ [d.next ch.current] ∧ location = d.location := by
  have hchain : ch.aliases ++ [ch.current, d.next ch.current] = ch.keys ++ [d.next ch.current] := by
    simp [keys]
  have hhead : (ch.keys ++ [d.next ch.current]).head?.getD (d.next ch.current) = k := by
    rw [List.head?_append, h.head]
    rfl
  unfold follow
  simp only [hchain, hhead, List.contains_iff_mem, h.visited]
  split
  · simp [*]
  · split
    · rename_i hfits hmem
      constructor
      · rintro ⟨⟩
        exact ⟨hfits, hmem, rfl, rfl, rfl⟩
      · rintro ⟨-, -, rfl, rfl, rfl⟩
        rfl
    · simp [*]

/-- However many links are tried on a chain, and whatever comes of them, it has visited each key
that it has come to, and no other; none of them twice, and the first is the one that it started
from. A link that fails leaves it as it was. A cycle is reported exactly if a link that fits leads
back to one of the keys, and names all of them and this one. -/
theorem along_keys (c : Catalog) (k : Key) (ds : List Link) :
    let ch := along c k ds
    ch.keys.Nodup ∧ (∀ j, j ∈ ch.visited ↔ j ∈ ch.keys) ∧ ch.keys.head? = some k ∧
      ∀ d, (ch.advance c d).1 = (ch.follow c d).map (·.current) ∧
        (∀ next, ch.follow c d = .ok next →
          along c k (ds ++ [d]) = next ∧ next.keys = ch.keys ++ [d.next ch.current]) ∧
        (∀ e, ch.follow c d = .error e → along c k (ds ++ [d]) = ch) ∧
        ∀ j chain location, ch.follow c d = .error (.invalidLink j (.cycle chain) location) ↔
          c.isAssignable (d.next ch.current).type ch.current.type ≠ some false ∧
          d.next ch.current ∈ ch.keys ∧
            j = k ∧ chain = ch.keys ++ [d.next ch.current] ∧ location = d.location := by
  intro ch
  have h : Tracks k ch := .along c k ds
  refine ⟨h.nodup, h.visited, h.head,
    fun d => ⟨?_, fun next hnext => ?_, fun e he => ?_, fun j chain location => ?_⟩⟩
  · rw [advance_eq]
    cases ch.follow c d <;> rfl
  · rw [along_concat, advance_eq, hnext]
    obtain ⟨-, rfl⟩ := follow_eq_ok_iff.1 hnext
    exact ⟨rfl, rfl⟩
  · rw [along_concat, advance_eq, he]
  · exact h.follow_cycle_iff

/-- From `A` to `B`, on to `C` by a link that is for `D`, and back to `A`, where the chain has been.
-/
theorem along_keys_tiered :
    let a : Key := ⟨"A", none⟩
    let b : Key := ⟨"B", none⟩
    let last : Key := ⟨"C", none⟩
    let onward := [Link.between a b, .between ⟨"D", none⟩ last]
    let back := Link.between last a
    ∃ c, Catalog.ofModel tieredModel = .ok c ∧ (along c a onward).keys = [a, b, last] ∧
      (along c a onward).keys.Nodup ∧ along c a (onward ++ [back]) = along c a onward ∧
      (along c a onward).follow c back = .error (.invalidLink a (.cycle [a, b, last, a]) none) ∧
      c.isAssignable a.type last.type ≠ some false := by
  intro a b last onward back
  have h : (Catalog.ofModel tieredModel).toOption.any fun c => decide
      ((along c a [.between a b]).follow c (.between ⟨"D", none⟩ last) =
        .ok ⟨[a, b], last, [last, b, a]⟩ ∧
        (along c a onward).follow c back =
          .error (.invalidLink a (.cycle [a, b, last, a]) none)) := by
    decide +kernel
  obtain ⟨c, hc, h⟩ := exists_of_any h
  obtain ⟨hfollow, hcycle⟩ := of_decide_eq_true h
  obtain ⟨hon, -⟩ :=
    ((along_keys c a [.between a b]).2.2.2 (.between ⟨"D", none⟩ last)).2.1 _ hfollow
  obtain ⟨hnodup, -, -, hstep⟩ := along_keys c a onward
  obtain ⟨-, -, hkept, hclosed⟩ := hstep back
  have honward : along c a onward = ⟨[a, b], last, [last, b, a]⟩ := hon
  refine ⟨c, hc, by rw [honward]; rfl, hnodup, hkept _ hcycle, hcycle, ?_⟩
  have hfits := ((hclosed _ _ _).1 hcycle).1
  rwa [honward] at hfits

end AliasChain

end Wiring
