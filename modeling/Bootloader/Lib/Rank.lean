import Mathlib

/-!
# Places and ranks

The places below `n` at which `p` holds, in order, and the rank of a place, which is the number of earlier ones
(`Nat.count p`). The two are inverse to each other: place `k` of the list is the one with the rank `k`.
-/

namespace Rank

/-- The places below `n` at which `p` holds. -/
def places (p : Nat → Prop) [DecidablePred p] (n : Nat) : List Nat := (List.range n).filter (p ·)

variable {p : Nat → Prop} [DecidablePred p] {n i k : Nat}

theorem mem_places : i ∈ places p n ↔ i < n ∧ p i := by
  rw [places, List.mem_filter, List.mem_range, decide_eq_true_iff]

theorem places_succ : places p (n + 1) = if p n then places p n ++ [n] else places p n := by
  rw [places, List.range_succ, List.filter_append, List.filter_singleton]
  by_cases hn : p n
  · rw [if_pos hn, decide_eq_true hn]; rfl
  · rw [if_neg hn, decide_eq_false hn]
    exact List.append_nil _

theorem length_places : (places p n).length = Nat.count p n := by
  induction n with
  | zero => rfl
  | succ n ih =>
    rw [places_succ, Nat.count_succ]
    by_cases hn : p n
    · rw [if_pos hn, if_pos hn, List.length_append, ih]; rfl
    · rw [if_neg hn, if_neg hn, ih]; rfl

/-- The ranks of the places are 0, 1, 2 and so on. -/
theorem map_count_places : (places p n).map (Nat.count p) = List.range (places p n).length := by
  induction n with
  | zero => rfl
  | succ n ih =>
    rw [places_succ]
    by_cases hn : p n
    · rw [if_pos hn, List.map_append, ih, List.length_append, List.map_singleton, List.length_singleton,
        List.range_succ, ← length_places]
    · rw [if_neg hn, ih]

theorem places_getElem? : (places p n)[k]? = some i ↔ i < n ∧ p i ∧ Nat.count p i = k := by
  have hrank {k i : Nat} (h : (places p n)[k]? = some i) : Nat.count p i = k := by
    have hm : ((places p n).map (Nat.count p))[k]? = some (Nat.count p i) := by rw [List.getElem?_map, h]; rfl
    rw [map_count_places] at hm
    obtain ⟨hk, he⟩ := List.getElem?_eq_some_iff.1 hm
    rw [List.getElem_range] at he
    exact he.symm
  constructor
  · intro h
    obtain ⟨hi, hp⟩ := mem_places.1 (List.mem_of_getElem? h)
    exact ⟨hi, hp, hrank h⟩
  · rintro ⟨hi, hp, rfl⟩
    obtain ⟨j, hj⟩ := List.mem_iff_getElem?.1 (mem_places.2 ⟨hi, hp⟩)
    rw [hrank hj]
    exact hj

/-- The first place that holds a given rank. -/
theorem find?_rank {q : Nat → Bool} (hq : ∀ i < n, q i = true ↔ p i ∧ Nat.count p i = k) :
    (List.range n).find? q = (places p n)[k]? := by
  cases hk : (places p n)[k]? with
  | none =>
    refine List.find?_eq_none.2 fun i hi hqi => ?_
    have hi := List.mem_range.1 hi
    have hs := places_getElem?.2 ⟨hi, (hq i hi).1 hqi⟩
    rw [hk] at hs
    exact absurd hs (by rintro ⟨⟩)
  | some i =>
    obtain ⟨hi, hp, hc⟩ := places_getElem?.1 hk
    refine List.find?_range_eq_some.2 ⟨(hq i hi).2 ⟨hp, hc⟩, List.mem_range.2 hi, fun j hj => ?_⟩
    -- two places of one rank are the same
    rw [Bool.not_eq_true', Bool.eq_false_iff]
    intro hqj
    obtain ⟨hpj, hcj⟩ := (hq j (hj.trans hi)).1 hqj
    exact hj.ne (Nat.count_injective hpj hp (hcj.trans hc.symm))

/-- The first place of all. -/
theorem find?_places {q : Nat → Bool} (hq : ∀ i < n, q i = true ↔ p i) : (List.range n).find? q = (places p n)[0]? := by
  rw [← List.head?_eq_getElem?, places, List.head?_filter]
  exact List.find?_congr fun i hi => Bool.eq_iff_iff.2 ((hq i (List.mem_range.1 hi)).trans decide_eq_true_iff.symm)

end Rank
