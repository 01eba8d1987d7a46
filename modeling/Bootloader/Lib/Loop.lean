import Mathlib

/-!
# Loops over an index range

`for (i = 0; i < n; i++) body(i)` as `loop body n`, and what such a loop does to one projection `π` of the
state: the loop invariant, the frame, and the loops whose body at `i` is the only one that touches `π`. A loop
that ends with the first attempt to succeed is `retry attempt n`.
-/

section
variable {σ β : Type} {b : Nat → σ → σ} {n i : Nat} {s : σ}

/-- The bodies of the indices below `n`, in order. -/
def loop (b : Nat → σ → σ) : Nat → σ → σ
  | 0, s => s
  | n + 1, s => b n (loop b n s)

theorem loop_inv {I : Nat → σ → Prop} (h0 : I 0 s) (hb : ∀ i < n, ∀ s, I i s → I (i + 1) (b i s)) :
    I n (loop b n s) := by
  induction n with
  | zero => exact h0
  | succ n ih => exact hb n (Nat.lt_succ_self n) _ (ih fun i hi => hb i (Nat.lt_succ_of_lt hi))

theorem loop_frame {π : σ → β} (hb : ∀ i < n, ∀ s, π (b i s) = π s) : π (loop b n s) = π s :=
  loop_inv (I := fun _ t => π t = π s) rfl fun i hi t ht => (hb i hi t).trans ht

/-- Only the body of `i` touches `π`. -/
theorem loop_at {π : σ → β} {g : β → β} (hi : i < n) (hself : ∀ s, π (b i s) = g (π s))
    (hother : ∀ j < n, j ≠ i → ∀ s, π (b j s) = π s) : π (loop b n s) = g (π s) := by
  have h := loop_inv (b := b) (n := n) (s := s) (I := fun k t => π t = if i < k then g (π s) else π s)
    (if_neg (Nat.not_lt_zero i)).symm fun j hj t ht => ?_
  · exact h.trans (if_pos hi)
  · by_cases hji : j = i
    · rw [hji] at ht ⊢
      rw [hself, ht, if_neg (Nat.lt_irrefl i), if_pos (Nat.lt_succ_self i)]
    · rw [hother j hj hji, ht]
      exact if_congr (by omega) rfl rfl

/-! ### Attempts -/

/-- At most `n` attempts; the first one with a value ends the loop. -/
def retry (attempt : σ → Option β × σ) : Nat → σ → Option β × σ
  | 0, s => (none, s)
  | n + 1, s =>
    match attempt s with
    | (some v, s) => (some v, s)
    | (none, s) => retry attempt n s

/-- The state behind the first `i` attempts. -/
def attempted (attempt : σ → Option β × σ) : Nat → σ → σ
  | 0, s => s
  | i + 1, s => attempted attempt i (attempt s).2

/-- An attempt gives `Q` where `A` holds and keeps `I` where it does not: with `A` at one of the attempts the loop
gives `Q`. -/
theorem retry_spec {attempt : σ → Option β × σ} {I A : σ → Prop} {Q : β → σ → Prop}
    (hok : ∀ s, I s → A s → ∃ v s', attempt s = (some v, s') ∧ Q v s')
    (hno : ∀ s, I s → ¬ A s → ∃ s', attempt s = (none, s') ∧ I s')
    (h : I s) (hA : ∃ i < n, A (attempted attempt i s)) : ∃ v s', retry attempt n s = (some v, s') ∧ Q v s' := by
  induction n generalizing s with
  | zero =>
    obtain ⟨i, hi, -⟩ := hA
    exact absurd hi (Nat.not_lt_zero i)
  | succ n ih =>
    rw [retry]
    by_cases hnow : A s
    · obtain ⟨v, s', he, hQ⟩ := hok s h hnow
      rw [he]
      exact ⟨v, s', rfl, hQ⟩
    · obtain ⟨s', he, hI⟩ := hno s h hnow
      obtain ⟨i, hi, hAi⟩ := hA
      -- the attempt that succeeds is a later one
      obtain ⟨j, rfl⟩ : ∃ j, i = j + 1 := Nat.exists_eq_succ_of_ne_zero fun h0 => hnow (by subst h0; exact hAi)
      rw [attempted, he] at hAi
      rw [he]
      exact ih hI ⟨j, Nat.lt_of_succ_lt_succ hi, hAi⟩

end
