import Mathlib

/-!
# Consecutive layouts

Blocks of given sizes, one behind the other: block `k` starts at the sum of the sizes before it.
-/

namespace Layout

/-- The start of block `k`. -/
def offset (sizes : List Nat) (k : Nat) : Nat := (sizes.take k).sum

variable {sizes : List Nat} {i j k n : Nat}

@[simp] theorem offset_zero : offset sizes 0 = 0 := by rw [offset, List.take_zero, List.sum_nil]

@[simp] theorem offset_cons_succ : offset (n :: sizes) (k + 1) = n + offset sizes k := by
  rw [offset, List.take_succ_cons, List.sum_cons, offset]

theorem offset_succ (hk : k < sizes.length) : offset sizes (k + 1) = offset sizes k + sizes[k] := by
  rw [offset, List.take_succ_eq_append_getElem hk, List.sum_append, List.sum_singleton, offset]

theorem offset_mono (h : i ≤ j) : offset sizes i ≤ offset sizes j :=
  (List.take_sublist_take_left h).sum_le_sum fun _ _ => Nat.zero_le _

theorem offset_length : offset sizes sizes.length = sizes.sum := by rw [offset, List.take_length]

/-- A block ends where a later one starts, or before. -/
theorem end_le_offset (hi : i < sizes.length) (hij : i < j) : offset sizes i + sizes[i] ≤ offset sizes j := by
  rw [← offset_succ hi]
  exact offset_mono hij

theorem end_le_sum (hk : k < sizes.length) : offset sizes k + sizes[k] ≤ sizes.sum := by
  rw [← offset_length]
  exact end_le_offset hk hk

/-- If there is anything to lay out, some block ends at the end of the layout. -/
theorem exists_end (h : 0 < sizes.sum) : ∃ k, ∃ hk : k < sizes.length, offset sizes k + sizes[k] = sizes.sum := by
  have hpos : 0 < sizes.length := by
    cases sizes with
    | nil => exact absurd h (Nat.lt_irrefl 0)
    | cons n sizes => exact Nat.succ_pos _
  refine ⟨sizes.length - 1, by omega, ?_⟩
  rw [← offset_succ (by omega), Nat.sub_add_cancel hpos, offset_length]

end Layout
