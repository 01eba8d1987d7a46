import Mathlib

/-!
# Elements in queues

A family of queues in which every element stands where its `home` says and nowhere else. Taking an element out of
whatever queue it is in and putting it into one keep this, so that a system whose elements move between queues needs no
argument of its own about membership.
-/

variable {ι α : Type} [DecidableEq α]

/-- The element is in the queue of its home, once, and in no other. -/
structure Placed (queue : ι → List α) (home : α → Option ι) : Prop where
  nodup : ∀ i, (queue i).Nodup
  mem_iff : ∀ i x, x ∈ queue i ↔ home x = some i

/-- Out of every queue. -/
def unlink (queue : ι → List α) (x : α) : ι → List α := fun i => (queue i).erase x

namespace Placed
variable {queue : ι → List α} {home : α → Option ι} {x y : α} {i j : ι} {l : List α}

theorem unlink (h : Placed queue home) (x : α) : Placed (unlink queue x) (Function.update home x none) := by
  refine ⟨fun i => (h.nodup i).erase x, fun i y => ?_⟩
  change y ∈ (queue i).erase x ↔ _
  rw [(h.nodup i).mem_erase_iff, h.mem_iff]
  by_cases hy : y = x
  · simp [hy]
  · simp [hy]

theorem insert [DecidableEq ι] (h : Placed queue home) (hx : home x = none) (hl : l.Perm (x :: queue i)) :
    Placed (Function.update queue i l) (Function.update home x (some i)) := by
  have hnot : x ∉ queue i := fun hm => by
    rw [h.mem_iff, hx] at hm
    cases hm
  refine ⟨fun j => ?_, fun j y => ?_⟩
  · by_cases hj : j = i
    · subst hj
      rw [Function.update_self, hl.nodup_iff]
      exact List.nodup_cons.2 ⟨hnot, h.nodup j⟩
    · rw [Function.update_of_ne hj]
      exact h.nodup j
  · by_cases hj : j = i
    · subst hj
      rw [Function.update_self, hl.mem_iff, List.mem_cons, h.mem_iff]
      by_cases hy : y = x
      · simp [hy]
      · simp [hy]
    · rw [Function.update_of_ne hj, h.mem_iff]
      by_cases hy : y = x
      · simp [hy, hx, Ne.symm hj]
      · rw [Function.update_of_ne hy]

theorem erase_eq (h : Placed queue home) (hx : home x ≠ some i) : (queue i).erase x = queue i :=
  List.erase_of_not_mem fun hm => hx ((h.mem_iff i x).1 hm)

end Placed
