import Mathlib

/-!
# Fits through two points

The line `y = k * x + b` and the divider `v = k * r / (r + b)` through two given points, over any field. The line
needs different abscissas; the divider needs points that are not proportional. Over an ordered field, the
proportional pairs are a ray, and whether it meets a box of positive pairs shows at two corners of the box.
-/

namespace TwoPoint

section
variable {K : Type} [Field K] {x₁ x₂ y₁ y₂ r₁ r₂ v₁ v₂ : K}

theorem line_left {k : K} : k * x₁ + (y₁ - k * x₁) = y₁ := add_sub_cancel _ _

theorem line_right (hx : x₁ - x₂ ≠ 0) :
    (y₁ - y₂) / (x₁ - x₂) * x₂ + (y₁ - (y₁ - y₂) / (x₁ - x₂) * x₁) = y₂ := by
  have hk : (y₁ - y₂) / (x₁ - x₂) * (x₁ - x₂) = y₁ - y₂ := div_mul_cancel₀ _ hx
  calc (y₁ - y₂) / (x₁ - x₂) * x₂ + (y₁ - (y₁ - y₂) / (x₁ - x₂) * x₁)
      = y₁ - (y₁ - y₂) / (x₁ - x₂) * (x₁ - x₂) := by ring
    _ = y₂ := by rw [hk, sub_sub_cancel]

/-- The second resistance of the divider. -/
def divB (r₁ r₂ v₁ v₂ : K) : K := r₁ * r₂ * (v₂ - v₁) / (v₁ * r₂ - v₂ * r₁)

/-- The supply of the divider. -/
def divK (r₁ v₁ b : K) : K := v₁ / r₁ * (b + r₁)

theorem add_divB_left (hd : v₁ * r₂ - v₂ * r₁ ≠ 0) :
    r₁ + divB r₁ r₂ v₁ v₂ = r₁ * v₂ * (r₂ - r₁) / (v₁ * r₂ - v₂ * r₁) := by
  rw [divB, eq_div_iff hd, add_mul, div_mul_cancel₀ _ hd]
  ring

theorem add_divB_right (hd : v₁ * r₂ - v₂ * r₁ ≠ 0) :
    r₂ + divB r₁ r₂ v₁ v₂ = r₂ * v₁ * (r₂ - r₁) / (v₁ * r₂ - v₂ * r₁) := by
  rw [divB, eq_div_iff hd, add_mul, div_mul_cancel₀ _ hd]
  ring

theorem add_divB_left_ne_zero (hd : v₁ * r₂ - v₂ * r₁ ≠ 0) (hr : r₁ ≠ 0) (hv : v₂ ≠ 0) (hne : r₂ - r₁ ≠ 0) :
    r₁ + divB r₁ r₂ v₁ v₂ ≠ 0 := by
  rw [add_divB_left hd]
  exact div_ne_zero (mul_ne_zero (mul_ne_zero hr hv) hne) hd

theorem add_divB_right_ne_zero (hd : v₁ * r₂ - v₂ * r₁ ≠ 0) (hr : r₂ ≠ 0) (hv : v₁ ≠ 0) (hne : r₂ - r₁ ≠ 0) :
    r₂ + divB r₁ r₂ v₁ v₂ ≠ 0 := by
  rw [add_divB_right hd]
  exact div_ne_zero (mul_ne_zero (mul_ne_zero hr hv) hne) hd

theorem div_left {b : K} (hr : r₁ ≠ 0) (hb : r₁ + b ≠ 0) : divK r₁ v₁ b * r₁ / (r₁ + b) = v₁ := by
  rw [div_eq_iff hb, divK, mul_right_comm, div_mul_cancel₀ _ hr, add_comm b]

theorem div_right (hd : v₁ * r₂ - v₂ * r₁ ≠ 0) (hr : r₁ ≠ 0) (hb : r₂ + divB r₁ r₂ v₁ v₂ ≠ 0) :
    divK r₁ v₁ (divB r₁ r₂ v₁ v₂) * r₂ / (r₂ + divB r₁ r₂ v₁ v₂) = v₂ := by
  -- both sides are the first point's numerator over the common denominator
  have hk : divK r₁ v₁ (divB r₁ r₂ v₁ v₂) = v₁ * v₂ * (r₂ - r₁) / (v₁ * r₂ - v₂ * r₁) := by
    rw [divK, add_comm, add_divB_left hd, mul_div_assoc', mul_assoc r₁, ← mul_assoc, div_mul_cancel₀ _ hr, ← mul_assoc]
  rw [div_eq_iff hb, hk, add_divB_right hd]
  ring

end

/-- The ray of the pairs in the ratio `r` to `s` meets a box if and only if two opposite corners lie on different
sides of it. -/
theorem ray_meets_box_iff {K : Type} [Field K] [LinearOrder K] [IsStrictOrderedRing K] {a b c d r s : K}
    (hr : 0 < r) (hs : 0 < s) (hab : a ≤ b) (hcd : c ≤ d) :
    (∃ x y, ((a ≤ x ∧ x ≤ b) ∧ c ≤ y ∧ y ≤ d) ∧ x * s = y * r) ↔ c * r ≤ b * s ∧ a * s ≤ d * r := by
  constructor
  · rintro ⟨x, y, ⟨⟨hax, hxb⟩, hcy, hyd⟩, hxy⟩
    constructor
    · calc c * r ≤ y * r := mul_le_mul_of_nonneg_right hcy hr.le
        _ = x * s := hxy.symm
        _ ≤ b * s := mul_le_mul_of_nonneg_right hxb hs.le
    · calc a * s ≤ x * s := mul_le_mul_of_nonneg_right hax hs.le
        _ = y * r := hxy
        _ ≤ d * r := mul_le_mul_of_nonneg_right hyd hr.le
  · rintro ⟨hcb, had⟩
    -- the first point of the ray that is beyond the lower corner
    have hmax {t : K} (h1 : a / r ≤ t) (h2 : c / s ≤ t) : a ≤ t * r ∧ c ≤ t * s :=
      ⟨(div_le_iff₀ hr).1 h1, (div_le_iff₀ hs).1 h2⟩
    refine ⟨max (a / r) (c / s) * r, max (a / r) (c / s) * s, ?_, by ring⟩
    obtain ⟨hx, hy⟩ := hmax (le_max_left (a / r) (c / s)) (le_max_right _ _)
    refine ⟨⟨hx, ?_⟩, hy, ?_⟩
    · rw [max_mul_of_nonneg _ _ hr.le, div_mul_cancel₀ _ hr.ne', div_mul_eq_mul_div]
      exact max_le hab ((div_le_iff₀ hs).2 hcb)
    · rw [max_mul_of_nonneg _ _ hs.le, div_mul_cancel₀ _ hs.ne', div_mul_eq_mul_div]
      exact max_le ((div_le_iff₀ hr).2 had) hcd

end TwoPoint
