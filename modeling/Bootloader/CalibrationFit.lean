import Bootloader.CalibrationLimits
import Bootloader.Lib.TwoPoint

/-!
# The coefficients and the points they come from

`SBC_GetResCalFactor` and `SBC_GetRes4WCalFactor` fit a line (constant current and comparison) or a divider (constant
voltage) through the two calibration points of a range. The limits of the voltages are there so that the coefficients
are right; on some ranges they let voltages pass through which there is no such fit.
-/

namespace Bootloader

namespace CalFam

/-- The methods that a file has a formula for. -/
def methods : CalFam → List TestMethod
  | .res => [.cc, .cv]
  | .res4W => [.cc, .cp, .cv]

/-- The ranges with limits that let voltages pass at which the formula divides by zero. -/
def poleRanges (f : CalFam) (m : TestMethod) : List Nat :=
  match f, m with
  | .res, .cc => [0]
  | .res, .cv => [1, 2, 3]
  | .res4W, .cv => [0, 1, 2, 3, 4, 5]
  | _, _ => []

end CalFam

namespace CalInfo

variable {f : CalFam} {m : TestMethod} {x : CalInfo} {v : CalVolt} {k b : ℚ}

/-- What is divided by, in the computation of the coefficients and in their use on the two points. -/
def denominators (m : TestMethod) (x : CalInfo) (v : CalVolt) (b : ℚ) : List ℚ :=
  match m with
  | .cv => [v.v1 * x.res2 - v.v2 * x.res1, x.res1, x.res1 + b, x.res2 + b]
  | _ => [v.v1 - v.v2]

/-- The coefficients give the resistors from the voltages or, with a constant voltage, the voltages from the
resistors. -/
def Reproduces (m : TestMethod) (x : CalInfo) (v : CalVolt) (k b : ℚ) : Prop :=
  match m with
  | .cv => k * x.res1 / (x.res1 + b) = v.v1 ∧ k * x.res2 / (x.res2 + b) = v.v2
  | _ => k * v.v1 + b = x.res1 ∧ k * v.v2 + b = x.res2

/-- The voltages are equal or, with a constant voltage, in proportion to the resistors. -/
def Pole (m : TestMethod) (x : CalInfo) (v : CalVolt) : Prop :=
  match m with
  | .cv => v.v1 * x.res2 = v.v2 * x.res1
  | _ => v.v1 = v.v2

/-- Different resistors, and limits that leave positive voltages. -/
structure Proper (x : CalInfo) : Prop where
  res1 : 0 < x.res1
  res2 : 0 < x.res2
  res : x.res2 - x.res1 ≠ 0
  v1Min : 0 < x.v1Min
  v2Min : 0 < x.v2Min
  v1 : x.v1Min ≤ x.v1Max
  v2 : x.v2Min ≤ x.v2Max

theorem Proper.volt_ne_zero (hx : Proper x) (hv : x.accepts v = true) : v.v1 ≠ 0 ∧ v.v2 ≠ 0 := by
  obtain ⟨⟨h1, -⟩, h2, -⟩ := accepts_iff.1 hv
  exact ⟨(hx.v1Min.trans_le h1).ne', (hx.v2Min.trans_le h2).ne'⟩

/-! ### The formula of a line -/

theorem denominators_of_ne (hm : m ≠ .cv) : denominators m x v b = [v.v1 - v.v2] := by
  cases m with
  | cv => exact absurd rfl hm
  | cc | cp | other => rfl

theorem reproduces_of_ne (hm : m ≠ .cv) :
    Reproduces m x v k b ↔ k * v.v1 + b = x.res1 ∧ k * v.v2 + b = x.res2 := by
  cases m with
  | cv => exact absurd rfl hm
  | cc | cp | other => rfl

theorem pole_of_ne (hm : m ≠ .cv) : Pole m x v ↔ v.v1 = v.v2 := by
  cases m with
  | cv => exact absurd rfl hm
  | cc | cp | other => rfl

theorem factor_of_ne (hm : m ∈ f.methods) (hcv : m ≠ .cv) : x.factor f m v =
    some ((x.res1 - x.res2) / (v.v1 - v.v2), x.res1 - (x.res1 - x.res2) / (v.v1 - v.v2) * v.v1) := by
  cases m with
  | cv => exact absurd rfl hcv
  | cc => cases f <;> rfl
  | cp =>
    cases f with
    | res => exact absurd hm (by decide)
    | res4W => rfl
  | other => exact absurd hm (by cases f <;> decide)

theorem factor_cv : x.factor f .cv v = some (TwoPoint.divK x.res1 v.v1 (TwoPoint.divB x.res1 x.res2 v.v1 v.v2),
    TwoPoint.divB x.res1 x.res2 v.v1 v.v2) := by
  cases f <;> rfl

/-! ### When there is a fit -/

/-- Which of the limits decide whether voltages at the pole are accepted. -/
theorem Proper.exists_pole_iff (hx : Proper x) : (∃ v, x.accepts v = true ∧ Pole m x v) ↔
    if m = .cv then x.v2Min * x.res1 ≤ x.v1Max * x.res2 ∧ x.v1Min * x.res2 ≤ x.v2Max * x.res1
    else x.v2Min ≤ x.v1Max ∧ x.v1Min ≤ x.v2Max := by
  have hpair {P : ℚ → ℚ → Prop} : (∃ v : CalVolt, x.accepts v = true ∧ P v.v1 v.v2) ↔
      ∃ p q, ((x.v1Min ≤ p ∧ p ≤ x.v1Max) ∧ x.v2Min ≤ q ∧ q ≤ x.v2Max) ∧ P p q :=
    ⟨fun ⟨v, hv, hP⟩ => ⟨v.v1, v.v2, accepts_iff.1 hv, hP⟩, fun ⟨p, q, hpq, hP⟩ => ⟨⟨p, q⟩, accepts_iff.2 hpq, hP⟩⟩
  split
  · next hm =>
    subst hm
    exact hpair.trans (TwoPoint.ray_meets_box_iff hx.res1 hx.res2 hx.v1 hx.v2)
  · next hm =>
    -- equal voltages are those in the ratio of 1 to 1
    have hray := TwoPoint.ray_meets_box_iff one_pos one_pos hx.v1 hx.v2
    simp only [mul_one] at hray
    simp only [pole_of_ne hm]
    exact (hpair (P := fun p q => p = q)).trans hray

theorem Proper.fits_cv_iff (hx : Proper x) (hv : x.accepts v = true) :
    (∃ k b, x.factor f .cv v = some (k, b) ∧ (∀ d ∈ denominators .cv x v b, d ≠ 0) ∧ Reproduces .cv x v k b) ↔
      ¬ Pole .cv x v := by
  obtain ⟨h1, h2⟩ := hx.volt_ne_zero hv
  rw [factor_cv]
  constructor
  · rintro ⟨k, b, -, hd, -⟩ hpole
    exact hd _ List.mem_cons_self (sub_eq_zero.2 hpole)
  · intro hpole
    have hd : v.v1 * x.res2 - v.v2 * x.res1 ≠ 0 := sub_ne_zero.2 hpole
    have hb1 := TwoPoint.add_divB_left_ne_zero hd hx.res1.ne' h2 hx.res
    have hb2 := TwoPoint.add_divB_right_ne_zero hd hx.res2.ne' h1 hx.res
    refine ⟨_, _, rfl, ?_, TwoPoint.div_left hx.res1.ne' hb1, TwoPoint.div_right hd hx.res1.ne' hb2⟩
    simp only [denominators, List.forall_mem_cons]
    exact ⟨hd, hx.res1.ne', hb1, hb2, List.forall_mem_nil _⟩

theorem fits_line_iff (hm : m ∈ f.methods) (hcv : m ≠ .cv) :
    (∃ k b, x.factor f m v = some (k, b) ∧ (∀ d ∈ denominators m x v b, d ≠ 0) ∧ Reproduces m x v k b) ↔
      ¬ Pole m x v := by
  rw [factor_of_ne hm hcv, pole_of_ne hcv]
  constructor
  · rintro ⟨k, b, -, hd, -⟩ he
    rw [denominators_of_ne hcv, List.forall_mem_singleton] at hd
    exact hd (sub_eq_zero.2 he)
  · intro hne
    have hd : v.v1 - v.v2 ≠ 0 := sub_ne_zero.2 hne
    refine ⟨_, _, rfl, ?_, (reproduces_of_ne hcv).2 ⟨TwoPoint.line_left, TwoPoint.line_right hd⟩⟩
    rw [denominators_of_ne hcv, List.forall_mem_singleton]
    exact hd

/-- There is a fit, and the formula gives it, if and only if the voltages are not at the pole. -/
theorem Proper.fits_iff (hx : Proper x) (hv : x.accepts v = true) (hm : m ∈ f.methods) :
    (∃ k b, x.factor f m v = some (k, b) ∧ (∀ d ∈ denominators m x v b, d ≠ 0) ∧ Reproduces m x v k b) ↔
      ¬ Pole m x v := by
  by_cases hcv : m = .cv
  · subst hcv
    exact hx.fits_cv_iff hv
  · exact fits_line_iff hm hcv

end CalInfo

namespace CalFam

variable {f : CalFam} {m : TestMethod} {i : Nat} {v : CalVolt}

theorem proper (hi : i < f.rangeNum) (hflag : (f.calInfo i).flag = true) : (f.calInfo i).Proper := by
  have h : ∀ f : CalFam, ∀ i < f.rangeNum, (f.calInfo i).flag = true →
      0 < (f.calInfo i).res1 ∧ 0 < (f.calInfo i).res2 ∧ (f.calInfo i).res2 - (f.calInfo i).res1 ≠ 0 ∧
        0 < (f.calInfo i).v1Min ∧ 0 < (f.calInfo i).v2Min ∧ (f.calInfo i).v1Min ≤ (f.calInfo i).v1Max ∧
        (f.calInfo i).v2Min ≤ (f.calInfo i).v2Max := by
    intro f
    cases f <;> decide +kernel
  obtain ⟨h1, h2, h3, h4, h5, h6, h7⟩ := h f i hi hflag
  exact ⟨h1, h2, h3, h4, h5, h6, h7⟩

/-- The ranges of the table, from the limits of each range and the ratio of its resistors. -/
theorem exists_pole_iff (hm : m ∈ f.methods) (hi : i < f.rangeNum) (hflag : (f.calInfo i).flag = true) :
    (∃ v, (f.calInfo i).accepts v = true ∧ (f.calInfo i).Pole m v) ↔ i ∈ f.poleRanges m := by
  have h : ∀ f : CalFam, ∀ m ∈ f.methods, ∀ i < f.rangeNum, (f.calInfo i).flag = true →
      ((if m = .cv then (f.calInfo i).v2Min * (f.calInfo i).res1 ≤ (f.calInfo i).v1Max * (f.calInfo i).res2 ∧
          (f.calInfo i).v1Min * (f.calInfo i).res2 ≤ (f.calInfo i).v2Max * (f.calInfo i).res1
        else (f.calInfo i).v2Min ≤ (f.calInfo i).v1Max ∧ (f.calInfo i).v1Min ≤ (f.calInfo i).v2Max) ↔
        i ∈ f.poleRanges m) := by
    intro f
    cases f <;> decide +kernel
  rw [(proper hi hflag).exists_pole_iff]
  exact h f m hm i hi hflag

end CalFam

namespace Cal

variable {s : Cal} {f : CalFam} {m : TestMethod} {i : Nat}

/-- The range `i` passes the assertions of a request with accepted voltages, and there is nothing in the cache. -/
structure Requestable (f : CalFam) (i : Nat) (s : Cal) : Prop where
  calInitFlag : (s.ram f).calInitFlag = true
  calFlag : (s.ram f).calFlag = true
  initflag : ((s.ram f).calFactor i).initflag = false
  accepts : (f.calInfo i).accepts ((s.ram f).calVolt i) = true

/-- What a request should return: coefficients without a division by zero that reproduce the two points. -/
def Interpolates (f : CalFam) (m : TestMethod) (i : Nat) (s : Cal) : Prop :=
  ∃ k b s', request f m i s = some ((k, b), s') ∧
    (∀ d ∈ (f.calInfo i).denominators m ((s.ram f).calVolt i) b, d ≠ 0) ∧
    (f.calInfo i).Reproduces m ((s.ram f).calVolt i) k b

theorem requestable_calInit (hi : i < f.rangeNum) (hflag : (f.calInfo i).flag = true)
    (hf : ((calInit f s).ram f).calFlag = true) (hc : ((s.ram f).calFactor i).initflag = false) :
    Requestable f i (calInit f s) := by
  obtain ⟨v, hst, hv⟩ := accepts_of_calInit hf hi hflag
  have hr := range_calInit (s := s) (f := f) (g := f) hi
  rw [if_pos rfl] at hr
  refine ⟨?_, hf, ?_, ?_⟩
  · rw [calInit, setCalInitFlag]
    dsimp only
    rw [Function.update_self]
  · have hfac : ((calInit f s).range f i).factor = (s.range f i).factor := by
      rw [hr, CalRange.init]
      split
      · rfl
      cases (s.range f i).stored with
      | none => rfl
      | some w =>
        dsimp only
        split <;> rfl
    exact (congrArg CalFactor.initflag hfac).trans hc
  · have hgood := CalRange.good_init (r := s.range f i) hflag hst hv
    rw [← hr] at hgood
    exact hgood.accepts

theorem request_of_requestable (hs : Requestable f i s) (hi : i < f.rangeNum) (hflag : (f.calInfo i).flag = true)
    {kb : ℚ × ℚ} : (∃ s', request f m i s = some (kb, s')) ↔
      (f.calInfo i).factor f m ((s.ram f).calVolt i) = some kb := by
  rw [request_eq, getCalFactor, if_neg (by rw [hs.calInitFlag]; decide), if_neg (Nat.not_le_of_gt hi),
    if_neg (by rw [hs.calFlag]; decide), if_neg (by rw [hflag]; decide), if_pos hs.initflag]
  cases (f.calInfo i).factor f m ((s.ram f).calVolt i) with
  | none => exact ⟨fun h => absurd h.choose_spec (by rintro ⟨⟩), fun h => absurd h (by rintro ⟨⟩)⟩
  | some kb' =>
    constructor
    · rintro ⟨s', h⟩
      cases h; rfl
    · intro h
      cases h
      exact ⟨_, rfl⟩

/-- On accepted voltages a request returns coefficients that reproduce the two points, but for the ranges with poles
between their limits, and there if and only if the voltages are not at the pole. -/
theorem interpolates_iff (hm : m ∈ f.methods) (hi : i < f.rangeNum) (hflag : (f.calInfo i).flag = true)
    (hs : Requestable f i s) :
    Interpolates f m i s ↔ ¬ (i ∈ f.poleRanges m ∧ (f.calInfo i).Pole m ((s.ram f).calVolt i)) := by
  have hx := CalFam.proper hi hflag
  have hint : Interpolates f m i s ↔ ∃ k b, (f.calInfo i).factor f m ((s.ram f).calVolt i) = some (k, b) ∧
      (∀ d ∈ (f.calInfo i).denominators m ((s.ram f).calVolt i) b, d ≠ 0) ∧
      (f.calInfo i).Reproduces m ((s.ram f).calVolt i) k b := by
    constructor
    · rintro ⟨k, b, s', hreq, h⟩
      exact ⟨k, b, (request_of_requestable hs hi hflag).1 ⟨s', hreq⟩, h⟩
    · rintro ⟨k, b, hfac, h⟩
      obtain ⟨s', hreq⟩ := (request_of_requestable hs hi hflag).2 hfac
      exact ⟨k, b, s', hreq, h⟩
  rw [hint, hx.fits_iff hs.accepts hm, not_iff_not]
  -- accepted voltages at a pole: the range is one of those
  exact ⟨fun hp => ⟨(CalFam.exists_pole_iff hm hi hflag).1 ⟨_, hs.accepts, hp⟩, hp⟩, And.right⟩

/-- The default voltages of the first range, with a constant voltage. -/
theorem interpolates_iff_default : Interpolates .res .cv 0 (calInit .res (calDefault .res (start fun _ => none))) :=
  (interpolates_iff (by decide) (by decide) (by decide +kernel) (requestable_calInit (by decide) (by decide +kernel)
    (by decide +kernel) (by decide +kernel))).2 fun h => absurd h.1 (by decide)

/-- 0.5 V on both resistors of the first range, with a constant current. -/
theorem not_interpolates_of_equal : ∃ s, s = calInit .res (sbcResCal (fun _ => ⟨0.5, 0.5⟩)
      (calDefault .res (start fun _ => none))) ∧
    (s.ram .res).calVolt 0 = ⟨0.5, 0.5⟩ ∧ Requestable .res 0 s ∧ ¬ Interpolates .res .cc 0 s := by
  have hv : ((calInit .res (sbcResCal (fun _ => ⟨0.5, 0.5⟩)
      (calDefault .res (start fun _ => none)))).ram .res).calVolt 0 = ⟨0.5, 0.5⟩ := by decide +kernel
  refine ⟨_, rfl, hv, requestable_calInit (by decide) (by decide +kernel) (by decide +kernel) (by decide +kernel), ?_⟩
  rintro ⟨k, b, s', -, hd, -⟩
  rw [hv] at hd
  exact hd _ List.mem_cons_self (sub_self _)

end Cal

end Bootloader
