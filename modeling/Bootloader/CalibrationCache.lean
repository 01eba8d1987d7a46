import Bootloader.Calibration

/-!
# The cached coefficients

A request computes the coefficients of a range once and keeps them until `initflag` is cleared. Only `SBC_ResCal`
clears it; the other operations that change voltages leave the coefficients of the old ones.
-/

namespace Bootloader

namespace CalRange

variable {x : CalInfo} {v : CalVolt} {r : CalRange}

theorem init_factor : (r.init x).factor = r.factor := by
  unfold CalRange.init
  split
  · rfl
  split
  · split <;> rfl
  · rfl

theorem init_volt : (r.init x).volt = r.volt ∨
    ∃ v, x.flag = true ∧ r.stored = some v ∧ x.accepts v = true ∧ (r.init x).volt = v := by
  unfold CalRange.init
  split
  · exact .inl rfl
  next hflag =>
  split
  · next v hst =>
    split
    · next hacc => exact .inr ⟨v, Bool.eq_true_of_not_eq_false hflag, hst, hacc, rfl⟩
    · exact .inl rfl
  · exact .inl rfl

theorem init_volt_of_accepts (hflag : x.flag = true) (hst : r.stored = some v) (hacc : x.accepts v = true) :
    (r.init x).volt = v := by
  rw [CalRange.init, if_neg (by rw [hflag]; decide), hst]
  dsimp only
  rw [if_pos hacc]

theorem resCal_initflag : (r.resCal x v).factor.initflag = false := by
  unfold CalRange.resCal
  dsimp only
  split
  · rfl
  split <;> rfl

theorem res4WCal_factor : (r.res4WCal x v).factor = r.factor := by
  unfold CalRange.res4WCal
  split
  · rfl
  split <;> rfl

theorem res4WCal_volt_eq : (r.res4WCal x v).volt = if x.flag = true then v else r.volt := by
  unfold CalRange.res4WCal
  cases x.flag with
  | false => rfl
  | true =>
    rw [if_neg (by decide), if_pos rfl]
    split <;> rfl

end CalRange

namespace Cal

variable {s s' : Cal} {f : CalFam} {i : Nat} {a : CalAct} {method : CalFam → Nat → TestMethod}
  {h : List (Cal × CalAct)}

/-- The coefficients in the cache belong to the voltages. -/
def Coherent (method : CalFam → Nat → TestMethod) (s : Cal) : Prop :=
  ∀ f, ∀ i < f.rangeNum, ((s.ram f).calFactor i).initflag = true →
    (f.calInfo i).factor f (method f i) ((s.ram f).calVolt i) =
      some (((s.ram f).calFactor i).k, ((s.ram f).calFactor i).b)

/-- An operation other than `SBC_ResCal` that leaves the voltages of the ranges with coefficients in the cache: those it
would assign are there already. -/
def Leaves (s : Cal) : CalAct → Prop
  | .init f => ∀ i < f.rangeNum, ((s.ram f).calFactor i).initflag = true → (f.calInfo i).flag = true →
      ∀ v, s.eepromRdf f i = some v → (f.calInfo i).accepts v = true → v = (s.ram f).calVolt i
  | .setDefault f => ∀ i < f.rangeNum, ((s.ram f).calFactor i).initflag = true →
      (f.calInfo i).default = (s.ram f).calVolt i
  | .cal .res4W v => ∀ i < CalFam.res4W.rangeNum, ((s.ram .res4W).calFactor i).initflag = true →
      (CalFam.res4W.calInfo i).flag = true → v i = (s.ram .res4W).calVolt i
  | .cal .res _ => True
  | .getFactor _ _ => True

/-- `s'` has the voltages of `s` in a range, and its coefficients or new ones that belong to the voltages. -/
def Kept (method : CalFam → Nat → TestMethod) (s s' : Cal) (f : CalFam) (i : Nat) : Prop :=
  (s'.range f i).volt = (s.range f i).volt ∧ ((s'.range f i).factor = (s.range f i).factor ∨
    (f.calInfo i).factor f (method f i) (s.range f i).volt =
      some ((s'.range f i).factor.k, (s'.range f i).factor.b))

theorem Kept.of_eq (he : s'.range f i = s.range f i) : Kept method s s' f i := by
  rw [Kept, he]
  exact ⟨rfl, .inl rfl⟩

theorem kept_calInit {g : CalFam} (hl : Leaves s (.init g)) (hi : i < f.rangeNum)
    (hinit : ((calInit g s).range f i).factor.initflag = true) : Kept method s (calInit g s) f i := by
  have hrange := range_calInit (f := g) (s := s) hi
  by_cases hfg : f = g
  · subst hfg
    rw [if_pos rfl] at hrange
    rw [hrange, CalRange.init_factor] at hinit
    rw [Kept, hrange, CalRange.init_factor]
    refine ⟨?_, .inl rfl⟩
    obtain hv | ⟨v, hflag, hst, hacc, hv⟩ := CalRange.init_volt (x := f.calInfo i) (r := s.range f i)
    · exact hv
    · rw [hv]
      exact hl i hi hinit hflag v hst hacc
  · rw [if_neg hfg] at hrange
    exact .of_eq hrange

theorem kept_calDefault {g : CalFam} (hl : Leaves s (.setDefault g)) (hi : i < f.rangeNum)
    (hinit : ((calDefault g s).range f i).factor.initflag = true) : Kept method s (calDefault g s) f i := by
  have hrange := range_calDefault (f := g) (s := s) hi
  by_cases hfg : f = g
  · subst hfg
    rw [if_pos rfl] at hrange
    rw [hrange] at hinit
    rw [Kept, hrange]
    exact ⟨hl i hi hinit, .inl rfl⟩
  · rw [if_neg hfg] at hrange
    exact .of_eq hrange

theorem kept_sbcResCal {v : Nat → CalVolt} (hi : i < f.rangeNum)
    (hinit : ((sbcResCal v s).range f i).factor.initflag = true) : Kept method s (sbcResCal v s) f i := by
  have hrange := range_sbcResCal (w := v) (s := s) hi
  by_cases hfg : f = .res
  · rw [if_pos hfg] at hrange
    rw [hrange, CalRange.resCal_initflag] at hinit
    exact absurd hinit Bool.false_ne_true
  · rw [if_neg hfg] at hrange
    exact .of_eq hrange

theorem kept_sbcRes4WCal {v : Nat → CalVolt} (hl : Leaves s (.cal .res4W v)) (hi : i < f.rangeNum)
    (hinit : ((sbcRes4WCal v s).range f i).factor.initflag = true) : Kept method s (sbcRes4WCal v s) f i := by
  have hrange := range_sbcRes4WCal (w := v) (s := s) hi
  by_cases hfg : f = .res4W
  · subst hfg
    rw [if_pos rfl] at hrange
    rw [hrange, CalRange.res4WCal_factor] at hinit
    rw [Kept, hrange, CalRange.res4WCal_factor, CalRange.res4WCal_volt_eq]
    refine ⟨?_, .inl rfl⟩
    split
    · next hflag => exact hl i hi hinit hflag
    · rfl
  · rw [if_neg hfg] at hrange
    exact .of_eq hrange

theorem kept_getFactor {g : CalFam} {j : Nat} : Kept method s (act method (.getFactor g j) s) f i := by
  obtain he | ⟨kb, he⟩ : act method (.getFactor g j) s = s ∨
      ∃ kb, getCalFactor g (method g j) j s = some (kb, act method (.getFactor g j) s) := act_getFactor
  · rw [he]
    exact .of_eq rfl
  obtain ⟨-, -, ⟨-, -, hs⟩ | ⟨-, hk, hs⟩⟩ := getCalFactor_eq_some he
  · rw [hs]
    exact .of_eq rfl
  rw [hs, Kept, range_setFactor]
  by_cases hc : f = g ∧ i = j
  · obtain ⟨rfl, rfl⟩ := hc
    rw [if_pos ⟨rfl, rfl⟩]
    exact ⟨rfl, .inr hk⟩
  · rw [if_neg hc]
    exact ⟨rfl, .inl rfl⟩

/-- What an operation leaves in the cache is as it was, or new. -/
theorem kept_act (hl : Leaves s a) (hi : i < f.rangeNum)
    (hinit : ((act method a s).range f i).factor.initflag = true) : Kept method s (act method a s) f i := by
  cases a with
  | init g => cases g <;> exact kept_calInit hl hi hinit
  | setDefault g => cases g <;> exact kept_calDefault hl hi hinit
  | getFactor g j => exact kept_getFactor
  | cal g v =>
    cases g with
    | res => exact kept_sbcResCal hi hinit
    | res4W => exact kept_sbcRes4WCal hl hi hinit

/-! ### Runs -/

theorem coherent_act (hc : Coherent method s) (hl : Leaves s a) : Coherent method (act method a s) := by
  intro f i hi hinit
  obtain ⟨hv, hfac⟩ : Kept method s (act method a s) f i := kept_act hl hi hinit
  show (f.calInfo i).factor f (method f i) ((act method a s).range f i).volt = _
  rw [hv]
  obtain hfac | hfac := hfac
  · have hold : ((s.range f i).factor).initflag = true := by rw [← hfac]; exact hinit
    refine (hc f i hi hold).trans ?_
    exact congrArg (fun x : CalFactor => some (x.k, x.b)) hfac.symm
  · exact hfac

theorem coherent_of_run (hr : (system method).Run h s) (hl : ∀ x ∈ h, Leaves x.1 x.2) :
    Coherent method s ∧ ∀ x ∈ h, Coherent method x.1 := by
  refine hr.inv_states (I := Coherent method) ?_ ?_ hl
  · rintro s ⟨e, rfl⟩ f i _ hf
    exact absurd hf Bool.false_ne_true
  · intro s a s' hc hl hs
    cases hs
    exact coherent_act hc hl

/-- An operation that changes the voltages of a range clears its `initflag`. -/
def Invalidates (method : CalFam → Nat → TestMethod) (s : Cal) (a : CalAct) : Prop :=
  ∀ f, ∀ i < f.rangeNum, ((act method a s).ram f).calVolt i ≠ (s.ram f).calVolt i →
    (((act method a s).ram f).calFactor i).initflag = false

theorem invalidates_iff : Invalidates method s a ↔ Leaves s a := by
  constructor
  · intro hv
    -- an operation that keeps `initflag` must keep the voltages
    have hkeep : ∀ f, ∀ i < f.rangeNum, ((act method a s).range f i).factor = (s.range f i).factor →
        ((s.ram f).calFactor i).initflag = true → ((act method a s).range f i).volt = (s.range f i).volt := by
      intro f i hi hfac hinit
      by_contra hne
      have hclear : ((act method a s).range f i).factor.initflag = false := hv f i hi hne
      rw [hfac] at hclear
      exact absurd (hinit.symm.trans hclear) (by decide)
    cases a with
    | init f =>
      intro i hi hinit hflag v hst hacc
      have hact : act method (.init f) s = calInit f s := by cases f <;> rfl
      have hrange := range_calInit (f := f) (s := s) hi
      rw [if_pos rfl] at hrange
      have hvolt := hkeep f i hi (by rw [hact, hrange, CalRange.init_factor]) hinit
      rw [hact, hrange, CalRange.init_volt_of_accepts hflag hst hacc] at hvolt
      exact hvolt
    | setDefault f =>
      intro i hi hinit
      have hact : act method (.setDefault f) s = calDefault f s := by cases f <;> rfl
      have hrange := range_calDefault (f := f) (s := s) hi
      rw [if_pos rfl] at hrange
      have hvolt := hkeep f i hi (by rw [hact, hrange]; rfl) hinit
      rw [hact, hrange] at hvolt
      exact hvolt
    | getFactor f i => trivial
    | cal f v =>
      cases f with
      | res => trivial
      | res4W =>
        intro i hi hinit hflag
        have hrange := range_sbcRes4WCal (w := v) (s := s) (g := .res4W) hi
        rw [if_pos rfl] at hrange
        have hvolt := hkeep .res4W i hi (by rw [act, hrange, CalRange.res4WCal_factor]) hinit
        rw [act, hrange, CalRange.res4WCal_volt_eq, if_pos hflag] at hvolt
        exact hvolt
  · intro hl f i hi hne
    by_contra hinit
    have hkept : Kept method s (act method a s) f i := kept_act hl hi (Bool.eq_true_of_not_eq_false hinit)
    exact hne hkept.1

/-- What a run should be: every request that passes its assertions returns the coefficients of the voltages held, and
every operation that changes voltages invalidates the coefficients. -/
structure Fresh (method : CalFam → Nat → TestMethod) (h : List (Cal × CalAct)) : Prop where
  returns : ∀ x ∈ h, ∀ f i kb s', x.2 = .getFactor f i → request f (method f i) i x.1 = some (kb, s') →
    (f.calInfo i).factor f (method f i) ((x.1.ram f).calVolt i) = some kb
  invalidates : ∀ x ∈ h, Invalidates method x.1 x.2

theorem factor_of_request {kb : ℚ × ℚ} (hc : Coherent method s) (hq : request f (method f i) i s = some (kb, s')) :
    (f.calInfo i).factor f (method f i) ((s.ram f).calVolt i) = some kb := by
  rw [request_eq] at hq
  obtain ⟨hi, -, ⟨hinit, rfl, -⟩ | ⟨-, hk, -⟩⟩ := getCalFactor_eq_some hq
  · exact hc f i hi hinit
  · exact hk

/-- A run is what it should be if and only if the operations other than `SBC_ResCal` leave the voltages of the ranges
with coefficients in the cache. -/
theorem fresh_iff (hr : (system method).Run h s) : Fresh method h ↔ ∀ x ∈ h, Leaves x.1 x.2 := by
  constructor
  · intro hF x hx
    exact invalidates_iff.1 (hF.invalidates x hx)
  · intro hl
    refine ⟨fun x hx f i kb s' _ hq => ?_, fun x hx => invalidates_iff.2 (hl x hx)⟩
    exact factor_of_request ((coherent_of_run hr hl).2 x hx) hq

/-- Coefficients that are requested, recalibrated by `SBC_ResCal` and requested again. -/
theorem fresh_iff_resCal : ∃ h s, (system fun _ _ => .cc).Run h s ∧
    h.map (·.2) = [.getFactor .res 0, .cal .res fun _ => ⟨0.5, 0.7⟩, .getFactor .res 0, .init .res, .setDefault .res] ∧
    Fresh (fun _ _ => .cc) h := by
  have hinit : (system fun _ _ => .cc).Run [] (start fun _ => none) := .init ⟨_, rfl⟩
  have hr := ((((hinit.step (a := .setDefault .res) rfl).step (a := .init .res) rfl).step
    (a := .getFactor .res 0) rfl).step (a := .cal .res fun _ => ⟨0.5, 0.7⟩) rfl).step (a := .getFactor .res 0) rfl
  refine ⟨_, _, hr, rfl, (fresh_iff hr).2 fun x hx => ?_⟩
  simp only [List.mem_cons, List.not_mem_nil, or_false] at hx
  obtain rfl | rfl | rfl | rfl | rfl := hx
  · trivial
  · trivial
  · trivial
  · intro i hi hf
    have hclear : ((act (fun _ _ => .cc) (.setDefault .res) (start fun _ => none)).range .res i).factor.initflag =
        false := by
      have hrange := range_calDefault (f := .res) (s := start fun _ => none) (g := .res) hi
      rw [if_pos rfl] at hrange
      exact congrArg (fun r : CalRange => r.factor.initflag) hrange
    exact absurd (hf.symm.trans hclear) (by decide)
  · exact fun i hi hf => absurd hf Bool.false_ne_true

/-- Coefficients that are requested, recalibrated by `SBC_Res4WCal` between the limits and requested again: the second
request returns those of the voltages before. -/
theorem not_fresh_of_res4WCal : ∃ t h s, (system fun _ _ => .cc).Run ((t, .getFactor .res4W 0) :: h) s ∧
    h.map (·.2) = [.cal .res4W fun _ => ⟨2, 0.1⟩, .getFactor .res4W 0, .init .res4W, .setDefault .res4W] ∧
    (t.ram .res4W).calVolt 0 = ⟨2, 0.1⟩ ∧
    (CalFam.res4W.calInfo 0).factor .res4W .cc ⟨2, 0.1⟩ = some (9 / 190, 1 / 190) ∧
    (request .res4W .cc 0 t).map (·.1) = some (5 / 102, 11 / 4080) ∧
    ¬ Fresh (fun _ _ => .cc) ((t, .getFactor .res4W 0) :: h) := by
  have hinit : (system fun _ _ => .cc).Run [] (start fun _ => none) := .init ⟨_, rfl⟩
  have hr := ((((hinit.step (a := .setDefault .res4W) rfl).step (a := .init .res4W) rfl).step
    (a := .getFactor .res4W 0) rfl).step (a := .cal .res4W fun _ => ⟨2, 0.1⟩) rfl).step (a := .getFactor .res4W 0) rfl
  have hfac : (CalFam.res4W.calInfo 0).factor .res4W .cc ⟨2, 0.1⟩ = some (9 / 190, 1 / 190) := by decide +kernel
  obtain ⟨t, h, s, hr, hmap, hvolt, hreq⟩ : ∃ t h s, (system fun _ _ => .cc).Run ((t, .getFactor .res4W 0) :: h) s ∧
      h.map (·.2) = [.cal .res4W fun _ => ⟨2, 0.1⟩, .getFactor .res4W 0, .init .res4W, .setDefault .res4W] ∧
      (t.ram .res4W).calVolt 0 = ⟨2, 0.1⟩ ∧ (request .res4W .cc 0 t).map (·.1) = some (5 / 102, 11 / 4080) :=
    ⟨_, _, _, hr, rfl, by decide +kernel, by decide +kernel⟩
  refine ⟨t, h, s, hr, hmap, hvolt, hfac, hreq, fun hF => ?_⟩
  obtain ⟨⟨kb, s'⟩, hq, rfl⟩ := Option.map_eq_some_iff.1 hreq
  have hret := hF.returns _ List.mem_cons_self .res4W 0 _ s' rfl hq
  rw [hvolt, hfac] at hret
  exact absurd hret (by decide +kernel)

end Cal

end Bootloader
