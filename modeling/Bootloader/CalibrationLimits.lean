import Bootloader.Calibration

/-!
# A failed calibration

While the flag of a family says that its voltages are right, they lie between the limits and are those in the
EEPROM. `SBC_Res4WCal` breaks this: it assigns what it measured before it tests it.
-/

namespace Bootloader

namespace CalInfo

variable {x : CalInfo} {v : CalVolt}

theorem accepts_iff : x.accepts v = true ↔
    (x.v1Min ≤ v.v1 ∧ v.v1 ≤ x.v1Max) ∧ x.v2Min ≤ v.v2 ∧ v.v2 ≤ x.v2Max := by
  unfold accepts
  simp

theorem rejects_iff : x.rejects v = true ↔ ¬ x.accepts v = true := by
  rw [accepts_iff, not_and_or, not_and_or, not_and_or, not_le, not_le, not_le, not_le]
  unfold rejects
  simp

theorem accepts_default (h1 : x.v1Min ≤ x.v1Max) (h2 : x.v2Min ≤ x.v2Max) : x.accepts x.default = true := by
  rw [accepts_iff, default]
  dsimp only
  refine ⟨⟨?_, ?_⟩, ?_, ?_⟩ <;> linarith

end CalInfo

theorem CalFam.accepts_default {f : CalFam} {i : Nat} (hi : i < f.rangeNum) :
    (f.calInfo i).accepts (f.calInfo i).default = true := by
  have h : ∀ f : CalFam, ∀ i < f.rangeNum, (f.calInfo i).v1Min ≤ (f.calInfo i).v1Max ∧
      (f.calInfo i).v2Min ≤ (f.calInfo i).v2Max := by
    intro f
    cases f <;> decide +kernel
  exact CalInfo.accepts_default (h f i hi).1 (h f i hi).2

namespace CalRange

variable {x : CalInfo} {v : CalVolt} {r : CalRange}

/-- The voltages lie between the limits and are those in the EEPROM. -/
structure Good (x : CalInfo) (r : CalRange) : Prop where
  accepts : x.accepts r.volt = true
  stored : r.stored = some r.volt

theorem good_init (hflag : x.flag = true) (hst : r.stored = some v) (hv : x.accepts v = true) : Good x (r.init x) := by
  rw [CalRange.init, if_neg (by rw [hflag]; decide), hst]
  dsimp only
  rw [if_pos hv]
  exact ⟨hv, rfl⟩

theorem Good.resCal (h : Good x r) : Good x (r.resCal x v) := by
  unfold CalRange.resCal
  dsimp only
  split
  · exact ⟨h.accepts, h.stored⟩
  split
  · exact ⟨h.accepts, h.stored⟩
  · next hrej => exact ⟨not_not.1 fun hc => hrej (CalInfo.rejects_iff.2 hc), rfl⟩

theorem resCal_volt (hrej : x.rejects v = true) : (r.resCal x v).volt = r.volt := by
  unfold CalRange.resCal
  dsimp only
  rw [if_pos hrej]
  split <;> rfl

theorem res4WCal_volt (hflag : x.flag = true) : (r.res4WCal x v).volt = v := by
  unfold CalRange.res4WCal
  rw [if_neg (by rw [hflag]; decide)]
  split <;> rfl

theorem Good.res4WCal (h : Good x r) (hv : x.rejects v = true → v = r.volt) : Good x (r.res4WCal x v) := by
  unfold CalRange.res4WCal
  split
  · exact h
  split
  · next hrej =>
    rw [hv hrej]
    exact h
  · next hrej => exact ⟨not_not.1 fun hc => hrej (CalInfo.rejects_iff.2 hc), rfl⟩

end CalRange

namespace Cal

variable {s : Cal} {f : CalFam} {i : Nat} {a : CalAct} {method : CalFam → Nat → TestMethod}
  {h : List (Cal × CalAct)}

/-- While the flag of a family is set, its calibrated ranges are as they should be. -/
def InUse (s : Cal) : Prop :=
  ∀ f, (s.ram f).calFlag = true → ∀ i < f.rangeNum, (f.calInfo i).flag = true →
    (f.calInfo i).accepts ((s.ram f).calVolt i) = true ∧ s.eepromRdf f i = some ((s.ram f).calVolt i)

theorem inUse_iff : InUse s ↔ ∀ f, (s.ram f).calFlag = true → ∀ i < f.rangeNum, (f.calInfo i).flag = true →
    (s.range f i).Good (f.calInfo i) :=
  ⟨fun h f hf i hi hx => ⟨(h f hf i hi hx).1, (h f hf i hi hx).2⟩,
    fun h f hf i hi hx => ⟨(h f hf i hi hx).accepts, (h f hf i hi hx).stored⟩⟩

theorem inUse_calInit (h : InUse s) : InUse (calInit f s) := by
  rw [inUse_iff] at h ⊢
  intro g hg i hi hx
  rw [range_calInit hi]
  by_cases hgf : g = f
  · subst hgf
    obtain ⟨v, hst, hv⟩ := accepts_of_calInit hg hi hx
    rw [if_pos rfl]
    exact CalRange.good_init hx hst hv
  · rw [calFlag_calInit_of_ne hgf] at hg
    rw [if_neg hgf]
    exact h g hg i hi hx

theorem inUse_calDefault (h : InUse s) : InUse (calDefault f s) := by
  rw [inUse_iff] at h ⊢
  intro g hg i hi hx
  rw [range_calDefault hi]
  by_cases hgf : g = f
  · rw [if_pos hgf]
    exact ⟨CalFam.accepts_default hi, rfl⟩
  · rw [calFlag_calDefault, if_neg hgf] at hg
    rw [if_neg hgf]
    exact h g hg i hi hx

theorem inUse_sbcResCal {v : Nat → CalVolt} (h : InUse s) : InUse (sbcResCal v s) := by
  rw [inUse_iff] at h ⊢
  intro g hg i hi hx
  rw [calFlag_sbcResCal] at hg
  rw [range_sbcResCal hi]
  by_cases hgf : g = .res
  · rw [if_pos hgf, ← hgf]
    exact (h g hg i hi hx).resCal
  · rw [if_neg hgf]
    exact h g hg i hi hx

theorem inUse_sbcRes4WCal {v : Nat → CalVolt} (h : InUse s) (hv : ∀ i < CalFam.res4W.rangeNum,
    (CalFam.res4W.calInfo i).rejects (v i) = true → v i = (s.ram .res4W).calVolt i) : InUse (sbcRes4WCal v s) := by
  rw [inUse_iff] at h ⊢
  intro g hg i hi hx
  rw [calFlag_sbcRes4WCal] at hg
  rw [range_sbcRes4WCal hi]
  by_cases hgf : g = .res4W
  · subst hgf
    rw [if_pos rfl]
    exact (h .res4W hg i hi hx).res4WCal (hv i hi)
  · rw [if_neg hgf]
    exact h g hg i hi hx

theorem inUse_getFactor (h : InUse s) : InUse (act method (.getFactor f i) s) := by
  obtain he | ⟨kb, he⟩ : act method (.getFactor f i) s = s ∨
      ∃ kb, getCalFactor f (method f i) i s = some (kb, act method (.getFactor f i) s) := act_getFactor
  · rwa [he]
  obtain ⟨-, -, ⟨-, -, hs⟩ | ⟨-, -, hs⟩⟩ := getCalFactor_eq_some he
  · rwa [hs]
  rw [hs]
  rw [inUse_iff] at h ⊢
  intro g hg j hj hx
  rw [calFlag_setFactor] at hg
  have hgood := h g hg j hj hx
  rw [range_setFactor]
  split
  · exact ⟨hgood.accepts, hgood.stored⟩
  · exact hgood

/-- A four-wire calibration that measures nothing out of the limits but what there is already. -/
def Measures (s : Cal) (a : CalAct) : Prop :=
  ∀ v, a = .cal .res4W v → ∀ i < CalFam.res4W.rangeNum,
    (CalFam.res4W.calInfo i).rejects (v i) = true → v i = (s.ram .res4W).calVolt i

theorem inUse_act (h : InUse s) (ha : Measures s a) : InUse (act method a s) := by
  cases a with
  | init f => cases f <;> exact inUse_calInit h
  | setDefault f => cases f <;> exact inUse_calDefault h
  | getFactor f i => exact inUse_getFactor h
  | cal f v =>
    cases f with
    | res => exact inUse_sbcResCal h
    | res4W => exact inUse_sbcRes4WCal h (ha v rfl)

theorem inUse_of_run (hr : (system method).Run h s) (hm : ∀ x ∈ h, Measures x.1 x.2) :
    ∀ t ∈ s :: h.map (·.1), InUse t := by
  refine Lts.forall_states_iff.2 (hr.inv_states (I := InUse) ?_ ?_ hm)
  · rintro s ⟨e, rfl⟩ f hf
    exact absurd hf Bool.false_ne_true
  · intro s a s' hi ha hs
    cases hs
    exact inUse_act hi ha

/-- What a run should be: in every state the ranges in use are as they should be, and a range whose voltages are
out of the limits keeps those it had. -/
structure FailSafe (method : CalFam → Nat → TestMethod) (h : List (Cal × CalAct)) (s : Cal) : Prop where
  inUse : ∀ t ∈ s :: h.map (·.1), InUse t
  keeps : ∀ x ∈ h, ∀ f v, x.2 = .cal f v → ∀ i < f.rangeNum, (f.calInfo i).flag = true →
    (f.calInfo i).rejects (v i) = true → ((act method x.2 x.1).ram f).calVolt i = (x.1.ram f).calVolt i

theorem calVolt_of_rejects {v : Nat → CalVolt} (hi : i < CalFam.res.rangeNum)
    (hrej : (CalFam.res.calInfo i).rejects (v i) = true) :
    ((sbcResCal v s).ram .res).calVolt i = (s.ram .res).calVolt i := by
  have h := range_sbcResCal (s := s) (w := v) (g := .res) hi
  rw [if_pos rfl] at h
  exact (congrArg CalRange.volt h).trans (CalRange.resCal_volt hrej)

theorem calVolt_sbcRes4WCal {v : Nat → CalVolt} (hi : i < CalFam.res4W.rangeNum)
    (hflag : (CalFam.res4W.calInfo i).flag = true) : ((sbcRes4WCal v s).ram .res4W).calVolt i = v i := by
  have h := range_sbcRes4WCal (s := s) (w := v) (g := .res4W) hi
  rw [if_pos rfl] at h
  exact (congrArg CalRange.volt h).trans (CalRange.res4WCal_volt hflag)

theorem flag_res4W (hi : i < CalFam.res4W.rangeNum) : (CalFam.res4W.calInfo i).flag = true := by
  have h : ∀ i < CalFam.res4W.rangeNum, (CalFam.res4W.calInfo i).flag = true := by decide +kernel
  exact h i hi

/-- A run is what it should be if and only if its four-wire calibrations measure nothing out of the limits but
what there is already. -/
theorem failSafe_iff (hr : (system method).Run h s) : FailSafe method h s ↔ ∀ x ∈ h, Measures x.1 x.2 := by
  constructor
  · intro hF x hx v hv i hi hrej
    have hk := hF.keeps x hx .res4W v hv i hi (flag_res4W hi) hrej
    rw [hv] at hk
    exact (calVolt_sbcRes4WCal hi (flag_res4W hi)).symm.trans hk
  · intro hm
    refine ⟨inUse_of_run hr hm, fun x hx f v hv i hi hflag hrej => ?_⟩
    rw [hv]
    cases f with
    | res => exact calVolt_of_rejects hi hrej
    | res4W => exact (calVolt_sbcRes4WCal hi hflag).trans (hm x hx v hv i hi hrej)

/-- The default voltages, and a four-wire calibration that measures them. -/
theorem failSafe_iff_default : ∃ h s, (system fun _ _ => .cc).Run h s ∧
    h.map (·.2) = [.cal .res4W fun i => (CalFam.res4W.calInfo i).default, .setDefault .res4W] ∧
    FailSafe (fun _ _ => .cc) h s := by
  have hinit : (system fun _ _ => .cc).Run [] (start fun _ => none) := .init ⟨_, rfl⟩
  have hr := (hinit.step (a := .setDefault .res4W) rfl).step
    (a := .cal .res4W fun i => (CalFam.res4W.calInfo i).default) rfl
  refine ⟨_, _, hr, rfl, (failSafe_iff hr).2 fun x hx v hv i hi hrej => ?_⟩
  obtain rfl | hx := List.mem_cons.1 hx
  · cases hv
    exact absurd (CalFam.accepts_default hi) (CalInfo.rejects_iff.1 hrej)
  · rw [List.mem_singleton.1 hx] at hv
    cases hv

/-- A four-wire calibration that measures 0 V on every range: the flag is still set, and the voltages in use are neither
between the limits nor those in the EEPROM. -/
theorem not_failSafe_of_zero : ∃ h s, (system fun _ _ => .cc).Run h s ∧
    h.map (·.2) = [.cal .res4W fun _ => ⟨0, 0⟩, .setDefault .res4W] ∧ (s.ram .res4W).calFlag = true ∧
    (s.ram .res4W).calVolt 0 = ⟨0, 0⟩ ∧ s.eepromRdf .res4W 0 = some ⟨1.985, 0.149⟩ ∧
    ¬ FailSafe (fun _ _ => .cc) h s := by
  have hinit : (system fun _ _ => .cc).Run [] (start fun _ => none) := .init ⟨_, rfl⟩
  have hr := (hinit.step (a := .setDefault .res4W) rfl).step (a := .cal .res4W fun _ => ⟨0, 0⟩) rfl
  have hflag : ((act (fun _ _ => .cc) (.cal .res4W fun _ => ⟨0, 0⟩)
      (act (fun _ _ => .cc) (.setDefault .res4W) (start fun _ => none))).ram .res4W).calFlag = true := by
    decide +kernel
  have hvolt : ((act (fun _ _ => .cc) (.cal .res4W fun _ => ⟨0, 0⟩)
      (act (fun _ _ => .cc) (.setDefault .res4W) (start fun _ => none))).ram .res4W).calVolt 0 = ⟨0, 0⟩ := by
    decide +kernel
  refine ⟨_, _, hr, rfl, hflag, hvolt, by decide +kernel, fun hF => ?_⟩
  have hacc := (hF.inUse _ List.mem_cons_self .res4W hflag 0 (by decide) (by decide +kernel)).1
  rw [hvolt] at hacc
  exact absurd hacc (by decide +kernel)

end Cal

end Bootloader
