import Bootloader.Lib.Transition
import Bootloader.Lib.Loop

/-!
# The resistance calibration

`ResCal.c` and `Res4WCal.c`: the calibration voltages of the two-wire and of the four-wire ranges, in RAM and in
the EEPROM, and the coefficients that are computed from them on request. Numbers are exact. What the two files
have in common is one definition here, with the family as a parameter.
-/

namespace Bootloader

/-- `ResCal.c` and `Res4WCal.c`. -/
inductive CalFam
  | res
  | res4W
deriving DecidableEq, Repr

/-- `sResCalVolt` and `sRes4WCalVolt`. -/
structure CalVolt where
  v1 : ℚ
  v2 : ℚ
deriving DecidableEq, Repr

/-- `sResCalFactor` and `sRes4WCalFactor`. -/
structure CalFactor where
  initflag : Bool
  k : ℚ
  b : ℚ
deriving DecidableEq, Repr

/-- A range in `ResCalInfo` or `Res4WCalInfo`, in Ohm and Volt; `flag` is `BC_CAL`. -/
structure CalInfo where
  res1 : ℚ
  res2 : ℚ
  v1Min : ℚ
  v1Max : ℚ
  v2Min : ℚ
  v2Max : ℚ
  flag : Bool
deriving DecidableEq, Repr

/-- What `ResTestMethod` and `Res4WTestMethod` are compared with; `other` is any further value. -/
inductive TestMethod
  | cc
  | cp
  | cv
  | other
deriving DecidableEq, Repr

/-- The variables of one of the two files. -/
structure CalRam where
  calFlag : Bool
  calInitFlag : Bool
  calVolt : Nat → CalVolt
  calFactor : Nat → CalFactor

/-- The two files and the floats in the EEPROM, by their offset from `BC_EepromAddr`, `none` where the bytes are
not a number. -/
structure Cal where
  ram : CalFam → CalRam
  eeprom : Nat → Option ℚ

def resCalInfo : List CalInfo := [
  ⟨2.21, 4.99, 0.393, 0.729, 0.431, 0.801, true⟩,
  ⟨33, 75, 0.472, 0.708, 0.808, 1.212, true⟩,
  ⟨330, 750, 0.637, 0.779, 1.389, 1.698, true⟩,
  ⟨3300, 6200, 0.595, 0.728, 1.115, 1.362, true⟩,
  ⟨30000, 73200, 0.754, 0.922, 1.2, 1.467, true⟩,
  ⟨191000, 470000, 0.564, 0.689, 0.988, 1.207, true⟩,
  ⟨0, 0, 0, 0, 0, 0, false⟩]

def res4WCalInfo : List CalInfo := [
  ⟨0.1, 0.01, 1.489, 2.481, 0.05, 0.248, true⟩,
  ⟨1, 0.1, 1.179, 1.964, 0.118, 0.196, true⟩,
  ⟨2.21, 4.99, 0.451, 0.498, 1.018, 1.125, true⟩,
  ⟨33, 75, 0.624, 0.689, 1.417, 1.566, true⟩,
  ⟨330, 750, 0.624, 0.689, 1.417, 1.566, true⟩,
  ⟨3300, 6200, 0.624, 0.689, 1.172, 1.295, true⟩,
  ⟨30000, 73200, 0.754, 0.922, 1.2, 1.467, true⟩,
  ⟨191000, 470000, 0.564, 0.689, 0.988, 1.207, true⟩]

namespace CalFam

/-- `RES_RANGE_NUM` and `RES4W_RANGE_NUM`. -/
def rangeNum : CalFam → Nat
  | .res => 7
  | .res4W => 8

def calInfo (f : CalFam) (i : Nat) : CalInfo :=
  match f with
  | .res => resCalInfo.getD i ⟨0, 0, 0, 0, 0, 0, false⟩
  | .res4W => res4WCalInfo.getD i ⟨0, 0, 0, 0, 0, 0, false⟩

/-- `EPA_B_RES_CAL` and `EPA_B_RES4W_CAL`, behind `BC_EepromAddr`. -/
def epaB : CalFam → Nat
  | .res => 0
  | .res4W => 80

end CalFam

namespace CalInfo

/-- The test of `SBC_ResCalInit` and `SBC_Res4WCalInit`. -/
def accepts (x : CalInfo) (v : CalVolt) : Bool :=
  v.v1 ≥ x.v1Min && v.v1 ≤ x.v1Max && (v.v2 ≥ x.v2Min && v.v2 ≤ x.v2Max)

/-- The tests of `SBC_ResCal` and `SBC_Res4WCal` that set `result` to 0. -/
def rejects (x : CalInfo) (v : CalVolt) : Bool :=
  (v.v1 < x.v1Min || v.v1 > x.v1Max) || (v.v2 < x.v2Min || v.v2 > x.v2Max)

/-- The middle of the limits. -/
def default (x : CalInfo) : CalVolt := ⟨(x.v1Min + x.v1Max) / 2, (x.v2Min + x.v2Max) / 2⟩

/-- The coefficients that belong to the voltages, `none` where the method is not one of the file's. -/
def factor (f : CalFam) (m : TestMethod) (x : CalInfo) (v : CalVolt) : Option (ℚ × ℚ) :=
  let lin :=
    let k := (x.res1 - x.res2) / (v.v1 - v.v2)
    (k, x.res1 - k * v.v1)
  let div :=
    let b := x.res1 * x.res2 * (v.v2 - v.v1) / (v.v1 * x.res2 - v.v2 * x.res1)
    (v.v1 / x.res1 * (b + x.res1), b)
  match f, m with
  | _, .cc => some lin
  | .res4W, .cp => some lin
  | _, .cv => some div
  | _, _ => none

end CalInfo

namespace Cal

def setCalFlag (f : CalFam) (b : Bool) (s : Cal) : Cal :=
  { s with ram := Function.update s.ram f { s.ram f with calFlag := b } }

def setCalInitFlag (f : CalFam) (s : Cal) : Cal :=
  { s with ram := Function.update s.ram f { s.ram f with calInitFlag := true } }

def setVolt (f : CalFam) (i : Nat) (v : CalVolt) (s : Cal) : Cal :=
  { s with ram := Function.update s.ram f { s.ram f with calVolt := Function.update (s.ram f).calVolt i v } }

def setFactor (f : CalFam) (i : Nat) (x : CalFactor) (s : Cal) : Cal :=
  { s with ram := Function.update s.ram f { s.ram f with calFactor := Function.update (s.ram f).calFactor i x } }

/-- The two `EEPROM_Wrf` of a range. -/
def eepromWrf (f : CalFam) (i : Nat) (v : CalVolt) (s : Cal) : Cal :=
  { s with eeprom :=
      Function.update (Function.update s.eeprom (f.epaB + i * 8) (some v.v1)) (f.epaB + 4 + i * 8) (some v.v2) }

/-- The two `EEPROM_Rdf` of a range. -/
def eepromRdf (f : CalFam) (i : Nat) (s : Cal) : Option CalVolt :=
  match s.eeprom (f.epaB + i * 8), s.eeprom (f.epaB + 4 + i * 8) with
  | some v1, some v2 => some ⟨v1, v2⟩
  | _, _ => none

/-! ### The operations -/

/-- A range in `SBC_ResCalInit` and `SBC_Res4WCalInit`. What is not a number is not between the limits. -/
def calInitRange (f : CalFam) (i : Nat) (s : Cal) : Cal :=
  if (f.calInfo i).flag = false then s
  else
    match s.eepromRdf f i with
    | some v => if (f.calInfo i).accepts v then s.setVolt f i v else s.setCalFlag f false
    | none => s.setCalFlag f false

def calInit (f : CalFam) (s : Cal) : Cal :=
  (loop (calInitRange f) f.rangeNum (s.setCalFlag f true)).setCalInitFlag f

def sbcResCalInit : Cal → Cal := calInit .res

def sbcRes4WCalInit : Cal → Cal := calInit .res4W

/-- A range in `SetResCalDefault` and `SetRes4WCalDefault`. -/
def calDefaultRange (f : CalFam) (i : Nat) (s : Cal) : Cal :=
  (s.setVolt f i (f.calInfo i).default).eepromWrf f i (f.calInfo i).default

def calDefault (f : CalFam) (s : Cal) : Cal := (loop (calDefaultRange f) f.rangeNum s).setCalFlag f true

def setResCalDefault : Cal → Cal := calDefault .res

def setRes4WCalDefault : Cal → Cal := calDefault .res4W

/-- A range in `SBC_ResCal`, with the voltages that `ADC3_GetAvgVolt` measures. -/
def resCalRange (v : Nat → CalVolt) (i : Nat) (s : Cal) : Cal :=
  let s := s.setFactor .res i { (s.ram .res).calFactor i with initflag := false }
  if (CalFam.res.calInfo i).flag = false then s
  else if (CalFam.res.calInfo i).rejects (v i) then s
  else (s.setVolt .res i (v i)).eepromWrf .res i (v i)

def sbcResCal (v : Nat → CalVolt) : Cal → Cal := loop (resCalRange v) CalFam.res.rangeNum

/-- A range in `SBC_Res4WCal`: the voltages are assigned before they are tested. -/
def res4WCalRange (v : Nat → CalVolt) (i : Nat) (s : Cal) : Cal :=
  if (CalFam.res4W.calInfo i).flag = false then s
  else
    let s := s.setVolt .res4W i (v i)
    if (CalFam.res4W.calInfo i).rejects ((s.ram .res4W).calVolt i) then s
    else s.eepromWrf .res4W i ((s.ram .res4W).calVolt i)

def sbcRes4WCal (v : Nat → CalVolt) : Cal → Cal := loop (res4WCalRange v) CalFam.res4W.rangeNum

/-- `none` where an assertion fails: the thread stops there. -/
def getCalFactor (f : CalFam) (m : TestMethod) (curRange : Nat) (s : Cal) : Option ((ℚ × ℚ) × Cal) :=
  if (s.ram f).calInitFlag = false then none
  else if f.rangeNum ≤ curRange then none
  else if (s.ram f).calFlag = false then none
  else if (f.calInfo curRange).flag = false then none
  else if ((s.ram f).calFactor curRange).initflag = false then
    match (f.calInfo curRange).factor f m ((s.ram f).calVolt curRange) with
    | some (k, b) => some ((k, b), s.setFactor f curRange ⟨true, k, b⟩)
    | none => none
  else some ((((s.ram f).calFactor curRange).k, ((s.ram f).calFactor curRange).b), s)

def sbcGetResCalFactor : TestMethod → Nat → Cal → Option ((ℚ × ℚ) × Cal) := getCalFactor .res

def sbcGetRes4WCalFactor : TestMethod → Nat → Cal → Option ((ℚ × ℚ) × Cal) := getCalFactor .res4W

end Cal

/-- An operation of a family, and a request for the coefficients of a range. -/
inductive CalAct
  | init (f : CalFam)
  | setDefault (f : CalFam)
  | cal (f : CalFam) (v : Nat → CalVolt)
  | getFactor (f : CalFam) (curRange : Nat)

namespace Cal

def request (f : CalFam) (m : TestMethod) (curRange : Nat) (s : Cal) : Option ((ℚ × ℚ) × Cal) :=
  match f with
  | .res => sbcGetResCalFactor m curRange s
  | .res4W => sbcGetRes4WCalFactor m curRange s

def act (method : CalFam → Nat → TestMethod) : CalAct → Cal → Cal
  | .init .res, s => sbcResCalInit s
  | .init .res4W, s => sbcRes4WCalInit s
  | .setDefault .res, s => setResCalDefault s
  | .setDefault .res4W, s => setRes4WCalDefault s
  | .cal .res v, s => sbcResCal v s
  | .cal .res4W v, s => sbcRes4WCal v s
  | .getFactor f i, s => ((request f (method f i) i s).map (·.2)).getD s

/-- Behind the C start-up code; the EEPROM holds anything. -/
def start (eeprom : Nat → Option ℚ) : Cal := ⟨fun _ => ⟨false, false, fun _ => ⟨0, 0⟩, fun _ => ⟨false, 0, 0⟩⟩, eeprom⟩

/-- The program, with the test method `method f i` whenever `i` is the current range of `f`. -/
def system (method : CalFam → Nat → TestMethod) : Lts Cal CalAct where
  init s := ∃ eeprom, s = start eeprom
  step a s := some (act method a s)

end Cal

/-! ### One range -/

/-- What there is of a range: its voltages, its coefficients and the voltages in the EEPROM. -/
structure CalRange where
  volt : CalVolt
  factor : CalFactor
  stored : Option CalVolt

namespace CalRange

def init (x : CalInfo) (r : CalRange) : CalRange :=
  if x.flag = false then r
  else
    match r.stored with
    | some v => if x.accepts v then { r with volt := v } else r
    | none => r

def setDefault (x : CalInfo) (r : CalRange) : CalRange := { r with volt := x.default, stored := some x.default }

def resCal (x : CalInfo) (v : CalVolt) (r : CalRange) : CalRange :=
  let r := { r with factor := { r.factor with initflag := false } }
  if x.flag = false then r else if x.rejects v then r else { r with volt := v, stored := some v }

def res4WCal (x : CalInfo) (v : CalVolt) (r : CalRange) : CalRange :=
  if x.flag = false then r
  else if x.rejects v then { r with volt := v } else { r with volt := v, stored := some v }

end CalRange

namespace Cal

variable {s : Cal} {f g : CalFam} {i j : Nat} {v : CalVolt}

def range (f : CalFam) (i : Nat) (s : Cal) : CalRange :=
  ⟨(s.ram f).calVolt i, (s.ram f).calFactor i, s.eepromRdf f i⟩

theorem range_update {r : CalRam} : ({ s with ram := Function.update s.ram f r } : Cal).range g j =
    if g = f then ⟨r.calVolt j, r.calFactor j, s.eepromRdf g j⟩ else s.range g j := by
  rw [range]
  dsimp only
  by_cases hg : g = f
  · rw [if_pos hg, hg, Function.update_self]; rfl
  · rw [if_neg hg, Function.update_of_ne hg]; rfl

/-- A change of the range `i` of the family `f`. -/
theorem range_updateRange {r : CalRam} {F : CalRange → CalRange}
    (hr : (⟨r.calVolt j, r.calFactor j, s.eepromRdf f j⟩ : CalRange) = if j = i then F (s.range f j) else s.range f j) :
    ({ s with ram := Function.update s.ram f r } : Cal).range g j =
      if g = f ∧ j = i then F (s.range g j) else s.range g j := by
  rw [range_update]
  by_cases hg : g = f
  · subst hg
    rw [if_pos rfl, hr]
    exact if_congr (and_iff_right rfl).symm rfl rfl
  · rw [if_neg hg, if_neg fun hc => hg hc.1]

theorem range_setVolt : (s.setVolt f i v).range g j =
    if g = f ∧ j = i then { s.range g j with volt := v } else s.range g j := by
  refine range_updateRange (F := fun x => { x with volt := v }) ?_
  dsimp only
  rw [Function.update_apply]
  split <;> rfl

theorem range_setFactor {x : CalFactor} : (s.setFactor f i x).range g j =
    if g = f ∧ j = i then { s.range g j with factor := x } else s.range g j := by
  refine range_updateRange (F := fun y => { y with factor := x }) ?_
  dsimp only
  rw [Function.update_apply]
  split <;> rfl

theorem range_setCalFlag {b : Bool} : (s.setCalFlag f b).range g j = s.range g j := by
  rw [setCalFlag, range_update, ite_eq_right_iff]
  rintro rfl; rfl

theorem range_setCalInitFlag : (s.setCalInitFlag f).range g j = s.range g j := by
  rw [setCalInitFlag, range_update, ite_eq_right_iff]
  rintro rfl; rfl

/-- The cells of different ranges are different. -/
theorem epaB_ne (hi : i < f.rangeNum) (hj : j < g.rangeNum) (hne : ¬ (g = f ∧ j = i)) :
    (g.epaB + j * 8 ≠ f.epaB + i * 8 ∧ g.epaB + j * 8 ≠ f.epaB + 4 + i * 8) ∧
      g.epaB + 4 + j * 8 ≠ f.epaB + i * 8 ∧ g.epaB + 4 + j * 8 ≠ f.epaB + 4 + i * 8 := by
  cases f <;> cases g <;> simp only [CalFam.rangeNum, CalFam.epaB] at hi hj ⊢ <;>
    first
    | have hij : j ≠ i := fun hc => hne ⟨rfl, hc⟩
      omega
    | omega

theorem range_eepromWrf (hi : i < f.rangeNum) (hj : j < g.rangeNum) : (s.eepromWrf f i v).range g j =
    if g = f ∧ j = i then { s.range g j with stored := some v } else s.range g j := by
  by_cases hc : g = f ∧ j = i
  · obtain ⟨rfl, rfl⟩ := hc
    rw [if_pos ⟨rfl, rfl⟩, range, eepromRdf, eepromWrf]
    dsimp only
    rw [Function.update_of_ne (by omega), Function.update_self, Function.update_self]; rfl
  · obtain ⟨⟨h00, h04⟩, h40, h44⟩ := epaB_ne hi hj hc
    rw [if_neg hc, range, eepromRdf, eepromWrf]
    dsimp only
    rw [Function.update_of_ne h04, Function.update_of_ne h00, Function.update_of_ne h44, Function.update_of_ne h40]; rfl

/-- A loop whose body at `i` changes the range `i` of one family. -/
theorem range_loop {body : Nat → Cal → Cal} {F : Nat → CalRange → CalRange}
    (hb : ∀ i < f.rangeNum, ∀ s g j, j < g.rangeNum →
      (body i s).range g j = if g = f ∧ j = i then F i (s.range g j) else s.range g j)
    (hj : j < g.rangeNum) : (loop body f.rangeNum s).range g j =
      if g = f then F j (s.range g j) else s.range g j := by
  by_cases hg : g = f
  · subst hg
    rw [if_pos rfl]
    refine loop_at (π := range g j) hj (fun t => ?_) fun i hi hne t => ?_
    · rw [hb j hj t g j hj, if_pos ⟨rfl, rfl⟩]
    · rw [hb i hi t g j hj, if_neg fun hc => hne hc.2.symm]
  · rw [if_neg hg]
    exact loop_frame (π := range g j) fun i hi t => by rw [hb i hi t g j hj, if_neg fun hc => hg hc.1]

theorem range_calInitRange : (calInitRange f i s).range g j =
    if g = f ∧ j = i then (s.range g j).init (f.calInfo i) else s.range g j := by
  unfold calInitRange CalRange.init
  by_cases hflag : (f.calInfo i).flag = false
  · rw [if_pos hflag, if_pos hflag, ite_self]
  rw [if_neg hflag, if_neg hflag]
  by_cases hc : g = f ∧ j = i
  · obtain ⟨rfl, rfl⟩ := hc
    have hst : (s.range g j).stored = s.eepromRdf g j := rfl
    rw [if_pos ⟨rfl, rfl⟩, hst]
    cases he : s.eepromRdf g j with
    | none => exact range_setCalFlag
    | some v =>
      dsimp only
      split
      · rw [range_setVolt, if_pos ⟨rfl, rfl⟩]
        dsimp only
        rw [hst, he]
      · exact range_setCalFlag
  · rw [if_neg hc]
    cases s.eepromRdf f i with
    | none => exact range_setCalFlag
    | some v =>
      dsimp only
      split
      · rw [range_setVolt, if_neg hc]
      · exact range_setCalFlag

theorem range_calInit (hj : j < g.rangeNum) : (calInit f s).range g j =
    if g = f then (s.range g j).init (g.calInfo j) else s.range g j := by
  rw [calInit, range_setCalInitFlag, range_loop (F := fun i r => r.init (f.calInfo i))
    (fun i _ s g j _ => range_calInitRange) hj, range_setCalFlag]
  by_cases hg : g = f
  · rw [if_pos hg, if_pos hg, hg]
  · rw [if_neg hg, if_neg hg]

theorem range_calDefault (hj : j < g.rangeNum) : (calDefault f s).range g j =
    if g = f then (s.range g j).setDefault (g.calInfo j) else s.range g j := by
  rw [calDefault, range_setCalFlag, range_loop (F := fun i r => r.setDefault (f.calInfo i)) ?_ hj]
  · by_cases hg : g = f
    · rw [if_pos hg, if_pos hg, hg]
    · rw [if_neg hg, if_neg hg]
  · intro i hi s g j hj
    rw [calDefaultRange, range_eepromWrf hi hj, range_setVolt]
    by_cases hc : g = f ∧ j = i
    · rw [if_pos hc, if_pos hc, if_pos hc]; rfl
    · rw [if_neg hc, if_neg hc, if_neg hc]

theorem range_sbcResCal {w : Nat → CalVolt} (hj : j < g.rangeNum) : (sbcResCal w s).range g j =
    if g = .res then (s.range g j).resCal (CalFam.res.calInfo j) (w j) else s.range g j := by
  refine range_loop (F := fun i r => r.resCal (CalFam.res.calInfo i) (w i)) (fun i hi s g j hj => ?_) hj
  unfold resCalRange CalRange.resCal
  dsimp only
  have hfac : (s.setFactor .res i { (s.ram .res).calFactor i with initflag := false }).range g j =
      if g = .res ∧ j = i then { s.range g j with factor := { (s.range g j).factor with initflag := false } }
      else s.range g j := by
    rw [range_setFactor]
    by_cases hc : g = .res ∧ j = i
    · rw [if_pos hc, if_pos hc, hc.1, hc.2]; rfl
    · rw [if_neg hc, if_neg hc]
  by_cases hflag : (CalFam.res.calInfo i).flag = false
  · rw [if_pos hflag, if_pos hflag, hfac]
  rw [if_neg hflag, if_neg hflag]
  by_cases hrej : (CalFam.res.calInfo i).rejects (w i) = true
  · rw [if_pos hrej, if_pos hrej, hfac]
  rw [if_neg hrej, if_neg hrej, range_eepromWrf hi hj, range_setVolt, hfac]
  by_cases hc : g = .res ∧ j = i
  · rw [if_pos hc, if_pos hc, if_pos hc, if_pos hc]
  · rw [if_neg hc, if_neg hc, if_neg hc, if_neg hc]

theorem range_sbcRes4WCal {w : Nat → CalVolt} (hj : j < g.rangeNum) : (sbcRes4WCal w s).range g j =
    if g = .res4W then (s.range g j).res4WCal (CalFam.res4W.calInfo j) (w j) else s.range g j := by
  refine range_loop (F := fun i r => r.res4WCal (CalFam.res4W.calInfo i) (w i)) (fun i hi s g j hj => ?_) hj
  have hv : ((s.setVolt .res4W i (w i)).ram .res4W).calVolt i = w i := by
    have hr := range_setVolt (s := s) (f := .res4W) (g := .res4W) (i := i) (j := i) (v := w i)
    rw [if_pos ⟨rfl, rfl⟩] at hr
    exact congrArg CalRange.volt hr
  unfold res4WCalRange CalRange.res4WCal
  dsimp only
  by_cases hflag : (CalFam.res4W.calInfo i).flag = false
  · rw [if_pos hflag, if_pos hflag, ite_self]
  rw [if_neg hflag, if_neg hflag, hv]
  by_cases hrej : (CalFam.res4W.calInfo i).rejects (w i) = true
  · rw [if_pos hrej, if_pos hrej, range_setVolt]
  rw [if_neg hrej, if_neg hrej, range_eepromWrf hi hj, range_setVolt]
  by_cases hc : g = .res4W ∧ j = i
  · rw [if_pos hc, if_pos hc, if_pos hc]
  · rw [if_neg hc, if_neg hc, if_neg hc]

/-! ### The validity flag -/

theorem calFlag_update {r : CalRam} : (({ s with ram := Function.update s.ram f r } : Cal).ram g).calFlag =
    if g = f then r.calFlag else (s.ram g).calFlag := by
  dsimp only
  rw [Function.update_apply]
  split <;> rfl

theorem calFlag_setVolt : ((s.setVolt f i v).ram g).calFlag = (s.ram g).calFlag := by
  rw [setVolt, calFlag_update, ite_eq_right_iff]
  rintro rfl; rfl

theorem calFlag_setFactor {x : CalFactor} : ((s.setFactor f i x).ram g).calFlag = (s.ram g).calFlag := by
  rw [setFactor, calFlag_update, ite_eq_right_iff]
  rintro rfl; rfl

theorem calFlag_setCalFlag {b : Bool} :
    ((s.setCalFlag f b).ram g).calFlag = if g = f then b else (s.ram g).calFlag :=
  calFlag_update

theorem calFlag_setCalInitFlag : ((s.setCalInitFlag f).ram g).calFlag = (s.ram g).calFlag := by
  rw [setCalInitFlag, calFlag_update, ite_eq_right_iff]
  rintro rfl; rfl

theorem calFlag_sbcResCal {w : Nat → CalVolt} : ((sbcResCal w s).ram g).calFlag = (s.ram g).calFlag := by
  refine loop_frame (π := fun t : Cal => (t.ram g).calFlag) fun i _ t => ?_
  unfold resCalRange
  dsimp only
  split
  · exact calFlag_setFactor
  split
  · exact calFlag_setFactor
  · exact calFlag_setVolt.trans calFlag_setFactor

theorem calFlag_sbcRes4WCal {w : Nat → CalVolt} : ((sbcRes4WCal w s).ram g).calFlag = (s.ram g).calFlag := by
  refine loop_frame (π := fun t : Cal => (t.ram g).calFlag) fun i _ t => ?_
  unfold res4WCalRange
  dsimp only
  split
  · rfl
  split <;> exact calFlag_setVolt

theorem calFlag_calDefault :
    ((calDefault f s).ram g).calFlag = if g = f then true else (s.ram g).calFlag := by
  rw [calDefault, calFlag_setCalFlag]
  exact if_congr Iff.rfl rfl (loop_frame (π := fun t : Cal => (t.ram g).calFlag) fun i _ t => calFlag_setVolt)

/-- A range leaves the flag as it is or, if its voltages in the EEPROM are not accepted, clears it. -/
theorem calFlag_calInitRange : ((calInitRange f i s).ram g).calFlag = (s.ram g).calFlag ∧
      ((f.calInfo i).flag = true → ∃ v, s.eepromRdf f i = some v ∧ (f.calInfo i).accepts v = true) ∨
    ((calInitRange f i s).ram g).calFlag = if g = f then false else (s.ram g).calFlag := by
  unfold calInitRange
  split
  · next hflag => exact .inl ⟨rfl, fun hc => absurd (hflag.symm.trans hc) Bool.false_ne_true⟩
  cases he : s.eepromRdf f i with
  | none => exact .inr calFlag_setCalFlag
  | some v =>
    dsimp only
    split
    · next hacc => exact .inl ⟨calFlag_setVolt, fun _ => ⟨v, rfl, hacc⟩⟩
    · exact .inr calFlag_setCalFlag

theorem eepromRdf_calInitRange : (calInitRange f i s).eepromRdf g j = s.eepromRdf g j := by
  unfold calInitRange
  split
  · rfl
  cases s.eepromRdf f i with
  | none => rfl
  | some v =>
    dsimp only
    split <;> rfl

theorem calFlag_calInit_of_ne (hg : g ≠ f) : ((calInit f s).ram g).calFlag = (s.ram g).calFlag := by
  rw [calInit, calFlag_setCalInitFlag]
  have hloop : ((loop (calInitRange f) f.rangeNum (s.setCalFlag f true)).ram g).calFlag =
      ((s.setCalFlag f true).ram g).calFlag := loop_frame (π := fun t : Cal => (t.ram g).calFlag) fun i _ t => by
    obtain ⟨h, -⟩ | h := calFlag_calInitRange (s := t) (f := f) (g := g) (i := i)
    · exact h
    · rw [h, if_neg hg]
  rw [hloop, calFlag_setCalFlag, if_neg hg]

/-- The flag is set only if every calibrated range was accepted. -/
theorem accepts_of_calInit (h : ((calInit f s).ram f).calFlag = true) (hi : i < f.rangeNum)
    (hflag : (f.calInfo i).flag = true) : ∃ v, s.eepromRdf f i = some v ∧ (f.calInfo i).accepts v = true := by
  rw [calInit, calFlag_setCalInitFlag] at h
  have hinv := loop_inv (b := calInitRange f) (n := f.rangeNum) (s := s.setCalFlag f true)
    (I := fun k (t : Cal) => (∀ j, t.eepromRdf f j = s.eepromRdf f j) ∧ ((t.ram f).calFlag = true → ∀ i < k,
      (f.calInfo i).flag = true → ∃ v, s.eepromRdf f i = some v ∧ (f.calInfo i).accepts v = true))
    ⟨fun j => rfl, fun _ i hi => absurd hi (Nat.not_lt_zero i)⟩ fun k _ t ⟨hrd, hacc⟩ => ?_
  · exact hinv.2 h i hi hflag
  · refine ⟨fun j => eepromRdf_calInitRange.trans (hrd j), fun ht i hik hflag => ?_⟩
    obtain ⟨hsame, hk⟩ | hclear := calFlag_calInitRange (s := t) (f := f) (g := f) (i := k)
    · obtain hik | rfl := Nat.lt_succ_iff_lt_or_eq.1 hik
      · exact hacc (hsame ▸ ht) i hik hflag
      · rw [← hrd]; exact hk hflag
    · rw [hclear, if_pos rfl] at ht
      exact absurd ht Bool.false_ne_true

/-! ### Requests -/

theorem request_eq {m : TestMethod} : request f m i s = getCalFactor f m i s := by
  cases f <;> rfl

/-- A request that passes its assertions takes the coefficients from the cache or computes and keeps them. -/
theorem getCalFactor_eq_some {m : TestMethod} {kb : ℚ × ℚ} {s' : Cal} (h : getCalFactor f m i s = some (kb, s')) :
    i < f.rangeNum ∧ (f.calInfo i).flag = true ∧
      (((s.ram f).calFactor i).initflag = true ∧ kb = (((s.ram f).calFactor i).k, ((s.ram f).calFactor i).b) ∧ s' = s ∨
        ((s.ram f).calFactor i).initflag = false ∧ (f.calInfo i).factor f m ((s.ram f).calVolt i) = some kb ∧
          s' = s.setFactor f i ⟨true, kb.1, kb.2⟩) := by
  unfold getCalFactor at h
  split at h
  · cases h
  split at h
  · cases h
  next hi =>
  split at h
  · cases h
  split at h
  · cases h
  next hflag =>
  refine ⟨Nat.lt_of_not_le hi, Bool.eq_true_of_not_eq_false hflag, ?_⟩
  split at h
  · next hinit =>
    cases hk : (f.calInfo i).factor f m ((s.ram f).calVolt i) with
    | none => rw [hk] at h; cases h
    | some kb' =>
      rw [hk] at h
      cases h
      exact .inr ⟨hinit, rfl, rfl⟩
  · next hinit =>
    cases h
    exact .inl ⟨Bool.eq_true_of_not_eq_false hinit, rfl, rfl⟩

/-- What a request leaves behind. -/
theorem act_getFactor {method : CalFam → Nat → TestMethod} : act method (.getFactor f i) s = s ∨
    ∃ kb, getCalFactor f (method f i) i s = some (kb, act method (.getFactor f i) s) := by
  rw [act, request_eq]
  cases getCalFactor f (method f i) i s with
  | none => exact .inl rfl
  | some x => exact .inr ⟨x.1, rfl⟩

end Cal

end Bootloader
