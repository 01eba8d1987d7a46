import Bootloader.Threads

/-!
# Booting after an update

`EnterUser` starts the user program when `BootFlag` is 0 and the boot key is not pressed, whatever the
update has left in the flash; the only test it makes is that of the first word. The flash is `dirty`
from the first sector erased or word programmed until `CalChecksum` returns 1.
-/

namespace Bootloader

/-- `CalChecksum` has returned 1 and nothing has been written since. -/
def UpdPc.committing : UpdPc → Bool
  | .awaitEnter | .await _ | .commit | .commitSave _ | .commitReset => true
  | _ => false

namespace Device

def writesFlash (s : Device) : Act → Bool
  | .upd _ =>
    match s.upd with
    | .eraseLoop sectorCounter sectorEnd => decide (sectorCounter ≤ sectorEnd)
    | .program .. => true
    | _ => false
  | _ => false

/-- The step is the return of 1 from `CalChecksum`. -/
def sumOk (s : Device) : Act → Bool
  | .upd _ =>
    match s.upd with
    | .sumAgrees => true
    | _ => false
  | _ => false

def jumps (s : Device) : Act → Bool
  | .boot pins => s.mode == .boot .enterUser && (s.bootStep pins .enterUser).mode == .userApp
  | _ => false

/-- The flash has been erased or programmed, and `CalChecksum` has not returned 1 since. -/
def dirty : List (Device × Act) → Bool
  | [] => false
  | (s, a) :: h => if s.writesFlash a then true else if s.sumOk a then false else dirty h

/-- The user program is started only on a flash that is not the remains of an update. -/
def BootSafe (h : List (Device × Act)) (s : Device) (a : Act) : Prop := s.jumps a = true → dirty h = false

instance (h : List (Device × Act)) (s : Device) (a : Act) : Decidable (BootSafe h s a) :=
  inferInstanceAs (Decidable (_ → _))

/-- A boot without the boot key starts the user program. -/
def bootable (s : Device) : Bool := s.eeprom bootFlagOffset == 0 && hasUserApp s.flash

def savesFlag (s : Device) : Act → Bool
  | .proc => s.proc == .userSave bootFlagOffset
  | _ => false

/-- The flash that the step leaves, when it erases a sector or programs a word. -/
def written (s : Device) : Act → Mem
  | .upd hw =>
    match s.upd with
    | .eraseLoop sectorCounter _ => flashEraseSector s.flash sectorCounter hw
    | .program _ _ _ _ j data =>
      flashProgramWord s.flash (u32 (flashUserStartAddr + s.codeDownloadLength + 4 * j)) data hw
    | _ => s.flash
  | _ => s.flash

/-- The flash is erased or programmed only while `BootFlag` is not 0 or so that no user program is found
behind it, and `ENTER_USER` saves the boot flag only on a flash that is not dirty or has no user program. -/
def BootGuard (h : List (Device × Act)) (s : Device) (a : Act) : Prop :=
  (s.writesFlash a = true → s.eeprom bootFlagOffset = 0 → hasUserApp (s.written a) = false) ∧
  (s.savesFlag a = true → dirty h = true → hasUserApp s.flash = false)

instance (h : List (Device × Act)) (s : Device) (a : Act) : Decidable (BootGuard h s a) :=
  inferInstanceAs (Decidable ((_ → _ → _) ∧ (_ → _ → _)))

structure BootInv (h : List (Device × Act)) (s : Device) : Prop where
  safe : dirty h = true → s.bootable = false
  flag : ∀ pc, s.mode = .boot pc → pc ≠ .cfgInit → s.netLocalAddr bootFlagOffset = s.eeprom bootFlagOffset
  user : s.mode = .userApp → dirty h = false
  commit : s.upd.committing = true → dirty h = false

variable {h : List (Device × Act)} {s s' : Device} {a : Act}

theorem dirty_cons (hw : s.writesFlash a = false) (hs : s.sumOk a = false) : dirty ((s, a) :: h) = dirty h := by
  rw [dirty, hw, hs]; rfl

theorem bootable_congr (he : s'.eeprom bootFlagOffset = s.eeprom bootFlagOffset) (hf : s'.flash = s.flash) :
    s'.bootable = s.bootable := by rw [bootable, bootable, he, hf]

theorem BootInv.same (hI : BootInv h s) (hw : s.writesFlash a = false) (hs : s.sumOk a = false)
    (he : s'.eeprom bootFlagOffset = s.eeprom bootFlagOffset) (hf : s'.flash = s.flash)
    (hflag : ∀ pc, s'.mode = .boot pc → pc ≠ .cfgInit →
      s'.netLocalAddr bootFlagOffset = s'.eeprom bootFlagOffset)
    (huser : s'.mode = .userApp → s.mode = .userApp) (hc : s'.upd.committing = true → s.upd.committing = true) :
    BootInv ((s, a) :: h) s' := by
  have hd := dirty_cons (h := h) hw hs
  refine ⟨?_, hflag, ?_, ?_⟩
  · rw [hd, bootable_congr he hf]; exact hI.safe
  · rw [hd]; exact fun h => hI.user (huser h)
  · rw [hd]; exact fun h => hI.commit (hc h)

/-- The process thread writes the boot flag for `ENTER_USER` only. -/
theorem procStep_eeprom (hp : s.procStep = some s') (hr : s.resets .proc = false) :
    s.savesFlag .proc = true ∨ s'.eeprom bootFlagOffset = s.eeprom bootFlagOffset := by
  have hst := procStep_cases hp hr
  generalize hpc : s.proc = pc at hst
  cases hst with
  | @userSave k =>
    by_cases hk : k = bootFlagOffset
    · exact .inl (by simp [savesFlag, hpc, hk])
    · exact .inr (saveByte_bootFlag hk)
  | _ => exact .inr rfl

theorem BootInv.proc (hI : BootInv h s) (hg : BootGuard h s .proc) (hm : s.mode = .threads)
    (hr : s.resets .proc = false) (hp : s.procStep = some s') : BootInv ((s, .proc) :: h) s' := by
  obtain ⟨hf, hmode, hu⟩ := procStep_frame hp hr
  rcases procStep_eeprom hp hr with hsave | he
  · have hd : dirty ((s, .proc) :: h) = dirty h := dirty_cons rfl rfl
    refine ⟨fun hdirty => ?_, fun pc h => ?_, fun h => ?_, ?_⟩
    · rw [hd] at hdirty
      rw [bootable, hf, hg.2 hsave hdirty, Bool.and_false]
    · rw [hmode, hm] at h; cases h
    · rw [hmode, hm] at h; cases h
    · rw [hd, hu]; exact hI.commit
  · refine hI.same rfl rfl he hf (fun pc h => ?_) (fun h => ?_) (by rw [hu]; exact id)
    · rw [hmode, hm] at h; cases h
    · rw [hmode, hm] at h; cases h

theorem BootInv.of_writes {hw : FlashStatus} (hg : BootGuard h s (.upd hw)) (hm : s.mode = .threads)
    (hw' : s.writesFlash (.upd hw) = true) (he : s'.eeprom = s.eeprom) (hf : s'.flash = s.written (.upd hw))
    (hmode : s'.mode = s.mode) (hc : s'.upd.committing = false) : BootInv ((s, .upd hw) :: h) s' := by
  have hd : dirty ((s, .upd hw) :: h) = true := by rw [dirty, hw']; rfl
  refine ⟨fun _ => ?_, fun pc h => ?_, fun h => ?_, fun h => ?_⟩
  · rw [bootable, he, hf]
    by_cases h0 : s.eeprom bootFlagOffset = 0
    · rw [hg.1 hw' h0, Bool.and_false]
    · rw [beq_false_of_ne h0, Bool.false_and]
  · rw [hmode, hm] at h; cases h
  · rw [hmode, hm] at h; cases h
  · rw [hc] at h; cases h

theorem BootInv.same_upd {hw : FlashStatus} (hI : BootInv h s) (hm : s.mode = .threads)
    (hw' : s.writesFlash (.upd hw) = false) (hs : s.sumOk (.upd hw) = false)
    (he : s'.eeprom bootFlagOffset = s.eeprom bootFlagOffset) (hf : s'.flash = s.flash)
    (hmode : s'.mode = s.mode) (hc : s'.upd.committing = true → s.upd.committing = true) :
    BootInv ((s, .upd hw) :: h) s' :=
  hI.same hw' hs he hf (fun pc h => by rw [hmode, hm] at h; cases h)
    (fun h => by rw [hmode, hm] at h; cases h) hc

theorem BootInv.upd {hw : FlashStatus} (hI : BootInv h s) (hg : BootGuard h s (.upd hw))
    (hm : s.mode = .threads) (hr : s.resets (.upd hw) = false) (hp : s.updStep hw = some s') :
    BootInv ((s, .upd hw) :: h) s' := by
  have hst := updStep_cases hp hr
  generalize hpc : s.upd = pc at hst
  cases hst with
  | eraseSector hle | eraseFails hle =>
    exact .of_writes hg hm (by simp [writesFlash, hpc, hle]) rfl (by simp [written, hpc]) rfl rfl
  | program | programFails =>
    exact .of_writes hg hm (by simp [writesFlash, hpc]) rfl (by simp [written, hpc]) rfl rfl
  | eraseDone hlt =>
    exact hI.same_upd hm (by simp [writesFlash, hpc, hlt]) (by simp [sumOk, hpc]) rfl rfl rfl (by rintro ⟨⟩)
  | sumAgrees =>
    have hd : dirty ((s, .upd hw) :: h) = false := by
      rw [dirty, show s.writesFlash (.upd hw) = false by simp [writesFlash, hpc],
        show s.sumOk (.upd hw) = true by simp [sumOk, hpc]]
      rfl
    refine ⟨fun h => ?_, fun pc h => ?_, fun _ => hd, fun _ => hd⟩
    · rw [hd] at h; cases h
    · rw [show _ = s.mode from rfl, hm] at h; cases h
  | commitSave =>
    have hd : dirty ((s, .upd hw) :: h) = dirty h :=
      dirty_cons (by simp [writesFlash, hpc]) (by simp [sumOk, hpc])
    have hclean := hI.commit (by rw [hpc]; rfl)
    refine ⟨fun h => ?_, fun pc h => ?_, fun _ => hd.trans hclean, fun _ => hd.trans hclean⟩
    · rw [hd, hclean] at h; cases h
    · rw [show _ = s.mode from rfl, hm] at h; cases h
  | _ =>
    exact hI.same_upd hm (by simp [writesFlash, hpc]) (by simp [sumOk, hpc]) rfl rfl rfl
      (by simp [UpdPc.committing, hpc])

theorem BootInv.restart {e : Mem} (hI : BootInv h s) (hw : s.writesFlash a = false) (hs : s.sumOk a = false)
    (he : e bootFlagOffset = s.eeprom bootFlagOffset ∨ dirty h = false) :
    BootInv ((s, a) :: h) (reset s.flash e) := by
  have hd := dirty_cons (h := h) hw hs
  refine ⟨fun h => ?_, fun pc hm hne => ?_, (by rintro ⟨⟩), (by rintro ⟨⟩)⟩
  · rw [hd] at h
    rcases he with he | he
    · have : (reset s.flash e).bootable = s.bootable := bootable_congr he rfl
      rw [this]; exact hI.safe h
    · rw [he] at h; cases h
  · cases hm; exact absurd rfl hne

/-- `NET_LocalSave` keeps the boot flag that the variable has in common with the EEPROM. -/
theorem saveByte_same {k : Nat} {n e : Mem} (hflag : n bootFlagOffset = e bootFlagOffset) :
    saveByte n k e bootFlagOffset = e bootFlagOffset := by
  by_cases hk : k = bootFlagOffset
  · rw [hk, saveByte_self, hflag]
  · exact saveByte_bootFlag hk

/-- When `EnterUser` jumps, the flash is not the remains of an update. -/
theorem BootInv.clean (hI : BootInv h s) (hm : s.mode = .boot .enterUser)
    (h0 : s.netLocalAddr bootFlagOffset = 0) (happ : hasUserApp s.flash = true) : dirty h = false := by
  cases hd : dirty h with
  | false => rfl
  | true =>
    have hb := hI.safe hd
    rw [bootable, ← hI.flag _ hm (by rintro ⟨⟩), h0, happ] at hb
    cases hb

/-- A byte of `NET_LocalSave` in `bootStep`, or its end. -/
theorem BootInv.save {pins : Nat → Nat → Bool} {k : Nat} {p₁ p₂ : BootPc} (hI : BootInv h s)
    (hflag : s.netLocalAddr bootFlagOffset = s.eeprom bootFlagOffset) : BootInv ((s, .boot pins) :: h)
      (if k < netLocalAddrSize then { s with eeprom := saveByte s.netLocalAddr k s.eeprom, mode := .boot p₁ }
        else { s with mode := .boot p₂ }) := by
  have hsave := saveByte_same (k := k) hflag
  split
  · exact hI.same rfl rfl hsave rfl (fun _ _ _ => hflag.trans hsave.symm) (by rintro ⟨⟩) id
  · exact hI.same rfl rfl rfl rfl (fun _ _ _ => hflag) (by rintro ⟨⟩) id

theorem BootInv.bootStep (hI : BootInv h s) (pins : Nat → Nat → Bool) {pc : BootPc} (hm : s.mode = .boot pc) :
    BootInv ((s, .boot pins) :: h) (s.bootStep pins pc) := by
  have hflag := hI.flag pc hm
  cases pc with
  | cfgInit => exact hI.same rfl rfl rfl rfl (fun _ _ _ => readNetLocalAddr_bootFlag) (by rintro ⟨⟩) id
  | bootKeyCheck =>
    rw [Device.bootStep]
    split
    · have hflag := hflag (by rintro ⟨⟩)
      exact hI.same rfl rfl rfl rfl (fun _ _ _ => repairBootKey_bootFlag.trans hflag) (by rintro ⟨⟩) id
    · exact hI.same rfl rfl rfl rfl (fun _ _ _ => hflag (by rintro ⟨⟩)) (by rintro ⟨⟩) id
  | bootKeySave k => exact hI.save (hflag (by rintro ⟨⟩))
  | versionCheck =>
    rw [Device.bootStep]
    split
    · have hflag := hflag (by rintro ⟨⟩)
      exact hI.same rfl rfl rfl rfl (fun _ _ _ => repairBootVersion_bootFlag.trans hflag) (by rintro ⟨⟩) id
    · exact hI.same rfl rfl rfl rfl (fun _ _ _ => hflag (by rintro ⟨⟩)) (by rintro ⟨⟩) id
  | versionSave k => exact hI.save (hflag (by rintro ⟨⟩))
  | enterUser =>
    have hd : dirty ((s, .boot pins) :: h) = dirty h := dirty_cons rfl rfl
    rw [Device.bootStep]
    split
    · next hj =>
      have hclean := hI.clean hm hj.1 hj.2.2
      exact ⟨by rw [hd]; exact hI.safe, (by rintro _ ⟨⟩), fun _ => hd.trans hclean, by rw [hd]; exact hI.commit⟩
    · exact hI.same rfl rfl rfl rfl (by rintro _ ⟨⟩) (by rintro ⟨⟩) id

theorem BootInv.other (a : Act) (t : Nat) (c : Bool) (hI : BootInv h s) (hw : s.writesFlash a = false)
    (hs : s.sumOk a = false) (hm : s.mode = .threads) :
    BootInv ((s, a) :: h) { s with tick := t, commu := c } :=
  hI.same hw hs rfl rfl (fun pc h => by rw [show _ = s.mode from rfl, hm] at h; cases h) id id

theorem BootInv.next (hI : BootInv h s) (hg : BootGuard h s a) (ha : step a s = some s') :
    BootInv ((s, a) :: h) s' := by
  by_cases hb : ∃ pins, a = .boot pins
  · obtain ⟨pins, rfl⟩ := hb
    cases hm : s.mode with
    | userApp => simp only [step, hm] at ha; cases ha
    | threads => simp only [step, hm] at ha; cases ha
    | boot pc => simp only [step, hm] at ha; cases ha; exact hI.bootStep pins hm
  have hm : s.resets a = false → s.mode = .threads := fun hr =>
    step_threads ha hr fun pins he => hb ⟨pins, he⟩
  cases step_cases ha with
  | reset e he hr hs =>
    rw [hs]
    refine hI.restart ?_ ?_ (he.imp (fun he => by rw [he]) hI.user)
    · cases a with
      | upd hw => rw [writesFlash, show s.upd = .commitReset by simpa [resets] using hr]
      | _ => rfl
    · cases a with
      | upd hw => rw [sumOk, show s.upd = .commitReset by simpa [resets] using hr]
      | _ => rfl
  | recv d addr hc hs =>
    rcases s.deliver_cases d addr with ⟨-, -, -, hs'⟩ | ⟨-, c, hs'⟩ <;> rw [hs, hs'] <;>
      exact hI.same rfl rfl rfl rfl hI.flag id id
  | proc hr hp => exact hI.proc hg (hm hr) hr hp
  | upd hw hr hy hp => exact hI.upd hg (hm hr) hr hp
  | other e n t m c hr h₁ h₂ h₃ hs =>
    cases a with
    | proc => exact absurd rfl h₂
    | upd hw => exact absurd rfl (h₃ hw)
    | recv d addr => exact absurd rfl (h₁ d addr)
    | boot pins => exact absurd ⟨pins, rfl⟩ hb
    | powerLoss => cases hr
    | user eeprom => cases hr
    | recvFail =>
      simp only [step, hm hr] at ha; cases ha
      rw [← hm hr]
      exact hI.other .recvFail s.tick false rfl rfl (hm hr)
    | elapse n =>
      simp only [step, hm hr] at ha; cases ha
      rw [← hm hr]
      exact hI.other (.elapse n) (s.tick + n) s.commu rfl rfl (hm hr)

theorem BootInv.jump (hI : BootInv h s) : BootSafe h s a := by
  intro hj
  cases a with
  | boot pins =>
    rw [jumps, Bool.and_eq_true, beq_iff_eq, beq_iff_eq, Device.bootStep] at hj
    obtain ⟨hm, hj⟩ := hj
    split at hj
    · next hc => exact hI.clean hm hc.1 hc.2.2
    · cases hj
  | _ => cases hj

/-- In a run whose steps meet the condition, the user program is started only on a flash that is not the
remains of an update. -/
theorem bootSafe_of_run (hr : system.Run h s) (hg : Lts.Guarded BootGuard h) : Lts.Guarded BootSafe h := by
  suffices BootInv h s ∧ Lts.Guarded BootSafe h from this.2
  induction hr with
  | init hi =>
    rw [show _ = reset _ _ from hi]
    refine ⟨⟨(by rintro ⟨⟩), fun pc hm hne => ?_, (by rintro ⟨⟩), (by rintro ⟨⟩)⟩, trivial⟩
    cases hm; exact absurd rfl hne
  | step hr ha ih =>
    obtain ⟨hI, hok⟩ := ih hg.2
    exact ⟨hI.next hg.1 ha, hI.jump, hok⟩

/-- A complete update of four bytes, and the boot behind it. -/
theorem bootSafe_of_run_update : ∃ h s, system.Run h s ∧ s.mode = .userApp ∧
    s.flash.read flashUserStartAddr 4 = [0, 16, 0, 32] ∧ Lts.Guarded BootSafe h := by
  obtain ⟨h, s, hr, hm, hf, hg⟩ := Lts.exists_run_of_exec (S := system)
    (P := fun h s => s.mode = .userApp ∧ s.flash.read flashUserStartAddr 4 = [0, 16, 0, 32] ∧
      Lts.Guarded BootGuard h)
    (bootActs ++ [.recv (eraseFrame 4 48) 7] ++ procs 14 ++ [.recv (downloadFrame 0 [0, 16, 0, 32]) 7] ++
      procs 20 ++ upds 32 ++ [.elapse 101] ++ upds 57 ++ bootActs)
    (init_reset (fun _ => 0) (eepromOf 1)) (by decide +kernel)
  exact ⟨h, s, hr, hm, hf, bootSafe_of_run hr hg⟩

/-- A device that was brought into the boot program by the boot key keeps `BootFlag` 0: the power fails
behind the first word of the new program, and the next boot starts it. -/
theorem boot_of_unfinished_update : ∃ h s, system.Run h s ∧ ¬ Lts.Guarded BootSafe h :=
  Lts.exists_run_of_exec
    (List.replicate 4 (.boot fun _ _ => true) ++ [.recv (eraseFrame 8 96) 7] ++ procs 14 ++
      [.recv (downloadFrame 0 [0, 16, 0, 32]) 7] ++ procs 20 ++ upds 10 ++ [.powerLoss] ++ bootActs)
    -- the image before the update: a stack pointer and a reset vector
    (init_reset (Mem.write (fun _ => 0xFF) flashUserStartAddr [0, 16, 0, 32, 1, 2, 2, 8]) (eepromOf 0))
    (by decide +kernel)

end Device

end Bootloader
