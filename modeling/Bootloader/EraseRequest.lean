import Bootloader.Receive

/-!
# The erase requests

`ERASE_FLASH` releases `UpdateSem`; `update_thread_entry` takes it once for each cycle and drains what
is left at the end of the cycle. A request that comes while the thread waits or erases is served, one
that comes during `Download`, `CalChecksum` or the wait behind it is drained; so is one whose release
counts the semaphore round to 0.
-/

namespace Bootloader

/-- `ERASE_FLASH` has cleared the variables and not yet released `UpdateSem`. -/
def ProcPc.restarting : ProcPc → Bool
  | .ackHead .eraseFlash .. | .ackTake .eraseFlash .. | .ackWait .eraseFlash => true
  | .eraseLength | .eraseCheckSum | .eraseRelease => true
  | _ => false

theorem restarting_ackHead {cmd : Cmd} {sendbuf hdr : List UInt8} (h : cmd ≠ .eraseFlash) :
    (ProcPc.ackHead cmd sendbuf hdr).restarting = false := by
  cases cmd <;> first | rfl | exact absurd rfl h

theorem restarting_ackWait {cmd : Cmd} (h : cmd ≠ .eraseFlash) : (ProcPc.ackWait cmd).restarting = false := by
  cases cmd <;> first | rfl | exact absurd rfl h

namespace Device

/-- `EraseFlash` runs, or a request is there for which it will. -/
def erasing (s : Device) : Bool :=
  match s.upd with
  | .take => decide (0 < s.updateSem.count)
  | .eraseEnter | .eraseLoop .. => true
  | _ => false

/-- A release of `UpdateSem` now is one for which `EraseFlash` runs or will run: the update thread waits or
erases, and does not let the value wrap around. -/
def reaches (s : Device) : Bool := { s with updateSem := s.updateSem.release }.erasing

def serves (s : Device) : Act → Bool
  | .upd hw =>
    match s.upd with
    | .eraseEnter => true
    | .eraseLoop sectorCounter sectorEnd =>
      match hw with
      | .complete => decide (sectorEnd < sectorCounter)
      | .failed _ => true
    | _ => false
  | _ => false

/-- An `ERASE_FLASH` has been processed since the last reset. -/
def requested : List (Device × Act) → Bool :=
  Lts.foldSince resets (fun b s a => b || s.releases a) false

/-- `EraseFlash` has been entered or completed since the last `ERASE_FLASH` was processed. -/
def served : List (Device × Act) → Bool :=
  Lts.foldSince resets (fun b s a => if s.releases a then false else b || s.serves a) false

/-- The last `ERASE_FLASH` released `UpdateSem` while the update thread waited or erased, without a wrap of
the value, and one that is being processed since has cleared the results while `EraseFlash` ran or was
about to. -/
def inTime : List (Device × Act) → Bool :=
  Lts.foldSince resets
    (fun b s a => if s.releases a then s.reaches else if s.clears a then b && s.erasing else b) false

def EraseServed (h : List (Device × Act)) (s : Device) : Prop :=
  served h = true ∧ (s.eraseFlashResult = 2 ∨ s.eraseFlashResult = 3)

instance (h : List (Device × Act)) (s : Device) : Decidable (EraseServed h s) :=
  inferInstanceAs (Decidable (_ ∧ _))

structure EraseInv (h : List (Device × Act)) (s : Device) : Prop where
  idle : requested h = false → s.upd = .take ∧ s.updateSem.count = 0
  soon : requested h = true → s.erasing = true → inTime h = true
  done : requested h = true → s.erasing = false → (EraseServed h s ↔ inTime h = true)

variable {h : List (Device × Act)} {s s' : Device} {a : Act}

theorem requested_cons (hr : s.resets a = false) :
    requested ((s, a) :: h) = (requested h || s.releases a) := Lts.foldSince_cons hr

theorem served_cons (hr : s.resets a = false) :
    served ((s, a) :: h) = if s.releases a then false else served h || s.serves a := Lts.foldSince_cons hr

theorem inTime_cons (hr : s.resets a = false) :
    inTime ((s, a) :: h) = if s.releases a then s.reaches else if s.clears a then inTime h && s.erasing
      else inTime h := Lts.foldSince_cons hr

theorem EraseInv.same (hI : EraseInv h s) (hr : s.resets a = false) (hc : s.clears a = false)
    (hre : s.releases a = false) (hse : s.serves a = false)
    (hidle : s.upd = .take → s'.upd = .take ∧ s'.updateSem.count = s.updateSem.count) (her : s'.erasing = s.erasing)
    (hres : s'.eraseFlashResult = s.eraseFlashResult) : EraseInv ((s, a) :: h) s' := by
  have h₁ : requested ((s, a) :: h) = requested h := by rw [requested_cons hr, hre, Bool.or_false]
  have h₂ : served ((s, a) :: h) = served h := by rw [served_cons hr, hre, hse, Bool.or_false]; rfl
  have h₃ : inTime ((s, a) :: h) = inTime h := by rw [inTime_cons hr, hre, hc]; rfl
  refine ⟨fun hq => ?_, ?_, ?_⟩
  · rw [h₁] at hq
    obtain ⟨hu, h0⟩ := hI.idle hq
    exact ⟨(hidle hu).1, (hidle hu).2.trans h0⟩
  · rw [h₁, h₃, her]; exact hI.soon
  · rw [h₁, h₃, her, EraseServed, h₂, hres]; exact hI.done

theorem procStep_erase (hp : s.procStep = some s') (hr : s.resets .proc = false) :
    s'.upd = s.upd ∧
    ((s.clears .proc = true ∧ s.releases .proc = false ∧ s'.updateSem = s.updateSem ∧ s'.eraseFlashResult = 0) ∨
    (s.clears .proc = false ∧ s.releases .proc = true ∧ s'.updateSem = s.updateSem.release ∧
      s'.eraseFlashResult = s.eraseFlashResult) ∨
    (s.clears .proc = false ∧ s.releases .proc = false ∧ s'.updateSem = s.updateSem ∧
      s'.eraseFlashResult = s.eraseFlashResult)) := by
  have hst := procStep_cases hp hr
  generalize hpc : s.proc = pc at hst
  cases hst with
  | eraseClear => exact ⟨rfl, .inl ⟨by simp [clears, hpc], by simp [releases, hpc], rfl, rfl⟩⟩
  | eraseRelease => exact ⟨rfl, .inr (.inl ⟨by simp [clears, hpc], by simp [releases, hpc], rfl, rfl⟩)⟩
  | _ => exact ⟨rfl, .inr (.inr ⟨by simp [clears, hpc], by simp [releases, hpc], rfl, rfl⟩)⟩

theorem erasing_congr (hu : s'.upd = s.upd) (hsem : s'.updateSem.count = s.updateSem.count) :
    s'.erasing = s.erasing := by
  rw [erasing, erasing, hu, hsem]

/-- Only the `rt_sem_take` at the start of a cycle suspends the update thread. -/
theorem taker_free (hr : system.Run h s) : s.upd ≠ .take → s.updateSem.taker = .free := by
  refine hr.inv' (I := fun _ s => s.upd ≠ .take → s.updateSem.taker = .free)
    (fun s hs => by rw [show s = reset s.flash s.eeprom from hs]; exact fun _ => rfl) fun h s a s' hI ha => ?_
  cases step_cases ha with
  | reset e he hr hs => rw [hs]; exact fun _ => rfl
  | recv d addr hc hs =>
    rcases s.deliver_cases d addr with ⟨-, -, -, hs'⟩ | ⟨-, c, hs'⟩ <;> rw [hs, hs'] <;> exact hI
  | proc hr hp =>
    obtain ⟨hu, ⟨-, -, hsem, -⟩ | ⟨-, -, hsem, -⟩ | ⟨-, -, hsem, -⟩⟩ := procStep_erase hp hr <;> rw [hu, hsem]
    exacts [hI, fun hne => Semaphore.release_free (hI hne), hI]
  | upd hw hr hy hp =>
    have hst := updStep_cases hp hr
    generalize hpc : s.upd = pc at hst hI
    cases hst with
    | block | drained => exact fun hne => absurd rfl hne
    | take hx => exact fun _ => Semaphore.free_of_take hx
    | _ => exact fun _ => hI (by rintro ⟨⟩)
  | other e n t m c hr h₁ h₂ h₃ hs => rw [hs]; exact hI

theorem EraseInv.proc (hI : EraseInv h s) (hr : s.resets .proc = false) (hp : s.procStep = some s') :
    EraseInv ((s, .proc) :: h) s' := by
  obtain ⟨hu, ⟨hc, hre, hsem, hres⟩ | ⟨hc, hre, hsem, hres⟩ | ⟨hc, hre, hsem, hres⟩⟩ := procStep_erase hp hr
  · have her := erasing_congr hu (congrArg Semaphore.count hsem)
    have h₁ : requested ((s, .proc) :: h) = requested h := by rw [requested_cons hr, hre, Bool.or_false]
    have h₃ : inTime ((s, .proc) :: h) = (inTime h && s.erasing) := by rw [inTime_cons hr, hre, hc]; rfl
    refine ⟨fun hq => ?_, fun hq he => ?_, fun hq he => ?_⟩
    · rw [h₁] at hq
      rw [hu, hsem]; exact hI.idle hq
    · rw [h₁] at hq
      rw [her] at he
      rw [h₃, hI.soon hq he, he]; rfl
    · rw [her] at he
      rw [h₃, he, Bool.and_false, EraseServed, hres]
      exact ⟨fun h => by omega, (by rintro ⟨⟩)⟩
  · have h₁ : requested ((s, .proc) :: h) = true := by rw [requested_cons hr, hre, Bool.or_true]
    have h₂ : served ((s, .proc) :: h) = false := by rw [served_cons hr, hre]; rfl
    have h₃ : inTime ((s, .proc) :: h) = s.reaches := by rw [inTime_cons hr, hre]; rfl
    have her : s'.erasing = s.reaches := erasing_congr hu (by rw [hsem])
    refine ⟨fun hq => ?_, fun _ he => ?_, fun _ he => ?_⟩
    · rw [h₁] at hq; cases hq
    · rw [h₃, ← her]; exact he
    · rw [h₃, ← her, he, EraseServed, h₂]
      exact ⟨fun h => absurd h.1 (by rintro ⟨⟩), (by rintro ⟨⟩)⟩
  · have hcount := congrArg Semaphore.count hsem
    exact hI.same hr hc hre rfl (fun h => ⟨hu.trans h, hcount⟩) (erasing_congr hu hcount) hres

theorem EraseInv.of_erasing {hw : FlashStatus} (hI : EraseInv h s) (hr : s.resets (.upd hw) = false)
    (hq : requested h = true) (he : s.erasing = true) (hend : s'.erasing = false →
      s.serves (.upd hw) = true ∧ (s'.eraseFlashResult = 2 ∨ s'.eraseFlashResult = 3)) :
    EraseInv ((s, .upd hw) :: h) s' := by
  have h₁ : requested ((s, .upd hw) :: h) = true := by rw [requested_cons hr, hq]; rfl
  have h₃ : inTime ((s, .upd hw) :: h) = inTime h := inTime_cons hr
  refine ⟨fun h => ?_, fun _ _ => ?_, fun _ he' => ?_⟩
  · rw [h₁] at h; cases h
  · rw [h₃]; exact hI.soon hq he
  · obtain ⟨hse, hres⟩ := hend he'
    have h₂ : served ((s, .upd hw) :: h) = true := by
      rw [served_cons hr, hse, Bool.or_true]; rfl
    rw [h₃, EraseServed, h₂]
    exact ⟨fun _ => hI.soon hq he, fun _ => ⟨rfl, hres⟩⟩

theorem EraseInv.goes_on {hw : FlashStatus} (hI : EraseInv h s) (hr : s.resets (.upd hw) = false)
    (hq : requested h = true) (he : s.erasing = true) (he' : s'.erasing = true) :
    EraseInv ((s, .upd hw) :: h) s' :=
  hI.of_erasing hr hq he fun hc => absurd (he'.symm.trans hc) (by decide)

theorem EraseInv.upd {hw : FlashStatus} (hI : EraseInv h s) (hr : s.resets (.upd hw) = false)
    (hfree : s.upd ≠ .take → s.updateSem.taker = .free) (hp : s.updStep hw = some s') :
    EraseInv ((s, .upd hw) :: h) s' := by
  have hreq : s.upd ≠ .take → requested h = true := fun hne => by
    cases hq : requested h with
    | true => rfl
    | false => exact absurd (hI.idle hq).1 hne
  have hst := updStep_cases hp hr
  generalize hpc : s.upd = pc at hst
  cases hst with
  | block hx =>
    obtain ⟨h0, h0'⟩ := Semaphore.count_of_block hx
    exact hI.same hr rfl rfl (by simp [serves, hpc]) (fun _ => ⟨rfl, h0'.trans h0.symm⟩)
      (erasing_congr hpc.symm (h0'.trans h0.symm)) rfl
  | take hx =>
    have h0 : 0 < s.updateSem.count := by rw [Semaphore.count_of_take hx]; exact Nat.succ_pos _
    have hq : requested h = true := by
      cases hq : requested h with
      | true => rfl
      | false => exact absurd (hI.idle hq).2 (Nat.ne_of_gt h0)
    exact hI.goes_on hr hq (by rw [erasing, hpc]; exact decide_eq_true h0) rfl
  | eraseTooLong | eraseFails =>
    exact hI.of_erasing hr (hreq (by rw [hpc]; rintro ⟨⟩)) (by rw [erasing, hpc]) fun _ =>
      ⟨by simp [serves, hpc], .inl rfl⟩
  | eraseEnter | eraseSector => exact hI.goes_on hr (hreq (by rw [hpc]; rintro ⟨⟩)) (by rw [erasing, hpc]) rfl
  | eraseDone hlt =>
    refine hI.of_erasing hr (hreq (by rw [hpc]; rintro ⟨⟩)) (by rw [erasing, hpc]) fun _ => ⟨?_, .inr rfl⟩
    cases hw with
    | complete => simpa [serves, hpc] using hlt
    | failed junk => simp [serves, hpc]
  | drained h0 =>
    have hcount : s.updateSem.count = 0 := by
      rw [Semaphore.count_of_free (hfree (by rw [hpc]; rintro ⟨⟩)), h0]
    exact hI.same hr rfl rfl (by simp [serves, hpc]) (by rw [hpc]; rintro ⟨⟩) (by simp [erasing, hpc, hcount]) rfl
  | _ =>
    exact hI.same hr rfl rfl (by simp [serves, hpc]) (by rw [hpc]; rintro ⟨⟩)
      (by rw [erasing, erasing, hpc]) rfl

theorem EraseInv.next (hI : EraseInv h s) (hfree : s.upd ≠ .take → s.updateSem.taker = .free)
    (ha : step a s = some s') : EraseInv ((s, a) :: h) s' := by
  cases step_cases ha with
  | reset e he hr hs =>
    have hq : requested ((s, a) :: h) = false := Lts.foldSince_of_reset hr
    rw [hs]
    refine ⟨fun _ => ⟨rfl, rfl⟩, fun h => ?_, fun h => ?_⟩ <;> (rw [hq] at h; cases h)
  | recv d addr hc hs =>
    rcases s.deliver_cases d addr with ⟨-, -, -, hs'⟩ | ⟨-, c, hs'⟩ <;> rw [hs, hs'] <;>
      exact hI.same rfl rfl rfl rfl (fun h => ⟨h, rfl⟩) rfl rfl
  | proc hr hp => exact hI.proc hr hp
  | upd hw hr hy hp => exact hI.upd hr hfree hp
  | other e n t m c hr h₁ h₂ h₃ hs =>
    rw [hs]
    have hfalse : s.clears a = false ∧ s.releases a = false ∧ s.serves a = false := by
      cases a with
      | proc => exact absurd rfl h₂
      | upd hw => exact absurd rfl (h₃ hw)
      | _ => exact ⟨rfl, rfl, rfl⟩
    exact hI.same hr hfalse.1 hfalse.2.1 hfalse.2.2 (fun h => ⟨h, rfl⟩) rfl rfl

theorem EraseInv.of_run (hr : system.Run h s) : EraseInv h s := by
  induction hr with
  | init hi =>
    rw [show _ = Device.reset _ _ from hi]
    exact ⟨fun _ => ⟨rfl, rfl⟩, (by rintro ⟨⟩), (by rintro ⟨⟩)⟩
  | step hr ha ih => exact ih.next (taker_free hr) ha

/-- In every reachable state in which the update thread is blocked and a request has been processed:
the last one has been served if and only if it came in time. -/
theorem eraseServed_iff (hr : system.Run h s) (hu : s.upd = .take) (h0 : s.updateSem.count = 0)
    (hq : requested h = true) : EraseServed h s ↔ inTime h = true :=
  (EraseInv.of_run hr).done hq (by rw [erasing, hu, h0]; rfl)

/-- A request that comes while the update thread waits; `Download` then waits for a packet in vain. -/
theorem eraseServed_of_waiting : ∃ h s, system.Run h s ∧ s.upd = .take ∧ s.updateSem.count = 0 ∧
    requested h = true ∧ EraseServed h s := by
  obtain ⟨h, s, hr, hu, h0, hq, ht⟩ := Lts.exists_run_of_exec (S := system)
    (P := fun h s => s.upd = .take ∧ s.updateSem.count = 0 ∧ requested h = true ∧ inTime h = true)
    (bootActs ++ [.recv (eraseFrame 8 36) 7] ++ procs 15 ++ upds 6 ++ [.elapse 501] ++ upds 3)
    (init_reset (fun _ => 0) (eepromOf 1)) (by decide +kernel)
  exact ⟨h, s, hr, hu, h0, hq, (eraseServed_iff hr hu h0 hq).2 ht⟩

/-- A request that comes while `Download` waits for a packet is drained when the wait is over. -/
theorem erase_drained : ∃ h s, system.Run h s ∧ s.mode = .threads ∧ s.proc = .idle ∧ s.upd = .take ∧
    s.updateSem.count = 0 ∧ requested h = true ∧ ¬ EraseServed h s :=
  Lts.exists_run_of_exec
    (bootActs ++ [.recv (eraseFrame 8 36) 7] ++ procs 15 ++ upds 6 ++ [.recv (eraseFrame 8 36) 7] ++
      procs 15 ++ [.elapse 501] ++ upds 4)
    (init_reset (fun _ => 0) (eepromOf 1)) (by decide +kernel)

end Device

end Bootloader
