import Bootloader.EraseRequest

/-!
# What is committed

`update_thread_entry` commits when `CalChecksum` has returned 1. The sum is compared with the variables
that `ERASE_FLASH` clears before its reply and sets behind it, so `CalChecksum` means something only if
no request is between the two.
-/

namespace Bootloader

/-- `ERASE_FLASH` has set `CodeTotalLength`. -/
def ProcPc.hasLength : ProcPc → Bool
  | .eraseCheckSum | .eraseRelease => true
  | _ => false

def UpdPc.commits : UpdPc → Bool
  | .commit | .commitSave _ | .commitReset => true
  | _ => false

/-- `CalChecksum` has found that the sums agree. -/
def UpdPc.summed : UpdPc → Bool
  | .sumAgrees | .awaitEnter | .await _ => true
  | q => q.commits

/-- The update thread is in `CalChecksum`, with the sum cleared, or behind it. -/
def UpdPc.sums : UpdPc → Bool
  | .sumStart | .sumLoop _ | .sumAdd _ | .sumTest | .sumCompare _ => true
  | q => q.summed

theorem UpdPc.summed_of_commits {pc : UpdPc} (h : pc.commits = true) : pc.summed = true := by
  cases pc with
  | sumAgrees | awaitEnter | await tick => rfl
  | _ => exact h

namespace Device

/-- The length and the sum that the `ERASE_FLASH` processed last carries. -/
def lastErase : List (Device × Act) → Option (Nat × Nat)
  | [] => none
  | (s, a) :: h =>
    if s.resets a then none
    else if s.releases a then some (codeLength (entryBuf h), codeCheckSum (entryBuf h))
    else lastErase h

/-- While the update thread commits, the flash has the sum that the last `ERASE_FLASH` carries. -/
def CommitOk (h : List (Device × Act)) (s : Device) : Prop :=
  s.upd.commits = true → ∃ x ∈ lastErase h, Mem.byteSum (userBytes s.flash x.1) % 2 ^ 32 = x.2

instance (h : List (Device × Act)) (s : Device) : Decidable (CommitOk h s) :=
  inferInstanceAs (Decidable (_ → _))

/-- `ERASE_FLASH` reads its length and its sum as they were when `UDPPacketProcess` was called. -/
def readsRequest (h : List (Device × Act)) (s : Device) : Act → Bool
  | .proc =>
    match s.proc with
    | .eraseLength => codeLength s.pRecvBuf == codeLength (entryBuf h)
    | .eraseCheckSum => codeCheckSum s.pRecvBuf == codeCheckSum (entryBuf h)
    | _ => true
  | _ => true

/-- The loop of `CalChecksum` and its test run while no `ERASE_FLASH` has cleared the variables without
having released `UpdateSem`, and none clears them between the first round and the test. -/
def sumsAlone (s : Device) : Act → Bool
  | .upd _ =>
    match s.upd with
    | .sumLoop _ | .sumTest | .sumCompare _ => !s.proc.restarting
    | _ => true
  | .proc =>
    match s.upd with
    | .sumLoop (_ + 1) | .sumAdd _ | .sumTest | .sumCompare _ => !s.clears .proc
    | _ => true
  | _ => true

/-- An `ERASE_FLASH` processed when `CalChecksum` has found that the sums agree carries what the one before
carried. -/
def repeatsRequest (h : List (Device × Act)) (s : Device) (a : Act) : Bool :=
  !(s.releases a && s.upd.summed) || lastErase h == some (codeLength (entryBuf h), codeCheckSum (entryBuf h))

def CommitGuard (h : List (Device × Act)) (s : Device) (a : Act) : Prop :=
  readsRequest h s a = true ∧ s.sumsAlone a = true ∧ repeatsRequest h s a = true

instance (h : List (Device × Act)) (s : Device) (a : Act) : Decidable (CommitGuard h s a) :=
  inferInstanceAs (Decidable (_ ∧ _ ∧ _))

/-- What `CodeLowerCheckSum` is worth where the update thread stands. -/
def SumAt (h : List (Device × Act)) (s : Device) : UpdPc → Prop
  | .sumStart => s.codeLowerCheckSum = 0
  | .sumLoop i => s.codeLowerCheckSum = lowerCheckSum s.flash i ∧ i ≤ s.codeTotalLength ∧
    (0 < i → s.proc.restarting = false)
  | .sumAdd i => s.codeLowerCheckSum = lowerCheckSum s.flash i ∧ i < s.codeTotalLength ∧
    s.proc.restarting = false
  | .sumTest => s.proc.restarting = false ∧ s.codeLowerCheckSum = lowerCheckSum s.flash s.codeTotalLength
  | .sumCompare lower => s.proc.restarting = false ∧ lower = lowerCheckSum s.flash s.codeTotalLength
  | pc => pc.summed = true → ∃ x ∈ lastErase h, lowerCheckSum s.flash x.1 = x.2

structure CommitInv (h : List (Device × Act)) (s : Device) : Prop where
  request : s.proc.restarting = false → ∀ x ∈ lastErase h, s.codeTotalLength = x.1 ∧ s.codeUpperCheckSum = x.2
  length : s.proc.hasLength = true → s.codeTotalLength = codeLength (entryBuf h)
  checkSum : s.proc = .eraseRelease → s.codeUpperCheckSum = codeCheckSum (entryBuf h)
  sum : SumAt h s s.upd

variable {h : List (Device × Act)} {s s' : Device} {a : Act} {hw : FlashStatus}

theorem lastErase_cons (hr : s.resets a = false) (hre : s.releases a = false) :
    lastErase ((s, a) :: h) = lastErase h := by rw [lastErase, hr, hre]; rfl

theorem lastErase_release (hr : s.resets a = false) (hre : s.releases a = true) :
    lastErase ((s, a) :: h) = some (codeLength (entryBuf h), codeCheckSum (entryBuf h)) := by
  rw [lastErase, hr, hre]; rfl

theorem lastErase_isSome : ∀ {h : List (Device × Act)}, (lastErase h).isSome = requested h
  | [] => rfl
  | (s, a) :: h => by
    cases hr : s.resets a with
    | true => rw [lastErase, hr, requested, Lts.foldSince_of_reset hr]; rfl
    | false =>
      cases hre : s.releases a with
      | true => rw [lastErase_release hr hre, requested_cons hr, hre, Bool.or_true]; rfl
      | false => rw [lastErase_cons hr hre, requested_cons hr, hre, Bool.or_false, lastErase_isSome]

theorem SumAt.congr {h' : List (Device × Act)} {pc : UpdPc} (hI : SumAt h s pc)
    (hs : s'.flash = s.flash ∧ s'.codeTotalLength = s.codeTotalLength ∧ s'.codeLowerCheckSum = s.codeLowerCheckSum)
    (hp : s'.proc.restarting = s.proc.restarting) (hl : lastErase h' = lastErase h) : SumAt h' s' pc := by
  obtain ⟨hf, ht, hlo⟩ := hs
  cases pc <;> simp only [SumAt, hf, ht, hlo, hp, hl] at hI ⊢ <;> exact hI

theorem SumAt.summed {pc : UpdPc} (hI : SumAt h s pc) (hu : pc.summed = true) :
    ∃ x ∈ lastErase h, lowerCheckSum s.flash x.1 = x.2 := by
  cases pc with
  | sumAgrees | awaitEnter | await tick | commit | commitSave k | commitReset => exact hI rfl
  | _ => cases hu

theorem SumAt.of_summed {pc : UpdPc} (hu : pc.summed = true)
    (hsum : ∃ x ∈ lastErase h, lowerCheckSum s.flash x.1 = x.2) : SumAt h s pc := by
  cases pc with
  | sumAgrees | awaitEnter | await tick | commit | commitSave k | commitReset => exact fun _ => hsum
  | _ => cases hu

/-- Outside `CalChecksum` nothing is said of the sum. -/
theorem SumAt.of_outside {pc : UpdPc} (hu : pc.sums = false) : SumAt h s pc := by
  cases pc with
  | sumStart | sumLoop i | sumAdd i | sumTest | sumCompare lower | sumAgrees | awaitEnter | await tick | commit
  | commitSave k | commitReset => cases hu
  | _ => exact fun h => by cases h

theorem CommitInv.same (hI : CommitInv h s) (hr : s.resets a = false) (hre : s.releases a = false)
    (hs : s'.flash = s.flash ∧ s'.codeTotalLength = s.codeTotalLength ∧
      s'.codeUpperCheckSum = s.codeUpperCheckSum ∧ s'.codeLowerCheckSum = s.codeLowerCheckSum ∧ s'.upd = s.upd)
    (hp : s'.proc.restarting = s.proc.restarting)
    (hl : s'.proc.hasLength = true → s'.proc = s.proc ∧ s.enters a = false) : CommitInv ((s, a) :: h) s' := by
  obtain ⟨hf, ht, hup, hlo, hu⟩ := hs
  refine ⟨?_, fun h => ?_, fun h => ?_, ?_⟩
  · rw [lastErase_cons hr hre, hp, ht, hup]; exact hI.request
  · obtain ⟨hpc, he⟩ := hl h
    rw [entryBuf_cons he, ht]; exact hI.length (hpc ▸ h)
  · obtain ⟨hpc, he⟩ := hl (by rw [h]; rfl)
    rw [entryBuf_cons he, hup]; exact hI.checkSum (hpc ▸ h)
  · rw [hu]; exact hI.sum.congr ⟨hf, ht, hlo⟩ hp (lastErase_cons hr hre)

theorem CommitInv.of_upd (hI : CommitInv h s) (hr : s.resets (.upd hw) = false)
    (hs : s'.proc = s.proc ∧ s'.codeTotalLength = s.codeTotalLength ∧
      s'.codeUpperCheckSum = s.codeUpperCheckSum)
    (hsum : SumAt ((s, .upd hw) :: h) s' s'.upd) : CommitInv ((s, .upd hw) :: h) s' := by
  obtain ⟨hp, ht, hup⟩ := hs
  refine ⟨?_, ?_, ?_, hsum⟩
  · rw [lastErase_cons hr rfl, hp, ht, hup]; exact hI.request
  · rw [entryBuf_cons rfl, hp, ht]; exact hI.length
  · rw [entryBuf_cons rfl, hp, hup]; exact hI.checkSum

/-- A step of the update thread behind the comparison. -/
theorem CommitInv.behind (hI : CommitInv h s) (hr : s.resets (.upd hw) = false)
    (hs : s'.proc = s.proc ∧ s'.codeTotalLength = s.codeTotalLength ∧
      s'.codeUpperCheckSum = s.codeUpperCheckSum) (hf : s'.flash = s.flash)
    (hu : s.upd.summed = true) (hu' : s'.upd.summed = true) : CommitInv ((s, .upd hw) :: h) s' :=
  hI.of_upd hr hs (.of_summed hu' (by rw [hf, lastErase_cons hr rfl]; exact hI.sum.summed hu))

theorem CommitInv.upd (hI : CommitInv h s) (hg : CommitGuard h s (.upd hw))
    (hq : s.upd ≠ .take → requested h = true) (hr : s.resets (.upd hw) = false)
    (hp : s.updStep hw = some s') : CommitInv ((s, .upd hw) :: h) s' := by
  have hst := updStep_cases hp hr
  have hsum := hI.sum
  generalize hpc : s.upd = pc at hst hsum
  cases hst with
  | sumEnter => exact hI.of_upd hr ⟨rfl, rfl, rfl⟩ rfl
  | sumStart =>
    exact hI.of_upd hr ⟨rfl, rfl, rfl⟩ ⟨hsum, Nat.zero_le _, fun h => absurd h (Nat.lt_irrefl 0)⟩
  | sumLoop hlt =>
    exact hI.of_upd hr ⟨rfl, rfl, rfl⟩ ⟨hsum.1, hlt, by simpa [sumsAlone, hpc] using hg.2.1⟩
  | sumAdd =>
    obtain ⟨hlo, hlt, halone⟩ := hsum
    exact hI.of_upd hr ⟨rfl, rfl, rfl⟩ ⟨by rw [lowerCheckSum, ← hlo], hlt, fun _ => halone⟩
  | sumDone hge =>
    obtain ⟨hlo, hi, -⟩ := hsum
    refine hI.of_upd hr ⟨rfl, rfl, rfl⟩ ⟨by simpa [sumsAlone, hpc] using hg.2.1, ?_⟩
    rw [← Nat.le_antisymm hi hge]; exact hlo
  | sumTest => exact hI.of_upd hr ⟨rfl, rfl, rfl⟩ hsum
  | testAgrees heq =>
    obtain ⟨halone, hlo⟩ := hsum
    obtain ⟨x, hx⟩ := Option.isSome_iff_exists.1 (lastErase_isSome.trans (hq (by rw [hpc]; rintro ⟨⟩)))
    obtain ⟨ht, hup⟩ := hI.request halone x hx
    refine hI.of_upd hr ⟨rfl, rfl, rfl⟩ (.of_summed rfl ⟨x, by rw [lastErase_cons hr rfl]; exact hx, ?_⟩)
    rw [← ht, ← hup, ← hlo]; exact heq
  | sumAgrees | awaitEnter | await | awaited | commit | commitSave | commitSaved =>
    exact hI.behind hr ⟨rfl, rfl, rfl⟩ rfl (by rw [hpc]; rfl) rfl
  | _ => exact hI.of_upd hr ⟨rfl, rfl, rfl⟩ (.of_outside rfl)

theorem CommitInv.proc (hI : CommitInv h s) (hg : CommitGuard h s .proc) (hr : s.resets .proc = false)
    (hp : s.procStep = some s') : CommitInv ((s, .proc) :: h) s' := by
  have hst := procStep_cases hp hr
  have hsum := hI.sum
  generalize hpc : s.proc = pc at hst
  cases hst with
  | eraseClear =>
    refine ⟨(by rintro ⟨⟩), (by rintro ⟨⟩), (by rintro ⟨⟩), ?_⟩
    have halone := hg.2.1
    have hl := lastErase_cons (h := h) hr (show s.releases .proc = false by simp [releases, hpc])
    show SumAt _ _ s.upd
    generalize hu : s.upd = u at hsum
    cases u with
    | sumStart => rfl
    | sumLoop i =>
      cases i with
      | zero => exact ⟨rfl, Nat.zero_le _, fun h => absurd h (Nat.lt_irrefl 0)⟩
      | succ i => exact absurd halone (by simp [sumsAlone, clears, hu, hpc])
    | sumAdd i => exact absurd halone (by simp [sumsAlone, clears, hu, hpc])
    | sumTest | sumCompare lower => exact absurd halone (by simp [sumsAlone, clears, hu, hpc])
    | _ => exact fun h => by rw [hl]; exact hsum h
  | eraseLength =>
    have hread : codeLength s.pRecvBuf = codeLength (entryBuf h) := by simpa [readsRequest, hpc] using hg.1
    refine ⟨(by rintro ⟨⟩), fun _ => ?_, (by rintro ⟨⟩), ?_⟩
    · rw [entryBuf_cons (by simp [enters, hpc])]; exact hread
    have hl := lastErase_cons (h := h) hr (show s.releases .proc = false by simp [releases, hpc])
    show SumAt _ _ s.upd
    generalize s.upd = u at hsum
    cases u with
    | sumStart => exact hsum
    | sumLoop i =>
      obtain ⟨hlo, -, halone⟩ := hsum
      rw [hpc] at halone
      cases i with
      | zero => exact ⟨hlo, Nat.zero_le _, fun h => absurd h (Nat.lt_irrefl 0)⟩
      | succ i => exact absurd (halone i.succ_pos) (by rintro ⟨⟩)
    | sumAdd i => exact absurd hsum.2.2 (by rw [hpc]; rintro ⟨⟩)
    | sumTest | sumCompare lower => exact absurd hsum.1 (by rw [hpc]; rintro ⟨⟩)
    | _ => exact fun h => by rw [hl]; exact hsum h
  | eraseCheckSum =>
    have he : s.enters .proc = false := by simp [enters, hpc]
    have hread : codeCheckSum s.pRecvBuf = codeCheckSum (entryBuf h) := by
      simpa [readsRequest, hpc] using hg.1
    refine ⟨(by rintro ⟨⟩), fun _ => ?_, fun _ => ?_, ?_⟩
    · rw [entryBuf_cons he]; exact hI.length (by rw [hpc]; rfl)
    · rw [entryBuf_cons he]; exact hread
    · exact hsum.congr ⟨rfl, rfl, rfl⟩ (by rw [hpc]; rfl) (lastErase_cons hr (by simp [releases, hpc]))
  | eraseRelease =>
    have hre : s.releases .proc = true := by simp [releases, hpc]
    refine ⟨fun _ x hx => ?_, (by rintro ⟨⟩), (by rintro ⟨⟩), ?_⟩
    · rw [lastErase_release hr hre] at hx
      cases hx; exact ⟨hI.length (by rw [hpc]; rfl), hI.checkSum hpc⟩
    have hrep : s.upd.summed = true → lastErase ((s, .proc) :: h) = lastErase h := fun hu => by
      rw [lastErase_release hr hre]
      exact (by simpa [repeatsRequest, hre, hu] using hg.2.2 :
        lastErase h = some (codeLength (entryBuf h), codeCheckSum (entryBuf h))).symm
    show SumAt _ _ s.upd
    generalize s.upd = u at hsum hrep
    cases u with
    | sumStart => exact hsum
    | sumLoop i => exact ⟨hsum.1, hsum.2.1, fun _ => rfl⟩
    | sumAdd i => exact absurd hsum.2.2 (by rw [hpc]; rintro ⟨⟩)
    | sumTest | sumCompare lower => exact absurd hsum.1 (by rw [hpc]; rintro ⟨⟩)
    | _ => exact fun h => by rw [hrep h]; exact hsum h
  | entryReply he =>
    exact hI.same hr (by simp [releases, hpc]) ⟨rfl, rfl, rfl, rfl, rfl⟩
      (by rw [hpc]; exact restarting_ackHead he) (by rintro ⟨⟩)
  | ackDone he =>
    exact hI.same hr (by simp [releases, hpc]) ⟨rfl, rfl, rfl, rfl, rfl⟩
      (by rw [hpc]; exact (restarting_ackWait he).symm) (by rintro ⟨⟩)
  | block => exact hI.same hr (by simp [releases, hpc]) ⟨rfl, rfl, rfl, rfl, rfl⟩ (by rw [hpc]) (by rintro ⟨⟩)
  | @ackHead cmd | @ackSend cmd | @ackTake cmd =>
    exact hI.same hr (by simp [releases, hpc]) ⟨rfl, rfl, rfl, rfl, rfl⟩ (by rw [hpc]; cases cmd <;> rfl)
      (by rintro ⟨⟩)
  | _ =>
    exact hI.same hr (by simp [releases, hpc]) ⟨rfl, rfl, rfl, rfl, rfl⟩ (by rw [hpc]; rfl) (by rintro ⟨⟩)

theorem CommitInv.next (hI : CommitInv h s) (hg : CommitGuard h s a) (hq : s.upd ≠ .take → requested h = true)
    (ha : step a s = some s') : CommitInv ((s, a) :: h) s' := by
  cases step_cases ha with
  | reset e he hr hs =>
    rw [hs]
    have hl : lastErase ((s, a) :: h) = none := by rw [lastErase, hr]; rfl
    refine ⟨fun _ x hx => ?_, (by rintro ⟨⟩), (by rintro ⟨⟩), .of_outside rfl⟩
    rw [hl] at hx; cases hx
  | recv d addr hc hs =>
    rcases s.deliver_cases d addr with ⟨-, -, -, hs'⟩ | ⟨-, c, hs'⟩ <;> rw [hs, hs'] <;>
      exact hI.same rfl rfl ⟨rfl, rfl, rfl, rfl, rfl⟩ rfl fun _ => ⟨rfl, rfl⟩
  | proc hr hp => exact hI.proc hg hr hp
  | upd hw hr hy hp => exact hI.upd hg hq hr hp
  | other e n t m c hr h₁ h₂ h₃ hs =>
    rw [hs]
    have hre : s.releases a = false := by
      cases a with
      | proc => exact absurd rfl h₂
      | _ => rfl
    exact hI.same hr hre ⟨rfl, rfl, rfl, rfl, rfl⟩ rfl fun _ => ⟨rfl, enters_ne_proc h₂⟩

theorem CommitInv.of_run (hr : system.Run h s) (hg : Lts.Guarded CommitGuard h) : CommitInv h s := by
  induction hr with
  | init hi =>
    rw [show _ = reset _ _ from hi]
    exact ⟨(by rintro _ _ ⟨⟩), (by rintro ⟨⟩), (by rintro ⟨⟩), .of_outside rfl⟩
  | step hr ha ih =>
    refine (ih hg.2).next hg.1 (fun hne => ?_) ha
    by_contra hq
    exact hne ((EraseInv.of_run hr).idle (Bool.eq_false_iff.2 hq)).1

/-- In a run whose steps meet the condition, what is committed has the sum that the `ERASE_FLASH`
processed last carries. -/
theorem commitOk_of_run (hr : system.Run h s) (hg : Lts.Guarded CommitGuard h) : CommitOk h s := by
  intro hc
  obtain ⟨x, hx, hsum⟩ := (CommitInv.of_run hr hg).sum.summed (UpdPc.summed_of_commits hc)
  exact ⟨x, hx, by rw [← lowerCheckSum_eq]; exact hsum⟩

/-- An update of four bytes up to its commit. -/
theorem commitOk_of_run_update : ∃ h s, system.Run h s ∧ s.upd = .commit ∧ lastErase h = some (4, 48) ∧
    CommitOk h s := by
  obtain ⟨h, s, hr, hu, hl, hg⟩ := Lts.exists_run_of_exec (S := system)
    (P := fun h s => s.upd = .commit ∧ lastErase h = some (4, 48) ∧ Lts.Guarded CommitGuard h)
    (bootActs ++ [.recv (eraseFrame 4 48) 7] ++ procs 14 ++ [.recv (downloadFrame 0 [0, 16, 0, 32]) 7] ++
      procs 20 ++ upds 32 ++ [.elapse 101] ++ upds 1)
    (init_reset (fun _ => 0) (eepromOf 1)) (by decide +kernel)
  exact ⟨h, s, hr, hu, hl, commitOk_of_run hr hg⟩

/-- `ERASE_FLASH` comes a second time while `Download` programs the first of two packets: the length
and the sums are zero until its reply is sent, so `Download` and `CalChecksum` return 1 at once, and the
half-written image is committed. -/
theorem commit_of_repeated_erase : ∃ h s, system.Run h s ∧ lastErase h = some (8, 96) ∧ ¬ CommitOk h s :=
  Lts.exists_run_of_exec
    (bootActs ++ [.recv (eraseFrame 8 96) 7] ++ procs 14 ++ [.recv (downloadFrame 0 [0, 16, 0, 32]) 7] ++
      procs 20 ++ upds 11 ++ [.recv (eraseFrame 8 96) 7] ++ procs 9 ++ upds 13 ++ procs 6 ++ [.elapse 101] ++
      upds 1)
    (init_reset (fun _ => 0) (eepromOf 1)) (by decide +kernel)

end Device

end Bootloader
