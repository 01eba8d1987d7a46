import Bootloader.Threads

/-!
# The verdict of the checksum

`CalChecksum` leaves its verdict in `CheckSumResult`; `QUARY_CHECK_SUM` copies it, answers and clears
it, and the update thread takes the value 0 for the sign that the host knows. The copy is stale when
the verdict falls between it and the clearing, and `ERASE_FLASH` clears the verdict as well.
-/

namespace Bootloader

/-- A `QUARY_CHECK_SUM` has copied the verdict and not yet cleared it. -/
def ProcPc.querying : ProcPc → Bool
  | .ackHead .quaryCheckSum .. | .ackTake .quaryCheckSum .. | .ackWait .quaryCheckSum | .clearCheckSum => true
  | _ => false

/-- The reply to `QUARY_CHECK_SUM` has been sent and the verdict not yet cleared. -/
def ProcPc.answered : ProcPc → Bool
  | .ackWait .quaryCheckSum | .clearCheckSum => true
  | _ => false

/-- The wait for the host to fetch the verdict. -/
def UpdPc.awaiting : UpdPc → Bool
  | .awaitEnter | .await _ => true
  | _ => false

/-- `CalChecksum` is about to set its verdict. -/
def UpdPc.judges : UpdPc → Bool
  | .sumDiffers | .sumAgrees => true
  | _ => false

namespace Device

/-- The verdict carried by the reply to `QUARY_CHECK_SUM` that the step sends. -/
def answers (s : Device) : Act → Option UInt8
  | .proc =>
    match s.proc with
    | .ackTake .quaryCheckSum sendbuf _ => some (sendbuf.headD 0)
    | _ => none
  | _ => none

/-- The step sets `CheckSumResult` to the verdict of `CalChecksum`. -/
def judges (s : Device) : Act → Bool
  | .upd _ => s.upd.judges
  | _ => false

/-- The update thread leaves its wait before the time is over. -/
def leavesEarly (s : Device) : Act → Bool
  | .upd _ =>
    match s.upd with
    | .await tick => !s.late tick 1000 && s.checkSumResult == 0
    | _ => false
  | _ => false

/-- `CheckSumResult` is a verdict. -/
def verdict (s : Device) : Bool := s.checkSumResult == 2 || s.checkSumResult == 3

def clearsVerdict (s : Device) : Act → Bool
  | .proc => s.proc == .clearCheckSum && s.verdict
  | _ => false

/-- The verdict carried by the last reply to `QUARY_CHECK_SUM` since the last reset. -/
def answer : List (Device × Act) → Option UInt8 :=
  Lts.foldSince resets (fun v s a => (s.answers a).or v) none

/-- A reply to `QUARY_CHECK_SUM` has carried 3 since `CalChecksum` last set its verdict. -/
def told : List (Device × Act) → Bool :=
  Lts.foldSince (fun s a => s.resets a || s.judges a) (fun b s a => b || s.answers a == some 3) false

/-- The verdict that the `QUARY_CHECK_SUM` in progress has copied. -/
def copied (h : List (Device × Act)) (s : Device) : Option UInt8 :=
  match s.proc with
  | .ackHead .quaryCheckSum sendbuf _ | .ackTake .quaryCheckSum sendbuf _ => some (sendbuf.headD 0)
  | .ackWait .quaryCheckSum | .clearCheckSum => answer h
  | _ => none

/-- The wait ends early only behind a reply that carries 3, and a query clears only the verdict that its
reply has carried. -/
def VerdictOk (h : List (Device × Act)) (s : Device) (a : Act) : Prop :=
  (s.leavesEarly a = true → told h = true) ∧
  (s.clearsVerdict a = true → answer h = some (UInt8.ofNat s.checkSumResult))

instance (h : List (Device × Act)) (s : Device) (a : Act) : Decidable (VerdictOk h s a) :=
  inferInstanceAs (Decidable ((_ → _) ∧ (_ → _)))

/-- `ERASE_FLASH` clears the variables during the wait only when the verdict has been fetched, and the
verdict is set during a `QUARY_CHECK_SUM` only if it is 2 and the query has copied a 2 before. -/
def VerdictGuard (h : List (Device × Act)) (s : Device) (a : Act) : Prop :=
  (s.clears a = true → s.upd.awaiting = true → s.checkSumResult = 0) ∧
  (s.judges a = true → s.proc.querying = true → copied h s = some 2 ∧ s.upd = .sumDiffers)

instance (h : List (Device × Act)) (s : Device) (a : Act) : Decidable (VerdictGuard h s a) :=
  inferInstanceAs (Decidable ((_ → _ → _) ∧ (_ → _ → _ ∧ _)))

structure VerdictInv (h : List (Device × Act)) (s : Device) : Prop where
  copy : s.proc.querying = true → s.verdict = true → copied h s = some (UInt8.ofNat s.checkSumResult)
  wait : s.upd.awaiting = true → s.checkSumResult = 3 ∨ told h = true
  sent : s.upd.awaiting = true → s.proc.answered = true → told h = true

variable {h : List (Device × Act)} {s s' : Device} {a : Act}

theorem answer_cons (hr : s.resets a = false) : answer ((s, a) :: h) = (s.answers a).or (answer h) :=
  Lts.foldSince_cons hr

theorem told_cons (hr : s.resets a = false) (hj : s.judges a = false) :
    told ((s, a) :: h) = (told h || s.answers a == some 3) :=
  Lts.foldSince_cons (by simp only [hr, hj, Bool.or_self])

theorem told_mono (hr : s.resets a = false) (hj : s.judges a = false) (ht : told h = true) :
    told ((s, a) :: h) = true := by rw [told_cons hr hj, ht]; rfl

theorem copied_congr (hp : s'.proc = s.proc) (hr : s.resets a = false) (hn : s.answers a = none) :
    copied ((s, a) :: h) s' = copied h s := by
  simp only [copied, hp, answer_cons hr, hn, Option.none_or]

/-- A step that leaves the process thread where it is and does not set the verdict. -/
theorem VerdictInv.same (hI : VerdictInv h s) (hr : s.resets a = false) (hj : s.judges a = false)
    (hn : s.answers a = none) (hp : s'.proc = s.proc)
    (hv : s'.verdict = true → s'.checkSumResult = s.checkSumResult)
    (hw : s'.upd.awaiting = true → s.upd.awaiting = true ∧ s'.checkSumResult = s.checkSumResult) :
    VerdictInv ((s, a) :: h) s' := by
  refine ⟨fun hq hv' => ?_, fun hu => ?_, fun hu hans => ?_⟩
  · have hres := hv hv'
    rw [copied_congr hp hr hn, hres]
    exact hI.copy (by rwa [hp] at hq) (by rwa [verdict, hres] at hv')
  · rw [(hw hu).2]
    exact (hI.wait (hw hu).1).imp_right (told_mono hr hj)
  · exact told_mono hr hj (hI.sent (hw hu).1 (by rwa [hp] at hans))

theorem querying_of_answered {pc : ProcPc} (h : pc.answered = true) : pc.querying = true := by
  cases pc with
  | ackWait cmd => cases cmd <;> first | rfl | cases h
  | clearCheckSum => rfl
  | _ => cases h

/-- The copy that a `QUARY_CHECK_SUM` takes when `UDPPacketProcess` is called. -/
theorem dispatch_querying (h : s.dispatch.querying = true) :
    s.dispatch = .ackHead .quaryCheckSum [UInt8.ofNat s.checkSumResult] [] := by
  unfold dispatch at h ⊢
  cases hc : Cmd.ofCode (cmdCode s.pRecvBuf) with
  | none => rw [hc] at h; cases h
  | some cmd =>
    rw [hc] at h
    cases cmd <;> first | rfl | cases h

/-- A step of the process thread behind which no query is in progress. -/
theorem VerdictInv.quiet (hI : VerdictInv h s) (hr : s.resets .proc = false)
    (hq : s'.proc.querying = false) (hres : s'.checkSumResult = s.checkSumResult) (hu : s'.upd = s.upd) :
    VerdictInv ((s, .proc) :: h) s' := by
  refine ⟨fun h => ?_, fun haw => ?_, fun _ hans => ?_⟩
  · rw [hq] at h; cases h
  · rw [hu] at haw
    rw [hres]
    exact (hI.wait haw).imp_right (told_mono hr rfl)
  · have := querying_of_answered hans
    rw [hq] at this; cases this

/-- A step of the process thread within a query. -/
theorem VerdictInv.query (hI : VerdictInv h s) (hr : s.resets .proc = false)
    (hq : s.proc.querying = true) (hres : s'.checkSumResult = s.checkSumResult) (hu : s'.upd = s.upd)
    (hc : copied ((s, .proc) :: h) s' = copied h s)
    (hans : s'.proc.answered = true → s.proc.answered = true ∨ s.answers .proc = copied h s) :
    VerdictInv ((s, .proc) :: h) s' := by
  refine ⟨fun _ hv => ?_, fun haw => ?_, fun haw ha => ?_⟩
  · rw [verdict, hres] at hv
    rw [hc, hres]
    exact hI.copy hq hv
  · rw [hu] at haw
    rw [hres]
    exact (hI.wait haw).imp_right (told_mono hr rfl)
  · rw [hu] at haw
    rcases hans ha with hold | hnew
    · exact told_mono hr rfl (hI.sent haw hold)
    · -- the reply carries the copy, and the copy is the verdict
      rcases hI.wait haw with h3 | ht
      · rw [told_cons hr rfl, hnew, hI.copy hq (by rw [verdict, h3]; rfl), h3]
        exact Bool.or_true _
      · exact told_mono hr rfl ht

theorem VerdictInv.proc (hI : VerdictInv h s) (hg : VerdictGuard h s .proc) (hr : s.resets .proc = false)
    (hp : s.procStep = some s') : VerdictInv ((s, .proc) :: h) s' := by
  by_cases he : s.enters .proc = true
  · rw [procStep_entry hp he]
    cases hd : s.dispatch.querying with
    | false => exact hI.quiet hr hd rfl rfl
    | true =>
      rw [dispatch_querying hd]
      exact ⟨fun _ _ => rfl, fun haw => (hI.wait haw).imp_right (told_mono hr rfl), (by rintro _ ⟨⟩)⟩
  have hst := procStep_cases hp hr
  generalize hpc : s.proc = pc at hst
  cases hst with
  | entryErase | entryDownload | entryUnknown | entryReply => exact absurd (by rw [enters, hpc]; rfl) he
  | eraseClear =>
    refine ⟨(by rintro ⟨⟩), fun haw => .inr (told_mono hr rfl ?_), (by rintro _ ⟨⟩)⟩
    have h0 := hg.1 (by rw [clears, hpc]; rfl) haw
    exact (hI.wait haw).resolve_left (by omega)
  | clearCheckSum =>
    refine ⟨(by rintro ⟨⟩), fun haw => .inr (told_mono hr rfl ?_), (by rintro _ ⟨⟩)⟩
    exact hI.sent haw (by rw [hpc]; rfl)
  | @ackHead cmd sendbuf hdr =>
    by_cases hc : cmd = .quaryCheckSum
    · subst hc
      exact hI.query hr (by rw [hpc]; rfl) rfl rfl (by simp only [copied, hpc]) (by rintro ⟨⟩)
    · exact hI.quiet hr (by cases cmd <;> first | rfl | exact absurd rfl hc) rfl rfl
  | @ackSend cmd sendbuf hdr =>
    by_cases hc : cmd = .quaryCheckSum
    · subst hc
      exact hI.query hr (by rw [hpc]; rfl) rfl rfl (by simp only [copied, hpc]) (by rintro ⟨⟩)
    · exact hI.quiet hr (by cases cmd <;> first | rfl | exact absurd rfl hc) rfl rfl
  | @ackTake cmd sendbuf hdr =>
    by_cases hc : cmd = .quaryCheckSum
    · subst hc
      exact hI.query hr (by rw [hpc]; rfl) rfl rfl
        (by simp only [copied, hpc, answer_cons hr, answers, Option.some_or])
        fun _ => .inr (by simp only [answers, copied, hpc])
    · exact hI.quiet hr (by cases cmd <;> first | rfl | exact absurd rfl hc) rfl rfl
  | ackSum =>
    exact hI.query hr (by rw [hpc]; rfl) rfl rfl
      (by simp only [copied, hpc, answer_cons hr, answers, Option.none_or]) fun _ => .inl (by rw [hpc]; rfl)
  | _ => exact hI.quiet hr rfl rfl rfl

theorem VerdictInv.upd {hw : FlashStatus} (hI : VerdictInv h s) (hg : VerdictGuard h s (.upd hw))
    (hr : s.resets (.upd hw) = false) (hp : s.updStep hw = some s') : VerdictInv ((s, .upd hw) :: h) s' := by
  have hst := updStep_cases hp hr
  generalize hpc : s.upd = pc at hst
  cases hst with
  | sumStart => exact hI.same hr (by simp [judges, UpdPc.judges, hpc]) rfl rfl (by rintro ⟨⟩) (by rintro ⟨⟩)
  | sumDiffers =>
    refine ⟨fun hq _ => ?_, (by rintro ⟨⟩), (by rintro ⟨⟩)⟩
    have := (hg.2 (by rw [judges, hpc]; rfl) hq).1
    exact (copied_congr rfl hr rfl).trans this
  | sumAgrees =>
    have hq : s.proc.querying = false := by
      cases hq : s.proc.querying with
      | false => rfl
      | true => exact absurd (hpc.symm.trans (hg.2 (by rw [judges, hpc]; rfl) hq).2) (by rintro ⟨⟩)
    refine ⟨fun h => ?_, fun _ => .inl rfl, fun _ hans => ?_⟩
    · rw [show s.proc.querying = true from h] at hq; cases hq
    · rw [querying_of_answered hans] at hq; cases hq
  | awaitEnter | await =>
    exact hI.same hr (by simp [judges, UpdPc.judges, hpc]) rfl rfl (fun _ => rfl) fun _ => ⟨by rw [hpc]; rfl, rfl⟩
  | _ => exact hI.same hr (by simp [judges, UpdPc.judges, hpc]) rfl rfl (fun _ => rfl) (by rintro ⟨⟩)

theorem VerdictInv.next (hI : VerdictInv h s) (hg : VerdictGuard h s a) (ha : step a s = some s') :
    VerdictInv ((s, a) :: h) s' := by
  cases step_cases ha with
  | reset e he hr hs =>
    rw [hs]
    exact ⟨(by rintro ⟨⟩), (by rintro ⟨⟩), (by rintro ⟨⟩)⟩
  | recv d addr hc hs =>
    rcases s.deliver_cases d addr with ⟨-, -, -, hs'⟩ | ⟨-, c, hs'⟩ <;> rw [hs, hs'] <;>
      exact hI.same rfl rfl rfl rfl (fun _ => rfl) fun h => ⟨h, rfl⟩
  | proc hr hp => exact hI.proc hg hr hp
  | upd hw hr hy hp => exact hI.upd hg hr hp
  | other e n t m c hr h₁ h₂ h₃ hs =>
    have hfalse : s.judges a = false ∧ s.answers a = none := by
      cases a with
      | proc => exact absurd rfl h₂
      | upd hw => exact absurd rfl (h₃ hw)
      | _ => exact ⟨rfl, rfl⟩
    rw [hs]
    exact hI.same hr hfalse.1 hfalse.2 rfl (fun _ => rfl) fun h => ⟨h, rfl⟩

theorem VerdictInv.ok (hI : VerdictInv h s) : VerdictOk h s a := by
  constructor
  · intro hl
    cases a with
    | upd hw =>
      rw [leavesEarly] at hl
      split at hl
      · next tick hpc =>
        rw [Bool.and_eq_true, beq_iff_eq] at hl
        exact (hI.wait (by rw [hpc]; rfl)).resolve_left (by omega)
      · cases hl
    | _ => cases hl
  · intro hc
    cases a with
    | proc =>
      rw [clearsVerdict, Bool.and_eq_true, beq_iff_eq] at hc
      have := hI.copy (by rw [hc.1]; rfl) hc.2
      rwa [copied, hc.1] at this
    | _ => cases hc

/-- In a run whose steps meet the condition, the update thread cuts its wait short only when the host has
been told the verdict, and no verdict is cleared by a query that has told another one. -/
theorem verdictOk_of_run (hr : system.Run h s) (hg : Lts.Guarded VerdictGuard h) : Lts.Guarded VerdictOk h := by
  suffices VerdictInv h s ∧ Lts.Guarded VerdictOk h from this.2
  induction hr with
  | init hi =>
    rw [show _ = reset _ _ from hi]
    exact ⟨⟨(by rintro ⟨⟩), (by rintro ⟨⟩), (by rintro ⟨⟩)⟩, trivial⟩
  | step hr ha ih =>
    obtain ⟨hI, hok⟩ := ih hg.2
    exact ⟨hI.next hg.1 ha, hI.ok, hok⟩

/-- A complete update of four bytes; the host fetches the verdict 3 and the wait ends at once. -/
theorem verdictOk_of_run_fetched : ∃ h s, system.Run h s ∧ s.upd = .commit ∧ s.tick = 0 ∧ answer h = some 3 ∧
    Lts.Guarded VerdictOk h := by
  obtain ⟨h, s, hr, hu, ht, ha, hg⟩ := Lts.exists_run_of_exec (S := system)
    (P := fun h s => s.upd = .commit ∧ s.tick = 0 ∧ answer h = some 3 ∧ Lts.Guarded VerdictGuard h)
    (bootActs ++ [.recv (eraseFrame 4 48) 7] ++ procs 14 ++ [.recv (downloadFrame 0 [0, 16, 0, 32]) 7] ++
      procs 20 ++ upds 33 ++ [.recv (hostFrame .quaryCheckSum 0 []) 7] ++ procs 12 ++ upds 1)
    (init_reset (fun _ => 0) (eepromOf 1)) (by decide +kernel)
  exact ⟨h, s, hr, hu, ht, ha, verdictOk_of_run hr hg⟩

/-- A query copies 1 while the sum is formed; the verdict 3 falls while it waits in `UDPSend`, and it
clears it. The update thread cuts its wait short and the host has been told 1. -/
theorem verdict_of_query_in_sum : ∃ h s, system.Run h s ∧ s.upd = .commit ∧ s.tick = 0 ∧ answer h = some 1 ∧
    ¬ Lts.Guarded VerdictOk h :=
  Lts.exists_run_of_exec
    (bootActs ++ [.recv (eraseFrame 4 48) 7] ++ procs 14 ++ [.recv (downloadFrame 0 [0, 16, 0, 32]) 7] ++
      procs 20 ++ upds 24 ++ [.recv (hostFrame .quaryCheckSum 0 []) 7] ++ procs 8 ++ upds 10 ++ procs 4 ++ upds 1)
    (init_reset (fun _ => 0) (eepromOf 1)) (by decide +kernel)

end Device

end Bootloader
