import Bootloader.History

/-!
# The branches of the two threads

One constructor for each way through `procStep` and `updStep`, with the test that leads there, indexed by
where the thread stands. The invariants of the device are proved by cases on these; the steps that reset
the device are left to `step_cases`.
-/

namespace Bootloader.Device

/-- A step of the process thread from `pc`. -/
inductive ProcStep (s : Device) : ProcPc → Device → Prop
  | block {x : Semaphore} : s.netWorkRecvSem.take = some (false, x) →
    ProcStep s .idle { s with netWorkRecvSem := x, proc := .idle }
  | idle {x : Semaphore} : s.netWorkRecvSem.take = some (true, x) →
    ProcStep s .idle { s with netWorkRecvSem := x, proc := .tryRecv }
  | tryFails : s.recvSem = 0 → ProcStep s .tryRecv { s with proc := .idle }
  | tryRecv : 0 < s.recvSem → ProcStep s .tryRecv { s with recvSem := s.recvSem - 1, proc := .entry }
  | entryErase : cmdCode s.pRecvBuf = Cmd.eraseFlash.code → ProcStep s .entry { s with proc := .eraseClear }
  | entryDownload : cmdCode s.pRecvBuf = Cmd.download.code → ProcStep s .entry { s with proc := .seqRead }
  | entryUnknown : ProcStep s .entry { s with proc := .idle }
  | entryReply {cmd : Cmd} {sendbuf : List UInt8} : cmd ≠ .eraseFlash → cmd ≠ .download →
    cmdCode s.pRecvBuf = cmd.code → ProcStep s .entry { s with proc := .ackHead cmd sendbuf [] }
  | eraseClear : ProcStep s .eraseClear { s.eraseClear with proc := .ackHead .eraseFlash [] [] }
  | seqRead : ProcStep s .seqRead { s with proc := .lenRead (packetIndex s.pRecvBuf) }
  | lenRead {iSeq : Nat} : dataLen s.pRecvBuf ≤ 1024 →
    ProcStep s (.lenRead iSeq) { s with proc := .saveFile iSeq (dataLen s.pRecvBuf) }
  | lenTooLong {iSeq : Nat} : ProcStep s (.lenRead iSeq) { s with proc := .idle }
  | saved {iSeq iDataLen : Nat} : alreadySaved s.fileBuf iSeq = true →
    ProcStep s (.saveFile iSeq iDataLen) { s with proc := s.downloadAck 1 }
  | saveFile {iSeq iDataLen : Nat} : alreadySaved s.fileBuf iSeq = false →
    ProcStep s (.saveFile iSeq iDataLen) { s with proc := .poll iSeq iDataLen s.tick }
  | pollStore {i iSeq iDataLen tick : Nat} : pollSlot s.fileBuf iSeq = .store i →
    ProcStep s (.poll iSeq iDataLen tick) { s with proc := .copy i iSeq iDataLen [] }
  | pollLate {iSeq iDataLen tick : Nat} :
    ProcStep s (.poll iSeq iDataLen tick) { s with proc := s.downloadAck 0 }
  | pollSleep {iSeq iDataLen tick : Nat} :
    ProcStep s (.poll iSeq iDataLen tick) { s with proc := .sleep iSeq iDataLen tick }
  | sleep {iSeq iDataLen tick : Nat} :
    ProcStep s (.sleep iSeq iDataLen tick) { s with proc := .poll iSeq iDataLen tick }
  | copy {i iSeq iDataLen : Nat} {copied : List UInt8} : copied.length < iDataLen →
    ProcStep s (.copy i iSeq iDataLen copied)
      { s with proc := .copy i iSeq iDataLen (copied ++ [s.pRecvBuf (payloadOffset + copied.length)]) }
  | store {i iSeq iDataLen : Nat} {copied : List UInt8} : ¬ copied.length < iDataLen →
    ProcStep s (.copy i iSeq iDataLen copied)
      { s with fileBuf := s.fileBuf.store i iSeq copied, proc := s.downloadAck 1 }
  | ackHead {cmd : Cmd} {sendbuf hdr : List UInt8} : hdr.length < 4 → ProcStep s (.ackHead cmd sendbuf hdr)
      { s with proc := .ackHead cmd sendbuf (hdr ++ [s.pRecvBuf (5 + hdr.length)]) }
  | ackSend {cmd : Cmd} {sendbuf hdr : List UInt8} : 4 ≤ hdr.length →
    ProcStep s (.ackHead cmd sendbuf hdr) { s with proc := .ackTake cmd sendbuf hdr }
  | ackTake {cmd : Cmd} {sendbuf hdr : List UInt8} :
    ProcStep s (.ackTake cmd sendbuf hdr) { s with proc := .ackWait cmd }
  | ackErase : ProcStep s (.ackWait .eraseFlash) { s with proc := .eraseLength }
  | ackUser : ProcStep s (.ackWait .enterUser) { s with proc := .userFlag }
  | ackSum : ProcStep s (.ackWait .quaryCheckSum) { s with proc := .clearCheckSum }
  | ackDone {cmd : Cmd} : cmd ≠ .eraseFlash → ProcStep s (.ackWait cmd) { s with proc := .idle }
  | eraseLength :
    ProcStep s .eraseLength { s with codeTotalLength := codeLength s.pRecvBuf, proc := .eraseCheckSum }
  | eraseCheckSum :
    ProcStep s .eraseCheckSum { s with codeUpperCheckSum := codeCheckSum s.pRecvBuf, proc := .eraseRelease }
  | eraseRelease : ProcStep s .eraseRelease { s with updateSem := s.updateSem.release, proc := .idle }
  | clearCheckSum {result : Nat} : ProcStep s .clearCheckSum { s with checkSumResult := result, proc := .idle }
  | userFlag : ProcStep s .userFlag { s with netLocalAddr := clearBootFlag s.netLocalAddr, proc := .userSave 0 }
  | userSave {k : Nat} :
    ProcStep s (.userSave k) { s with eeprom := saveByte s.netLocalAddr k s.eeprom, proc := .userSave (k + 1) }
  | userSaved {k : Nat} : ProcStep s (.userSave k) { s with proc := .userReset }

/-- A step of the update thread from `pc`. -/
inductive UpdStep (s : Device) : FlashStatus → UpdPc → Device → Prop
  | block {hw : FlashStatus} {x : Semaphore} : s.updateSem.take = some (false, x) →
    UpdStep s hw .take { s with updateSem := x, upd := .take }
  | take {hw : FlashStatus} {x : Semaphore} : s.updateSem.take = some (true, x) →
    UpdStep s hw .take { s with updateSem := x, upd := .eraseEnter }
  | eraseTooLong {hw : FlashStatus} :
    flashSector 11 < getSector (u32 (flashUserStartAddr + s.codeTotalLength)) →
    UpdStep s hw .eraseEnter { s with eraseFlashResult := 2, upd := .drain }
  | eraseEnter {hw : FlashStatus} : UpdStep s hw .eraseEnter { s with
      eraseFlashResult := 1
      upd := .eraseLoop (getSector flashUserStartAddr)
        (getSector (u32 (flashUserStartAddr + s.codeTotalLength))) }
  | eraseSector {sectorCounter sectorEnd : Nat} : sectorCounter ≤ sectorEnd →
    UpdStep s .complete (.eraseLoop sectorCounter sectorEnd) { s with
      flash := flashEraseSector s.flash sectorCounter .complete
      upd := .eraseLoop (sectorCounter + 8) sectorEnd }
  | eraseFails {sectorCounter sectorEnd : Nat} {junk : Mem} : sectorCounter ≤ sectorEnd →
    UpdStep s (.failed junk) (.eraseLoop sectorCounter sectorEnd) { s with
      flash := flashEraseSector s.flash sectorCounter (.failed junk)
      eraseFlashResult := 2
      upd := .drain }
  | eraseDone {hw : FlashStatus} {sectorCounter sectorEnd : Nat} : sectorEnd < sectorCounter →
    UpdStep s hw (.eraseLoop sectorCounter sectorEnd) { s with eraseFlashResult := 3, upd := .downloadEnter }
  | downloadEnter {hw : FlashStatus} :
    UpdStep s hw .downloadEnter { s with currentProgress := 0, upd := .loopTest 0 0 }
  | loop {hw : FlashStatus} {i fileseq : Nat} : i < s.codeTotalLength →
    UpdStep s hw (.loopTest i fileseq) { s with upd := .getIndex i fileseq s.tick }
  | loopDone {hw : FlashStatus} {i fileseq : Nat} :
    UpdStep s hw (.loopTest i fileseq) { s with upd := .downloadDone }
  | found {hw : FlashStatus} {i fileseq tick b : Nat} : getFileIndex s.fileBuf fileseq = some b →
    UpdStep s hw (.getIndex i fileseq tick) { s with upd := .words i fileseq b }
  | timeOut {hw : FlashStatus} {i fileseq tick : Nat} :
    UpdStep s hw (.getIndex i fileseq tick) { s with upd := .drain }
  | wait {hw : FlashStatus} {i fileseq tick : Nat} :
    UpdStep s hw (.getIndex i fileseq tick) { s with upd := .getIndex i fileseq tick }
  | wordsRest {hw : FlashStatus} {i fileseq b : Nat} : (s.fileBuf b).dataLen % 4 ≠ 0 →
    UpdStep s hw (.words i fileseq b) { s with upd := .zeroArgs i fileseq b (s.fileBuf b).wordDataNum }
  | words {hw : FlashStatus} {i fileseq b : Nat} : (s.fileBuf b).dataLen % 4 = 0 →
    UpdStep s hw (.words i fileseq b) { s with upd := .fetch i fileseq b (s.fileBuf b).wordDataNum 0 }
  | zeroArgs {hw : FlashStatus} {i fileseq b n : Nat} : UpdStep s hw (.zeroArgs i fileseq b n)
      { s with upd := .zeroRest i fileseq b n (s.fileBuf b).dataLen }
  | zeroByte {hw : FlashStatus} {i fileseq b n k : Nat} : k < 1024 → UpdStep s hw (.zeroRest i fileseq b n k)
      { s with fileBuf := s.fileBuf.zeroByte b k, upd := .zeroRest i fileseq b n (k + 1) }
  | zeroDone {hw : FlashStatus} {i fileseq b n k : Nat} : 1024 ≤ k →
    UpdStep s hw (.zeroRest i fileseq b n k) { s with upd := .fetch i fileseq b n 0 }
  | fetch {hw : FlashStatus} {i fileseq b n j : Nat} : j < n → UpdStep s hw (.fetch i fileseq b n j)
      { s with upd := .program i fileseq b n j ((s.fileBuf b).data.read (4 * j) 4) }
  | fetchDone {hw : FlashStatus} {i fileseq b n j : Nat} : n ≤ j →
    UpdStep s hw (.fetch i fileseq b n j) { s with upd := .release i fileseq b }
  | program {i fileseq b n j : Nat} {data : List UInt8} :
    UpdStep s .complete (.program i fileseq b n j data) { s with
      flash := flashProgramWord s.flash (u32 (flashUserStartAddr + s.codeDownloadLength + 4 * j)) data .complete
      upd := .fetch i fileseq b n (j + 1) }
  | programFails {i fileseq b n j : Nat} {data : List UInt8} {junk : Mem} :
    UpdStep s (.failed junk) (.program i fileseq b n j data) { s with
      flash := flashProgramWord s.flash (u32 (flashUserStartAddr + s.codeDownloadLength + 4 * j)) data
        (.failed junk)
      upd := .drain }
  | release {hw : FlashStatus} {i fileseq b : Nat} : UpdStep s hw (.release i fileseq b)
      { s with fileBuf := s.fileBuf.release b, upd := .addLength i fileseq b }
  | addLength {hw : FlashStatus} {i fileseq b : Nat} : UpdStep s hw (.addLength i fileseq b)
      { s with upd := .setLength (u32 (i + (s.fileBuf b).dataLen)) fileseq }
  | setLength {hw : FlashStatus} {i fileseq : Nat} : UpdStep s hw (.setLength i fileseq)
      { s with codeDownloadLength := i, upd := .setProgress i ((fileseq + 1) % 65536) }
  | setProgress {hw : FlashStatus} {i fileseq : Nat} : UpdStep s hw (.setProgress i fileseq) { s with
      currentProgress := progress s.codeDownloadLength s.codeTotalLength
      upd := .loopTest i fileseq }
  | downloadDone {hw : FlashStatus} :
    UpdStep s hw .downloadDone { s with currentProgress := 100, upd := .sumEnter }
  | sumEnter {hw : FlashStatus} : UpdStep s hw .sumEnter { s with codeLowerCheckSum := 0, upd := .sumStart }
  | sumStart {hw : FlashStatus} : UpdStep s hw .sumStart { s with checkSumResult := 1, upd := .sumLoop 0 }
  | sumLoop {hw : FlashStatus} {i : Nat} : i < s.codeTotalLength →
    UpdStep s hw (.sumLoop i) { s with upd := .sumAdd i }
  | sumAdd {hw : FlashStatus} {i : Nat} : UpdStep s hw (.sumAdd i) { s with
      codeLowerCheckSum := u32 (s.codeLowerCheckSum + (s.flash (u32 (flashUserStartAddr + i))).toNat)
      upd := .sumLoop (i + 1) }
  | sumDone {hw : FlashStatus} {i : Nat} : s.codeTotalLength ≤ i →
    UpdStep s hw (.sumLoop i) { s with upd := .sumTest }
  | sumTest {hw : FlashStatus} : UpdStep s hw .sumTest { s with upd := .sumCompare s.codeLowerCheckSum }
  | testDiffers {hw : FlashStatus} {lower : Nat} : lower ≠ s.codeUpperCheckSum →
    UpdStep s hw (.sumCompare lower) { s with upd := .sumDiffers }
  | testAgrees {hw : FlashStatus} {lower : Nat} : lower = s.codeUpperCheckSum →
    UpdStep s hw (.sumCompare lower) { s with upd := .sumAgrees }
  | sumDiffers {hw : FlashStatus} : UpdStep s hw .sumDiffers { s with checkSumResult := 2, upd := .drain }
  | sumAgrees {hw : FlashStatus} : UpdStep s hw .sumAgrees { s with checkSumResult := 3, upd := .awaitEnter }
  | awaitEnter {hw : FlashStatus} : UpdStep s hw .awaitEnter { s with upd := .await s.tick }
  | await {hw : FlashStatus} {tick : Nat} : UpdStep s hw (.await tick) { s with upd := .await tick }
  | awaited {hw : FlashStatus} {tick : Nat} : UpdStep s hw (.await tick) { s with upd := .commit }
  | commit {hw : FlashStatus} :
    UpdStep s hw .commit { s with netLocalAddr := clearBootFlag s.netLocalAddr, upd := .commitSave 0 }
  | commitSave {hw : FlashStatus} {k : Nat} : UpdStep s hw (.commitSave k)
      { s with eeprom := saveByte s.netLocalAddr k s.eeprom, upd := .commitSave (k + 1) }
  | commitSaved {hw : FlashStatus} {k : Nat} : UpdStep s hw (.commitSave k) { s with upd := .commitReset }
  | drain {hw : FlashStatus} : 0 < s.updateSem.value → UpdStep s hw .drain { s with
      updateSem := { s.updateSem with value := s.updateSem.value - 1 }
      upd := .drain }
  | drained {hw : FlashStatus} : s.updateSem.value = 0 → UpdStep s hw .drain { s with upd := .take }

variable {s s' : Device} {hw : FlashStatus}

theorem dispatch_cases (s : Device) :
    (cmdCode s.pRecvBuf = Cmd.eraseFlash.code ∧ s.dispatch = .eraseClear) ∨
    (cmdCode s.pRecvBuf = Cmd.download.code ∧ s.dispatch = .seqRead) ∨ s.dispatch = .idle ∨
    ∃ cmd sendbuf, cmd ≠ .eraseFlash ∧ cmd ≠ .download ∧ cmdCode s.pRecvBuf = cmd.code ∧
      s.dispatch = .ackHead cmd sendbuf [] := by
  unfold dispatch
  cases hc : Cmd.ofCode (cmdCode s.pRecvBuf) with
  | none => exact .inr (.inr (.inl rfl))
  | some cmd =>
    have hcode := (Cmd.ofCode_code hc).symm
    cases cmd with
    | eraseFlash => exact .inl ⟨hcode, rfl⟩
    | download => exact .inr (.inl ⟨hcode, rfl⟩)
    | broadcast => exact .inr (.inr (.inr ⟨.broadcast, _, by decide, by decide, hcode, rfl⟩))
    | enterBoot => exact .inr (.inr (.inr ⟨.enterBoot, _, by decide, by decide, hcode, rfl⟩))
    | enterUser => exact .inr (.inr (.inr ⟨.enterUser, _, by decide, by decide, hcode, rfl⟩))
    | uqaryEraseFlashResult =>
      exact .inr (.inr (.inr ⟨.uqaryEraseFlashResult, _, by decide, by decide, hcode, rfl⟩))
    | quaryCheckSum => exact .inr (.inr (.inr ⟨.quaryCheckSum, _, by decide, by decide, hcode, rfl⟩))

theorem procStep_cases (hp : s.procStep = some s') (hr : s.resets .proc = false) : ProcStep s s.proc s' := by
  cases hpc : s.proc with
  | userReset => rw [resets, hpc] at hr; cases hr
  | idle =>
    simp only [procStep, hpc] at hp
    split at hp <;> cases hp
    next returns x hx =>
      cases returns with
      | true => exact .idle hx
      | false => exact .block hx
  | tryRecv =>
    simp only [procStep, hpc] at hp
    split at hp <;> cases hp
    · next h0 => exact .tryFails h0
    · next h0 => exact .tryRecv (Nat.pos_of_ne_zero h0)
  | entry =>
    simp only [procStep, hpc] at hp; cases hp
    rcases s.dispatch_cases with ⟨hc, hd⟩ | ⟨hc, hd⟩ | hd | ⟨cmd, sendbuf, he, hdl, hc, hd⟩ <;> rw [hd]
    exacts [.entryErase hc, .entryDownload hc, .entryUnknown, .entryReply he hdl hc]
  | eraseClear => simp only [procStep, hpc] at hp; cases hp; exact .eraseClear
  | seqRead => simp only [procStep, hpc] at hp; cases hp; exact .seqRead
  | lenRead q =>
    simp only [procStep, hpc] at hp; cases hp
    split
    · next hle => exact .lenRead hle
    · exact .lenTooLong
  | saveFile q n =>
    simp only [procStep, hpc] at hp; cases hp
    split
    · next hdup => exact .saved hdup
    · next hdup => exact .saveFile (Bool.eq_false_iff.2 hdup)
  | poll q n t =>
    simp only [procStep, hpc] at hp; cases hp
    cases ho : savePass s.fileBuf q (s.late t 5000) with
    | store i => exact .pollStore (Ring.savePass_store ho)
    | ret r => rw [Ring.savePass_ret ho]; exact .pollLate
    | sleep => exact .pollSleep
  | sleep q n t => simp only [procStep, hpc] at hp; cases hp; exact .sleep
  | copy i q n l =>
    simp only [procStep, hpc] at hp
    split at hp <;> cases hp
    · next hlt => exact .copy hlt
    · next hge => exact .store hge
  | ackHead c b hdr =>
    simp only [procStep, hpc] at hp; cases hp
    split
    · next hlt => exact .ackHead hlt
    · next hge => exact .ackSend (Nat.le_of_not_lt hge)
  | ackTake c b hdr => simp only [procStep, hpc] at hp; cases hp; exact .ackTake
  | ackWait c =>
    simp only [procStep, hpc] at hp; cases hp
    cases c with
    | eraseFlash => exact .ackErase
    | enterUser => exact .ackUser
    | quaryCheckSum => exact .ackSum
    | _ => exact .ackDone (by decide)
  | eraseLength => simp only [procStep, hpc] at hp; cases hp; exact .eraseLength
  | eraseCheckSum => simp only [procStep, hpc] at hp; cases hp; exact .eraseCheckSum
  | eraseRelease => simp only [procStep, hpc] at hp; cases hp; exact .eraseRelease
  | clearCheckSum => simp only [procStep, hpc] at hp; cases hp; exact .clearCheckSum
  | userFlag => simp only [procStep, hpc] at hp; cases hp; exact .userFlag
  | userSave k =>
    simp only [procStep, hpc] at hp
    split at hp <;> cases hp
    exacts [.userSave, .userSaved]

theorem updStep_cases (hp : s.updStep hw = some s') (hr : s.resets (.upd hw) = false) :
    UpdStep s hw s.upd s' := by
  cases hpc : s.upd with
  | commitReset => rw [resets, hpc] at hr; cases hr
  | take =>
    simp only [updStep, hpc] at hp
    split at hp <;> cases hp
    next returns x hx =>
      cases returns with
      | true => exact .take hx
      | false => exact .block hx
  | eraseEnter =>
    simp only [updStep, hpc] at hp
    split at hp <;> cases hp
    · next hlt => exact .eraseTooLong hlt
    · exact .eraseEnter
  | eraseLoop c e =>
    simp only [updStep, hpc] at hp
    split at hp
    · next hle => cases hw <;> cases hp <;> first | exact .eraseSector hle | exact .eraseFails hle
    · next hlt => cases hp; exact .eraseDone (Nat.lt_of_not_le hlt)
  | downloadEnter => simp only [updStep, hpc] at hp; cases hp; exact .downloadEnter
  | loopTest i q =>
    simp only [updStep, hpc] at hp; cases hp
    split
    · next hlt => exact .loop hlt
    · exact .loopDone
  | getIndex i q t =>
    simp only [updStep, hpc] at hp
    split at hp <;> cases hp
    · next b hb => exact .found hb
    · split
      exacts [.timeOut, .wait]
  | words i q b =>
    simp only [updStep, hpc] at hp; cases hp
    split
    · next h4 => exact .wordsRest h4
    · next h4 => exact .words (Decidable.not_not.1 h4)
  | zeroArgs i q b n => simp only [updStep, hpc] at hp; cases hp; exact .zeroArgs
  | zeroRest i q b n k =>
    simp only [updStep, hpc] at hp
    split at hp <;> cases hp
    · next hlt => exact .zeroByte hlt
    · next hge => exact .zeroDone (Nat.le_of_not_lt hge)
  | fetch i q b n j =>
    simp only [updStep, hpc] at hp; cases hp
    split
    · next hlt => exact .fetch hlt
    · next hge => exact .fetchDone (Nat.le_of_not_lt hge)
  | program i q b n j data =>
    simp only [updStep, hpc] at hp
    cases hw <;> cases hp
    exacts [.program, .programFails]
  | release i q b => simp only [updStep, hpc] at hp; cases hp; exact .release
  | addLength i q b => simp only [updStep, hpc] at hp; cases hp; exact .addLength
  | setLength i q => simp only [updStep, hpc] at hp; cases hp; exact .setLength
  | setProgress i q => simp only [updStep, hpc] at hp; cases hp; exact .setProgress
  | downloadDone => simp only [updStep, hpc] at hp; cases hp; exact .downloadDone
  | sumEnter => simp only [updStep, hpc] at hp; cases hp; exact .sumEnter
  | sumStart => simp only [updStep, hpc] at hp; cases hp; exact .sumStart
  | sumLoop i =>
    simp only [updStep, hpc] at hp; cases hp
    split
    · next hlt => exact .sumLoop hlt
    · next hge => exact .sumDone (Nat.le_of_not_lt hge)
  | sumAdd i => simp only [updStep, hpc] at hp; cases hp; exact .sumAdd
  | sumTest => simp only [updStep, hpc] at hp; cases hp; exact .sumTest
  | sumCompare lower =>
    simp only [updStep, hpc] at hp; cases hp
    split
    · next hne => exact .testDiffers hne
    · next heq => exact .testAgrees (Decidable.not_not.1 heq)
  | sumDiffers => simp only [updStep, hpc] at hp; cases hp; exact .sumDiffers
  | sumAgrees => simp only [updStep, hpc] at hp; cases hp; exact .sumAgrees
  | awaitEnter => simp only [updStep, hpc] at hp; cases hp; exact .awaitEnter
  | await t =>
    simp only [updStep, hpc] at hp; cases hp
    split
    exacts [.awaited, .await]
  | commit => simp only [updStep, hpc] at hp; cases hp; exact .commit
  | commitSave k =>
    simp only [updStep, hpc] at hp
    split at hp <;> cases hp
    exacts [.commitSave, .commitSaved]
  | drain =>
    simp only [updStep, hpc] at hp
    split at hp <;> cases hp
    · next h0 => exact .drained h0
    · next h0 => exact .drain (Nat.pos_of_ne_zero h0)

end Bootloader.Device
