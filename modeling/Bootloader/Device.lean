import Bootloader.Lib.Transition
import Bootloader.Config
import Bootloader.Flash
import Bootloader.Frame
import Bootloader.Ring

/-!
# The device

The boot program as one transition system: `UserProcess` from a reset to `EnterUser` or to the start
of the threads, `network_commu_thread_entry`, `network_process_thread_entry` with `UDPPacketProcess`,
and `update_thread_entry`. A step of a thread is a statement of the source, or the part of one that
reads or writes one shared variable; one pass over the slots and the entry of `EraseFlash` are one step
each, and the `memset` of `Download` is one step for its arguments and one for each byte. The receive
thread has the highest priority of the three and does not block between `recvfrom` and the release of the
semaphores, so a datagram is one step. The process thread has priority over the update thread, which
steps only while the process thread waits (`yields`), and may be preempted after each of its steps.
`update_thread_entry` initialises `UpdateSem`; no `ERASE_FLASH` is processed before, so the semaphore is
there from the start.
-/

namespace Bootloader

def mSec (x : Nat) : Nat := x / 10

/-- Where `UserProcess` stands. -/
inductive BootPc
  | cfgInit
  | bootKeyCheck
  | bootKeySave (k : Nat)
  | versionCheck
  | versionSave (k : Nat)
  | enterUser
deriving DecidableEq, Repr

inductive Mode
  | boot (pc : BootPc)
  /-- The threads run. -/
  | threads
  /-- The user program runs. -/
  | userApp
deriving DecidableEq, Repr

/-- Where `network_process_thread_entry` stands. -/
inductive ProcPc
  | idle
  | tryRecv
  /-- `UDPPacketProcess` is called. -/
  | entry
  | eraseClear
  | seqRead
  | lenRead (packetseq : Nat)
  /-- `SaveFileToBuf` is called. -/
  | saveFile (iSeq iDataLen : Nat)
  | poll (iSeq iDataLen tick : Nat)
  | sleep (iSeq iDataLen tick : Nat)
  /-- The `memcpy` of the payload; the slot is written with its last byte, because no thread that
  looks at the slots runs before. -/
  | copy (i iSeq iDataLen : Nat) (copied : List UInt8)
  /-- `UDPSendAck` reads the header bytes back. -/
  | ackHead (cmd : Cmd) (sendbuf hdr : List UInt8)
  /-- `UDPSend` is called. -/
  | ackTake (cmd : Cmd) (sendbuf hdr : List UInt8)
  /-- In `sendto`. -/
  | ackWait (cmd : Cmd)
  | eraseLength
  | eraseCheckSum
  | eraseRelease
  | clearCheckSum
  | userFlag
  | userSave (k : Nat)
  | userReset
deriving DecidableEq, Repr

/-- Where `update_thread_entry` stands. `i`, `fileseq`, `bufindex`, `worddatanum` and `j` are the
locals of `Download`. -/
inductive UpdPc
  | take
  | eraseEnter
  | eraseLoop (sectorCounter sectorEnd : Nat)
  | downloadEnter
  | loopTest (i fileseq : Nat)
  | getIndex (i fileseq tick : Nat)
  | words (i fileseq bufindex : Nat)
  /-- The arguments of the `memset` behind the payload. -/
  | zeroArgs (i fileseq bufindex worddatanum : Nat)
  /-- The `memset` has come to the byte `k` of `Data`. -/
  | zeroRest (i fileseq bufindex worddatanum k : Nat)
  | fetch (i fileseq bufindex worddatanum j : Nat)
  | program (i fileseq bufindex worddatanum j : Nat) (data : List UInt8)
  | release (i fileseq bufindex : Nat)
  | addLength (i fileseq bufindex : Nat)
  | setLength (i fileseq : Nat)
  | setProgress (i fileseq : Nat)
  | downloadDone
  | sumEnter
  | sumStart
  | sumLoop (i : Nat)
  | sumAdd (i : Nat)
  | sumTest
  /-- The comparison has read `CodeLowerCheckSum`. -/
  | sumCompare (lower : Nat)
  /-- The sums differ, or agree: `CheckSumResult` is about to be set. -/
  | sumDiffers
  | sumAgrees
  | awaitEnter
  /-- The wait for the host to fetch the result. -/
  | await (tick : Nat)
  | commit
  | commitSave (k : Nat)
  | commitReset
  | drain
deriving DecidableEq, Repr

/-- Where the thread that takes a semaphore stands with it. -/
inductive Taker
  | free
  | suspended
  /-- A release has resumed it. -/
  | resumed
deriving DecidableEq, Repr

/-- A `struct rt_semaphore` that one thread takes. -/
structure Semaphore where
  value : Nat
  taker : Taker
deriving DecidableEq, Repr

namespace Semaphore

/-- A semaphore behind `rt_sem_init`. -/
def start : Semaphore := ⟨0, .free⟩

/-- The value is an `rt_uint16_t`, and `rt_sem_release` counts up without a test. -/
def countUp (value : Nat) : Nat := (value + 1) % 65536

/-- `rt_sem_release`: it resumes the thread that is suspended, or counts up. -/
def release (x : Semaphore) : Semaphore :=
  if x.taker = .suspended then { x with taker := .resumed } else { x with value := countUp x.value }

/-- A step in `rt_sem_take` with `RT_WAITING_FOREVER`: whether the call returns, and the semaphore. -/
def take (x : Semaphore) : Option (Bool × Semaphore) :=
  match x.taker with
  | .suspended => none
  | .resumed => some (true, { x with taker := .free })
  | .free =>
    if x.value = 0 then some (false, { x with taker := .suspended })
    else some (true, { x with value := x.value - 1 })

/-- What has been released and not yet taken. -/
def count (x : Semaphore) : Nat := x.value + if x.taker = .resumed then 1 else 0

variable {x y : Semaphore}

theorem count_of_take (h : x.take = some (true, y)) : x.count = y.count + 1 := by
  unfold take at h
  split at h
  · cases h
  · next hx => cases h; simp [count, hx]
  · next hx =>
    split at h <;> cases h
    simp [count, hx]; omega

theorem count_of_block (h : x.take = some (false, y)) : x.count = 0 ∧ y.count = 0 := by
  unfold take at h
  split at h
  · cases h
  · cases h
  · next hx =>
    split at h <;> cases h
    next h0 => simp [count, hx, h0]

theorem free_of_take (h : x.take = some (true, y)) : y.taker = .free := by
  unfold take at h
  split at h
  · cases h
  · cases h; rfl
  · next hx => split at h <;> cases h; exact hx

theorem count_of_free (h : x.taker = .free) : x.count = x.value := by
  rw [count, h, if_neg (by rintro ⟨⟩), Nat.add_zero]

theorem release_free (h : x.taker = .free) : x.release.taker = .free := by
  rw [release, h, if_neg (by rintro ⟨⟩)]

theorem count_release (h : x.value < 65535) : x.release.count = x.count + 1 := by
  unfold release
  split
  · next hx => simp [count, hx]
  · simp only [count, countUp]
    rw [Nat.mod_eq_of_lt (by omega)]; omega

theorem value_le_count : x.value ≤ x.count := Nat.le_add_right _ _

end Semaphore

/-- The persistent memories, the clock, the variables of the boot program and where its threads
stand. `commu` says whether the receive thread still serves its socket. -/
structure Device where
  flash : Mem
  eeprom : Mem
  tick : Nat
  netLocalAddr : Mem
  pRecvBuf : Mem
  sockAddr : Nat
  recvSem : Nat
  netWorkRecvSem : Semaphore
  codeTotalLength : Nat
  codeDownloadLength : Nat
  codeUpperCheckSum : Nat
  codeLowerCheckSum : Nat
  checkSumResult : Nat
  eraseFlashResult : Nat
  currentProgress : Nat
  updateSem : Semaphore
  fileBuf : FileBufs
  mode : Mode
  commu : Bool
  proc : ProcPc
  upd : UpdPc

inductive Act
  /-- The receive thread takes a datagram with its sender. -/
  | recv (d : List UInt8) (addr : Nat)
  /-- `select` or `recvfrom` fails. -/
  | recvFail
  | proc
  /-- `hw`: the outcome of the flash operation, if the step is one. -/
  | upd (hw : FlashStatus)
  | elapse (n : Nat)
  | powerLoss
  | boot (pins : Nat → Nat → Bool)
  /-- The user program changes the EEPROM and resets the device. -/
  | user (eeprom : Mem)

namespace Device

/-- A device after a reset: the variables of the program are zero. -/
def reset (flash eeprom : Mem) : Device where
  flash := flash
  eeprom := eeprom
  tick := 0
  netLocalAddr := fun _ => 0
  pRecvBuf := fun _ => 0
  sockAddr := 0
  recvSem := 0
  netWorkRecvSem := .start
  codeTotalLength := 0
  codeDownloadLength := 0
  codeUpperCheckSum := 0
  codeLowerCheckSum := 0
  checkSumResult := 0
  eraseFlashResult := 0
  currentProgress := 0
  updateSem := .start
  fileBuf := .clear
  mode := .boot .cfgInit
  commu := true
  proc := .idle
  upd := .take

/-- `rt_tick_get()-tick>MSec(ms)`. -/
def late (s : Device) (tick ms : Nat) : Bool := decide (mSec ms < u32 (s.tick - tick))

/-! ### UserProcess -/

/-- The first word of the user program, the initial stack pointer. -/
def userStack (flash : Mem) : Nat := Mem.le (flash.read flashUserStartAddr 4)

/-- The guard of `EnterUser`. -/
def hasUserApp (flash : Mem) : Bool := decide (userStack flash ≤ 0x20020000)

def bootStep (pins : Nat → Nat → Bool) (s : Device) : BootPc → Device
  | .cfgInit => { s with netLocalAddr := readNetLocalAddr s.eeprom, mode := .boot .bootKeyCheck }
  | .bootKeyCheck =>
    if bootKeyError s.netLocalAddr then
      { s with netLocalAddr := repairBootKey s.netLocalAddr, mode := .boot (.bootKeySave 0) }
    else { s with mode := .boot .versionCheck }
  | .bootKeySave k =>
    if k < netLocalAddrSize then
      { s with eeprom := saveByte s.netLocalAddr k s.eeprom, mode := .boot (.bootKeySave (k + 1)) }
    else { s with mode := .boot .versionCheck }
  | .versionCheck =>
    if bootVersionDiffers s.netLocalAddr then
      { s with netLocalAddr := repairBootVersion s.netLocalAddr, mode := .boot (.versionSave 0) }
    else { s with mode := .boot .enterUser }
  | .versionSave k =>
    if k < netLocalAddrSize then
      { s with eeprom := saveByte s.netLocalAddr k s.eeprom, mode := .boot (.versionSave (k + 1)) }
    else { s with mode := .boot .enterUser }
  | .enterUser =>
    if s.netLocalAddr bootFlagOffset = 0 ∧ readBootKey s.netLocalAddr pins = false ∧ hasUserApp s.flash then
      { s with mode := .userApp }
    else { s with mode := .threads }

/-! ### The receive thread -/

/-- The size of the receive thread's own buffer. -/
def commuBufLen : Nat := 1500

/-- A round of `network_commu_thread_entry`. -/
def deliver (d : List UInt8) (addr : Nat) (s : Device) : Device :=
  let ret := min d.length commuBufLen
  if ret = 0 then { s with commu := false }
  else if ret < udpRecvBufLen then
    { s with
      pRecvBuf := s.pRecvBuf.write 0 d
      sockAddr := addr
      recvSem := Semaphore.countUp s.recvSem
      netWorkRecvSem := s.netWorkRecvSem.release }
  else s

/-! ### The process thread -/

/-- "boot". -/
def bootName : List UInt8 := [0x62, 0x6F, 0x6F, 0x74]

def element (l : List UInt8) : List UInt8 := UInt8.ofNat l.length :: l

/-- The reply to `CMD_BROADCAST`. -/
def broadcastElements (netLocalAddr : Mem) : List UInt8 :=
  element bootName ++ element (bootVersion.takeWhile (· ≠ 0)) ++
    element (cString netLocalAddr userCodeTypeOffset) ++
    element (cString netLocalAddr userCodeVersionOffset) ++ element (cString netLocalAddr bootKeyOffset)

/-- The `switch` of `UDPPacketProcess`. -/
def dispatch (s : Device) : ProcPc :=
  match Cmd.ofCode (cmdCode s.pRecvBuf) with
  | some .broadcast => .ackHead .broadcast (broadcastElements s.netLocalAddr) []
  | some .enterBoot => .ackHead .enterBoot (element bootName) []
  | some .enterUser => .ackHead .enterUser (element bootName) []
  | some .eraseFlash => .eraseClear
  | some .uqaryEraseFlashResult => .ackHead .uqaryEraseFlashResult [UInt8.ofNat s.eraseFlashResult] []
  | some .download => .seqRead
  | some .quaryCheckSum => .ackHead .quaryCheckSum [UInt8.ofNat s.checkSumResult] []
  | none => .idle

/-- The reply to `CMD_DOWNLOAD` when `SaveFileToBuf` has returned. -/
def downloadAck (s : Device) (result : Nat) : ProcPc :=
  .ackHead .download [UInt8.ofNat result, UInt8.ofNat s.currentProgress] []

/-- Where a pass of the polling loop of `SaveFileToBuf` leads. -/
def afterPass (s : Device) (iSeq iDataLen tick : Nat) : SaveOutcome → ProcPc
  | .store i => .copy i iSeq iDataLen []
  | .ret result => s.downloadAck result
  | .sleep => .sleep iSeq iDataLen tick

/-- What follows `UDPSendAck` in `UDPPacketProcess`. -/
def afterAck : Cmd → ProcPc
  | .eraseFlash => .eraseLength
  | .enterUser => .userFlag
  | .quaryCheckSum => .clearCheckSum
  | .broadcast | .enterBoot | .uqaryEraseFlashResult | .download => .idle

def eraseClear (s : Device) : Device :=
  { s with
    codeTotalLength := 0
    codeDownloadLength := 0
    codeUpperCheckSum := 0
    codeLowerCheckSum := 0
    currentProgress := 0
    eraseFlashResult := 0
    checkSumResult := 0
    fileBuf := .clear }

def clearBootFlag (netLocalAddr : Mem) : Mem := netLocalAddr.write bootFlagOffset [0]

def procStep (s : Device) : Option Device :=
  match s.proc with
  | .idle =>
    match s.netWorkRecvSem.take with
    | some (returns, x) => some { s with netWorkRecvSem := x, proc := if returns then .tryRecv else .idle }
    | none => none
  | .tryRecv =>
    if s.recvSem = 0 then some { s with proc := .idle }
    else some { s with recvSem := s.recvSem - 1, proc := .entry }
  | .entry => some { s with proc := s.dispatch }
  | .eraseClear => some { s.eraseClear with proc := .ackHead .eraseFlash [] [] }
  | .seqRead => some { s with proc := .lenRead (packetIndex s.pRecvBuf) }
  | .lenRead iSeq =>
    let datalen := dataLen s.pRecvBuf
    some { s with proc := if datalen ≤ 1024 then .saveFile iSeq datalen else .idle }
  | .saveFile iSeq iDataLen =>
    let dup := alreadySaved s.fileBuf iSeq
    some { s with proc := if dup then s.downloadAck 1 else .poll iSeq iDataLen s.tick }
  | .poll iSeq iDataLen tick =>
    some { s with proc := s.afterPass iSeq iDataLen tick (savePass s.fileBuf iSeq (s.late tick 5000)) }
  | .sleep iSeq iDataLen tick => some { s with proc := .poll iSeq iDataLen tick }
  | .copy i iSeq iDataLen copied =>
    if copied.length < iDataLen then
      some { s with proc := .copy i iSeq iDataLen (copied ++ [s.pRecvBuf (payloadOffset + copied.length)]) }
    else some { s with fileBuf := s.fileBuf.store i iSeq copied, proc := s.downloadAck 1 }
  | .ackHead cmd sendbuf hdr =>
    let hdr' := hdr ++ [s.pRecvBuf (5 + hdr.length)]
    some { s with proc := if hdr.length < 4 then .ackHead cmd sendbuf hdr' else .ackTake cmd sendbuf hdr }
  | .ackTake cmd _ _ => some { s with proc := .ackWait cmd }
  | .ackWait cmd => some { s with proc := afterAck cmd }
  | .eraseLength => some { s with codeTotalLength := codeLength s.pRecvBuf, proc := .eraseCheckSum }
  | .eraseCheckSum => some { s with codeUpperCheckSum := codeCheckSum s.pRecvBuf, proc := .eraseRelease }
  | .eraseRelease => some { s with updateSem := s.updateSem.release, proc := .idle }
  | .clearCheckSum =>
    some { s with checkSumResult := if 0 < s.checkSumResult then 0 else s.checkSumResult, proc := .idle }
  | .userFlag => some { s with netLocalAddr := clearBootFlag s.netLocalAddr, proc := .userSave 0 }
  | .userSave k =>
    if k < netLocalAddrSize then
      some { s with eeprom := saveByte s.netLocalAddr k s.eeprom, proc := .userSave (k + 1) }
    else some { s with proc := .userReset }
  | .userReset => some (reset s.flash s.eeprom)

/-- The process thread does not run: it waits for a datagram, sleeps, or waits in `UDPSend`. -/
def yields (s : Device) : Bool :=
  match s.proc with
  | .idle => s.netWorkRecvSem.taker == .suspended
  | .sleep .. | .ackTake .. | .ackWait .. => true
  | _ => false

/-! ### The update thread -/

def updStep (hw : FlashStatus) (s : Device) : Option Device :=
  match s.upd with
  | .take =>
    match s.updateSem.take with
    | some (returns, x) => some { s with updateSem := x, upd := if returns then .eraseEnter else .take }
    | none => none
  | .eraseEnter =>
    let sectorEnd := getSector (u32 (flashUserStartAddr + s.codeTotalLength))
    if flashSector 11 < sectorEnd then some { s with eraseFlashResult := 2, upd := .drain }
    else some { s with eraseFlashResult := 1, upd := .eraseLoop (getSector flashUserStartAddr) sectorEnd }
  | .eraseLoop sectorCounter sectorEnd =>
    if sectorCounter ≤ sectorEnd then
      let flash := flashEraseSector s.flash sectorCounter hw
      match hw with
      | .complete => some { s with flash := flash, upd := .eraseLoop (sectorCounter + 8) sectorEnd }
      | .failed _ => some { s with flash := flash, eraseFlashResult := 2, upd := .drain }
    else some { s with eraseFlashResult := 3, upd := .downloadEnter }
  | .downloadEnter => some { s with currentProgress := 0, upd := .loopTest 0 0 }
  | .loopTest i fileseq =>
    some { s with upd := if i < s.codeTotalLength then .getIndex i fileseq s.tick else .downloadDone }
  | .getIndex i fileseq tick =>
    match getFileIndex s.fileBuf fileseq with
    | some b => some { s with upd := .words i fileseq b }
    | none => some { s with upd := if s.late tick 5000 then .drain else .getIndex i fileseq tick }
  | .words i fileseq b =>
    let n := (s.fileBuf b).wordDataNum
    let rest := (s.fileBuf b).dataLen % 4
    some { s with upd := if rest ≠ 0 then .zeroArgs i fileseq b n else .fetch i fileseq b n 0 }
  | .zeroArgs i fileseq b n => some { s with upd := .zeroRest i fileseq b n (s.fileBuf b).dataLen }
  | .zeroRest i fileseq b n k =>
    if k < 1024 then some { s with fileBuf := s.fileBuf.zeroByte b k, upd := .zeroRest i fileseq b n (k + 1) }
    else some { s with upd := .fetch i fileseq b n 0 }
  | .fetch i fileseq b n j =>
    let data := (s.fileBuf b).data.read (4 * j) 4
    some { s with upd := if j < n then .program i fileseq b n j data else .release i fileseq b }
  | .program i fileseq b n j data =>
    let flash := flashProgramWord s.flash (u32 (flashUserStartAddr + s.codeDownloadLength + 4 * j)) data hw
    match hw with
    | .complete => some { s with flash := flash, upd := .fetch i fileseq b n (j + 1) }
    | .failed _ => some { s with flash := flash, upd := .drain }
  | .release i fileseq b => some { s with fileBuf := s.fileBuf.release b, upd := .addLength i fileseq b }
  | .addLength i fileseq b => some { s with upd := .setLength (u32 (i + (s.fileBuf b).dataLen)) fileseq }
  | .setLength i fileseq => some { s with codeDownloadLength := i, upd := .setProgress i ((fileseq + 1) % 65536) }
  | .setProgress i fileseq =>
    some { s with
      currentProgress := progress s.codeDownloadLength s.codeTotalLength
      upd := .loopTest i fileseq }
  | .downloadDone => some { s with currentProgress := 100, upd := .sumEnter }
  | .sumEnter => some { s with codeLowerCheckSum := 0, upd := .sumStart }
  | .sumStart => some { s with checkSumResult := 1, upd := .sumLoop 0 }
  | .sumLoop i => some { s with upd := if i < s.codeTotalLength then .sumAdd i else .sumTest }
  | .sumAdd i =>
    some { s with
      codeLowerCheckSum := u32 (s.codeLowerCheckSum + (s.flash (u32 (flashUserStartAddr + i))).toNat)
      upd := .sumLoop (i + 1) }
  | .sumTest => some { s with upd := .sumCompare s.codeLowerCheckSum }
  | .sumCompare lower => some { s with upd := if lower ≠ s.codeUpperCheckSum then .sumDiffers else .sumAgrees }
  | .sumDiffers => some { s with checkSumResult := 2, upd := .drain }
  | .sumAgrees => some { s with checkSumResult := 3, upd := .awaitEnter }
  | .awaitEnter => some { s with upd := .await s.tick }
  | .await tick =>
    some { s with upd := if s.late tick 1000 ∨ s.checkSumResult = 0 then .commit else .await tick }
  | .commit => some { s with netLocalAddr := clearBootFlag s.netLocalAddr, upd := .commitSave 0 }
  | .commitSave k =>
    if k < netLocalAddrSize then
      some { s with eeprom := saveByte s.netLocalAddr k s.eeprom, upd := .commitSave (k + 1) }
    else some { s with upd := .commitReset }
  | .commitReset => some (reset s.flash s.eeprom)
  | .drain =>
    if s.updateSem.value = 0 then some { s with upd := .take }
    else some { s with updateSem := { s.updateSem with value := s.updateSem.value - 1 } }

/-! ### The device -/

/-- The receive thread can take a datagram: `UDPSend` does not hold the semaphore of the socket. -/
def canRecv (s : Device) : Bool :=
  s.commu && match s.proc with
    | .ackWait _ => false
    | _ => true

def step (a : Act) (s : Device) : Option Device :=
  match a, s.mode with
  | .powerLoss, _ => some (reset s.flash s.eeprom)
  | .boot pins, .boot pc => some (s.bootStep pins pc)
  | .user eeprom, .userApp => some (reset s.flash eeprom)
  | .recv d addr, .threads => if s.canRecv then some (s.deliver d addr) else none
  | .recvFail, .threads => some { s with commu := false }
  | .proc, .threads => s.procStep
  | .upd hw, .threads => if s.yields then s.updStep hw else none
  | .elapse n, .threads => some { s with tick := s.tick + n }
  | _, _ => none

/-- The boot program, from a reset with any contents of the flash and the EEPROM. -/
def system : Lts Device Act where
  init s := s = reset s.flash s.eeprom
  step := step

end Device

end Bootloader
