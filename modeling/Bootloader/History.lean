import Bootloader.Device

/-!
# What a run of the device has done

Summaries of the history of a run since the last reset: the datagrams handed over, the runs of
`UDPPacketProcess`, the packets stored and consumed since the last `ERASE_FLASH`.
-/

namespace Bootloader.Device

/-! ### What a step does -/

/-- The step restarts the boot program. -/
def resets (s : Device) : Act → Bool
  | .powerLoss | .user _ => true
  | .proc => s.proc == .userReset
  | .upd _ => s.upd == .commitReset
  | _ => false

/-- The datagram for which the step releases the semaphores, with its sender. -/
def hands : Act → Option (List UInt8 × Nat)
  | .recv d addr => if 0 < d.length ∧ d.length < udpRecvBufLen then some (d, addr) else none
  | _ => none

def enters (s : Device) : Act → Bool
  | .proc => s.proc == .entry
  | _ => false

/-- The step clears the variables of the update for `ERASE_FLASH`. -/
def clears (s : Device) : Act → Bool
  | .proc => s.proc == .eraseClear
  | _ => false

def releases (s : Device) : Act → Bool
  | .proc => s.proc == .eraseRelease
  | _ => false

/-- The packet that the step stores in a slot: its number and its payload. -/
def stores (s : Device) : Act → Option (Nat × List UInt8)
  | .proc =>
    match s.proc with
    | .copy _ iSeq iDataLen copied => if copied.length < iDataLen then none else some (iSeq, copied)
    | _ => none
  | _ => none

def sends (s : Device) : Act → Option (List UInt8 × Nat)
  | .proc =>
    match s.proc with
    | .ackTake cmd sendbuf hdr => some (ackFrame cmd sendbuf hdr, s.sockAddr)
    | _ => none
  | _ => none

def handsBack (s : Device) : Act → Option Nat
  | .upd _ =>
    match s.upd with
    | .release _ _ b => some b
    | _ => none
  | _ => none

/-- A slot that the step hands back is in use: no `ERASE_FLASH` has cleared it since `Download` found
it. -/
def HandsBackUsed (s : Device) (a : Act) : Prop :=
  ∀ b ∈ s.handsBack a, (s.fileBuf b).state ≠ .init

instance (s : Device) (a : Act) : Decidable (s.HandsBackUsed a) :=
  inferInstanceAs (Decidable (∀ b ∈ s.handsBack a, (s.fileBuf b).state ≠ .init))

/-- The slot and the byte of its `Data` that the step zeroes. -/
def zeroes (s : Device) : Act → Option (Nat × Nat)
  | .upd _ =>
    match s.upd with
    | .zeroRest _ _ b _ k => if k < 1024 then some (b, k) else none
    | _ => none
  | _ => none

/-- A byte that the step zeroes lies behind the payload in the slot: no later packet has been stored there
that is longer than the one `Download` found. -/
def ZeroesBehind (s : Device) (a : Act) : Prop := ∀ x ∈ s.zeroes a, (s.fileBuf x.1).dataLen ≤ x.2

instance (s : Device) (a : Act) : Decidable (s.ZeroesBehind a) :=
  inferInstanceAs (Decidable (∀ x ∈ s.zeroes a, (s.fileBuf x.1).dataLen ≤ x.2))

/-- The step ends an iteration of `Download`: it sets `CodeDownloadLength`. -/
def loads (s : Device) : Act → Bool
  | .upd _ =>
    match s.upd with
    | .setLength .. => true
    | _ => false
  | _ => false

/-! ### What a run has done -/

/-- The datagrams handed over since the last reset, with their senders. -/
def handed : List (Device × Act) → List (List UInt8 × Nat) :=
  Lts.foldSince resets (fun l _ a => l ++ (hands a).toList) []

/-- The receive buffers on which `UDPPacketProcess` has been called since the last reset. -/
def entered : List (Device × Act) → List Mem :=
  Lts.foldSince resets (fun l s a => if s.enters a then l ++ [s.pRecvBuf] else l) []

/-- The packets stored since the last `ERASE_FLASH` or reset, the latest first. -/
def stored : List (Device × Act) → List (Nat × List UInt8) :=
  Lts.foldSince resets (fun l s a => if s.clears a then [] else (s.stores a).toList ++ l) []

/-- The number of slots handed back since the last `ERASE_FLASH` or reset. -/
def handedBack : List (Device × Act) → Nat :=
  Lts.foldSince resets (fun n s a => if s.clears a then 0 else n + (s.handsBack a).toList.length) 0

/-- The number of iterations of `Download` completed since the last `ERASE_FLASH` or reset. -/
def loaded : List (Device × Act) → Nat :=
  Lts.foldSince resets (fun n s a => if s.clears a then 0 else if s.loads a then n + 1 else n) 0

/-! ### Running the threads -/

theorem init_reset (flash eeprom : Mem) : system.init (reset flash eeprom) := rfl

/-- The boot of a device whose configuration needs no repair. -/
def bootActs : List Act := List.replicate 4 (.boot fun _ _ => false)

def procs (n : Nat) : List Act := List.replicate n .proc

/-- Steps of the update thread, in which the flash does what it is told. -/
def upds (n : Nat) : List Act := List.replicate n (.upd .complete)

end Bootloader.Device
