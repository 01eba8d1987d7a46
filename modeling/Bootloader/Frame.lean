import Bootloader.Lib.Memory

/-!
# Frames

`sUDPPacketFrame` of `networkprocess.h` as a layout of the receive buffer, the command codes, and the
frame that `UDPSendAck` builds.
-/

namespace Bootloader

/-- A byte string as a memory that starts with it. -/
def ofList (l : List UInt8) : Mem := Mem.write (fun _ => 0) 0 l

/-! ### The layout of a frame -/

def udpRecvBufLen : Nat := 1100

/-- `(MajorCmd<<8) + (MinorCmd)`. -/
def cmdCode (buf : Mem) : Nat := 256 * (buf 3).toNat + (buf 4).toNat

/-- `(PacketIndexH<<8)+PacketIndexL`. -/
def packetIndex (buf : Mem) : Nat := 256 * (buf 8).toNat + (buf 7).toNat

def contentOffset : Nat := 16

/-- The length of the payload of a `DOWNLOAD` packet. -/
def dataLen (buf : Mem) : Nat := Mem.le (buf.read contentOffset 2)

def payloadOffset : Nat := contentOffset + 2

/-- `CodeTotalLength` as carried by `ERASE_FLASH`. -/
def codeLength (buf : Mem) : Nat := Mem.le (buf.read contentOffset 4)

/-- `CodeUpperCheckSum` as carried by `ERASE_FLASH`. -/
def codeCheckSum (buf : Mem) : Nat := Mem.le (buf.read (contentOffset + 4) 4)

/-! ### Commands -/

/-- The commands of `networkprocess.h`. -/
inductive Cmd
  | broadcast
  | enterBoot
  | enterUser
  | eraseFlash
  | uqaryEraseFlashResult
  | download
  | quaryCheckSum
deriving DecidableEq, Repr

namespace Cmd

def code : Cmd → Nat
  | .broadcast => 0x0101
  | .enterBoot => 0x0102
  | .enterUser => 0x0103
  | .eraseFlash => 0x0104
  | .uqaryEraseFlashResult => 0x0105
  | .download => 0x0106
  | .quaryCheckSum => 0x0107

/-- The `switch` of `UDPPacketProcess`; `none` is its `default`. -/
def ofCode (cmd : Nat) : Option Cmd :=
  [broadcast, enterBoot, enterUser, eraseFlash, uqaryEraseFlashResult, download, quaryCheckSum].find?
    fun c => c.code == cmd

theorem ofCode_code {c : Cmd} {cmd : Nat} (h : ofCode cmd = some c) : c.code = cmd := by
  have := List.find?_some h
  simpa using this

end Cmd

/-! ### The reply -/

/-- The frame of `UDPSendAck`; `hdr` are the four bytes that it reads back from the receive buffer. -/
def ackFrame (cmd : Cmd) (sendbuf hdr : List UInt8) : List UInt8 :=
  let len := sendbuf.length + 19
  [0x3E, UInt8.ofNat (len % 256), UInt8.ofNat (len / 256), UInt8.ofNat (cmd.code / 256),
    UInt8.ofNat (cmd.code % 256)] ++ hdr ++ [1, 1, 0, 0, 0, 0, 0] ++ sendbuf ++ [0, 0, 0xE3]

/-- A frame as the host sends it. -/
def hostFrame (cmd : Cmd) (packetIndex : Nat) (content : List UInt8) : List UInt8 :=
  let len := content.length + 19
  [0x3E, UInt8.ofNat (len % 256), UInt8.ofNat (len / 256), UInt8.ofNat (cmd.code / 256),
    UInt8.ofNat (cmd.code % 256), 0, 0, UInt8.ofNat (packetIndex % 256), UInt8.ofNat (packetIndex / 256),
    1, 0, 1, 0, 0, 0, 0] ++ content ++ [0, 0, 0xE3]

def le32 (x : Nat) : List UInt8 :=
  [UInt8.ofNat (x % 256), UInt8.ofNat (x / 256 % 256), UInt8.ofNat (x / 65536 % 256),
    UInt8.ofNat (x / 16777216 % 256)]

/-- `ERASE_FLASH` for a program of a length and a checksum. -/
def eraseFrame (codeLength codeCheckSum : Nat) : List UInt8 :=
  hostFrame .eraseFlash 0 (le32 codeLength ++ le32 codeCheckSum)

def downloadFrame (packetIndex : Nat) (payload : List UInt8) : List UInt8 :=
  hostFrame .download packetIndex
    ([UInt8.ofNat (payload.length % 256), UInt8.ofNat (payload.length / 256)] ++ payload)

/-! ### Reading fields -/

section
variable {m m' : Mem} {d : List UInt8}

theorem ofList_eq {k : Nat} (hk : k < d.length) : ofList d k = d[k] := by
  have := Mem.write_of_mem (m := fun _ => 0) (a := 0) hk
  rwa [Nat.zero_add] at this

theorem eq_ofList (h : m.read 0 d.length = d) {k : Nat} (hk : k < d.length) : m k = ofList d k := by
  have := Mem.read_eq_iff.1 h k hk
  rw [Nat.zero_add] at this
  rw [this, ofList_eq hk]

theorem read_ofList (h : m.read 0 d.length = d) {a n : Nat} (hn : a + n ≤ d.length) :
    m.read a n = (ofList d).read a n :=
  Mem.read_congr fun _ _ hx => eq_ofList h (by omega)

theorem cmdCode_ofList (h : m.read 0 d.length = d) (hl : 5 ≤ d.length) : cmdCode m = cmdCode (ofList d) := by
  rw [cmdCode, cmdCode, eq_ofList h (by omega), eq_ofList h (by omega)]

theorem packetIndex_ofList (h : m.read 0 d.length = d) (hl : 9 ≤ d.length) :
    packetIndex m = packetIndex (ofList d) := by
  rw [packetIndex, packetIndex, eq_ofList h (by omega), eq_ofList h (by omega)]

theorem dataLen_ofList (h : m.read 0 d.length = d) (hl : payloadOffset ≤ d.length) :
    dataLen m = dataLen (ofList d) := by
  rw [dataLen, dataLen, read_ofList h hl]

theorem packetIndex_lt (m : Mem) : packetIndex m < 65536 := by
  have h₁ := (m 8).toNat_lt
  have h₂ := (m 7).toNat_lt
  unfold packetIndex; omega

theorem packetIndex_ackFrame {cmd : Cmd} {sendbuf : List UInt8} :
    packetIndex (ofList (ackFrame cmd sendbuf (m.read 5 4))) = packetIndex m := by
  have h7 : ofList (ackFrame cmd sendbuf (m.read 5 4)) 7 = m 7 := rfl
  have h8 : ofList (ackFrame cmd sendbuf (m.read 5 4)) 8 = m 8 := rfl
  rw [packetIndex, packetIndex, h7, h8]

end

end Bootloader
