import Bootloader.Lib.TwoWire

/-!
# The I2C master

The bit-banged master of `bsp_iic.c` on two pins of the MCU: every write to a pin and every change of the
direction of SDA adds the levels of the two lines to a trace. The delays are left out.
-/

namespace Bootloader
open TwoWire

inductive I2cmError
  | eok
  | ackError
  | wdevAckErr
  | reghAckErr
  | reglAckErr
  | wdataAckErr
  | rdevAckErr
deriving DecidableEq, Repr

/-- The part of `sI2CM_CfgInfo` that the transfers read; `ackFlag` is `I2CM_WAIT_ACK`. -/
structure I2cmCfg where
  devAddrBits : Nat
  regAddrBits : Nat
  ackFlag : Bool

/-- The two pins: the output registers, whether SDA is in output mode, and the trace. -/
structure Bus where
  scl : Bool
  odr : Bool
  out : Bool
  trace : List Level

namespace Bus
variable (cfg : I2cmCfg) (d : Slave)

/-- The level of SDA, also what `SDA_READ` gives: the pin drives it, or it is pulled up and the slave's. -/
def sda (b : Bus) : Bool :=
  if b.out then b.odr else if b.scl then d.high (decode b.trace).events else d.low b.trace

/-- Adds the levels to the trace. -/
def emit (b : Bus) : Bus := { b with trace := ⟨b.scl, b.sda d⟩ :: b.trace }

def scl1 (b : Bus) : Bus := emit d { b with scl := true }
def scl0 (b : Bus) : Bus := emit d { b with scl := false }
def sda1 (b : Bus) : Bus := emit d { b with odr := true }
def sda0 (b : Bus) : Bus := emit d { b with odr := false }
def sdaIn (b : Bus) : Bus := emit d { b with out := false }
def sdaOut (b : Bus) : Bus := emit d { b with out := true }

/-! ### Bytes -/

/-- `I2CM_Start`. -/
def start (b : Bus) : Bus := b |> sdaOut d |> sda1 d |> scl1 d |> sda0 d |> scl0 d

/-- `I2CM_Stop`. -/
def stop (b : Bus) : Bus := b |> sdaOut d |> scl0 d |> sda0 d |> scl1 d |> sda1 d

/-- The loop of `I2CM_SendByte`. -/
def sendBits : Nat → UInt8 → Bus → Bus
  | 0, _, b => b
  | n + 1, txd, b => sendBits n (txd <<< 1) ((if txd &&& 0x80 != 0 then sda1 d b else sda0 d b) |> scl1 d |> scl0 d)

/-- `I2CM_SendByte`. -/
def sendByte (txd : UInt8) (b : Bus) : Bus := sendBits d 8 txd (sdaOut d b)

/-- The loop of `I2CM_Wait_Ack` with the reads it has left: SDA stays high. -/
def ackMissing (b : Bus) : Nat → Bool
  | 0 => true
  | n + 1 => if b.sda d then ackMissing b n else false

/-- `I2CM_Wait_Ack`. -/
def waitAck (b : Bus) : I2cmError × Bus :=
  let b := b |> sdaIn d |> scl1 d
  if cfg.ackFlag && b.ackMissing d 21 then (.ackError, stop d b) else (.eok, scl0 d b)

/-- `I2CM_Ack`. -/
def ack (b : Bus) : Bus := b |> sdaOut d |> scl0 d |> sda0 d |> scl1 d |> scl0 d

/-- `I2CM_NAck`. -/
def nack (b : Bus) : Bus := b |> sdaOut d |> scl0 d |> sda1 d |> scl1 d |> scl0 d

/-- The loop of `I2CM_ReadByte`. -/
def readBits : Nat → UInt8 → Bus → UInt8 × Bus
  | 0, receive, b => (receive, b)
  | n + 1, receive, b =>
    let b := b |> scl0 d |> scl1 d
    readBits n (shiftIn receive (b.sda d)) b

/-- `I2CM_ReadByte`. -/
def readByte (acks : Bool) (b : Bus) : UInt8 × Bus :=
  let (receive, b) := readBits d 8 0 (sdaIn d b)
  let b := scl0 d b
  (receive, if acks then ack d b else nack d b)

/-! ### Transfers -/

def addressJudge (addr : UInt8) : UInt8 := if cfg.devAddrBits = 7 then (addr <<< 1) &&& 0xFE else addr &&& 0xFE

/-- Sends a byte and waits for its acknowledge; `err` is what the transfer returns without it. -/
def sendAck (err : I2cmError) (txd : UInt8) (b : Bus) : Except (I2cmError × Bus) Bus :=
  match waitAck cfg d (sendByte d txd b) with
  | (.ackError, b) => .error (err, b)
  | (_, b) => .ok b

/-- The bytes of the register address. -/
def sendRegAddr (iRegAddr : UInt16) (b : Bus) : Except (I2cmError × Bus) Bus :=
  if 0 < cfg.regAddrBits then do
    let b ← if 8 < cfg.regAddrBits then sendAck cfg d .reghAckErr ((iRegAddr &&& 0xFF00) >>> 8).toUInt8 b else pure b
    sendAck cfg d .reglAckErr (iRegAddr &&& 0x00FF).toUInt8 b
  else pure b

/-- The loop of `I2CM_Write`. -/
def sendData : List UInt8 → Bus → Except (I2cmError × Bus) Bus
  | [], b => pure b
  | v :: pWrite, b => do
    let b ← sendAck cfg d .wdataAckErr v b
    sendData pWrite b

def i2cmWrite (iDevAddr : UInt8) (iRegAddr : UInt16) (pWrite : List UInt8) (b : Bus) : I2cmError × Bus :=
  let transfer : Except (I2cmError × Bus) Bus := do
    let b ← sendAck cfg d .wdevAckErr (addressJudge cfg iDevAddr) (start d b)
    let b ← sendRegAddr cfg d iRegAddr b
    sendData cfg d pWrite b
  match transfer with
  | .ok b => (.eok, stop d b)
  | .error e => e

/-- The loop of `I2CM_Read`: `n` bytes with an acknowledge and the last one without. -/
def readData : Nat → Bus → List UInt8 × Bus
  | 0, b =>
    let (v, b) := readByte d false b
    ([v], b)
  | n + 1, b =>
    let (v, b) := readByte d true b
    let (iData, b) := readData n b
    (v :: iData, b)

/-- The first part of `I2CM_Read`, which sends the register address. -/
def sendHead (iDevAddr : UInt8) (iRegAddr : UInt16) (b : Bus) : Except (I2cmError × Bus) Bus :=
  if 0 < cfg.regAddrBits then do
    let b ← sendAck cfg d .wdevAckErr iDevAddr (start d b)
    sendRegAddr cfg d iRegAddr b
  else pure b

/-- `I2CM_Read`; without an error the bytes are those of `iData`. -/
def i2cmRead (iDevAddr : UInt8) (iRegAddr : UInt16) (iLen : Nat) (b : Bus) : I2cmError × List UInt8 × Bus :=
  let iDevAddr := addressJudge cfg iDevAddr
  let transfer : Except (I2cmError × Bus) Bus := do
    let b ← sendHead cfg d iDevAddr iRegAddr b
    sendAck cfg d .rdevAckErr (iDevAddr + 1) (start d b)
  match transfer with
  | .ok b =>
    let (iData, b) := readData d (iLen - 1) b
    (.eok, iData, stop d b)
  | .error (err, b) => (err, [], b)

end Bus

end Bootloader
