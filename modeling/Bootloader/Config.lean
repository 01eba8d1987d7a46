import Bootloader.Lib.Memory

/-!
# The configuration

`NetLocalAddr`, the packed structure of `networkcfg.h` that is kept in the EEPROM, as 53 bytes at
their offsets, with `NET_CfgInit`, `BootKeyCheck` and `ReadBootKey`. The EEPROM answers every access.
-/

namespace Bootloader

/-- `sizeof(NetLocalAddr)`. -/
def netLocalAddrSize : Nat := 53

/-- The start of the block "IP" in the EEPROM, the first one of the block table. -/
def netEepromAddr : Nat := 0

/-! ### The fields of `sNetLocalAddr` -/

def bootFlagOffset : Nat := 0
def ipOffset : Nat := 1
def macOffset : Nat := 13
def bootVersionOffset : Nat := 19
def bootKeyOffset : Nat := 24
def userCodeTypeOffset : Nat := 29
def userCodeVersionOffset : Nat := 37

/-- `BootVersion` of `networkprocess.c`: "V1.2" and its NUL. -/
def bootVersion : List UInt8 := [0x56, 0x31, 0x2E, 0x32, 0]

/-- "PB8" and its NUL. -/
def defaultBootKey : List UInt8 := [0x50, 0x42, 0x38, 0]

/-- The string that starts at an offset; one without a NUL ends with the structure. -/
def cString (netLocalAddr : Mem) (offset : Nat) : List UInt8 :=
  (netLocalAddr.read offset (netLocalAddrSize - offset)).takeWhile (· ≠ 0)

/-- `atoi`: white space, a sign, decimal digits up to the first other character. -/
def atoi (l : List UInt8) : Int :=
  let digits (l : List UInt8) : Int :=
    (l.takeWhile fun c => 0x30 ≤ c ∧ c ≤ 0x39).foldl (fun n c => 10 * n + ((c.toNat : Int) - 0x30)) 0
  match l.dropWhile fun c => c = 0x20 ∨ (0x09 ≤ c ∧ c ≤ 0x0D) with
  | 0x2D :: l => -digits l
  | 0x2B :: l => digits l
  | l => digits l

/-! ### NET_CfgInit -/

/-- `EEPROM_Read` of the structure, and the last byte of the MAC address from that of the IP address. -/
def readNetLocalAddr (eeprom : Mem) : Mem :=
  let m : Mem := fun k => if k < netLocalAddrSize then eeprom (netEepromAddr + k) else 0
  fun k => if k = macOffset + 5 then m (ipOffset + 3) else m k

/-- The test of `BootKeyCheck`. -/
def bootKeyError (netLocalAddr : Mem) : Bool :=
  let iPin (k : Nat) := netLocalAddr (bootKeyOffset + k)
  decide (iPin 0 ≠ 0x50) || decide (iPin 1 < 0x41) || decide (0x49 < iPin 1) || decide (iPin 2 < 0x30) ||
    decide (0x39 < iPin 2) || decide (15 < atoi (cString netLocalAddr (bootKeyOffset + 2)))

/-- `snprintf` of the default key over `BootKey`. -/
def repairBootKey (netLocalAddr : Mem) : Mem := netLocalAddr.write bootKeyOffset defaultBootKey

/-- `strcmp(BootVersion,NetLocalAddr.BootVersion)!=0`. -/
def bootVersionDiffers (netLocalAddr : Mem) : Bool := netLocalAddr.read bootVersionOffset 5 != bootVersion

def repairBootVersion (netLocalAddr : Mem) : Mem := netLocalAddr.write bootVersionOffset bootVersion

/-- The byte `k` that `NET_LocalSave` writes to the EEPROM. -/
def saveByte (netLocalAddr : Mem) (k : Nat) (eeprom : Mem) : Mem :=
  eeprom.write (netEepromAddr + k) [netLocalAddr k]

/-! ### ReadBootKey -/

/-- `ReadBootKey`; `pins` is the level of a pin of a port. -/
def readBootKey (netLocalAddr : Mem) (pins : Nat → Nat → Bool) : Bool :=
  let iPin := cString netLocalAddr bootKeyOffset
  let pin := atoi (iPin.drop 2)
  if iPin.length ≠ 3 ∧ iPin.length ≠ 4 then false
  else
    match iPin with
    | p :: port :: _ =>
      if p ≠ 0x50 then false
      else if port < 0x41 ∨ 0x47 < port then false
      else if 15 < pin then false
      else pins (port.toNat - 0x41) pin.toNat
    | _ => false

/-- An EEPROM with a boot flag, the current version and the default key. -/
def eepromOf (bootFlag : UInt8) : Mem :=
  ((Mem.write (fun _ => 0) 0 [bootFlag]).write bootVersionOffset bootVersion).write bootKeyOffset defaultBootKey

section
variable {m : Mem} {k : Nat}

theorem readNetLocalAddr_bootFlag : readNetLocalAddr m bootFlagOffset = m bootFlagOffset := rfl

theorem repairBootKey_bootFlag : repairBootKey m bootFlagOffset = m bootFlagOffset :=
  Mem.write_of_lt (by decide)

theorem repairBootVersion_bootFlag : repairBootVersion m bootFlagOffset = m bootFlagOffset :=
  Mem.write_of_lt (by decide)

theorem saveByte_bootFlag {eeprom : Mem} (hk : k ≠ bootFlagOffset) :
    saveByte m k eeprom bootFlagOffset = eeprom bootFlagOffset :=
  Mem.write_of_lt (by unfold bootFlagOffset netEepromAddr at *; omega)

theorem saveByte_self {eeprom : Mem} : saveByte m bootFlagOffset eeprom bootFlagOffset = m bootFlagOffset := rfl

end

end Bootloader
