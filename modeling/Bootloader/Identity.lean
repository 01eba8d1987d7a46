import Bootloader.BootKey
import Bootloader.Device

/-!
# The identity reply

The reply to `CMD_BROADCAST` on the structure that `NET_CfgInit` leaves: five strings, each behind its length.
`NET_CfgInit` ends the version with a NUL; the key, the type and the version of the user program only have one
if the EEPROM has.
-/

namespace Bootloader
open Eeprom

/-- `stringlen=strlen(..)` and the `memcpy`; `stringlen` has eight bits. -/
def identityElement (s : List UInt8) : List UInt8 := UInt8.ofNat s.length :: s.take (s.length % 256)

/-- The content of the reply to `CMD_BROADCAST`. -/
def identityReply (behind : List UInt8) (netLocalAddr : Mem) : List UInt8 :=
  identityElement Device.bootName ++ identityElement (bootVersion.takeWhile (· ≠ 0)) ++
    identityElement (cStringIn behind netLocalAddr userCodeTypeOffset) ++
    identityElement (cStringIn behind netLocalAddr userCodeVersionOffset) ++
    identityElement (cStringIn behind netLocalAddr bootKeyOffset)

/-- `rt_malloc(256)`. -/
def sendBufLen : Nat := 256

/-- Reads `n` strings, each behind its length, and nothing else. -/
def decodeElements : Nat → List UInt8 → Option (List (List UInt8))
  | 0, [] => some []
  | 0, _ :: _ => none
  | _ + 1, [] => none
  | n + 1, len :: l =>
    if len.toNat ≤ l.length then (decodeElements n (l.drop len.toNat)).map (l.take len.toNat :: ·) else none

/-! ### Fields -/

/-- A field with its offset and its size. -/
structure Field where
  offset : Nat
  size : Nat

def bootVersionField : Field := ⟨bootVersionOffset, 5⟩
def bootKeyField : Field := ⟨bootKeyOffset, 5⟩
def userCodeTypeField : Field := ⟨userCodeTypeOffset, 8⟩
def userCodeVersionField : Field := ⟨userCodeVersionOffset, 16⟩

/-- The field has a NUL. -/
def Field.Terminated (f : Field) (m : Mem) : Prop := ∃ k < f.size, m (f.offset + k) = 0

instance {f : Field} {m : Mem} : Decidable (f.Terminated m) := inferInstanceAs (Decidable (∃ k < f.size, _))

/-- The string in the field. -/
def Field.string (f : Field) (m : Mem) : List UInt8 := (m.read f.offset f.size).takeWhile (· ≠ 0)

/-- The strings end in their fields, and the reply fits in its buffer and carries them. -/
structure Identified (behind : List UInt8) (m : Mem) : Prop where
  bootVersion : bootVersionField.Terminated m
  bootKey : bootKeyField.Terminated m
  userCodeType : userCodeTypeField.Terminated m
  userCodeVersion : userCodeVersionField.Terminated m
  fits : (identityReply behind m).length ≤ sendBufLen
  decodes : decodeElements 5 (identityReply behind m) = some [Device.bootName, bootVersionField.string m,
    userCodeTypeField.string m, userCodeVersionField.string m, bootKeyField.string m]

variable {behind s : List UInt8} {bus : I2cBus} {a n : Nat} {e : Eeprom} {m m' : Mem} {f : Field} {l : List UInt8}
  {ls : List (List UInt8)}

/-! ### Strings -/

theorem Field.Terminated.congr (h : ∀ k < f.size, m (f.offset + k) = m' (f.offset + k)) :
    f.Terminated m ↔ f.Terminated m' :=
  exists_congr fun k => and_congr_right fun hk => by rw [h k hk]

theorem Field.length_string_le : (f.string m).length ≤ f.size :=
  Nat.le_trans (List.takeWhile_prefix _).length_le (Nat.le_of_eq Mem.length_read)

/-- A string that ends in its field. -/
theorem Field.Terminated.string_eq (h : f.Terminated m) (hf : f.offset + f.size ≤ netLocalAddrSize) :
    cStringIn behind m f.offset = f.string m := by
  obtain ⟨k, hk, h0⟩ := h
  have hne : ((m.read f.offset f.size).takeWhile (· ≠ 0)).length ≠ (m.read f.offset f.size).length := fun he => by
    have hall := List.takeWhile_eq_self_iff.1 ((List.takeWhile_prefix _).eq_of_length he)
    have hmem : m (f.offset + k) ∈ m.read f.offset f.size := List.mem_map.2 ⟨k, List.mem_range.2 hk, rfl⟩
    exact of_decide_eq_true (p := m (f.offset + k) ≠ 0) (hall _ hmem) h0
  rw [cStringIn, show netLocalAddrSize - f.offset = f.size + (netLocalAddrSize - f.offset - f.size) by omega,
    Mem.read_add, List.append_assoc, List.takeWhile_append, if_neg hne, Field.string]

/-! ### The reply -/

theorem identityElement_eq (h : s.length < 256) : identityElement s = Device.element s := by
  rw [identityElement, Nat.mod_eq_of_lt h, List.take_length, Device.element]

/-- Where strings end with the structure, this is the reply of the device. -/
theorem identityReply_nil : identityReply [] m = Device.broadcastElements m := by
  have hstr : ∀ offset, cStringIn [] m offset = cString m offset := fun offset => by
    rw [cStringIn, List.append_nil, cString]
  have hlen : ∀ offset, (cString m offset).length < 256 := fun offset => by
    have hsize : netLocalAddrSize < 256 := by decide
    refine Nat.lt_of_le_of_lt (Nat.le_trans (List.takeWhile_prefix _).length_le ?_) hsize
    rw [Mem.length_read]
    exact Nat.sub_le _ _
  rw [identityReply, hstr, hstr, hstr, identityElement_eq (hlen _), identityElement_eq (hlen _),
    identityElement_eq (hlen _), Device.broadcastElements]; rfl

theorem decodeElements_element (h : s.length < 256) (hd : decodeElements n l = some ls) :
    decodeElements (n + 1) (identityElement s ++ l) = some (s :: ls) := by
  have hlen : (UInt8.ofNat s.length).toNat = s.length := Nat.mod_eq_of_lt h
  rw [identityElement_eq h, Device.element, List.cons_append, decodeElements, hlen,
    if_pos (by rw [List.length_append]; omega), List.drop_left, List.take_left, hd]; rfl

theorem length_identityElement : (identityElement s).length ≤ s.length + 1 := by
  rw [identityElement, List.length_cons, List.length_take]
  omega

/-- Strings that end in their fields: the reply fits and carries them. -/
theorem identified_of_terminated (hv : bootVersionField.string m = bootVersion.takeWhile (· ≠ 0))
    (h0 : bootVersionField.Terminated m) (h1 : bootKeyField.Terminated m) (h2 : userCodeTypeField.Terminated m)
    (h3 : userCodeVersionField.Terminated m) : Identified behind m := by
  have hkey : cStringIn behind m bootKeyField.offset = bootKeyField.string m := h1.string_eq (by decide)
  have htype : cStringIn behind m userCodeTypeField.offset = userCodeTypeField.string m := h2.string_eq (by decide)
  have hver : cStringIn behind m userCodeVersionField.offset = userCodeVersionField.string m :=
    h3.string_eq (by decide)
  have hlen1 : (bootKeyField.string m).length ≤ 5 := Field.length_string_le
  have hlen2 : (userCodeTypeField.string m).length ≤ 8 := Field.length_string_le
  have hlen3 : (userCodeVersionField.string m).length ≤ 16 := Field.length_string_le
  have hreply : identityReply behind m = identityElement Device.bootName ++
      (identityElement (bootVersionField.string m) ++ (identityElement (userCodeTypeField.string m) ++
        (identityElement (userCodeVersionField.string m) ++ (identityElement (bootKeyField.string m) ++ [])))) := by
    rw [identityReply, hv, ← hkey, ← htype, ← hver, List.append_nil]
    simp only [List.append_assoc]; rfl
  have hlen0 : (bootVersionField.string m).length = 4 := by rw [hv]; rfl
  refine ⟨h0, h1, h2, h3, ?_, ?_⟩
  · have hl0 := length_identityElement (s := bootVersionField.string m)
    have hl1 := length_identityElement (s := bootKeyField.string m)
    have hl2 := length_identityElement (s := userCodeTypeField.string m)
    have hl3 := length_identityElement (s := userCodeVersionField.string m)
    have hl4 : (identityElement Device.bootName).length = 5 := rfl
    rw [hreply]
    simp only [List.length_append, List.length_nil, hl4]
    unfold sendBufLen
    omega
  · rw [hreply]
    refine decodeElements_element (by decide) (decodeElements_element (by omega) (decodeElements_element (by omega)
      (decodeElements_element (by omega) (decodeElements_element (by omega) rfl))))

/-! ### Behind NET_CfgInit -/

theorem bootVersion_of_not_differs (h : bootVersionDiffers m = false) : m.read bootVersionOffset 5 = bootVersion := by
  simpa [bootVersionDiffers] using h

/-- The key of the structure has a NUL if it has been replaced or had one. -/
theorem bootKey_terminated_iff : bootKeyField.Terminated (repaired behind m) ↔
    bootKeyErrorIn behind m = true ∨ bootKeyField.Terminated m := by
  have hcongr : bootKeyField.Terminated (repaired behind m) ↔ bootKeyField.Terminated (withBootKey behind m) :=
    Field.Terminated.congr fun k _ => repaired_of_kept (.inr (Nat.le_add_right _ _))
  rw [hcongr, withBootKey]
  cases bootKeyErrorIn behind m with
  | true =>
    refine ⟨fun _ => .inl rfl, fun _ => ⟨3, by decide, ?_⟩⟩
    exact (Mem.read_eq_iff (l := defaultBootKey)).1 repairBootKey_read 3 (by decide)
  | false => rw [if_neg Bool.false_ne_true, or_iff_right Bool.false_ne_true]

/-- The identity is well formed behind `NET_CfgInit` if and only if the key stored is replaced or has a NUL in its
field, and the type and the version of the user program have one. -/
theorem identified_iff (h : ∀ k < netLocalAddrSize, Answers bus (e.accesses + k)) :
    Identified behind (netCfgInitIn behind bus a e).1 ↔
      (bootKeyErrorIn behind (blockAt e a) = true ∨ bootKeyField.Terminated (blockAt e a)) ∧
        userCodeTypeField.Terminated (blockAt e a) ∧ userCodeVersionField.Terminated (blockAt e a) := by
  have hread : ∀ {f : Field}, bootKeyOffset ≤ f.offset → f.offset + f.size ≤ netLocalAddrSize →
      (f.Terminated (configOf (blockAt e a)) ↔ f.Terminated (blockAt e a)) := fun {f} h1 h2 =>
    Field.Terminated.congr fun k hk => configOf_of_ne (by omega)
      (Nat.ne_of_gt (Nat.lt_of_lt_of_le (by decide) (Nat.le_trans h1 (Nat.le_add_right _ _))))
  have hkept : ∀ {f : Field}, userCodeTypeOffset ≤ f.offset →
      (f.Terminated (repaired behind (configOf (blockAt e a))) ↔ f.Terminated (configOf (blockAt e a))) :=
    fun {f} h1 => Field.Terminated.congr fun k _ => repaired_of_other (.inr (Nat.le_trans h1 (Nat.le_add_right _ _)))
  have herr : bootKeyErrorIn behind (configOf (blockAt e a)) = bootKeyErrorIn behind (blockAt e a) :=
    bootKeyErrorIn_congr fun k h1 h2 => configOf_of_ne h2 (Nat.ne_of_gt (Nat.lt_of_lt_of_le (by decide) h1))
  have htype : userCodeTypeField.Terminated (repaired behind (configOf (blockAt e a))) ↔
      userCodeTypeField.Terminated (blockAt e a) := (hkept (by decide)).trans (hread (by decide) (by decide))
  have hver : userCodeVersionField.Terminated (repaired behind (configOf (blockAt e a))) ↔
      userCodeVersionField.Terminated (blockAt e a) := (hkept (by decide)).trans (hread (by decide) (by decide))
  rw [netCfgInitIn_config h, ← htype, ← hver, ← hread (f := bootKeyField) (by decide) (by decide), ← herr,
    ← bootKey_terminated_iff]
  constructor
  · exact fun hi => ⟨hi.bootKey, hi.userCodeType, hi.userCodeVersion⟩
  · rintro ⟨h1, h2, h3⟩
    have hsame : bootVersionDiffers (repaired behind (configOf (blockAt e a))) = false := bootVersionDiffers_repaired
    have hv := bootVersion_of_not_differs hsame
    refine identified_of_terminated ?_ ⟨4, by decide, ?_⟩ h1 h2 h3
    · show (Mem.read _ bootVersionOffset 5).takeWhile _ = _
      rw [hv]
    · exact (Mem.read_eq_iff (l := bootVersion)).1 hv 4 (by decide)

/-- An EEPROM with the default key and a type of the user program. -/
def eepromWithType (userCodeType : List UInt8) : Eeprom := ⟨(eepromOf 1).write userCodeTypeOffset userCodeType, 0⟩

/-- The type "tester". -/
theorem identified_iff_tester : Identified [] (netCfgInitIn [] (fun _ _ => .eok) 0
    (eepromWithType [0x74, 0x65, 0x73, 0x74, 0x65, 0x72])).1 :=
  (identified_iff fun _ _ => ⟨0, by decide, rfl⟩).2 ⟨.inr (by decide +kernel), by decide +kernel, by decide +kernel⟩

/-- Eight erased cells in the place of the type: it has no NUL. -/
theorem not_identified_of_erased : ¬ Identified [] (netCfgInitIn [] (fun _ _ => .eok) 0
    (eepromWithType (List.replicate 8 0xFF))).1 := fun h =>
  absurd h.userCodeType (by decide +kernel)

end Bootloader
