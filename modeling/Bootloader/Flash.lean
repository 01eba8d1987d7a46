import Bootloader.Lib.Memory

/-!
# The flash memory

The sector map of `networkupdate.c`, `GetSector`, `EraseFlash` and the two operations of the flash
controller that the boot loader uses. Whether an operation succeeds is the controller's choice
(`FlashStatus`); one that fails leaves anything in the cells it was working on.
-/

namespace Bootloader

/-- Arithmetic on `uint32_t`. -/
def u32 (x : Nat) : Nat := x % 2 ^ 32

def flashUserStartAddr : Nat := 0x08020000

/-- `ADDR_FLASH_SECTOR_0` to `ADDR_FLASH_SECTOR_11`; 12 is the end of the flash. -/
def addrFlashSector : Nat → Nat
  | 0 => 0x08000000
  | 1 => 0x08004000
  | 2 => 0x08008000
  | 3 => 0x0800C000
  | 4 => 0x08010000
  | 5 => 0x08020000
  | 6 => 0x08040000
  | 7 => 0x08060000
  | 8 => 0x08080000
  | 9 => 0x080A0000
  | 10 => 0x080C0000
  | 11 => 0x080E0000
  | _ => 0x08100000

def flashEndAddr : Nat := addrFlashSector 12

/-- `FLASH_Sector_0` to `FLASH_Sector_11`. -/
def flashSector (n : Nat) : Nat := 8 * n

def getSector (address : Nat) : Nat :=
  if address < addrFlashSector 1 ∧ addrFlashSector 0 ≤ address then flashSector 0
  else if address < addrFlashSector 2 ∧ addrFlashSector 1 ≤ address then flashSector 1
  else if address < addrFlashSector 3 ∧ addrFlashSector 2 ≤ address then flashSector 2
  else if address < addrFlashSector 4 ∧ addrFlashSector 3 ≤ address then flashSector 3
  else if address < addrFlashSector 5 ∧ addrFlashSector 4 ≤ address then flashSector 4
  else if address < addrFlashSector 6 ∧ addrFlashSector 5 ≤ address then flashSector 5
  else if address < addrFlashSector 7 ∧ addrFlashSector 6 ≤ address then flashSector 6
  else if address < addrFlashSector 8 ∧ addrFlashSector 7 ≤ address then flashSector 7
  else if address < addrFlashSector 9 ∧ addrFlashSector 8 ≤ address then flashSector 8
  else if address < addrFlashSector 10 ∧ addrFlashSector 9 ≤ address then flashSector 9
  else if address < addrFlashSector 11 ∧ addrFlashSector 10 ≤ address then flashSector 10
  else flashSector 11

def inSector (sector a : Nat) : Prop :=
  addrFlashSector (sector / 8) ≤ a ∧ a < addrFlashSector (sector / 8 + 1)

instance (sector a : Nat) : Decidable (inSector sector a) := inferInstanceAs (Decidable (_ ∧ _))

/-- `FLASH_COMPLETE`, or any other status together with what the operation left behind. -/
inductive FlashStatus
  | complete
  | failed (junk : Mem)

def flashEraseSector (flash : Mem) (sector : Nat) : FlashStatus → Mem
  | .complete => fun a => if inSector sector a then 0xFF else flash a
  | .failed junk => fun a => if inSector sector a then junk a else flash a

/-- `FLASH_ProgramWord`, with the word as the four bytes it has in memory. -/
def flashProgramWord (flash : Mem) (address : Nat) (data : List UInt8) : FlashStatus → Mem
  | .complete => flash.program address data
  | .failed junk => fun a => if address ≤ a ∧ a < address + 4 then junk a else flash a

/-! ### EraseFlash -/

/-- The values of `sector_counter` in the loop of `EraseFlash`. -/
def sectorsFrom (sectorStart sectorEnd : Nat) : List Nat :=
  (List.range ((sectorEnd + 8 - sectorStart) / 8)).map fun k => sectorStart + 8 * k

/-- The loop of `EraseFlash`: stops at the first sector that cannot be erased. -/
def eraseSectors (hw : Nat → FlashStatus) : List Nat → Mem → Mem × Bool
  | [], flash => (flash, true)
  | sector :: rest, flash =>
    match hw sector with
    | .complete => eraseSectors hw rest (flashEraseSector flash sector .complete)
    | .failed junk => (flashEraseSector flash sector (.failed junk), false)

/-- What `EraseFlash` leaves: the flash, `EraseFlashResult` and the value returned. -/
structure EraseOutcome where
  flash : Mem
  eraseFlashResult : Nat
  result : Nat

def eraseFlash (hw : Nat → FlashStatus) (iDataLen : Nat) (flash : Mem) : EraseOutcome :=
  let sectorStart := getSector flashUserStartAddr
  let sectorEnd := getSector (u32 (flashUserStartAddr + iDataLen))
  if flashSector 11 < sectorEnd then ⟨flash, 2, 0⟩
  else
    match eraseSectors hw (sectorsFrom sectorStart sectorEnd) flash with
    | (flash', true) => ⟨flash', 3, 1⟩
    | (flash', false) => ⟨flash', 2, 0⟩

/-- The end of the last sector that `EraseFlash` works on. -/
def erasedEnd (iDataLen : Nat) : Nat :=
  addrFlashSector (getSector (u32 (flashUserStartAddr + iDataLen)) / 8 + 1)

/-! ### Sectors of the user region -/

theorem addrFlashSector_user {k : Nat} (hk : k ≤ 7) :
    addrFlashSector (5 + k) = flashUserStartAddr + 0x20000 * k := by
  interval_cases k <;> rfl

theorem exists_flashSector_ite {c : Prop} [Decidable c] {k y : Nat}
    (hy : ∃ k', k' ≤ 11 ∧ y = flashSector k') (hk : k ≤ 11) :
    ∃ k', k' ≤ 11 ∧ (if c then flashSector k else y) = flashSector k' := by
  split
  · exact ⟨k, hk, rfl⟩
  · exact hy

theorem getSector_eq (a : Nat) : ∃ k, k ≤ 11 ∧ getSector a = flashSector k := by
  unfold getSector
  iterate 11 refine exists_flashSector_ite ?_ ?_
  · exact ⟨11, Nat.le_refl _, rfl⟩
  all_goals decide

theorem getSector_le (a : Nat) : getSector a ≤ flashSector 11 := by
  obtain ⟨k, hk, h⟩ := getSector_eq a
  rw [h]; exact Nat.mul_le_mul_left 8 hk

theorem inSector_user {a k : Nat} (hk : k ≤ 6) :
    inSector (flashSector (5 + k)) a ↔
      flashUserStartAddr + 0x20000 * k ≤ a ∧ a < flashUserStartAddr + 0x20000 * (k + 1) := by
  have h1 : flashSector (5 + k) / 8 = 5 + k := Nat.mul_div_cancel_left _ (by decide)
  rw [inSector, h1, Nat.add_assoc, addrFlashSector_user (by omega), addrFlashSector_user (by omega)]

/-! ### What EraseFlash erases -/

theorem eraseSectors_spec {hw : Nat → FlashStatus} :
    ∀ {l : List Nat} {flash flash' : Mem}, eraseSectors hw l flash = (flash', true) →
      ∀ a, ((∃ k ∈ l, inSector k a) → flash' a = 0xFF) ∧ ((∀ k ∈ l, ¬ inSector k a) → flash' a = flash a)
  | [], flash, flash', h, a => by
    cases h
    exact ⟨fun ⟨k, hk, _⟩ => absurd hk List.not_mem_nil, fun _ => rfl⟩
  | sector :: rest, flash, flash', h, a => by
    rw [eraseSectors] at h
    cases hs : hw sector with
    | failed junk => rw [hs] at h; cases h
    | complete =>
      rw [hs] at h
      obtain ⟨ih₁, ih₂⟩ := eraseSectors_spec h a
      constructor
      · rintro ⟨k, hk, hin⟩
        by_cases hrest : ∃ k ∈ rest, inSector k a
        · exact ih₁ hrest
        · rw [ih₂ fun k hk hin => hrest ⟨k, hk, hin⟩]
          rcases List.mem_cons.1 hk with rfl | hk
          · exact if_pos hin
          · exact absurd ⟨k, hk, hin⟩ hrest
      · intro hno
        rw [ih₂ fun k hk => hno k (List.mem_cons_of_mem _ hk)]
        exact if_neg (hno sector List.mem_cons_self)

/-- An address between the start of the user region and the end of a sector is in one of the sectors. -/
theorem exists_inSector {m a : Nat} (hm : m ≤ 11) (h₁ : flashUserStartAddr ≤ a) (h₂ : a < addrFlashSector (m + 1)) :
    ∃ i, 5 ≤ i ∧ i ≤ m ∧ inSector (flashSector i) a := by
  have h5 : 5 ≤ m := by
    by_contra hlt
    have : addrFlashSector (m + 1) ≤ flashUserStartAddr := by
      have : m ≤ 4 := by omega
      interval_cases m <;> decide
    omega
  obtain ⟨k, rfl⟩ := Nat.exists_eq_add_of_le h5
  rw [Nat.add_assoc, addrFlashSector_user (by omega)] at h₂
  obtain ⟨j, hj⟩ : ∃ j, j = (a - flashUserStartAddr) / 0x20000 := ⟨_, rfl⟩
  exact ⟨5 + j, Nat.le_add_right 5 j, by omega, (inSector_user (by omega)).2 (by omega)⟩

theorem eraseFlash_erased {hw : Nat → FlashStatus} {iDataLen : Nat} {flash : Mem} {a : Nat}
    (h : (eraseFlash hw iDataLen flash).result = 1) (h₁ : flashUserStartAddr ≤ a)
    (h₂ : a < erasedEnd iDataLen) :
    (eraseFlash hw iDataLen flash).flash a = 0xFF := by
  unfold eraseFlash at h ⊢
  dsimp only at h ⊢
  rw [if_neg (Nat.not_lt.2 (getSector_le _))] at h ⊢
  split at h
  · next flash' he =>
    refine (eraseSectors_spec he a).1 ?_
    obtain ⟨e, he11, hend⟩ := getSector_eq (u32 (flashUserStartAddr + iDataLen))
    rw [flashSector] at hend
    have hstart : getSector flashUserStartAddr = 40 := rfl
    rw [erasedEnd, hend, Nat.mul_div_cancel_left _ (by decide)] at h₂
    obtain ⟨i, h5, hie, hi⟩ := exists_inSector he11 h₁ h₂
    refine ⟨flashSector i, ?_, hi⟩
    rw [sectorsFrom, hend, hstart]
    exact List.mem_map.2 ⟨i - 5, List.mem_range.2 (by omega), by unfold flashSector; omega⟩
  · cases h

/-! ### The sum of CalChecksum -/

/-- `CodeLowerCheckSum` after `n` iterations of the loop of `CalChecksum`. -/
def lowerCheckSum (flash : Mem) : Nat → Nat
  | 0 => 0
  | n + 1 => u32 (lowerCheckSum flash n + (flash (u32 (flashUserStartAddr + n))).toNat)

/-- The first `n` bytes of the user program, at the addresses that `CalChecksum` reads. -/
def userBytes (flash : Mem) (n : Nat) : List UInt8 :=
  (List.range n).map fun k => flash (u32 (flashUserStartAddr + k))

theorem userBytes_eq {flash : Mem} {n : Nat} (hn : flashUserStartAddr + n ≤ 2 ^ 32) :
    userBytes flash n = flash.read flashUserStartAddr n :=
  List.map_congr_left fun k hk => by
    have := List.mem_range.1 hk
    rw [u32, Nat.mod_eq_of_lt (by omega)]

theorem userBytes_succ {flash : Mem} {n : Nat} :
    userBytes flash (n + 1) = userBytes flash n ++ [flash (u32 (flashUserStartAddr + n))] := by
  rw [userBytes, List.range_succ, List.map_append]; rfl

theorem lowerCheckSum_eq {flash : Mem} :
    ∀ {n : Nat}, lowerCheckSum flash n = Mem.byteSum (userBytes flash n) % 2 ^ 32
  | 0 => rfl
  | n + 1 => by
    rw [lowerCheckSum, lowerCheckSum_eq (n := n), userBytes_succ, Mem.byteSum_append,
      Mem.byteSum_singleton, u32, Nat.mod_add_mod]

end Bootloader
