import Bootloader.ConfigBoot

/-!
# The boot key

`ReadBootKey` on the key that `NET_CfgInit` leaves. `BootKeyCheck` accepts the ports A to I and a key of any
length, `ReadBootKey` the ports A to G and three or four characters.
-/

namespace Bootloader
open Eeprom

/-- The port and the pin that `ReadBootKey` configures and samples, unless it rejects the key. -/
def readBootKeyPin (behind : List UInt8) (netLocalAddr : Mem) : Option (Nat × Int) :=
  let iPin := cStringIn behind netLocalAddr bootKeyOffset
  let pin := atoi (iPin.drop 2)
  if iPin.length ≠ 3 ∧ iPin.length ≠ 4 then none
  else
    match iPin with
    | p :: port :: _ =>
      if p ≠ 0x50 then none
      else if port < 0x41 ∨ 0x47 < port then none
      else if 15 < pin then none
      else some (port.toNat - 0x41, pin)
    | _ => none

/-- The number of ports, A to I. -/
def gpioPorts : Nat := 9

/-- `ReadBootKey` samples a pin from 0 to 15 of an existing port. -/
def SamplesKey (behind : List UInt8) (netLocalAddr : Mem) : Prop :=
  ∃ port pin, readBootKeyPin behind netLocalAddr = some (port, pin) ∧ port < gpioPorts ∧ 0 ≤ pin ∧ pin ≤ 15

/-- A key of one of the ports A to G with a NUL behind its third or fourth character. -/
def ReadableKey (block : Mem) : Prop :=
  block (bootKeyOffset + 1) ≤ 0x47 ∧ (block (bootKeyOffset + 3) = 0 ∨ block (bootKeyOffset + 4) = 0)

instance {block : Mem} : Decidable (ReadableKey block) := inferInstanceAs (Decidable (_ ∧ (_ ∨ _)))

variable {behind : List UInt8} {bus : I2cBus} {a : Nat} {e : Eeprom} {m block : Mem}

/-- The level that `ReadBootKey` returns. -/
theorem readBootKey_eq {pins : Nat → Nat → Bool} :
    readBootKey m pins = (readBootKeyPin [] m).elim false fun p => pins p.1 p.2.toNat := by
  have hstr : cStringIn [] m bootKeyOffset = cString m bootKeyOffset := by rw [cStringIn, List.append_nil, cString]
  rw [readBootKey, readBootKeyPin, hstr]
  generalize cString m bootKeyOffset = iPin
  rcases iPin with _ | ⟨p, _ | ⟨port, tail⟩⟩
  · rfl
  · rfl
  · dsimp only
    split_ifs <;> rfl

/-! ### Numbers -/

theorem foldl_digits_nonneg {l : List UInt8} {n : Int} (hl : ∀ c ∈ l, 0x30 ≤ c) (hn : 0 ≤ n) :
    0 ≤ l.foldl (fun n c => 10 * n + ((c.toNat : Int) - 0x30)) n := by
  induction l generalizing n with
  | nil => exact hn
  | cons c l ih =>
    have hc : 0x30 ≤ c.toNat := UInt8.le_iff_toNat_le.1 (hl c List.mem_cons_self)
    exact ih (fun c hc => hl c (List.mem_cons_of_mem _ hc)) (by dsimp only; omega)

theorem atoi_nonneg {c : UInt8} {l : List UInt8} (h1 : 0x30 ≤ c) : 0 ≤ atoi (c :: l) := by
  have hc : 0x30 ≤ c.toNat := UInt8.le_iff_toNat_le.1 h1
  have hspace : ¬ (c = 0x20 ∨ (0x09 ≤ c ∧ c ≤ 0x0D)) := by
    rintro (rfl | ⟨-, hle⟩)
    · exact absurd hc (by decide)
    · have : c.toNat ≤ 0x0D := UInt8.le_iff_toNat_le.1 hle
      omega
  have hdrop : (c :: l).dropWhile (fun c => decide (c = 0x20 ∨ (0x09 ≤ c ∧ c ≤ 0x0D))) = c :: l :=
    List.dropWhile_cons_of_neg (by rwa [decide_eq_true_eq])
  have hdigits : ∀ l : List UInt8, ∀ x ∈ l.takeWhile (fun c => decide (0x30 ≤ c ∧ c ≤ 0x39)), 0x30 ≤ x :=
    fun l x hx => (of_decide_eq_true (p := 0x30 ≤ x ∧ x ≤ 0x39)
      (List.mem_takeWhile_imp (p := fun c => decide (0x30 ≤ c ∧ c ≤ 0x39)) hx)).1
  rw [atoi, hdrop]
  split
  · next heq => cases heq; exact absurd hc (by decide)
  · next heq => cases heq; exact absurd hc (by decide)
  · exact foldl_digits_nonneg (hdigits _) (Int.le_refl 0)

/-! ### The key as a string -/

theorem cStringIn_cons {offset : Nat} (hlt : offset < netLocalAddrSize) (h0 : m offset ≠ 0) :
    cStringIn behind m offset = m offset :: cStringIn behind m (offset + 1) := by
  rw [cStringIn, show netLocalAddrSize - offset = netLocalAddrSize - (offset + 1) + 1 by omega, Mem.read_succ_left,
    List.cons_append, List.takeWhile_cons_of_pos (by rwa [decide_eq_true_eq])]; rfl

theorem cStringIn_nil {offset : Nat} (hlt : offset < netLocalAddrSize) (h0 : m offset = 0) :
    cStringIn behind m offset = [] := by
  rw [cStringIn, show netLocalAddrSize - offset = netLocalAddrSize - (offset + 1) + 1 by omega, Mem.read_succ_left,
    List.cons_append, List.takeWhile_cons_of_neg (by rw [decide_eq_true_eq, h0]; decide)]

theorem of_bootKeyErrorIn (h : bootKeyErrorIn behind m = false) :
    m bootKeyOffset = 0x50 ∧ (0x41 ≤ m (bootKeyOffset + 1) ∧ m (bootKeyOffset + 1) ≤ 0x49) ∧
      (0x30 ≤ m (bootKeyOffset + 2) ∧ m (bootKeyOffset + 2) ≤ 0x39) ∧
      atoi (cStringIn behind m (bootKeyOffset + 2)) ≤ 15 := by
  simp only [bootKeyErrorIn, Bool.or_eq_false_iff, decide_eq_false_iff_not, not_not, UInt8.not_lt, Int.not_lt] at h
  obtain ⟨⟨⟨⟨⟨h0, h1⟩, h2⟩, h3⟩, h4⟩, h5⟩ := h
  exact ⟨h0, ⟨h1, h2⟩, ⟨h3, h4⟩, h5⟩

/-- The string of a key that `BootKeyCheck` accepts. -/
theorem bootKey_string (h : bootKeyErrorIn behind m = false) : cStringIn behind m bootKeyOffset =
    m bootKeyOffset :: m (bootKeyOffset + 1) :: cStringIn behind m (bootKeyOffset + 2) ∧
    cStringIn behind m (bootKeyOffset + 2) = m (bootKeyOffset + 2) :: cStringIn behind m (bootKeyOffset + 3) := by
  obtain ⟨h0, ⟨h1, -⟩, ⟨h2, -⟩, -⟩ := of_bootKeyErrorIn h
  have hne : ∀ {c d : UInt8}, d ≤ c → d ≠ 0 → c ≠ 0 := fun hle hd hc => by
    rw [hc] at hle
    exact hd (UInt8.le_antisymm hle UInt8.zero_le)
  exact ⟨by rw [cStringIn_cons (by decide) (by rw [h0]; decide), cStringIn_cons (by decide) (hne h1 (by decide))],
    cStringIn_cons (by decide) (hne h2 (by decide))⟩

/-- Behind the digit at most one character is left. -/
theorem length_rest_le : (cStringIn behind m (bootKeyOffset + 3)).length ≤ 1 ↔
    m (bootKeyOffset + 3) = 0 ∨ m (bootKeyOffset + 4) = 0 := by
  by_cases h3 : m (bootKeyOffset + 3) = 0
  · rw [cStringIn_nil (by decide) h3]
    exact ⟨fun _ => .inl h3, fun _ => Nat.zero_le 1⟩
  · rw [cStringIn_cons (by decide) h3, List.length_cons]
    have hlast : bootKeyOffset + 3 + 1 = bootKeyOffset + 4 := rfl
    rw [hlast]
    by_cases h4 : m (bootKeyOffset + 4) = 0
    · rw [cStringIn_nil (by decide) h4]
      exact ⟨fun _ => .inr h4, fun _ => Nat.le_refl 1⟩
    · rw [cStringIn_cons (by decide) h4, List.length_cons]
      exact ⟨fun hle => by omega, fun hor => absurd hor (by rw [not_or]; exact ⟨h3, h4⟩)⟩

theorem readBootKeyPin_eq (h : bootKeyErrorIn behind m = false) : readBootKeyPin behind m =
    if ReadableKey m then some ((m (bootKeyOffset + 1)).toNat - 0x41, atoi (cStringIn behind m (bootKeyOffset + 2)))
    else none := by
  obtain ⟨h0, ⟨h1, -⟩, -, hpin⟩ := of_bootKeyErrorIn h
  obtain ⟨hstr, hdigit⟩ := bootKey_string h
  have hlen : (cStringIn behind m bootKeyOffset).length ≠ 3 ∧ (cStringIn behind m bootKeyOffset).length ≠ 4 ↔
      ¬ (m (bootKeyOffset + 3) = 0 ∨ m (bootKeyOffset + 4) = 0) := by
    have hrest := @length_rest_le behind m
    rw [← hrest, hstr, hdigit, List.length_cons, List.length_cons, List.length_cons]
    omega
  rw [readBootKeyPin]
  by_cases hl : m (bootKeyOffset + 3) = 0 ∨ m (bootKeyOffset + 4) = 0
  · rw [if_neg fun hc => hlen.1 hc hl, hstr]
    dsimp only
    rw [if_neg (not_not_intro h0)]
    by_cases hp : m (bootKeyOffset + 1) ≤ 0x47
    · have hr : ReadableKey m := ⟨hp, hl⟩
      rw [if_neg (by rw [not_or, UInt8.not_lt, UInt8.not_lt]; exact ⟨h1, hp⟩), if_pos hr]
      exact if_neg (Int.not_lt.2 hpin)
    · rw [if_pos (.inr (UInt8.not_le.1 hp)), if_neg fun hc => hp hc.1]
  · rw [if_pos (hlen.2 hl), if_neg fun hc => hl hc.2]

/-- A key that `BootKeyCheck` accepts is sampled if and only if `ReadBootKey` can read it. -/
theorem samplesKey_iff_readable (h : bootKeyErrorIn behind m = false) : SamplesKey behind m ↔ ReadableKey m := by
  obtain ⟨-, -, ⟨h2, -⟩, hpin⟩ := of_bootKeyErrorIn h
  obtain ⟨-, hdigit⟩ := bootKey_string h
  rw [SamplesKey, readBootKeyPin_eq h]
  constructor
  · rintro ⟨port, pin, hsome, -⟩
    by_contra hno
    rw [if_neg hno] at hsome
    cases hsome
  · intro hr
    rw [if_pos hr]
    refine ⟨_, _, rfl, ?_, ?_, hpin⟩
    · have : (m (bootKeyOffset + 1)).toNat ≤ 0x47 := UInt8.le_iff_toNat_le.1 hr.1
      unfold gpioPorts
      omega
    · rw [hdigit]
      exact atoi_nonneg h2

theorem readableKey_repairBootKey : ReadableKey (repairBootKey m) := by
  have hkey := (Mem.read_eq_iff (l := defaultBootKey)).1 (repairBootKey_read (m := m))
  have h1 : repairBootKey m (bootKeyOffset + 1) = 0x42 := hkey 1 (by decide)
  have h3 : repairBootKey m (bootKeyOffset + 3) = 0 := hkey 3 (by decide)
  exact ⟨by rw [h1]; decide, .inl h3⟩

theorem readableKey_congr {m' : Mem} (h : ∀ k, bootKeyOffset ≤ k → k < userCodeTypeOffset → m k = m' k) :
    ReadableKey m ↔ ReadableKey m' := by
  rw [ReadableKey, ReadableKey, h (bootKeyOffset + 1) (by decide) (by decide),
    h (bootKeyOffset + 3) (by decide) (by decide), h (bootKeyOffset + 4) (by decide) (by decide)]

/-- `ReadBootKey` samples the key behind `NET_CfgInit` if and only if the stored one is bad for `BootKeyCheck`,
and so replaced, or is one that `ReadBootKey` can read. -/
theorem samplesKey_iff (h : ∀ k < netLocalAddrSize, Answers bus (e.accesses + k)) :
    SamplesKey behind (netCfgInitIn behind bus a e).1 ↔
      bootKeyErrorIn behind (blockAt e a) = true ∨ ReadableKey (blockAt e a) := by
  have herr : bootKeyErrorIn behind (configOf (blockAt e a)) = bootKeyErrorIn behind (blockAt e a) :=
    bootKeyErrorIn_congr fun k h1 h2 => configOf_of_ne h2 (Nat.ne_of_gt (Nat.lt_of_lt_of_le (by decide) h1))
  have hkey : ReadableKey (repaired behind (configOf (blockAt e a))) ↔
      ReadableKey (withBootKey behind (configOf (blockAt e a))) :=
    readableKey_congr fun k hk _ => repaired_of_kept (.inr hk)
  rw [netCfgInitIn_config h, samplesKey_iff_readable bootKeyErrorIn_repaired, hkey, withBootKey, herr]
  cases bootKeyErrorIn behind (blockAt e a) with
  | true => exact ⟨fun _ => .inl rfl, fun _ => readableKey_repairBootKey⟩
  | false =>
    rw [if_neg Bool.false_ne_true, or_iff_right Bool.false_ne_true]
    exact readableKey_congr fun k h1 h2 => configOf_of_ne (Nat.lt_trans h2 (by decide))
      (Nat.ne_of_gt (Nat.lt_of_lt_of_le (by decide) h1))

/-- An EEPROM with a key. -/
def eepromWithKey (key : List UInt8) : Eeprom := ⟨(eepromOf 1).write bootKeyOffset key, 0⟩

/-- The key "PG15". -/
theorem samplesKey_iff_pg15 : SamplesKey [] (netCfgInitIn [] (fun _ _ => .eok) 0
    (eepromWithKey [0x50, 0x47, 0x31, 0x35, 0])).1 :=
  (samplesKey_iff fun _ _ => ⟨0, by decide, rfl⟩).2 (.inr ⟨by decide, .inr (by decide)⟩)

/-- The key "PH0", which `BootKeyCheck` accepts: `ReadBootKey` knows no port H. -/
theorem not_samplesKey_ph0 : ¬ SamplesKey [] (netCfgInitIn [] (fun _ _ => .eok) 0
    (eepromWithKey [0x50, 0x48, 0x30, 0, 0])).1 := by
  rintro ⟨port, pin, hsome, -⟩
  exact absurd hsome (by rw [show readBootKeyPin [] _ = none from by decide +kernel]; rintro ⟨⟩)

end Bootloader
