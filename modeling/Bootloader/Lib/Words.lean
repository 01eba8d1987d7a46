import Bootloader.Lib.Memory

/-!
# Little-endian words in a byte memory

`m.word a n` is the number in the `n` bytes from address `a` on, `m.setWord a n v` stores one. Arithmetic of
32-bit numbers is on `Nat` with the wrap written out; `add32` and `sub32` are the plain operations where nothing
wraps.
-/

/-- The `n` low bytes of `v`, the lowest first. -/
def leBytes : Nat → Nat → List UInt8
  | 0, _ => []
  | n + 1, v => UInt8.ofNat v :: leBytes n (v / 256)

@[simp] theorem length_leBytes (n v : Nat) : (leBytes n v).length = n := by
  induction n generalizing v with
  | zero => rfl
  | succ n ih => rw [leBytes, List.length_cons, ih]

theorem le_leBytes (n v : Nat) : Mem.le (leBytes n v) = v % 256 ^ n := by
  induction n generalizing v with
  | zero => rw [leBytes, Mem.le, pow_zero, Nat.mod_one]
  | succ n ih =>
    rw [leBytes, Mem.le, ih, UInt8.toNat_ofNat']
    exact (Nat.mod_mul (a := 256) (b := 256 ^ n)).symm.trans (by rw [Nat.pow_succ'])

theorem Mem.le_append (l l' : List UInt8) : Mem.le (l ++ l') = Mem.le l + 256 ^ l.length * Mem.le l' := by
  induction l with
  | nil => simp [Mem.le]
  | cons b l ih =>
    rw [List.cons_append, Mem.le, Mem.le, ih, List.length_cons, Nat.pow_succ']
    ring

theorem leBytes_mod (n v : Nat) : leBytes n (v % 256 ^ n) = leBytes n v := by
  induction n generalizing v with
  | zero => rfl
  | succ n ih =>
    have hb : UInt8.ofNat (v % 256 ^ (n + 1)) = UInt8.ofNat v := by
      refine UInt8.toNat_inj.1 ?_
      rw [UInt8.toNat_ofNat', UInt8.toNat_ofNat', Nat.mod_mod_of_dvd v
        (Dvd.intro_left (256 ^ n) rfl : 2 ^ 8 ∣ 256 ^ (n + 1))]
    have hd : v % 256 ^ (n + 1) / 256 = v / 256 % 256 ^ n := by
      rw [Nat.pow_succ', Nat.mod_mul_right_div_self]
    rw [leBytes, leBytes, hb, hd, ih]

theorem Mem.le_lt (l : List UInt8) : Mem.le l < 256 ^ l.length := by
  induction l with
  | nil => exact Nat.one_pos
  | cons b l ih =>
    have hb := b.toNat_lt
    rw [Mem.le, List.length_cons, Nat.pow_succ']
    omega

def add32 (a b : Nat) : Nat := (a + b) % 2 ^ 32

def sub32 (a b : Nat) : Nat := (a + (2 ^ 32 - b)) % 2 ^ 32

theorem add32_eq {a b : Nat} (h : a + b < 2 ^ 32) : add32 a b = a + b := Nat.mod_eq_of_lt h

theorem sub32_eq {a b : Nat} (h : b ≤ a) (ha : a < 2 ^ 32) : sub32 a b = a - b := by
  have hs : a + (2 ^ 32 - b) = a - b + 2 ^ 32 := by omega
  rw [sub32, hs, Nat.add_mod_right, Nat.mod_eq_of_lt (by omega)]

/-- `old` with its `n` low bytes replaced by those of `v`. -/
def setLow (n old v : Nat) : Nat := old / 256 ^ n * 256 ^ n + v % 256 ^ n

theorem setLow_mod {n k old v : Nat} (hk : k ≤ n) : setLow n old v % 256 ^ k = v % 256 ^ k := by
  have hd : 256 ^ k ∣ 256 ^ n := Nat.pow_dvd_pow 256 hk
  rw [setLow, Nat.add_mod, Nat.mod_eq_zero_of_dvd (Dvd.dvd.mul_left hd _), Nat.zero_add, Nat.mod_mod,
    Nat.mod_mod_of_dvd _ hd]

namespace Mem
variable {m m' : Mem} {a b n k v : Nat}

def word (m : Mem) (a n : Nat) : Nat := le (m.read a n)

def setWord (m : Mem) (a n v : Nat) : Mem := m.write a (leBytes n v)

theorem word_lt : m.word a n < 256 ^ n := by
  have h := le_lt (m.read a n)
  rwa [length_read] at h

theorem word_mod_of_le (hk : k ≤ n) : m.word a n % 256 ^ k = m.word a k := by
  obtain ⟨j, rfl⟩ := Nat.exists_eq_add_of_le hk
  have hr : m.read a (k + j) = m.read a k ++ m.read (a + k) j := read_add m a k j
  have hl : (m.read a k).length = k := length_read
  rw [word, hr, le_append, hl, Nat.add_mul_mod_self_left]
  exact Nat.mod_eq_of_lt word_lt

theorem word_setWord (hv : v < 256 ^ n) : (m.setWord a n v).word a n = v := by
  have h : (m.setWord a n v).read a n = leBytes n v := by
    have := read_write (m := m) (a := a) (l := leBytes n v)
    rwa [length_leBytes] at this
  rw [word, h, le_leBytes, Nat.mod_eq_of_lt hv]

theorem setWord_mod : m.setWord a n (v % 256 ^ n) = m.setWord a n v := by rw [setWord, setWord, leBytes_mod]

theorem setWord_of_lt {x : Nat} (hx : x < a) : m.setWord a n v x = m x := write_of_lt hx

theorem setWord_of_ge {x : Nat} (hx : a + n ≤ x) : m.setWord a n v x = m x :=
  write_of_ge (by rwa [length_leBytes])

theorem word_congr (h : ∀ x, a ≤ x → x < a + n → m x = m' x) : m.word a n = m'.word a n := by
  rw [word, word, read_congr h]

theorem word_setWord_of_disjoint (h : b + k ≤ a ∨ a + n ≤ b) : (m.setWord a n v).word b k = m.word b k :=
  word_congr fun x h₁ h₂ => by
    rcases h with h | h
    · exact setWord_of_lt (by omega)
    · exact setWord_of_ge (by omega)

end Mem
