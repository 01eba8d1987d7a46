import Mathlib

/-!
# Byte memories

A memory is a total function from addresses to bytes; `write` is what `memcpy` and `memset` do,
`program` is what a NOR flash does (it can only clear bits). The two agree on erased cells.
-/

abbrev Mem := Nat → UInt8

namespace Mem
variable {m m' : Mem} {a n : Nat} {l l' : List UInt8}

def read (m : Mem) (a n : Nat) : List UInt8 := (List.range n).map fun k => m (a + k)

/-- Overwrites the bytes from address `a` on. -/
def write (m : Mem) (a : Nat) (l : List UInt8) : Mem := fun x =>
  if a ≤ x then l[x - a]?.getD (m x) else m x

/-- Programs the bytes from address `a` on: each cell keeps only the bits it shares with the byte
programmed. -/
def program (m : Mem) (a : Nat) (l : List UInt8) : Mem := fun x =>
  if a ≤ x then m x &&& l[x - a]?.getD 0xFF else m x

/-- The value of a little-endian byte string. -/
def le : List UInt8 → Nat
  | [] => 0
  | b :: l => b.toNat + 256 * le l

def byteSum (l : List UInt8) : Nat := (l.map UInt8.toNat).sum

/-! ### Reading -/

@[simp] theorem length_read : (m.read a n).length = n := by simp [read]

theorem getElem_read {k : Nat} (hk : k < (m.read a n).length) : (m.read a n)[k] = m (a + k) := by
  simp [read]

theorem getElem?_read {k : Nat} (hk : k < n) : (m.read a n)[k]? = some (m (a + k)) := by
  rw [List.getElem?_eq_getElem (by simpa using hk), getElem_read]

theorem read_add (m : Mem) (a n k : Nat) : m.read a (n + k) = m.read a n ++ m.read (a + n) k := by
  simp only [read, List.range_add, List.map_append, List.map_map]
  congr 1
  exact List.map_congr_left fun x _ => by simp [Nat.add_assoc]

theorem read_succ (m : Mem) (a n : Nat) : m.read a (n + 1) = m.read a n ++ [m (a + n)] :=
  read_add m a n 1

theorem read_succ_left (m : Mem) (a n : Nat) : m.read a (n + 1) = m a :: m.read (a + 1) n := by
  rw [Nat.add_comm n 1, read_add]; rfl

theorem read_congr (h : ∀ x, a ≤ x → x < a + n → m x = m' x) : m.read a n = m'.read a n :=
  List.map_congr_left fun k hk => by
    have := List.mem_range.1 hk
    exact h _ (by omega) (by omega)

theorem read_eq_iff : m.read a l.length = l ↔ ∀ k (hk : k < l.length), m (a + k) = l[k] := by
  constructor
  · intro h k hk
    have := getElem_read (m := m) (a := a) (n := l.length) (by simpa using hk)
    rw [← this]
    simp only [h]
  · intro h
    refine List.ext_getElem (by simp) fun k h₁ h₂ => ?_
    rw [getElem_read]; exact h k h₂

theorem take_read {k : Nat} (hk : k ≤ n) : (m.read a n).take k = m.read a k := by
  obtain ⟨d, rfl⟩ := Nat.exists_eq_add_of_le hk
  rw [read_add, List.take_left' (by simp)]

theorem drop_read {k : Nat} (hk : k ≤ n) : (m.read a n).drop k = m.read (a + k) (n - k) := by
  obtain ⟨d, rfl⟩ := Nat.exists_eq_add_of_le hk
  rw [read_add, List.drop_left' (by simp), Nat.add_sub_cancel_left]

/-! ### Writing -/

theorem write_of_mem {k : Nat} (hk : k < l.length) : m.write a l (a + k) = l[k] := by
  simp [write, hk]

theorem write_of_lt {x : Nat} (hx : x < a) : m.write a l x = m x := by
  rw [write, if_neg (by omega)]

theorem write_of_ge {x : Nat} (hx : a + l.length ≤ x) : m.write a l x = m x := by
  rw [write, if_pos (by omega), List.getElem?_eq_none (by omega)]; rfl

theorem write_self {v : UInt8} : m.write a [v] a = v := write_of_mem (k := 0) (l := [v]) Nat.one_pos

theorem write_of_ne {x : Nat} {v : UInt8} (hx : x ≠ a) : m.write a [v] x = m x := by
  obtain hlt | hgt := Nat.lt_or_gt_of_ne hx
  · exact write_of_lt hlt
  · exact write_of_ge hgt

@[simp] theorem read_write : (m.write a l).read a l.length = l :=
  read_eq_iff.2 fun _ hk => write_of_mem hk

theorem write_eq_self (h : m.read a l.length = l) : m.write a l = m := by
  funext x
  by_cases hx : x < a
  · exact write_of_lt hx
  · by_cases hl : a + l.length ≤ x
    · exact write_of_ge hl
    · obtain ⟨k, rfl⟩ := Nat.exists_eq_add_of_le (Nat.le_of_not_lt hx)
      rw [write_of_mem (by omega), read_eq_iff.1 h k (by omega)]

theorem write_append (m : Mem) (a : Nat) (l l' : List UInt8) :
    m.write a (l ++ l') = (m.write a l).write (a + l.length) l' := by
  funext x
  by_cases h : x < a + l.length
  · rw [write_of_lt h, write, write]
    by_cases hx : a ≤ x
    · rw [if_pos hx, if_pos hx, List.getElem?_append_left (by omega)]
    · rw [if_neg hx, if_neg hx]
  · rw [write, if_pos (by omega), List.getElem?_append_right (by omega), write, if_pos (by omega),
      write_of_ge (by omega), Nat.sub_sub]

theorem read_write_of_disjoint {b : Nat} (h : b + n ≤ a ∨ a + l.length ≤ b) :
    (m.write a l).read b n = m.read b n :=
  read_congr fun x h₁ h₂ => by
    rcases h with h | h
    · exact write_of_lt (by omega)
    · exact write_of_ge (by omega)

/-! ### Programming -/

theorem program_of_lt {x : Nat} (hx : x < a) : m.program a l x = m x := by
  rw [program, if_neg (by omega)]

theorem program_of_ge {x : Nat} (hx : a + l.length ≤ x) : m.program a l x = m x := by
  rw [program, if_pos (by omega), List.getElem?_eq_none (by omega), Option.getD_none]
  apply UInt8.toBitVec_inj.1
  simp only [UInt8.toBitVec_and]
  exact BitVec.and_allOnes

/-- On erased cells programming is writing. -/
theorem program_eq_write (h : ∀ x, a ≤ x → x < a + l.length → m x = 0xFF) :
    m.program a l = m.write a l := by
  funext x
  by_cases hx : a ≤ x
  · by_cases hl : x < a + l.length
    · rw [program, write, if_pos hx, if_pos hx, List.getElem?_eq_getElem (by omega), h x hx hl]
      simp only [Option.getD_some]
      apply UInt8.toBitVec_inj.1
      simp only [UInt8.toBitVec_and]
      exact BitVec.allOnes_and
    · rw [program_of_ge (by omega), write_of_ge (by omega)]
  · rw [program_of_lt (by omega), write_of_lt (by omega)]

@[simp] theorem program_nil : m.program a [] = m := by
  funext x
  by_cases hx : x < a
  · exact program_of_lt hx
  · exact program_of_ge (by simpa using Nat.le_of_not_lt hx)

theorem program_append (m : Mem) (a : Nat) (l l' : List UInt8) :
    m.program a (l ++ l') = (m.program a l).program (a + l.length) l' := by
  funext x
  by_cases h : x < a + l.length
  · rw [program_of_lt h, program, program]
    by_cases hx : a ≤ x
    · rw [if_pos hx, if_pos hx, List.getElem?_append_left (by omega)]
    · rw [if_neg hx, if_neg hx]
  · rw [program, if_pos (by omega), List.getElem?_append_right (by omega), program, if_pos (by omega),
      program_of_ge (by omega), Nat.sub_sub]

/-- Programming cannot set a bit: an empty cell stays empty. -/
theorem program_of_zero {x : Nat} (hx : m x = 0) : m.program a l x = 0 := by
  rw [program]
  split
  · rw [hx]; exact UInt8.zero_and
  · exact hx

/-! ### Numbers -/

@[simp] theorem byteSum_append (l l' : List UInt8) : byteSum (l ++ l') = byteSum l + byteSum l' := by
  simp [byteSum]

theorem byteSum_singleton (b : UInt8) : byteSum [b] = b.toNat := by simp [byteSum]

end Mem
