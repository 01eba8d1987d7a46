import Bootloader.RingInv

/-!
# Images

The payloads of a session as one string of bytes: `imageOf st n` is the concatenation of the payloads
first stored under the numbers below `n`, and `pad4` what `Download` programs for it.
-/

namespace Bootloader

/-- The payload first stored under a packet number. -/
def payloadOf (st : List (Nat × List UInt8)) (k : Nat) : List UInt8 := (st.reverse.lookup k).getD []

def imageOf (st : List (Nat × List UInt8)) (n : Nat) : List UInt8 := (List.range n).flatMap (payloadOf st)

/-- The sum of the lengths of the payloads below `n`. -/
def offsetOf (st : List (Nat × List UInt8)) (n : Nat) : Nat :=
  ((List.range n).map fun k => (payloadOf st k).length).sum

/-- Zero bytes up to the next multiple of four. -/
def pad4 (l : List UInt8) : List UInt8 := l ++ List.replicate ((4 - l.length % 4) % 4) 0

/-- Word `j` of what `Download` programs for a payload. -/
def wordOf (l : List UInt8) (j : Nat) : List UInt8 := ((pad4 l).drop (4 * j)).take 4

section
variable {st : List (Nat × List UInt8)} {k n : Nat} {l : List UInt8} {p : Nat × List UInt8}

theorem lookup_append_of_mem {l₁ l₂ : List (Nat × List UInt8)} (hk : k ∈ seqs l₁) :
    (l₁ ++ l₂).lookup k = l₁.lookup k := by
  induction l₁ with
  | nil => exact absurd hk List.not_mem_nil
  | cons q l₁ ih =>
    obtain ⟨t, l⟩ := q
    rw [List.cons_append, List.lookup_cons, List.lookup_cons]
    by_cases hq : k = t
    · rw [beq_iff_eq.2 hq]
    · rw [beq_eq_false_iff_ne.2 hq]
      exact ih ((List.mem_cons.1 hk).resolve_left hq)

theorem payloadOf_cons (hk : k ∈ seqs st) : payloadOf (p :: st) k = payloadOf st k := by
  rw [payloadOf, List.reverse_cons, lookup_append_of_mem (by simpa [seqs] using hk), payloadOf]

theorem lookup_of_mem (hnd : (seqs st).Nodup) (hm : (k, l) ∈ st) : st.lookup k = some l := by
  induction st with
  | nil => exact absurd hm List.not_mem_nil
  | cons q st ih =>
    obtain ⟨t, l'⟩ := q
    obtain ⟨ht, hnd⟩ := List.nodup_cons.1 hnd
    rw [List.lookup_cons]
    rcases List.mem_cons.1 hm with hm | hm
    · cases hm; rw [beq_self_eq_true]
    · have hne : k ≠ t := fun he => ht (he ▸ mem_seqs.2 ⟨l, hm⟩)
      rw [beq_eq_false_iff_ne.2 hne]
      exact ih hnd hm

theorem payloadOf_of_mem (hnd : (seqs st).Nodup) (hm : (k, l) ∈ st) : payloadOf st k = l := by
  have hnd : (seqs st.reverse).Nodup := by
    rw [seqs, List.map_reverse]; exact List.nodup_reverse.2 hnd
  rw [payloadOf, lookup_of_mem hnd (List.mem_reverse.2 hm), Option.getD_some]

theorem imageOf_succ : imageOf st (n + 1) = imageOf st n ++ payloadOf st n := by
  simp [imageOf, List.range_succ]

theorem imageOf_cons (hn : ∀ k, k < n → k ∈ seqs st) : imageOf (p :: st) n = imageOf st n :=
  List.flatMap_congr fun k hk => payloadOf_cons (hn k (List.mem_range.1 hk))

theorem offsetOf_succ : offsetOf st (n + 1) = offsetOf st n + (payloadOf st n).length := by
  simp [offsetOf, List.range_succ]

theorem offsetOf_cons (hn : ∀ k, k < n → k ∈ seqs st) : offsetOf (p :: st) n = offsetOf st n := by
  rw [offsetOf, List.map_congr_left fun k hk => by rw [payloadOf_cons (hn k (List.mem_range.1 hk))], offsetOf]

theorem length_imageOf : (imageOf st n).length = offsetOf st n := by
  rw [imageOf, List.length_flatMap, offsetOf]

theorem length_imageOf_mod (h : ∀ k, k < n → (payloadOf st k).length % 4 = 0) :
    (imageOf st n).length % 4 = 0 := by
  induction n with
  | zero => rfl
  | succ n ih =>
    have := h n (Nat.lt_succ_self n)
    have := ih fun k hk => h k (Nat.lt_succ_of_lt hk)
    rw [imageOf_succ, List.length_append]; omega

theorem pad4_of_dvd (h : l.length % 4 = 0) : pad4 l = l := by
  simp [pad4, h]

theorem pad4_append {l' : List UInt8} (h : l.length % 4 = 0) : pad4 (l ++ l') = l ++ pad4 l' := by
  have : (l ++ l').length % 4 = l'.length % 4 := by rw [List.length_append]; omega
  rw [pad4, pad4, this, List.append_assoc]

theorem imageOf_split (hk : k < n) :
    ∃ rest, imageOf st n = imageOf st k ++ payloadOf st k ++ rest := by
  obtain ⟨d, rfl⟩ := Nat.exists_eq_add_of_lt hk
  induction d with
  | zero => exact ⟨[], by rw [imageOf_succ]; simp⟩
  | succ d ih =>
    obtain ⟨rest, hrest⟩ := ih (by omega)
    exact ⟨rest ++ payloadOf st (k + d + 1), by
      rw [show k + (d + 1) + 1 = (k + d + 1) + 1 from by omega, imageOf_succ, hrest, List.append_assoc]⟩

/-- What `Download` programs for a slot: its payload, zeroes up to the next word. -/
theorem padZero_read {b : FileBuf} (h : b.dataLen ≤ 1024) :
    b.padZero.data.read 0 (4 * b.wordDataNum) = pad4 b.payload := by
  have hlen : b.payload.length = b.dataLen := Mem.length_read
  unfold FileBuf.wordDataNum
  by_cases h4 : b.dataLen % 4 = 0
  · rw [if_neg (by simpa using h4), pad4_of_dvd (by rw [hlen]; exact h4), FileBuf.padZero,
      if_neg (by simpa using h4), show 4 * (b.dataLen / 4) = b.dataLen from by omega]
    rfl
  · rw [if_pos h4, pad4, hlen,
      show 4 * (b.dataLen / 4 + 1) = b.dataLen + (4 - b.dataLen % 4) % 4 from by omega, Mem.read_add]
    have hp : b.padZero.data.read 0 b.dataLen = b.payload := by
      have := FileBuf.padZero_payload (b := b)
      rwa [FileBuf.payload, FileBuf.padZero_dataLen] at this
    rw [hp, FileBuf.padZero, if_pos h4, Nat.zero_add]
    congr 1
    refine List.ext_getElem (by simp) fun k h₁ h₂ => ?_
    rw [List.length_replicate] at h₂
    rw [Mem.getElem_read, List.getElem_replicate]
    exact (Mem.write_of_mem (by simp; omega)).trans (List.getElem_replicate _)

end

end Bootloader
