import Bootloader.FileBuf

/-!
# The ring invariant

`RingInv fb st c`: the slots `fb` after the packets `st` (sequence number and payload, the latest
first) have been stored and the first `c` packets consumed, since the slots were last cleared. The
producer finds its slot through the slot of the packet before; that this is always the slot whose
packet was consumed forty packets ago follows from `chain` (from packet 40 on packets are stored in
order) and `newest` (a slot holds the latest packet of its residue class).

The preservation lemmas (`clear`, `store`, `pad`, `release`) speak about the operations on the slots
only; the systems that use them are `Ring`, `Session` and `Device`.
-/

namespace Bootloader

def seqs (st : List (Nat × List UInt8)) : List Nat := st.map Prod.fst

theorem mem_seqs {st : List (Nat × List UInt8)} {s : Nat} : s ∈ seqs st ↔ ∃ l, (s, l) ∈ st := by
  simp [seqs]

structure RingInv (fb : FileBufs) (st : List (Nat × List UInt8)) (c : Nat) : Prop where
  /-- A slot never used has sequence number 0, so it is not the slot of the packet before. -/
  seq_init : ∀ i, i < fileBufferNum → (fb i).state = .init → (fb i).seq = 0
  slot_mod : ∀ i, i < fileBufferNum → (fb i).state ≠ .init → (fb i).seq % fileBufferNum = i
  slot_mem : ∀ i, i < fileBufferNum → (fb i).state ≠ .init → ((fb i).seq, (fb i).payload) ∈ st
  /-- A slot holds the latest packet stored in its residue class. -/
  newest : ∀ s ∈ seqs st,
    (fb (s % fileBufferNum)).state ≠ .init ∧ s ≤ (fb (s % fileBufferNum)).seq
  /-- From packet 40 on, packets are stored in order and at most 40 ahead of the consumer. -/
  chain : ∀ s ∈ seqs st, fileBufferNum ≤ s → s - 1 ∈ seqs st ∧ s < c + fileBufferNum
  consumed : ∀ k, k < c → k ∈ seqs st
  received : ∀ i, i < fileBufferNum → (fb i).state = .receiveOk → c ≤ (fb i).seq
  downloaded : ∀ i, i < fileBufferNum → (fb i).state = .downloadOk → (fb i).seq < c
  nodup : (seqs st).Nodup
  bound : ∀ s ∈ seqs st, s < 65536
  len_le : ∀ p ∈ st, p.2.length ≤ 1024

namespace RingInv
variable {fb fb' : FileBufs} {st : List (Nat × List UInt8)} {c s t i j : Nat} {l : List UInt8}

theorem clear : RingInv .clear [] 0 := by
  refine ⟨fun _ _ _ => rfl, fun i _ h => absurd rfl h, fun i _ h => absurd rfl h, ?_, ?_, ?_, ?_, ?_,
    List.nodup_nil, ?_, fun p h => absurd h List.not_mem_nil⟩
  · exact fun s h => absurd h List.not_mem_nil
  · exact fun s h => absurd h List.not_mem_nil
  · exact fun k h => absurd h (Nat.not_lt_zero k)
  · rintro _ _ ⟨⟩
  · rintro _ _ ⟨⟩
  · exact fun s h => absurd h List.not_mem_nil

/-! ### Which packets are stored -/

theorem mem_of_le (h : RingInv fb st c) (hs : s ∈ seqs st) (ht : t ≤ s) (h39 : fileBufferNum ≤ t + 1) :
    t ∈ seqs st := by
  obtain ⟨d, rfl⟩ := Nat.exists_eq_add_of_le ht
  clear ht
  induction d with
  | zero => exact hs
  | succ d ih => exact ih (h.chain _ hs (by omega)).1

theorem slot_mem_seqs (h : RingInv fb st c) (hi : i < fileBufferNum) (hne : (fb i).state ≠ .init) :
    (fb i).seq ∈ seqs st := mem_seqs.2 ⟨_, h.slot_mem i hi hne⟩

theorem slot_of_mem (h : RingInv fb st c) (hs : s ∈ seqs st) (hne : s + fileBufferNum ∉ seqs st) :
    (fb (s % fileBufferNum)).state ≠ .init ∧ (fb (s % fileBufferNum)).seq = s := by
  obtain ⟨hst, hle⟩ := h.newest s hs
  have hlt : s % fileBufferNum < fileBufferNum := Nat.mod_lt _ (by decide)
  have hmod := h.slot_mod _ hlt hst
  refine ⟨hst, Nat.le_antisymm (Nat.le_of_not_lt fun hgt => hne ?_) hle⟩
  refine h.mem_of_le (h.slot_mem_seqs hlt hst) ?_ (by unfold fileBufferNum; omega)
  unfold fileBufferNum at *; omega

/-- A slot that is handed back is the one consumed 40 packets before the packet it is given to. -/
theorem reused_seq (h : RingInv fb st c) (hi : i < fileBufferNum) (h40 : fileBufferNum ≤ s)
    (hprev : (fb i).seq = s - 1) (hd : (fb (nextSlot i)).state = .downloadOk)
    (hnew : ∀ j, j < fileBufferNum → (fb j).state ≠ .init → (fb j).seq ≠ s) :
    nextSlot i = s % fileBufferNum ∧ (fb (nextSlot i)).seq + fileBufferNum = s := by
  have hne : (fb i).state ≠ .init := fun hinit => by
    have := h.seq_init i hi hinit
    unfold fileBufferNum at h40; omega
  have hmod := h.slot_mod i hi hne
  have hnext := nextSlot_mod hi
  have hj : nextSlot i < fileBufferNum := by rw [hnext]; exact Nat.mod_lt _ (by decide)
  have hdne : (fb (nextSlot i)).state ≠ .init := by rw [hd]; rintro ⟨⟩
  have hjmod := h.slot_mod _ hj hdne
  have hslot : nextSlot i = s % fileBufferNum := by
    rw [hprev] at hmod; unfold fileBufferNum at *; omega
  refine ⟨hslot, ?_⟩
  have hs1 : s - 1 ∈ seqs st := hprev ▸ h.slot_mem_seqs hi hne
  have hle : (fb (nextSlot i)).seq ≤ s := by
    by_contra hgt
    -- a later packet in the slot would have replaced packet `s - 1` as well
    have hmem := h.mem_of_le (t := s - 1 + fileBufferNum) (h.slot_mem_seqs hj hdne)
      (by unfold fileBufferNum at *; omega) (by unfold fileBufferNum; omega)
    obtain ⟨-, hge⟩ := h.newest _ hmem
    rw [Nat.add_mod_right, ← hprev, hmod] at hge
    rw [hprev] at hge; unfold fileBufferNum at hge; omega
  have hneq := hnew _ hj hdne
  by_cases h79 : s < 2 * fileBufferNum - 1
  · unfold fileBufferNum at *; omega
  · have hmem := h.mem_of_le (t := s - fileBufferNum) hs1 (by unfold fileBufferNum; omega)
      (by unfold fileBufferNum at *; omega)
    obtain ⟨-, hge⟩ := h.newest _ hmem
    have hm : (s - fileBufferNum) % fileBufferNum = nextSlot i := by
      rw [hslot]; unfold fileBufferNum at *; omega
    rw [hm] at hge
    unfold fileBufferNum at *; omega

/-! ### Preservation -/

/-- What a pass of `SaveFileToBuf` that stores has established. -/
theorem store_slot (h : RingInv fb st c) (hnew : alreadySaved fb s = false)
    (hi : pollSlot fb s = .store i) :
    i = s % fileBufferNum ∧ s ∉ seqs st ∧ (fb i).state ≠ .receiveOk ∧
      (fileBufferNum ≤ s → s - 1 ∈ seqs st ∧ s < c + fileBufferNum) ∧
      ((fb i).state = .downloadOk → (fb i).seq + fileBufferNum = s) := by
  rw [alreadySaved_eq_false] at hnew
  rcases pollSlot_store hi with ⟨hs, rfl, hinit⟩ | ⟨h40, p, hp, hprev, rfl, hd⟩
  · refine ⟨(Nat.mod_eq_of_lt hs).symm, fun hmem => ?_, by rw [hinit]; rintro ⟨⟩, ?_, ?_⟩
    · have := (h.newest i hmem).1
      rw [Nat.mod_eq_of_lt hs] at this
      exact this hinit
    · exact fun hge => absurd hs (Nat.not_lt.2 hge)
    · rw [hinit]; rintro ⟨⟩
  · obtain ⟨hslot, hseq⟩ := h.reused_seq hp h40 hprev hd hnew
    have hj : nextSlot p < fileBufferNum := by rw [hslot]; exact Nat.mod_lt _ (by decide)
    have hlt := h.downloaded _ hj hd
    refine ⟨hslot, fun hmem => ?_, by rw [hd]; rintro ⟨⟩, fun _ => ⟨?_, by omega⟩, fun _ => hseq⟩
    · have := (h.newest s hmem).2
      rw [← hslot] at this
      unfold fileBufferNum at *; omega
    · have hne : (fb p).state ≠ .init := fun hinit => by
        have := h.seq_init p hp hinit
        unfold fileBufferNum at h40; omega
      exact hprev ▸ h.slot_mem_seqs hp hne

theorem store (h : RingInv fb st c) (hs : s < 65536) (hl : l.length ≤ 1024)
    (hnew : alreadySaved fb s = false) (hi : pollSlot fb s = .store i) :
    RingInv (fb.store i s l) ((s, l) :: st) c := by
  obtain ⟨hslot, hfresh, hnr, hchain, hold⟩ := h.store_slot hnew hi
  have hilt : i < fileBufferNum := by rw [hslot]; exact Nat.mod_lt _ (by decide)
  have hc : c ≤ s := Nat.le_of_not_lt fun hlt => hfresh (h.consumed s hlt)
  have hself : fb.store i s l i = ⟨s, l.length, (fb i).data.write 0 l, .receiveOk⟩ := FileBufs.set_self
  have hother : ∀ j, j ≠ i → fb.store i s l j = fb j := fun j hj => FileBufs.set_of_ne hj
  have hseqs : seqs ((s, l) :: st) = s :: seqs st := rfl
  refine ⟨?_, ?_, ?_, ?_, ?_, ?_, ?_, ?_, ?_, ?_, List.forall_mem_cons.2 ⟨hl, h.len_le⟩⟩
  · intro j hj hst
    by_cases hji : j = i
    · rw [hji, hself] at hst; cases hst
    · rw [hother j hji] at hst ⊢; exact h.seq_init j hj hst
  · intro j hj hst
    by_cases hji : j = i
    · rw [hji, hself]; exact hslot.symm
    · rw [hother j hji] at hst ⊢; exact h.slot_mod j hj hst
  · intro j hj hst
    by_cases hji : j = i
    · subst hji
      rw [FileBufs.store_payload, hself]; exact List.mem_cons_self
    · rw [hother j hji] at hst ⊢; exact List.mem_cons_of_mem _ (h.slot_mem j hj hst)
  · intro t ht
    rw [hseqs] at ht
    rcases List.mem_cons.1 ht with rfl | ht
    · rw [← hslot, hself]; exact ⟨(by rintro ⟨⟩), Nat.le_refl _⟩
    · obtain ⟨hst, hle⟩ := h.newest t ht
      by_cases hji : t % fileBufferNum = i
      · rw [hji, hself]
        refine ⟨(by rintro ⟨⟩), ?_⟩
        rw [hji] at hst hle
        have hd : (fb i).state = .downloadOk := by
          cases hs' : (fb i).state with
          | init => exact absurd hs' hst
          | receiveOk => exact absurd hs' hnr
          | downloadOk => rfl
        have := hold hd
        show t ≤ s
        omega
      · rw [hother _ hji]; exact ⟨hst, hle⟩
  · intro t ht h40
    rw [hseqs] at ht ⊢
    rcases List.mem_cons.1 ht with rfl | ht
    · exact ⟨List.mem_cons_of_mem _ (hchain h40).1, (hchain h40).2⟩
    · exact ⟨List.mem_cons_of_mem _ (h.chain t ht h40).1, (h.chain t ht h40).2⟩
  · exact fun k hk => List.mem_cons_of_mem _ (h.consumed k hk)
  · intro j hj hst
    by_cases hji : j = i
    · rw [hji, hself]; exact hc
    · rw [hother j hji] at hst ⊢; exact h.received j hj hst
  · intro j hj hst
    by_cases hji : j = i
    · rw [hji, hself] at hst; cases hst
    · rw [hother j hji] at hst ⊢; exact h.downloaded j hj hst
  · exact List.nodup_cons.2 ⟨hfresh, h.nodup⟩
  · intro t ht
    rcases List.mem_cons.1 ht with rfl | ht
    · exact hs
    · exact h.bound t ht

theorem congr (hseq : ∀ i, (fb' i).seq = (fb i).seq) (hp : ∀ i, (fb' i).payload = (fb i).payload)
    (hst : ∀ i, (fb' i).state = (fb i).state) (h : RingInv fb st c) : RingInv fb' st c := by
  refine ⟨?_, ?_, ?_, ?_, h.chain, h.consumed, ?_, ?_, h.nodup, h.bound, h.len_le⟩ <;> simp only [hseq, hp, hst]
  exacts [h.seq_init, h.slot_mod, h.slot_mem, h.newest, h.received, h.downloaded]

theorem pad (h : RingInv fb st c) : RingInv (fb.pad i) st c :=
  h.congr (fun _ => FileBufs.pad_seq) (fun _ => FileBufs.pad_payload) fun _ => FileBufs.pad_state

/-- A slot holding the packet that is consumed next holds packet `c`: the 16-bit counter of
`Download` has not wrapped. -/
theorem seq_eq_of_mod (h : RingInv fb st c) (hi : i < fileBufferNum) (hst : (fb i).state = .receiveOk)
    (hseq : (fb i).seq = c % 65536) : (fb i).seq = c := by
  have := h.received i hi hst
  have := h.bound _ (h.slot_mem_seqs hi (by rw [hst]; rintro ⟨⟩))
  omega

theorem release (h : RingInv fb st c) (hi : i < fileBufferNum) (hst : (fb i).state = .receiveOk)
    (hseq : (fb i).seq = c % 65536) : RingInv (fb.release i) st (c + 1) := by
  have hc := h.seq_eq_of_mod hi hst hseq
  have hne : (fb i).state ≠ .init := by rw [hst]; rintro ⟨⟩
  have hinit : ∀ j, (fb.release i j).state = .init ↔ (fb j).state = .init := fun _ =>
    FileBufs.release_state_init hne
  refine ⟨?_, ?_, ?_, ?_, ?_, ?_, ?_, ?_, h.nodup, h.bound, h.len_le⟩
  · intro j hj hs
    rw [FileBufs.release_seq]; exact h.seq_init j hj ((hinit j).1 hs)
  · intro j hj hs
    rw [FileBufs.release_seq]; exact h.slot_mod j hj (mt (hinit j).2 hs)
  · intro j hj hs
    rw [FileBufs.release_seq, FileBufs.release_payload]; exact h.slot_mem j hj (mt (hinit j).2 hs)
  · intro t ht
    rw [FileBufs.release_seq]; exact ⟨mt (hinit _).1 (h.newest t ht).1, (h.newest t ht).2⟩
  · intro t ht h40
    exact ⟨(h.chain t ht h40).1, by have := (h.chain t ht h40).2; omega⟩
  · intro k hk
    rcases Nat.lt_succ_iff_lt_or_eq.1 hk with hk | rfl
    · exact h.consumed k hk
    · rw [← hc]; exact h.slot_mem_seqs hi hne
  · intro j hj hs
    by_cases hji : j = i
    · rw [hji, FileBufs.release_state_self] at hs; cases hs
    · rw [FileBufs.release_of_ne hji] at hs ⊢
      -- another slot cannot hold packet `c` as well
      have hge := h.received j hj hs
      have hmi := h.slot_mod i hi hne
      have hmj := h.slot_mod j hj (by rw [hs]; rintro ⟨⟩)
      have : (fb j).seq ≠ c := fun he => hji (by rw [← hmj, ← hmi, he, hc])
      omega
  · intro j hj hs
    rw [FileBufs.release_seq]
    by_cases hji : j = i
    · rw [hji]; omega
    · rw [FileBufs.release_of_ne hji] at hs; have := h.downloaded j hj hs; omega

/-! ### Consequences -/

theorem window (h : RingInv fb st c) (hi : i < fileBufferNum) (hst : (fb i).state = .receiveOk) :
    c ≤ (fb i).seq ∧ (fb i).seq < c + fileBufferNum := by
  refine ⟨h.received i hi hst, ?_⟩
  by_cases h40 : fileBufferNum ≤ (fb i).seq
  · exact (h.chain _ (h.slot_mem_seqs hi (by rw [hst]; rintro ⟨⟩)) h40).2
  · omega

/-- The packet within the window whose predecessor is stored finds its slot at once. -/
theorem pollSlot_of_next (h : RingInv fb st c) (hfresh : s ∉ seqs st) (hc : s < c + fileBufferNum)
    (hprev : s < fileBufferNum ∨ s - 1 ∈ seqs st) :
    alreadySaved fb s = false ∧ pollSlot fb s = .store (s % fileBufferNum) := by
  constructor
  · exact alreadySaved_eq_false.2 fun i hi hne he => hfresh (he ▸ h.slot_mem_seqs hi hne)
  by_cases h40 : s < fileBufferNum
  · have hinit : (fb s).state = .init := by
      by_contra hne
      have hmod := h.slot_mod s h40 hne
      have hmem := h.slot_mem_seqs h40 hne
      by_cases he : (fb s).seq = s
      · exact hfresh (he ▸ hmem)
      · -- a packet stored over packet `s` follows its consumption
        have := h.chain _ hmem (by unfold fileBufferNum at *; omega)
        refine hfresh (h.consumed s ?_)
        unfold fileBufferNum at *; omega
    rw [pollSlot, if_pos h40, if_pos hinit, Nat.mod_eq_of_lt h40]
  · have hprev := hprev.resolve_left h40
    have hlt : ∀ x, x % fileBufferNum < fileBufferNum := fun x => Nat.mod_lt _ (by decide)
    have hlater : ∀ t ∈ seqs st, s ≤ t → False := fun t ht hle =>
      hfresh (h.mem_of_le ht hle (by unfold fileBufferNum at *; omega))
    obtain ⟨hp1, hp2⟩ := h.slot_of_mem hprev fun hmem => hlater _ hmem (by unfold fileBufferNum; omega)
    have hold : s - fileBufferNum ∈ seqs st := h.consumed _ (by unfold fileBufferNum at *; omega)
    obtain ⟨hq1, hq2⟩ := h.slot_of_mem hold fun hmem => hlater _ hmem (by unfold fileBufferNum at *; omega)
    have hqs : (s - fileBufferNum) % fileBufferNum = s % fileBufferNum := by
      unfold fileBufferNum at *; omega
    have hns : nextSlot ((s - 1) % fileBufferNum) = s % fileBufferNum := by
      rw [nextSlot_mod (hlt _)]; unfold fileBufferNum at *; omega
    rw [hqs] at hq1 hq2
    have hd : (fb (s % fileBufferNum)).state = .downloadOk := by
      cases hst : (fb (s % fileBufferNum)).state with
      | init => exact absurd hst hq1
      | receiveOk =>
        have := h.received _ (hlt s) hst
        unfold fileBufferNum at *; omega
      | downloadOk => rfl
    rw [pollSlot, if_neg h40]
    split
    · next p hp =>
      have hmem := List.mem_of_find?_eq_some hp
      have hp := List.find?_some hp
      simp only [Bool.and_eq_true, beq_iff_eq] at hp
      have hne : (fb p).state ≠ .init := fun hinit => by
        have := h.seq_init p (List.mem_range.1 hmem) hinit
        unfold fileBufferNum at h40; omega
      have := h.slot_mod p (List.mem_range.1 hmem) hne
      rw [hp.1] at this
      rw [← this, hns]
    · next hnone =>
      have := List.find?_eq_none.1 hnone _ (List.mem_range.2 (hlt (s - 1)))
      simp only [Bool.and_eq_true, beq_iff_eq, not_and] at this
      exact absurd (by rw [hns]; exact hd) (this hp2)

end RingInv

end Bootloader
