import Bootloader.Lib.Transition
import Bootloader.RingInv

/-!
# The packet ring

`SaveFileToBuf` against the consumption of packets by `Download`, from the moment `ERASE_FLASH`
clears the slots: calls of `SaveFileToBuf` follow one another (one thread makes them) and each may
sleep between two passes of its polling loop; a consumption takes the slot that
`GetFileIndexFromBuf` finds for the next packet, pads it and hands it back. A store and a
consumption are one step each.
-/

namespace Bootloader

/-- A packet as `UDPPacketProcess` hands it to `SaveFileToBuf`: a 16-bit number and at most 1024
bytes. -/
structure Packet where
  seq : Nat
  payload : List UInt8
  seq_lt : seq < 65536
  len_le : payload.length ≤ 1024

/-- How far a call of `SaveFileToBuf` gets in one pass. -/
inductive SaveOutcome
  | store (i : Nat)
  | ret (result : Nat)
  | sleep
deriving DecidableEq, Repr

/-- A pass of the polling loop; `late`: the clock test at its end finds the 5 s over. -/
def savePass (fb : FileBufs) (iSeq : Nat) (late : Bool) : SaveOutcome :=
  match pollSlot fb iSeq with
  | .store i => .store i
  | .fail => .ret 0
  | .again => if late then .ret 0 else .sleep

/-- The start of a call and its first pass. -/
def saveEntry (fb : FileBufs) (iSeq : Nat) : SaveOutcome :=
  if alreadySaved fb iSeq then .ret 1 else savePass fb iSeq false

/-- The slots, the counter `fileseq` of `Download` and the call of `SaveFileToBuf` that sleeps. -/
structure Ring where
  fileBuf : FileBufs
  fileseq : Nat
  call : Option Packet

inductive RingAct
  /-- `SaveFileToBuf` is called and makes its first pass. -/
  | save (p : Packet)
  /-- The call that sleeps makes another pass. -/
  | poll (late : Bool)
  /-- `Download` pads the slot of the packet `fileseq`, without handing it back. -/
  | pad
  /-- `Download` consumes the packet `fileseq`: it pads the slot and hands it back. -/
  | consume

namespace Ring

def step : RingAct → Ring → Option Ring
  | .save p, s =>
    if s.call.isSome then none else
      match saveEntry s.fileBuf p.seq with
      | .store i => some { s with fileBuf := s.fileBuf.store i p.seq p.payload }
      | .ret _ => some s
      | .sleep => some { s with call := some p }
  | .poll late, s =>
    match s.call with
    | none => none
    | some p =>
      match savePass s.fileBuf p.seq late with
      | .store i => some { s with fileBuf := s.fileBuf.store i p.seq p.payload, call := none }
      | .ret _ => some { s with call := none }
      | .sleep => some s
  | .pad, s => (getFileIndex s.fileBuf s.fileseq).map fun b => { s with fileBuf := s.fileBuf.pad b }
  | .consume, s =>
    match getFileIndex s.fileBuf s.fileseq with
    | none => none
    | some b =>
      some { s with fileBuf := (s.fileBuf.pad b).release b, fileseq := (s.fileseq + 1) % 65536 }

/-- The ring after the `memset` of `ERASE_FLASH`, before `Download` has consumed a packet. -/
def system : Lts Ring RingAct where
  init s := s = ⟨.clear, 0, none⟩
  step := step

/-! ### What a run has done -/

def pass (s : Ring) : RingAct → Option (Packet × SaveOutcome)
  | .save p => some (p, saveEntry s.fileBuf p.seq)
  | .poll late => s.call.map fun p => (p, savePass s.fileBuf p.seq late)
  | .pad | .consume => none

/-- The packet that a step stores. -/
def stores (s : Ring) (a : RingAct) : Option (Nat × List UInt8) :=
  match s.pass a with
  | some (p, .store _) => some (p.seq, p.payload)
  | _ => none

/-- The packet number and the result with which a call of `SaveFileToBuf` returns in a step. -/
def returns (s : Ring) (a : RingAct) : Option (Nat × Nat) :=
  match s.pass a with
  | some (p, .store _) => some (p.seq, 1)
  | some (p, .ret r) => some (p.seq, r)
  | _ => none

def consumes (s : Ring) : RingAct → Option Nat
  | .consume => (getFileIndex s.fileBuf s.fileseq).map fun b => (s.fileBuf b).seq
  | _ => none

/-- The packets stored in a run, the latest first. -/
def stored : List (Ring × RingAct) → List (Nat × List UInt8)
  | [] => []
  | (s, a) :: h => (s.stores a).toList ++ stored h

/-- The numbers of the packets consumed in a run, in order. -/
def consumed : List (Ring × RingAct) → List Nat
  | [] => []
  | (s, a) :: h => consumed h ++ (s.consumes a).toList

/-! ### The invariant of the runs -/

/-- The ring invariant, with what the counter and the sleeping call add to it. -/
structure Inv (h : List (Ring × RingAct)) (s : Ring) : Prop where
  ring : RingInv s.fileBuf (stored h) (consumed h).length
  order : consumed h = List.range (consumed h).length
  fileseq : s.fileseq = (consumed h).length % 65536
  call : ∀ p, s.call = some p → alreadySaved s.fileBuf p.seq = false

variable {h : List (Ring × RingAct)} {s s' : Ring} {a : RingAct}

theorem Inv.init : Inv [] ⟨.clear, 0, none⟩ := ⟨.clear, rfl, rfl, (by rintro _ ⟨⟩)⟩

theorem savePass_store {fb : FileBufs} {t i : Nat} {late : Bool} (hp : savePass fb t late = .store i) :
    pollSlot fb t = .store i := by
  unfold savePass at hp
  cases hps : pollSlot fb t with
  | store j => rw [hps] at hp; cases hp; rfl
  | fail => rw [hps] at hp; cases hp
  | again => rw [hps] at hp; dsimp only at hp; split at hp <;> cases hp

theorem savePass_ret {fb : FileBufs} {t r : Nat} {late : Bool} (hp : savePass fb t late = .ret r) : r = 0 := by
  unfold savePass at hp
  split at hp
  · cases hp
  · cases hp; rfl
  · split at hp <;> cases hp
    rfl

theorem saveEntry_eq {fb : FileBufs} {t : Nat} {o : SaveOutcome} (hp : saveEntry fb t = o) (hne : o ≠ .ret 1) :
    alreadySaved fb t = false ∧ savePass fb t false = o := by
  unfold saveEntry at hp
  cases hs : alreadySaved fb t with
  | true => rw [hs] at hp; exact absurd hp.symm hne
  | false => rw [hs] at hp; exact ⟨rfl, hp⟩

/-- A pass of a call of `SaveFileToBuf` stores in a slot that it has found free, or leaves the slots alone. -/
theorem Inv.pass_cases {p : Packet} {o : SaveOutcome} (hI : Inv h s) (ha : step a s = some s')
    (hp : s.pass a = some (p, o)) :
    (∃ i, o = .store i ∧ alreadySaved s.fileBuf p.seq = false ∧ pollSlot s.fileBuf p.seq = .store i ∧
      s' = ⟨s.fileBuf.store i p.seq p.payload, s.fileseq, none⟩) ∨
    ((∀ i, o ≠ .store i) ∧ ∃ c, s' = ⟨s.fileBuf, s.fileseq, c⟩ ∧
      ∀ q, c = some q → alreadySaved s.fileBuf q.seq = false) := by
  cases a with
  | save p =>
    cases hp
    rw [step] at ha
    split at ha
    · cases ha
    · next hcall =>
      have hcall : s.call = none := by simpa using hcall
      cases ho : saveEntry s.fileBuf p.seq with
      | store i =>
        rw [ho, hcall] at ha; cases ha
        obtain ⟨hnew, hpass⟩ := saveEntry_eq ho (by rintro ⟨⟩)
        exact .inl ⟨i, rfl, hnew, savePass_store hpass, rfl⟩
      | ret r =>
        rw [ho] at ha; cases ha
        exact .inr ⟨(by rintro _ ⟨⟩), _, rfl, by rw [hcall]; rintro _ ⟨⟩⟩
      | sleep =>
        rw [ho] at ha; cases ha
        exact .inr ⟨(by rintro _ ⟨⟩), _, rfl, fun q hq => by
          cases hq; exact (saveEntry_eq ho (by rintro ⟨⟩)).1⟩
  | poll late =>
    obtain ⟨q, hcall, hq⟩ := Option.map_eq_some_iff.1 hp
    cases hq
    rw [step, hcall] at ha
    dsimp only at ha
    cases ho : savePass s.fileBuf p.seq late with
    | store i =>
      rw [ho] at ha; cases ha
      exact .inl ⟨i, rfl, hI.call p hcall, savePass_store ho, rfl⟩
    | ret r => rw [ho] at ha; cases ha; exact .inr ⟨(by rintro _ ⟨⟩), _, rfl, (by rintro _ ⟨⟩)⟩
    | sleep => rw [ho] at ha; cases ha; exact .inr ⟨(by rintro _ ⟨⟩), _, rfl, hI.call⟩
  | pad => cases hp
  | consume => cases hp

theorem Inv.of_pass {p : Packet} {o : SaveOutcome} (hI : Inv h s) (ha : step a s = some s')
    (hp : s.pass a = some (p, o)) : Inv ((s, a) :: h) s' := by
  have hcs : consumed ((s, a) :: h) = consumed h := by
    cases a with
    | consume => cases hp
    | _ => exact List.append_nil _
  rcases hI.pass_cases ha hp with ⟨i, rfl, hnew, hi, rfl⟩ | ⟨hno, c, rfl, hc⟩
  · have hs : stored ((s, a) :: h) = (p.seq, p.payload) :: stored h := by simp [stored, stores, hp]
    exact ⟨by rw [hs, hcs]; exact hI.ring.store p.seq_lt p.len_le hnew hi, by rw [hcs]; exact hI.order,
      by rw [hcs]; exact hI.fileseq, (by rintro _ ⟨⟩)⟩
  · have hs : stored ((s, a) :: h) = stored h := by
      rw [stored, stores, hp]
      cases o with
      | store i => exact absurd rfl (hno i)
      | _ => rfl
    exact ⟨by rw [hs, hcs]; exact hI.ring, by rw [hcs]; exact hI.order, by rw [hcs]; exact hI.fileseq, hc⟩

theorem pass_poll {late : Bool} (ha : step (.poll late) s = some s') : s.pass (.poll late) ≠ none := by
  intro hp
  rw [pass, Option.map_eq_none_iff] at hp
  rw [step, hp] at ha; cases ha

theorem Inv.pad (hI : Inv h s) (ha : step .pad s = some s') : Inv ((s, .pad) :: h) s' := by
  obtain ⟨b, -, rfl⟩ := Option.map_eq_some_iff.1 ha
  have hcs : consumed ((s, .pad) :: h) = consumed h := List.append_nil _
  exact ⟨by rw [hcs]; exact hI.ring.pad, by rw [hcs]; exact hI.order, by rw [hcs]; exact hI.fileseq,
    fun p hp => alreadySaved_congr (fun _ => FileBufs.pad_seq)
      (fun i _ hne => by rwa [FileBufs.pad_state] at hne) (hI.call p hp)⟩

theorem Inv.consume (hI : Inv h s) (ha : step .consume s = some s') : Inv ((s, .consume) :: h) s' := by
  rw [step] at ha
  cases hg : getFileIndex s.fileBuf s.fileseq with
  | none => rw [hg] at ha; cases ha
  | some b =>
    rw [hg] at ha; cases ha
    obtain ⟨hb, hst, hseq⟩ := getFileIndex_some hg
    rw [hI.fileseq] at hseq
    have hc := hI.ring.seq_eq_of_mod hb hst hseq
    have hs : stored ((s, .consume) :: h) = stored h := rfl
    have hcs : consumed ((s, .consume) :: h) = consumed h ++ [(consumed h).length] := by
      simp [consumed, consumes, hg, hc]
    have hst' : (s.fileBuf.pad b b).state = .receiveOk := FileBufs.pad_state.trans hst
    refine ⟨?_, ?_, ?_, fun p hp => alreadySaved_congr (fun _ => FileBufs.release_seq.trans FileBufs.pad_seq)
      (fun i _ hne => ?_) (hI.call p hp)⟩
    · rw [hs, hcs, List.length_append]
      exact hI.ring.pad.release hb hst' (FileBufs.pad_seq.trans hseq)
    · rw [hcs, List.length_append, List.length_singleton, List.range_succ, ← hI.order]
    · rw [hcs, List.length_append, List.length_singleton, hI.fileseq, Nat.mod_add_mod]
    · have := mt (FileBufs.release_state_init (by rw [hst']; rintro ⟨⟩)).2 hne
      rwa [FileBufs.pad_state] at this

theorem Inv.next (hI : Inv h s) (ha : step a s = some s') : Inv ((s, a) :: h) s' := by
  cases hp : s.pass a with
  | some x => exact hI.of_pass ha hp
  | none =>
    cases a with
    | save p => cases hp
    | poll late => exact absurd hp (pass_poll ha)
    | pad => exact hI.pad ha
    | consume => exact hI.consume ha

theorem Inv.of_run (hr : system.Run h s) : Inv h s :=
  hr.inv' (fun _ hs => hs ▸ Inv.init) fun _ _ _ _ => Inv.next

/-! ### The law of the ring -/

/-- The slots and the packets stored and consumed so far, `c` of them consumed. -/
structure Law (h : List (Ring × RingAct)) (s : Ring) (c : Nat) : Prop where
  /-- A slot in use holds a packet of its residue class. -/
  slot : ∀ i, i < fileBufferNum → (s.fileBuf i).state ≠ .init → (s.fileBuf i).seq % fileBufferNum = i
  /-- `GetFileIndexFromBuf` has at most one match. -/
  match_unique : ∀ q i j, i < fileBufferNum → j < fileBufferNum →
    (s.fileBuf i).state = .receiveOk → (s.fileBuf i).seq = q →
    (s.fileBuf j).state = .receiveOk → (s.fileBuf j).seq = q → i = j
  received : ∀ i, i < fileBufferNum → (s.fileBuf i).state = .receiveOk →
    c ≤ (s.fileBuf i).seq ∧ (s.fileBuf i).seq < c + fileBufferNum
  downloaded : ∀ i, i < fileBufferNum → (s.fileBuf i).state = .downloadOk → (s.fileBuf i).seq < c
  /-- A received packet stays in its slot until a step consumes it. -/
  kept : ∀ a s', step a s = some s' → ∀ i, i < fileBufferNum → (s.fileBuf i).state = .receiveOk →
    (s'.fileBuf i).seq = (s.fileBuf i).seq ∧ (s'.fileBuf i).payload = (s.fileBuf i).payload ∧
    ((s'.fileBuf i).state = .receiveOk ∨
      (s.consumes a = some (s.fileBuf i).seq ∧ (s'.fileBuf i).state = .downloadOk))
  /-- Packets are consumed in order, each once. -/
  order : consumed h = List.range c
  /-- No packet number is stored twice. -/
  once : (seqs (stored h)).Nodup
  /-- A positive answer is only given for a packet that is stored. -/
  answer : ∀ a s' q, step a s = some s' → s.returns a = some (q, 1) → q ∈ seqs (stored ((s, a) :: h))
  /-- The next packet finds its slot in the first pass. -/
  next : ∀ p : Packet, p.seq < fileBufferNum ∨ p.seq - 1 ∈ seqs (stored h) → p.seq ∉ seqs (stored h) →
    p.seq < c + fileBufferNum → saveEntry s.fileBuf p.seq = .store (p.seq % fileBufferNum)

theorem Inv.match_unique (hI : Inv h s) {q i j : Nat} (hi : i < fileBufferNum) (hj : j < fileBufferNum)
    (hsi : (s.fileBuf i).state = .receiveOk) (hqi : (s.fileBuf i).seq = q)
    (hsj : (s.fileBuf j).state = .receiveOk) (hqj : (s.fileBuf j).seq = q) : i = j := by
  have hi := hI.ring.slot_mod i hi (by rw [hsi]; rintro ⟨⟩)
  have hj := hI.ring.slot_mod j hj (by rw [hsj]; rintro ⟨⟩)
  rw [← hi, ← hj, hqi, hqj]

theorem Inv.kept_of_pass {p : Packet} {o : SaveOutcome} (hI : Inv h s) (ha : step a s = some s')
    (hp : s.pass a = some (p, o)) {i : Nat} (hst : (s.fileBuf i).state = .receiveOk) :
    s'.fileBuf i = s.fileBuf i := by
  rcases hI.pass_cases ha hp with ⟨j, -, hnew, hj, rfl⟩ | ⟨-, c, rfl, -⟩
  · obtain ⟨-, -, hnr, -⟩ := hI.ring.store_slot hnew hj
    exact FileBufs.set_of_ne fun hij => hnr (hij ▸ hst)
  · rfl

theorem Inv.kept (hI : Inv h s) (ha : step a s = some s') {i : Nat}
    (hst : (s.fileBuf i).state = .receiveOk) :
    (s'.fileBuf i).seq = (s.fileBuf i).seq ∧ (s'.fileBuf i).payload = (s.fileBuf i).payload ∧
    ((s'.fileBuf i).state = .receiveOk ∨
      (s.consumes a = some (s.fileBuf i).seq ∧ (s'.fileBuf i).state = .downloadOk)) := by
  cases hp : s.pass a with
  | some x =>
    rw [hI.kept_of_pass ha hp hst]
    exact ⟨rfl, rfl, .inl hst⟩
  | none =>
    cases a with
    | save p => cases hp
    | poll late => exact absurd hp (pass_poll ha)
    | pad =>
      obtain ⟨b, -, rfl⟩ := Option.map_eq_some_iff.1 ha
      exact ⟨FileBufs.pad_seq, FileBufs.pad_payload, .inl (FileBufs.pad_state.trans hst)⟩
    | consume =>
      rw [step] at ha
      cases hg : getFileIndex s.fileBuf s.fileseq with
      | none => rw [hg] at ha; cases ha
      | some b =>
        rw [hg] at ha; cases ha
        refine ⟨by simp, by simp, ?_⟩
        by_cases hib : i = b
        · exact .inr ⟨by simp [consumes, hg, hib], by rw [hib]; exact FileBufs.release_state_self⟩
        · exact .inl (by simp [FileBufs.release_of_ne hib, hst])

theorem Inv.answer (hI : Inv h s) {q : Nat} (hq : s.returns a = some (q, 1)) :
    q ∈ seqs (stored ((s, a) :: h)) := by
  unfold returns at hq
  split at hq
  · next p i hp =>
    cases hq
    simp [stored, stores, hp, seqs]
  · next p r hp =>
    rw [Option.some.injEq, Prod.mk.injEq] at hq
    obtain ⟨rfl, rfl⟩ := hq
    -- the only pass that returns 1 without storing finds a duplicate
    have hdup : alreadySaved s.fileBuf p.seq = true := by
      have hnp : ∀ t late, savePass s.fileBuf t late ≠ .ret 1 := fun _ _ h =>
        absurd (savePass_ret h) (by decide)
      cases a with
      | save p' =>
        simp only [pass, Option.some.injEq, Prod.mk.injEq] at hp
        obtain ⟨rfl, hp⟩ := hp
        by_contra hne
        rw [saveEntry, if_neg hne] at hp
        exact hnp _ _ hp
      | pad => cases hp
      | poll late =>
        simp only [pass, Option.map_eq_some_iff, Prod.mk.injEq] at hp
        obtain ⟨p', -, -, hp⟩ := hp
        exact absurd hp (hnp _ _)
      | consume => cases hp
    obtain ⟨i, hi, hseq, hne⟩ := alreadySaved_eq_true.1 hdup
    have := hI.ring.slot_mem_seqs hi hne
    rw [stored, seqs, List.map_append, ← hseq]
    exact List.mem_append_right _ this
  · cases hq

/-- In every run of the ring the law holds, for the number of packets consumed so far. -/
theorem law_of_run (hr : system.Run h s) : Law h s (consumed h).length := by
  have hI := Inv.of_run hr
  exact {
    slot := hI.ring.slot_mod
    match_unique := fun q i j hi hj h₁ h₂ h₃ h₄ => hI.match_unique hi hj h₁ h₂ h₃ h₄
    received := fun i hi hst => hI.ring.window hi hst
    downloaded := hI.ring.downloaded
    kept := fun a s' ha i _ hst => hI.kept ha hst
    order := hI.order
    once := hI.ring.nodup
    answer := fun a s' q _ hq => hI.answer hq
    next := fun p hprev hfresh hc => by
      obtain ⟨hnew, hi⟩ := hI.ring.pollSlot_of_next hfresh hc hprev
      rw [saveEntry, hnew, savePass, hi]; rfl }

/-- Packet 40 takes over the slot of packet 0. -/
theorem law_of_run_reused : ∃ h s, system.Run h s ∧ seqs (stored h) = [40, 39, 0] ∧
    (s.fileBuf 0).seq = 40 ∧ Law h s 1 := by
  obtain ⟨h, s, hr, hst, hseq, hc⟩ := Lts.exists_run_of_exec (S := system)
    (P := fun h s => seqs (stored h) = [40, 39, 0] ∧ (s.fileBuf 0).seq = 40 ∧ (consumed h).length = 1)
    [.save ⟨0, [1], by decide, by decide⟩, .save ⟨39, [2], by decide, by decide⟩, .consume,
      .save ⟨40, [3], by decide, by decide⟩]
    rfl (by decide +kernel)
  exact ⟨h, s, hr, hst, hseq, hc ▸ law_of_run hr⟩

end Ring

end Bootloader
