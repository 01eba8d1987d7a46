import Bootloader.SubBoard
import Bootloader.Lib.Loop
import Bootloader.Lib.Rank

/-!
# The numbers of the sub-boards

`SubBoardInfo` in `bsp_sub.c`: `SUB_Init` reads the type of every board and numbers the boards of each type that it
knows; `SUB_GetSiteFromSeq` finds the slot of a board from its type and its number. The boards of a type that it does
not know all have the number 0.
-/

namespace Bootloader

def subBoardTypeNum : Nat := 6

def fsubRevAddr : Nat := 0x3F

def subBoardName : List String :=
  ["Switch Board A", "IO Board", "Mic Board", "Switch Board B", "IC Board", "LeakCurrent Board", ""]

/-- `sSubBoardInfo`, `none` for a name that is `NULL`. -/
structure SubBoardInfo where
  type : UInt8
  name : Option String
  version : UInt8
  seq : UInt8
deriving DecidableEq, Repr

/-- `SubInitFlag` and `SubBoardInfo`. -/
structure SubBoards where
  subInitFlag : Bool
  subBoardInfo : Nat → SubBoardInfo

namespace SubBoards

def setInfo (i : Nat) (f : SubBoardInfo → SubBoardInfo) (b : SubBoards) : SubBoards :=
  { b with subBoardInfo := Function.update b.subBoardInfo i (f (b.subBoardInfo i)) }

/-- The inner loop of `SUB_Init`: every earlier board of the type overwrites the number. -/
def countSeq (type : UInt8) (i : Nat) : SubBoards → SubBoards :=
  loop (fun j b => if (b.subBoardInfo j).type = type
    then b.setInfo i ({ · with seq := (b.subBoardInfo j).seq + 1 }) else b) i

/-- What `SUB_Init` makes of the byte `regvalue` from the slot `i`. -/
def identify (regvalue : UInt8) (i : Nat) (b : SubBoards) : SubBoards :=
  let type := regvalue >>> 3
  let version := regvalue &&& 0x07
  let b := b.setInfo i ({ · with type := type, seq := 0 })
  if type.toNat < subBoardTypeNum then
    let b := b.setInfo i ({ · with name := subBoardName[type.toNat]?, version := version })
    if i = 0 then b.setInfo i ({ · with seq := 0 }) else countSeq type i b
  else b.setInfo i ({ · with name := subBoardName[subBoardTypeNum]?, version := 0, seq := 0 })

/-- A slot in the last loop of `SUB_Init`. -/
def identifySite (i : Nat) : Option (Sub × SubBoards) → Option (Sub × SubBoards)
  | some (s, b) =>
    match s.subReadByte fsubRevAddr i with
    | some (regvalue, s) => some (s, b.identify regvalue i)
    | none => none
  | none => none

/-- `SUB_Init` over boards with the registers `device`. -/
def subInit (device : Nat → Nat → UInt8) (b : SubBoards) : Option (Sub × SubBoards) :=
  (Sub.calls Sub.configReads ⟨Sub.trapReg, .disabled, device⟩).bind fun s =>
    loop identifySite subBoardNum (some (s, { b with subInitFlag := true }))

/-- The slot, or `SUB_BOARD_NUM`; `none` where the assertion fails. -/
def subGetSiteFromSeq (iBoardType : Nat) (iSeq : UInt8) (b : SubBoards) : Option Nat :=
  if b.subInitFlag = false then none
  else some (((List.range subBoardNum).find? fun i =>
    iBoardType = (b.subBoardInfo i).type.toNat && iSeq = (b.subBoardInfo i).seq).getD subBoardNum)

/-! ### What SUB_Init leaves -/

variable {device : Nat → Nat → UInt8} {s : Sub} {b : SubBoards} {regvalue : UInt8} {i j n t : Nat}

/-- The type of the board in the slot `i`. -/
def typeAt (device : Nat → Nat → UInt8) (i : Nat) : Nat := (device i fsubRevAddr).toNat / 8

/-- The slots with a board of the type `t`, in order. -/
def boardsOf (device : Nat → Nat → UInt8) (t : Nat) : List Nat := Rank.places (typeAt device · = t) subBoardNum

/-- The boards of a slot's type in the slots before it. -/
def rank (device : Nat → Nat → UInt8) (i : Nat) : Nat := Nat.count (typeAt device · = typeAt device i) i

theorem setInfo_of_ne {f : SubBoardInfo → SubBoardInfo} (hj : j ≠ i) :
    (b.setInfo i f).subBoardInfo j = b.subBoardInfo j :=
  Function.update_of_ne hj _ _

theorem setInfo_self {f : SubBoardInfo → SubBoardInfo} :
    (b.setInfo i f).subBoardInfo i = f (b.subBoardInfo i) :=
  Function.update_self _ _ _

theorem setInfo_setInfo {f g : SubBoardInfo → SubBoardInfo} :
    (b.setInfo i f).setInfo i g = b.setInfo i fun x => g (f x) := by
  simp only [setInfo, Function.update_self, Function.update_idem]

theorem type_eq : (regvalue >>> 3).toNat = regvalue.toNat / 8 := by
  rw [UInt8.toNat_shiftRight, Nat.shiftRight_eq_div_pow]; rfl

/-- What `SUB_Init` leaves of a slot. -/
def boardInfo (device : Nat → Nat → UInt8) (i : Nat) : SubBoardInfo :=
  let regvalue := device i fsubRevAddr
  if typeAt device i < subBoardTypeNum then
    ⟨regvalue >>> 3, subBoardName[typeAt device i]?, regvalue &&& 0x07, UInt8.ofNat (rank device i)⟩
  else ⟨regvalue >>> 3, subBoardName[subBoardTypeNum]?, 0, 0⟩

theorem boardInfo_type : (boardInfo device i).type = device i fsubRevAddr >>> 3 := by
  unfold boardInfo
  dsimp only
  split <;> rfl

theorem boardInfo_typeAt : (boardInfo device i).type.toNat = typeAt device i := by
  rw [boardInfo_type, type_eq]; rfl

theorem boardInfo_seq : (boardInfo device i).seq =
    if typeAt device i < subBoardTypeNum then UInt8.ofNat (rank device i) else 0 := by
  unfold boardInfo
  dsimp only
  split <;> rfl

/-- The loop leaves the number behind that of the last earlier board of the type, which is that board's rank and so
one below the rank of the slot. -/
theorem countSeq_spec (ht : typeAt device i < subBoardTypeNum) (hb : ∀ j < i, b.subBoardInfo j = boardInfo device j)
    (h0 : (b.subBoardInfo i).seq = 0) : countSeq (device i fsubRevAddr >>> 3) i b =
      b.setInfo i ({ · with seq := UInt8.ofNat (rank device i) }) := by
  refine loop_inv (n := i) (s := b) (I := fun k (c : SubBoards) => c =
    b.setInfo i ({ · with seq := UInt8.ofNat (Nat.count (typeAt device · = typeAt device i) k) })) ?_ ?_
  · rw [Nat.count_zero]
    show b = b.setInfo i ({ · with seq := 0 })
    rw [← h0, setInfo, Function.update_eq_self]
  · rintro k hki c rfl
    rw [Nat.count_succ, setInfo_of_ne hki.ne, hb k hki]
    by_cases he : typeAt device k = typeAt device i
    · -- the slot `k` has the type of the slot `i`, so its number is its rank
      have hseq : (boardInfo device k).seq = UInt8.ofNat (Nat.count (typeAt device · = typeAt device i) k) := by
        rw [boardInfo_seq, if_pos (he ▸ ht), rank, he]
      have htype : (boardInfo device k).type = device i fsubRevAddr >>> 3 := by
        rw [← UInt8.toNat_inj, boardInfo_typeAt, he, type_eq]; rfl
      rw [if_pos htype, if_pos he, hseq, setInfo_setInfo, UInt8.ofNat_add]; rfl
    · have htype : (boardInfo device k).type ≠ device i fsubRevAddr >>> 3 := fun hc => he (by
        rw [← boardInfo_typeAt, hc, type_eq]; rfl)
      rw [if_neg htype, if_neg he, Nat.add_zero]

theorem identify_spec (hb : ∀ j < i, b.subBoardInfo j = boardInfo device j) :
    b.identify (device i fsubRevAddr) i = b.setInfo i fun _ => boardInfo device i := by
  unfold identify
  dsimp only
  rw [type_eq, show (device i fsubRevAddr).toNat / 8 = typeAt device i from rfl]
  by_cases ht : typeAt device i < subBoardTypeNum
  · have hinfo : boardInfo device i = ⟨device i fsubRevAddr >>> 3, subBoardName[typeAt device i]?,
        device i fsubRevAddr &&& 0x07, UInt8.ofNat (rank device i)⟩ := if_pos ht
    rw [if_pos ht, hinfo, setInfo_setInfo]
    by_cases hi : i = 0
    · have hrank : rank device i = 0 := by rw [rank, hi, Nat.count_zero]
      rw [if_pos hi, hrank, setInfo_setInfo]; rfl
    · have hsame {f : SubBoardInfo → SubBoardInfo} : ∀ j < i, (b.setInfo i f).subBoardInfo j = boardInfo device j :=
        fun j hj => (setInfo_of_ne hj.ne).trans (hb j hj)
      rw [if_neg hi, setInfo_setInfo, countSeq_spec ht hsame (by rw [setInfo_self]), setInfo_setInfo]
  · have hinfo : boardInfo device i = ⟨device i fsubRevAddr >>> 3, subBoardName[subBoardTypeNum]?, 0, 0⟩ := if_neg ht
    rw [if_neg ht, hinfo, setInfo_setInfo]

/-- Behind `SUB_Init`. -/
structure Ready (device : Nat → Nat → UInt8) (b : SubBoards) : Prop where
  subInitFlag : b.subInitFlag = true
  subBoardInfo : ∀ i < subBoardNum, b.subBoardInfo i = boardInfo device i

/-- The boards are read, identified and numbered, whatever there was in `SubBoardInfo` before. -/
theorem subInit_spec (device : Nat → Nat → UInt8) (b : SubBoards) : ∃ s b', subInit device b = some (s, b') ∧
    Sub.subInit device = some s ∧ Ready device b' := by
  obtain ⟨s, hs, hi, hdev⟩ := Sub.inv_of_configReads device
  have hloop := loop_inv (b := identifySite) (n := subBoardNum) (s := some (s, { b with subInitFlag := true }))
    (I := fun k x => ∃ c, x = some (s, c) ∧ c.subInitFlag = true ∧ ∀ i < k, c.subBoardInfo i = boardInfo device i)
    ⟨_, rfl, rfl, fun i hi => absurd hi (Nat.not_lt_zero i)⟩ ?_
  · obtain ⟨b', hb', hflag, hinfo⟩ := hloop
    refine ⟨s, b', ?_, Sub.subInit_of_configReads hs hi, hflag, hinfo⟩
    rw [subInit, hs, Option.bind_some, hb']
  · rintro k hk x ⟨c, rfl, hflag, hinfo⟩
    have hread : s.subReadByte fsubRevAddr k = some (device k fsubRevAddr, s) := by
      rw [Sub.subReadByte_eq hi.toReady (by decide) hk, hdev,
        Sub.setReg_self ((hi.cache k hk fsubRevAddr (by decide)).trans (by rw [hdev]))]
    refine ⟨c.setInfo k fun _ => boardInfo device k, ?_, hflag, fun i hik => ?_⟩
    · rw [identifySite, hread]
      dsimp only
      rw [identify_spec hinfo]
    · by_cases he : i = k
      · rw [he, setInfo_self]
      · rw [setInfo_of_ne he, hinfo i (by omega)]

/-! ### Lookups -/

theorem mem_boardsOf : i ∈ boardsOf device t ↔ i < subBoardNum ∧ typeAt device i = t :=
  Rank.mem_places

theorem boardsOf_getD_eq_iff :
    (boardsOf device t).getD n subBoardNum = subBoardNum ↔ (boardsOf device t).length ≤ n := by
  rw [List.getD_eq_getElem?_getD]
  by_cases hn : n < (boardsOf device t).length
  · rw [List.getElem?_eq_getElem hn, Option.getD_some]
    have hlt := (mem_boardsOf.1 (List.getElem_mem hn)).1
    exact ⟨fun h => absurd h hlt.ne, fun h => absurd hn (Nat.not_lt_of_le h)⟩
  · rw [List.getElem?_eq_none (Nat.le_of_not_lt hn)]
    exact ⟨fun _ => Nat.le_of_not_lt hn, fun _ => rfl⟩

namespace Ready

variable {k : UInt8}

theorem lookup_eq (h : Ready device b) {q : Nat → Bool} {r : Option Nat} (hr : (List.range subBoardNum).find? q = r)
    (hq : ∀ i < subBoardNum, q i = true ↔ typeAt device i = t ∧ (boardInfo device i).seq = k) :
    subGetSiteFromSeq t k b = some (r.getD subBoardNum) := by
  rw [subGetSiteFromSeq, if_neg (by rw [h.subInitFlag]; decide), ← hr]
  congr 2
  refine List.find?_congr fun i hi => Bool.eq_iff_iff.2 ?_
  have hi := List.mem_range.1 hi
  rw [hq i hi, h.subBoardInfo i hi, boardInfo_typeAt, Bool.and_eq_true, decide_eq_true_iff, decide_eq_true_iff,
    eq_comm (a := t), eq_comm (a := k)]

/-- The number of a board of a known type is its rank. -/
theorem seq_eq_iff (ht : t < subBoardTypeNum) (hi : i < subBoardNum) (hti : typeAt device i = t) :
    (boardInfo device i).seq = k ↔ Nat.count (typeAt device · = t) i = k.toNat := by
  have hlt : Nat.count (typeAt device · = t) i < 2 ^ 8 := ((Nat.count_le _).trans_lt hi).trans (by decide)
  rw [boardInfo_seq, if_pos (hti ▸ ht), rank, hti, ← UInt8.toNat_inj, UInt8.toNat_ofNat_of_lt' hlt]

theorem lookup_known (h : Ready device b) (ht : t < subBoardTypeNum) :
    subGetSiteFromSeq t k b = some ((boardsOf device t).getD k.toNat subBoardNum) := by
  rw [List.getD_eq_getElem?_getD]
  refine h.lookup_eq (q := fun i => typeAt device i = t && Nat.count (typeAt device · = t) i = k.toNat)
    (Rank.find?_rank fun i _ => ?_) fun i hi => ?_
  · rw [Bool.and_eq_true, decide_eq_true_iff, decide_eq_true_iff]
  · rw [Bool.and_eq_true, decide_eq_true_iff, decide_eq_true_iff]
    exact and_congr_right fun hti => (seq_eq_iff ht hi hti).symm

theorem lookup_unknown (h : Ready device b) (ht : subBoardTypeNum ≤ t) :
    subGetSiteFromSeq t k b = some (if k = 0 then (boardsOf device t).getD 0 subBoardNum else subBoardNum) := by
  have hseq {i : Nat} (hti : typeAt device i = t) : (boardInfo device i).seq = 0 := by
    rw [boardInfo_seq, if_neg (by rw [hti]; exact Nat.not_lt_of_le ht)]
  by_cases hk : k = 0
  · subst hk
    rw [if_pos rfl, List.getD_eq_getElem?_getD]
    refine h.lookup_eq (q := fun i => typeAt device i = t)
      (Rank.find?_places fun i _ => decide_eq_true_iff) fun i _ => ?_
    rw [decide_eq_true_iff]
    exact ⟨fun hti => ⟨hti, hseq hti⟩, And.left⟩
  · rw [if_neg hk]
    refine h.lookup_eq (q := fun _ => false) (r := none) (List.find?_eq_none.2 fun i _ => Bool.false_ne_true)
      fun i _ => ?_
    exact ⟨fun hc => absurd hc Bool.false_ne_true, fun ⟨hti, hc⟩ => absurd (hc.symm.trans (hseq hti)) hk⟩

end Ready

/-- The boards of a type have the numbers from 0 on in the order of their slots. -/
def Numbered (device : Nat → Nat → UInt8) (b : SubBoards) (t : Nat) : Prop :=
  (boardsOf device t).map (fun i => (b.subBoardInfo i).seq.toNat) = List.range (boardsOf device t).length

/-- A lookup finds the board of the type with `k` such boards before it or, if there is none, no board; it finds none
of another type. -/
structure LooksUp (device : Nat → Nat → UInt8) (b : SubBoards) (t : Nat) : Prop where
  site : ∀ k : UInt8, subGetSiteFromSeq t k b = some ((boardsOf device t).getD k.toNat subBoardNum)
  none_iff : ∀ k : UInt8, subGetSiteFromSeq t k b = some subBoardNum ↔ (boardsOf device t).length ≤ k.toNat
  type : ∀ (k : UInt8) (i : Nat), subGetSiteFromSeq t k b = some i → i < subBoardNum → typeAt device i = t

theorem Ready.numbered (h : Ready device b) (ht : t < subBoardTypeNum) : Numbered device b t := by
  rw [Numbered, boardsOf, ← Rank.map_count_places]
  refine List.map_congr_left fun i hi => ?_
  obtain ⟨hi, hti⟩ := Rank.mem_places.1 hi
  rw [h.subBoardInfo i hi]
  exact ((seq_eq_iff ht hi hti).1 rfl).symm

theorem Ready.looksUp (h : Ready device b) (ht : t < subBoardTypeNum) : LooksUp device b t := by
  refine ⟨fun k => h.lookup_known ht, fun k => ?_, fun k i hs hi => ?_⟩
  · rw [h.lookup_known ht, Option.some.injEq, boardsOf_getD_eq_iff]
  · rw [h.lookup_known ht, Option.some.injEq, List.getD_eq_getElem?_getD] at hs
    cases hg : (boardsOf device t)[k.toNat]? with
    | none =>
      rw [hg] at hs
      exact absurd hs.symm hi.ne
    | some j =>
      rw [hg] at hs
      cases hs
      exact (mem_boardsOf.1 (List.mem_of_getElem? hg)).2

/-- Behind `SUB_Init` the boards of the known types are numbered and looked up as they should be; of an unknown type,
only the first board is found. -/
theorem inverse_of_subInit (device : Nat → Nat → UInt8) (b : SubBoards) : ∃ s b', subInit device b = some (s, b') ∧
    (∀ t < subBoardTypeNum, Numbered device b' t ∧ LooksUp device b' t) ∧
    ∀ t, subBoardTypeNum ≤ t → ∀ k, subGetSiteFromSeq t k b' =
      some (if k = 0 then (boardsOf device t).getD 0 subBoardNum else subBoardNum) := by
  obtain ⟨s, b', hinit, -, h⟩ := subInit_spec device b
  exact ⟨s, b', hinit, fun t ht => ⟨h.numbered ht, h.looksUp ht⟩, fun t ht k => h.lookup_unknown ht⟩

/-- Two boards of the type 6, which is not a known one: the second is not found. -/
theorem not_looksUp_of_unknown : ∃ device s b', device = (fun i _ => if i < 2 then 0x30 else 0) ∧
    subInit device ⟨false, fun _ => ⟨0, none, 0, 0⟩⟩ = some (s, b') ∧ boardsOf device 6 = [0, 1] ∧
    subGetSiteFromSeq 6 1 b' = some subBoardNum ∧ ¬ LooksUp device b' 6 := by
  obtain ⟨s, b', hinit, -, hready⟩ := subInit_spec (fun i _ => if i < 2 then 0x30 else 0)
    ⟨false, fun _ => ⟨0, none, 0, 0⟩⟩
  have hboards : boardsOf (fun i _ => if i < 2 then 0x30 else 0) 6 = [0, 1] := by decide
  have hsite : subGetSiteFromSeq 6 1 b' = some subBoardNum := by
    rw [hready.lookup_unknown (t := 6) (le_refl subBoardTypeNum), if_neg (by decide)]
  refine ⟨_, s, b', rfl, hinit, hboards, hsite, fun h => ?_⟩
  have hlen := (h.none_iff 1).1 hsite
  rw [hboards] at hlen
  exact absurd hlen (by decide)

end SubBoards

end Bootloader
