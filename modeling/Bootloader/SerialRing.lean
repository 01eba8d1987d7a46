import Bootloader.Lib.Transition
import Bootloader.Flash

/-!
# The receive ring of the serial ports

`bsp_commrtos.c`: `comm_put_rx_char`, called by the interrupt, and `comm_get_char`, called by any number of
threads, in two steps: `rt_sem_take` and the section with interrupts disabled. The semaphore is that of the
kernel: a release hands over to the call that has waited longest, and counts only if none waits.
-/

namespace Bootloader

def commCountMax : Nat := 6

def commRxBufSize : Nat := 256

/-- The receive part of `COMM_RING_BUF`, the pointers as indices. `waiting` are the calls suspended on the
semaphore with their `iTime`, the one waiting longest first; `taken` are those that have taken it and are
before their section. -/
structure CommRingBuf where
  rxCtr : Nat
  value : Nat
  waiting : List (Nat × Int)
  taken : List Nat
  inPtr : Nat
  outPtr : Nat
  rx : Nat → UInt8

inductive CommRingAct
  /-- `comm_put_rx_char`. -/
  | put (ch : Nat) (c : UInt8)
  /-- `comm_get_char` up to the end of `rt_sem_take`, or until it is suspended there. -/
  | take (ch call : Nat) (iTime : Int)
  /-- The timer of a suspended call: `comm_get_char` returns `COMM_RX_TIMEOUT`. -/
  | timeout (ch call : Nat) (iTime : Int)
  /-- The section with interrupts disabled: `comm_get_char` returns a character. -/
  | get (ch call : Nat)

namespace CommRingBuf

/-- `comm_init`, for a port whose characters nobody has asked for. -/
def init (rx : Nat → UInt8) : CommRingBuf := ⟨0, 0, [], [], 0, 0, rx⟩

/-- A pointer behind `RingBufRxInPtr++` or `RingBufRxOutPtr++` and the test for the end. -/
def wrap (ptr : Nat) : Nat := if ptr + 1 = commRxBufSize then 0 else ptr + 1

/-- `rt_sem_release`. -/
def semRelease (r : CommRingBuf) : CommRingBuf :=
  match r.waiting with
  | (call, _) :: waiting => { r with waiting := waiting, taken := r.taken ++ [call] }
  | [] => { r with value := (r.value + 1) % 2 ^ 16 }

/-- A character at `RingBufRxInPtr`. -/
def insert (c : UInt8) (r : CommRingBuf) : CommRingBuf :=
  { r with
    rxCtr := u32 (r.rxCtr + 1)
    rx := fun k => if k = r.inPtr then c else r.rx k
    inPtr := wrap r.inPtr }

/-- `comm_put_rx_char`. -/
def put (c : UInt8) (r : CommRingBuf) : CommRingBuf :=
  if r.rxCtr < commRxBufSize then (r.insert c).semRelease else r

/-- `rt_sem_take`. -/
def take (call : Nat) (iTime : Int) (r : CommRingBuf) : CommRingBuf :=
  if 0 < r.value then { r with value := r.value - 1, taken := r.taken ++ [call] }
  else if iTime = 0 then r
  else { r with waiting := r.waiting ++ [(call, iTime)] }

/-- The section of `comm_get_char`. -/
def get (call : Nat) (r : CommRingBuf) : CommRingBuf :=
  { r with
    rxCtr := u32 (r.rxCtr + (2 ^ 32 - 1))
    outPtr := wrap r.outPtr
    taken := r.taken.erase call }

/-- A step of one port. -/
def step : CommRingAct → CommRingBuf → Option CommRingBuf
  | .put _ c, r => some (r.put c)
  | .take _ call iTime, r => some (r.take call iTime)
  | .timeout _ call iTime, r =>
    if (call, iTime) ∈ r.waiting ∧ 0 < iTime then some { r with waiting := r.waiting.erase (call, iTime) } else none
  | .get _ call, r => if call ∈ r.taken then some (r.get call) else none

/-- The character that a step puts into the ring. -/
def puts (r : CommRingBuf) : CommRingAct → Option UInt8
  | .put _ c => if r.rxCtr < commRxBufSize then some c else none
  | _ => none

/-- The character that a step returns with `COMM_NO_ERR`. -/
def gets (r : CommRingBuf) : CommRingAct → Option UInt8
  | .get _ _ => some (r.rx r.outPtr)
  | _ => none

end CommRingBuf

namespace CommRingAct

def ch : CommRingAct → Nat
  | .put ch _ | .take ch _ _ | .timeout ch _ _ | .get ch _ => ch

end CommRingAct

/-- `CommRingBuf`, the ports by their number. -/
abbrev CommPorts := Nat → CommRingBuf

namespace CommPorts
open CommRingBuf

/-- A port that does not exist returns at once. -/
def step (a : CommRingAct) (s : CommPorts) : Option CommPorts :=
  if a.ch < commCountMax then ((s a.ch).step a).map fun r => Function.update s a.ch r else some s

def system : Lts CommPorts CommRingAct where
  init s := ∀ ch, ∃ rx, s ch = init rx
  step := step

/-! ### What a run has done -/

/-- The characters accepted for port `ch`, in order. -/
def accepted (ch : Nat) : List (CommPorts × CommRingAct) → List UInt8
  | [] => []
  | (s, a) :: h => if a.ch = ch then accepted ch h ++ ((s ch).puts a).toList else accepted ch h

/-- The characters returned from port `ch`, in the order of the sections. -/
def returned (ch : Nat) : List (CommPorts × CommRingAct) → List UInt8
  | [] => []
  | (s, a) :: h => if a.ch = ch then returned ch h ++ ((s ch).gets a).toList else returned ch h

end CommPorts

namespace CommRingBuf

/-- The cell of the unread character `i`. -/
def cell (r : CommRingBuf) (i : Nat) : Nat := (r.outPtr + i) % commRxBufSize

def unread (r : CommRingBuf) : List UInt8 := (List.range r.rxCtr).map fun i => r.rx (r.cell i)

structure Inv (r : CommRingBuf) : Prop where
  le : r.rxCtr ≤ commRxBufSize
  ctr : r.rxCtr = r.value + r.taken.length
  outPtr : r.outPtr < commRxBufSize
  inPtr : r.inPtr = r.cell r.rxCtr

variable {r r' : CommRingBuf} {c : UInt8} {call : Nat} {iTime : Int}

theorem wrap_eq {ptr : Nat} (h : ptr < commRxBufSize) : wrap ptr = (ptr + 1) % commRxBufSize := by
  rw [wrap]
  split
  · next he => rw [he, Nat.mod_self]
  · exact (Nat.mod_eq_of_lt (by omega)).symm

/-- The cell that the next character goes to holds no unread one. -/
theorem cell_ne_inPtr (h : r.Inv) {i : Nat} (hlt : r.rxCtr < commRxBufSize) (hi : i < r.rxCtr) :
    r.cell i ≠ r.inPtr := by
  rw [h.inPtr, cell, cell]
  have := h.outPtr
  unfold commRxBufSize at *
  omega

/-- A release leaves the ring and adds one unit, in the value or as a call behind its take. -/
theorem semRelease_eq (hv : r.value + 1 < 2 ^ 16) : r.semRelease.rxCtr = r.rxCtr ∧
    r.semRelease.inPtr = r.inPtr ∧ r.semRelease.outPtr = r.outPtr ∧ r.semRelease.rx = r.rx ∧
    r.semRelease.value + r.semRelease.taken.length = r.value + r.taken.length + 1 := by
  rw [semRelease]
  split
  · refine ⟨rfl, rfl, rfl, rfl, ?_⟩
    dsimp only
    rw [List.length_append]; rfl
  · refine ⟨rfl, rfl, rfl, rfl, ?_⟩
    dsimp only
    rw [Nat.mod_eq_of_lt hv]
    omega

theorem unread_congr (hc : r'.rxCtr = r.rxCtr) (ho : r'.outPtr = r.outPtr) (hx : r'.rx = r.rx) :
    r'.unread = r.unread := by
  rw [unread, unread, hc, hx]
  exact List.map_congr_left fun i _ => by rw [cell, cell, ho]

theorem Inv.congr (h : r.Inv) (hc : r'.rxCtr = r.rxCtr) (ho : r'.outPtr = r.outPtr) (hi : r'.inPtr = r.inPtr)
    (hs : r'.value + r'.taken.length = r.value + r.taken.length) : r'.Inv :=
  ⟨hc ▸ h.le, by rw [hc, hs, h.ctr], ho ▸ h.outPtr, by rw [hi, h.inPtr, hc, cell, cell, ho]⟩

theorem cell_succ {i : Nat} : r.cell (i + 1) = (r.cell i + 1) % commRxBufSize := by
  rw [cell, cell, Nat.mod_add_mod, Nat.add_assoc]

theorem insert_rxCtr (hlt : r.rxCtr < commRxBufSize) : (r.insert c).rxCtr = r.rxCtr + 1 := by
  rw [insert]
  exact Nat.mod_eq_of_lt (Nat.lt_of_le_of_lt hlt (by decide))

theorem unread_insert (h : r.Inv) (hlt : r.rxCtr < commRxBufSize) : (r.insert c).unread = r.unread ++ [c] := by
  rw [unread, insert_rxCtr hlt, List.range_succ, List.map_append, unread]
  refine congrArg₂ (· ++ ·) (List.map_congr_left fun i hi => ?_) ?_
  · exact if_neg (cell_ne_inPtr h hlt (List.mem_range.1 hi))
  · exact congrArg (fun x => [x]) (if_pos h.inPtr.symm)

/-- A character accepted is the last unread one. -/
theorem Inv.put (h : r.Inv) (hlt : r.rxCtr < commRxBufSize) :
    (r.put c).Inv ∧ (r.put c).unread = r.unread ++ [c] := by
  have hval : (r.insert c).value + 1 < 2 ^ 16 := by
    have := h.ctr
    rw [insert]
    unfold commRxBufSize at hlt
    dsimp only
    omega
  obtain ⟨h1, h2, h3, h4, h5⟩ := semRelease_eq hval
  have hin : r.inPtr < commRxBufSize := h.inPtr ▸ Nat.mod_lt _ (by decide)
  rw [CommRingBuf.put, if_pos hlt]
  refine ⟨⟨?_, ?_, ?_, ?_⟩, ?_⟩
  · rw [h1, insert_rxCtr hlt]; exact hlt
  · rw [h1, h5, insert_rxCtr hlt, h.ctr]; rfl
  · rw [h3]; exact h.outPtr
  · rw [h2, h1, insert_rxCtr hlt, cell, h3]
    show wrap r.inPtr = r.cell (r.rxCtr + 1)
    rw [wrap_eq hin, cell_succ, h.inPtr]
  · rw [unread_congr h1 h3 h4, unread_insert h hlt]

/-- A section takes the first unread character. -/
theorem Inv.get (h : r.Inv) (hmem : call ∈ r.taken) :
    (r.get call).Inv ∧ r.unread = r.rx r.outPtr :: (r.get call).unread := by
  have hpos : 0 < r.taken.length := List.length_pos_of_mem hmem
  obtain ⟨n, hn⟩ : ∃ n, r.rxCtr = n + 1 := ⟨r.rxCtr - 1, by have := h.ctr; omega⟩
  have hctr : (r.get call).rxCtr = n := by
    have := h.le
    rw [CommRingBuf.get, u32, hn]
    unfold commRxBufSize at this
    dsimp only
    omega
  have hcell : ∀ i, (r.get call).cell i = r.cell (i + 1) := fun i => by
    rw [cell, cell, CommRingBuf.get]
    dsimp only
    rw [wrap_eq h.outPtr, Nat.mod_add_mod, Nat.add_assoc, Nat.add_comm 1 i]
  refine ⟨⟨?_, ?_, ?_, ?_⟩, ?_⟩
  · have := h.le
    omega
  · have := h.ctr
    rw [hctr, CommRingBuf.get]
    dsimp only
    rw [List.length_erase_of_mem hmem]
    omega
  · rw [CommRingBuf.get]
    dsimp only
    rw [wrap_eq h.outPtr]
    exact Nat.mod_lt _ (by decide)
  · rw [hcell, hctr, ← hn, ← h.inPtr, CommRingBuf.get]
  · rw [unread, unread, hctr, hn, List.range_succ_eq_map, List.map_cons, List.map_map]
    refine congrArg₂ List.cons ?_ (List.map_congr_left fun i _ => ?_)
    · rw [cell, Nat.add_zero, Nat.mod_eq_of_lt h.outPtr]
    · rw [Function.comp_apply, hcell]; rfl

theorem Inv.take (call : Nat) (iTime : Int) (h : r.Inv) :
    (r.take call iTime).Inv ∧ (r.take call iTime).unread = r.unread := by
  rw [CommRingBuf.take]
  split
  · refine ⟨h.congr rfl rfl rfl ?_, unread_congr rfl rfl rfl⟩
    dsimp only
    rw [List.length_append, List.length_singleton]
    omega
  · split
    · exact ⟨h, rfl⟩
    · exact ⟨h.congr rfl rfl rfl rfl, unread_congr rfl rfl rfl⟩

/-- A step of a port: what was unread and what it puts is what it returns and what is unread then. -/
theorem Inv.step {a : CommRingAct} (h : r.Inv) (hs : r.step a = some r') :
    r'.Inv ∧ r.unread ++ (r.puts a).toList = (r.gets a).toList ++ r'.unread := by
  cases a with
  | put _ c =>
    cases hs
    by_cases hlt : r.rxCtr < commRxBufSize
    · obtain ⟨hi, hq⟩ := h.put (c := c) hlt
      rw [puts, if_pos hlt]
      exact ⟨hi, hq.symm⟩
    · rw [puts, if_neg hlt, CommRingBuf.put, if_neg hlt]
      exact ⟨h, List.append_nil _⟩
  | take _ call iTime =>
    cases hs
    obtain ⟨hi, hq⟩ := h.take call iTime
    exact ⟨hi, (List.append_nil _).trans hq.symm⟩
  | timeout _ call iTime =>
    rw [CommRingBuf.step] at hs
    split at hs
    · cases hs
      have hq : CommRingBuf.unread { r with waiting := r.waiting.erase (call, iTime) } = r.unread :=
        unread_congr rfl rfl rfl
      refine ⟨h.congr rfl rfl rfl rfl, ?_⟩
      simp only [puts, gets, Option.toList_none, List.append_nil, List.nil_append, hq]
    · cases hs
  | get _ call =>
    rw [CommRingBuf.step] at hs
    split at hs
    · next hmem =>
      rw [Option.some.injEq] at hs
      obtain ⟨hi, hq⟩ := h.get hmem
      rw [← hs]
      refine ⟨hi, ?_⟩
      simp only [puts, gets, Option.toList_none, Option.toList_some, List.append_nil, List.singleton_append, hq]
    · cases hs

end CommRingBuf

namespace CommPorts
open CommRingBuf

variable {h : List (CommPorts × CommRingAct)} {s : CommPorts} {ch : Nat}

/-- The receive ring of a port is a queue: the characters returned are the first of those accepted, the rest is
in the ring, the counter counts what the semaphore grants, and the next character overwrites no unread one. -/
structure Law (ch : Nat) (h : List (CommPorts × CommRingAct)) (s : CommPorts) : Prop where
  isPrefix : returned ch h <+: accepted ch h
  unread : accepted ch h = returned ch h ++ (s ch).unread
  ctr : (s ch).rxCtr = (s ch).value + (s ch).taken.length
  inPtr : (s ch).inPtr = ((s ch).outPtr + (s ch).rxCtr) % commRxBufSize
  free : (s ch).rxCtr < commRxBufSize → ∀ i < (s ch).rxCtr, (s ch).cell i ≠ (s ch).inPtr

theorem inv_of_run (hr : system.Run h s) (hch : ch < commCountMax) :
    (s ch).Inv ∧ accepted ch h = returned ch h ++ (s ch).unread := by
  refine hr.inv' (I := fun h s => (s ch).Inv ∧ accepted ch h = returned ch h ++ (s ch).unread) ?_ ?_
  · intro s hs
    obtain ⟨rx, hrx⟩ := hs ch
    rw [hrx]
    exact ⟨⟨Nat.zero_le _, rfl, Nat.zero_lt_succ _, rfl⟩, rfl⟩
  · rintro h s a s' ⟨hi, hq⟩ hs
    rw [show system.step a s = CommPorts.step a s from rfl, CommPorts.step] at hs
    rw [accepted, returned]
    by_cases ha : a.ch = ch
    · rw [ha, if_pos hch, Option.map_eq_some_iff] at hs
      obtain ⟨r, hr, rfl⟩ := hs
      obtain ⟨hi', hq'⟩ := hi.step hr
      rw [Function.update_self, if_pos ha, if_pos ha, List.append_assoc, ← hq', ← List.append_assoc, ← hq]
      exact ⟨hi', rfl⟩
    · have hsame : s' ch = s ch := by
        split at hs
        · rw [Option.map_eq_some_iff] at hs
          obtain ⟨r, -, rfl⟩ := hs
          exact Function.update_of_ne (Ne.symm ha) _ _
        · cases hs; rfl
      rw [hsame, if_neg ha, if_neg ha]
      exact ⟨hi, hq⟩

theorem port_law_of_run (hr : system.Run h s) (hch : ch < commCountMax) : Law ch h s := by
  obtain ⟨hi, hq⟩ := inv_of_run hr hch
  exact ⟨hq ▸ List.prefix_append _ _, hq, hi.ctr, hi.inPtr, fun hlt _ => cell_ne_inPtr hi hlt⟩

/-- Two calls wait, a third takes the first character as soon as it is there, and the time of one is over. -/
theorem port_law_of_run_waiting :
    ∃ h s, system.Run h s ∧ accepted 1 h = [7, 8, 9] ∧ returned 1 h = [7, 8] ∧ Law 1 h s := by
  obtain ⟨h, s, hr, ha, hg⟩ := system.exists_run_of_exec
    [.take 1 0 (-1), .take 1 1 10, .put 1 7, .timeout 1 1 10, .put 1 8, .take 1 2 0, .get 1 2, .put 1 9, .get 1 0]
    (show system.init fun _ => init fun _ => 0 from fun _ => ⟨_, rfl⟩)
    (P := fun h _ => accepted 1 h = [7, 8, 9] ∧ returned 1 h = [7, 8]) (by decide +kernel)
  exact ⟨h, s, hr, ha, hg, port_law_of_run hr (by decide)⟩

end CommPorts

end Bootloader
