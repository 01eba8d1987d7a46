import Bootloader.History

/-!
# The receive loop

`network_commu_thread_entry` with the queue of the UDP socket, statement by statement: `select`, then
`recvfrom` and its branches. While the socket is open lwIP answers both calls; once it is closed nothing is
assumed of them, and the action of the step says what they return. In the device a whole round is one
step (`Device.deliver`); `deliver_of_recvfrom` says that the two agree.
-/

namespace Bootloader

inductive CommuPc
  | select
  | recvfrom
  /-- The loop has been left. -/
  | exited
deriving DecidableEq, Repr

/-- The socket, the datagrams in it, the oldest first, and the variables that the thread writes. It only
releases the two semaphores, so they stand for the number of their releases. -/
structure Commu where
  socket : Bool
  queue : List (List UInt8 × Nat)
  recvLen : Nat
  pRecvBuf : Mem
  sockAddr : Nat
  recvSem : Nat
  netWorkRecvSem : Nat
  pc : CommuPc

inductive CommuAct
  /-- A datagram arrives. -/
  | arrive (d : List UInt8) (addr : Nat)
  /-- `select`; on a closed socket it returns `dead`, and `isset` is its mark for the socket. -/
  | select (dead : Int) (isset : Bool)
  /-- `recvfrom` and what follows it; on a closed socket it fails or returns `dead`. -/
  | recvfrom (dead : Option (List UInt8 × Nat))

namespace Commu

/-- The loop when it is entered: the socket is open. -/
def start (pRecvBuf : Mem) : Commu := ⟨true, [], 0, pRecvBuf, 0, 0, 0, .select⟩

/-- The branches behind `recvfrom` when it returns the bytes `d` of the sender `addr`. -/
def received (d : List UInt8) (addr : Nat) (s : Commu) : Commu :=
  if d.length = 0 then { s with socket := false, pc := .select }
  else if d.length < udpRecvBufLen then
    { s with
      recvLen := d.length
      pRecvBuf := s.pRecvBuf.write 0 d
      sockAddr := addr
      recvSem := s.recvSem + 1
      netWorkRecvSem := s.netWorkRecvSem + 1
      pc := .select }
  else { s with recvLen := d.length, pc := .select }

def step : CommuAct → Commu → Option Commu
  | .arrive d addr, s => some { s with queue := if s.socket then s.queue ++ [(d, addr)] else s.queue }
  | .select dead isset, s =>
    if s.pc = .select then
      let error := if s.socket then if s.queue = [] then 0 else 1 else dead
      if error = -1 then some { s with pc := .exited }
      else if error = 0 then some s
      else if s.socket ∨ isset then some { s with pc := .recvfrom }
      else some s
    else none
  | .recvfrom dead, s =>
    if s.pc = .recvfrom then
      if s.socket then
        match s.queue with
        | [] => none
        | (d, addr) :: queue => some (({ s with queue := queue }).received (d.take Device.commuBufLen) addr)
      else
        match dead with
        | some (d, addr) => some (s.received (d.take Device.commuBufLen) addr)
        | none => some { s with socket := false, pc := .exited }
    else none

def system : Lts Commu CommuAct where
  init s := ∃ pRecvBuf, s = start pRecvBuf
  step := step

/-! ### What a run has done -/

/-- The datagram that a step takes from the socket. -/
def takes (s : Commu) : CommuAct → Option (List UInt8 × Nat)
  | .recvfrom _ => if s.socket then s.queue.head? else none
  | _ => none

/-- The datagrams taken from the socket, in order. -/
def taken : List (Commu × CommuAct) → List (List UInt8 × Nat)
  | [] => []
  | (s, a) :: h => taken h ++ (s.takes a).toList

/-- The datagrams that have arrived while the socket was open, in order. -/
def arrived : List (Commu × CommuAct) → List (List UInt8 × Nat)
  | [] => []
  | (s, .arrive d addr) :: h => if s.socket then arrived h ++ [(d, addr)] else arrived h
  | _ :: h => arrived h

/-- The datagram with its sender that a step hands over to the process thread. -/
def hands (s : Commu) : CommuAct → Option (List UInt8 × Nat)
  | .recvfrom dead =>
    match if s.socket then s.queue.head? else dead with
    | some (d, addr) =>
      let d := d.take Device.commuBufLen
      if 0 < d.length ∧ d.length < udpRecvBufLen then some (d, addr) else none
    | none => none
  | _ => none

def handed : List (Commu × CommuAct) → List (List UInt8 × Nat)
  | [] => []
  | (s, a) :: h => handed h ++ (s.hands a).toList

/-- A datagram for which the process thread is woken. -/
def fits (x : List UInt8 × Nat) : Bool := decide (0 < x.1.length) && decide (x.1.length < udpRecvBufLen)

/-- A step of the thread. -/
def ofThread : CommuAct → Bool
  | .arrive _ _ => false
  | _ => true

/-- The process thread is woken once for each datagram handed over, and finds the latest of them. -/
structure Woken (h : List (Commu × CommuAct)) (s : Commu) : Prop where
  recvSem : s.recvSem = (handed h).length
  netWorkRecvSem : s.netWorkRecvSem = (handed h).length
  copied : ∀ x, (handed h).getLast? = some x → s.pRecvBuf.read 0 x.1.length = x.1 ∧ s.sockAddr = x.2

/-- The socket is open and the loop has not been left; the datagrams that fit have been handed over, and the
thread alone hands over those that are still in the socket, two steps for each. -/
structure Serves (h : List (Commu × CommuAct)) (s : Commu) : Prop extends Woken h s where
  socket : s.socket = true
  loops : s.pc ≠ .exited
  handed : handed h = (taken h).filter fits
  drains : ∃ as h' s', (∀ a ∈ as, ofThread a = true) ∧ as.length ≤ 2 * s.queue.length ∧
    system.exec as h s = some (h', s') ∧ s'.queue = [] ∧ s'.socket = true ∧ s'.pc ≠ .exited ∧ Woken h' s' ∧
    Commu.handed h' = (arrived h).filter fits

variable {h h' : List (Commu × CommuAct)} {s s' : Commu} {a : CommuAct} {d : List UInt8} {addr : Nat}

/-! ### What a step does -/

@[simp] theorem received_queue : (s.received d addr).queue = s.queue := by
  unfold received
  split
  · rfl
  · split <;> rfl

theorem received_socket (hd : 0 < d.length) :
    (s.received d addr).socket = s.socket ∧ (s.received d addr).pc = .select := by
  rw [received, if_neg (by omega)]
  split <;> exact ⟨rfl, rfl⟩

theorem received_empty (hd : d.length = 0) : s.received d addr = { s with socket := false, pc := .select } :=
  if_pos hd

theorem take_length_eq_zero : (d.take Device.commuBufLen).length = 0 ↔ d = [] := by
  rw [List.length_take, ← List.length_eq_zero_iff]
  have : 0 < Device.commuBufLen := by decide
  omega

theorem fits_iff {x : List UInt8 × Nat} : fits x = true ↔ 0 < x.1.length ∧ x.1.length < udpRecvBufLen := by
  rw [fits, Bool.and_eq_true, decide_eq_true_eq, decide_eq_true_eq]

/-- A datagram that fits is not cut by the thread's own buffer. -/
theorem take_of_fits {x : List UInt8 × Nat} (hx : fits x = true) : x.1.take Device.commuBufLen = x.1 :=
  List.take_of_length_le (Nat.le_of_lt (Nat.lt_trans (fits_iff.1 hx).2 (by decide)))

theorem fits_take : fits (d.take Device.commuBufLen, addr) = fits (d, addr) := by
  have hlt : udpRecvBufLen < Device.commuBufLen := by decide
  rw [Bool.eq_iff_iff, fits_iff, fits_iff]
  dsimp only
  rw [List.length_take]
  omega

/-- What the thread hands over when `recvfrom` returns the datagram `x`. -/
def handsOf (x : List UInt8 × Nat) : Option (List UInt8 × Nat) := if fits x then some x else none

theorem hands_recvfrom {dead : Option (List UInt8 × Nat)} :
    s.hands (.recvfrom dead) = (if s.socket then s.queue.head? else dead).bind handsOf := by
  rw [hands]
  cases (if s.socket then s.queue.head? else dead) with
  | none => rfl
  | some x =>
    obtain ⟨d, addr⟩ := x
    by_cases hf : fits (d, addr) = true
    · have ht := take_of_fits hf
      dsimp only at ht
      simp only [ht, Option.bind_some, handsOf, if_pos hf, if_pos (fits_iff.1 hf)]
    · have hn : ¬ (0 < (d.take Device.commuBufLen).length ∧ (d.take Device.commuBufLen).length < udpRecvBufLen) :=
        fun hc => hf (fits_take ▸ fits_iff.2 hc)
      simp only [Option.bind_some, handsOf, if_neg hf, if_neg hn]

theorem handed_recvfrom {dead : Option (List UInt8 × Nat)} :
    handed ((s, .recvfrom dead) :: h) =
      handed h ++ ((if s.socket then s.queue.head? else dead).toList.filter fits) := by
  rw [handed, hands_recvfrom]
  cases (if s.socket then s.queue.head? else dead) with
  | none => rfl
  | some x => rw [Option.bind_some, handsOf, Option.toList_some, List.filter_singleton]; cases fits x <;> rfl

/-- The steps: an arrival and `select` leave the variables of the process thread; `recvfrom` goes through
`received`, or fails. -/
theorem step_cases (hs : step a s = some s') :
    (∃ d addr, a = .arrive d addr ∧
      s' = { s with queue := if s.socket then s.queue ++ [(d, addr)] else s.queue }) ∨
    (∃ dead isset pc, a = .select dead isset ∧ s' = { s with pc := pc } ∧
      (s.socket = true → pc ≠ .exited ∧ (pc = .recvfrom → s.queue ≠ []))) ∨
    (∃ dead x, a = .recvfrom dead ∧ (if s.socket then s.queue.head? else dead) = some x ∧
      s' = ({ s with queue := if s.socket then s.queue.tail else s.queue }).received
        (x.1.take Device.commuBufLen) x.2) ∨
    (a = .recvfrom none ∧ s.socket = false ∧ s' = { s with pc := .exited }) := by
  cases a with
  | arrive d addr => exact .inl ⟨d, addr, rfl, (Option.some.inj hs).symm⟩
  | select dead isset =>
    refine .inr (.inl ⟨dead, isset, s'.pc, rfl, ?_⟩)
    unfold step at hs
    dsimp only at hs
    split at hs
    · next hpc =>
      by_cases hso : s.socket = true
      · rw [if_pos hso] at hs
        by_cases hq : s.queue = []
        · rw [if_pos hq, if_neg (by decide), if_pos rfl, Option.some.injEq] at hs
          subst hs
          exact ⟨rfl, fun _ => ⟨by rw [hpc]; rintro ⟨⟩, fun hc => by rw [hpc] at hc; cases hc⟩⟩
        · rw [if_neg hq, if_neg (by decide), if_neg (by decide), if_pos (.inl hso), Option.some.injEq] at hs
          subst hs
          exact ⟨rfl, fun _ => ⟨by rintro ⟨⟩, fun _ => hq⟩⟩
      · refine ⟨?_, fun hc => absurd hc hso⟩
        rw [if_neg hso] at hs
        split at hs
        · rw [← Option.some.inj hs]
        · split at hs
          · rw [← Option.some.inj hs]
          · split at hs <;> rw [← Option.some.inj hs]
    · cases hs
  | recvfrom dead =>
    unfold step at hs
    dsimp only at hs
    split at hs
    · split at hs
      · next hso =>
        split at hs
        · cases hs
        · next d addr queue hq =>
          refine .inr (.inr (.inl ⟨dead, (d, addr), rfl, ?_, ?_⟩))
          · rw [if_pos hso, hq]; rfl
          · rw [if_pos hso, hq]; exact (Option.some.inj hs).symm
      · next hso =>
        split at hs
        · next d addr =>
          exact .inr (.inr (.inl ⟨_, (d, addr), rfl, if_neg hso, by rw [if_neg hso]; exact (Option.some.inj hs).symm⟩))
        · exact .inr (.inr (.inr ⟨rfl, Bool.eq_false_iff.2 hso, by
            rw [← Option.some.inj hs, Bool.eq_false_iff.2 hso]⟩))
    · cases hs

/-- The device whose receive thread has the variables of `s` and has released the semaphores of `t`. -/
def toDevice (s : Commu) (t : Device) : Device :=
  { t with
    commu := s.socket
    pRecvBuf := s.pRecvBuf
    sockAddr := s.sockAddr
    recvSem := Semaphore.countUp^[s.recvSem] t.recvSem
    netWorkRecvSem := Semaphore.release^[s.netWorkRecvSem] t.netWorkRecvSem }

/-- What follows `recvfrom` is the round of the device. -/
theorem deliver_of_recvfrom {t : Device} :
    (s.received (d.take Device.commuBufLen) addr).toDevice t = (s.toDevice t).deliver d addr := by
  rw [Device.deliver, received, List.length_take, Nat.min_comm]
  split
  · rfl
  · split
    · next hlt =>
      have ht : d.take Device.commuBufLen = d := List.take_of_length_le (by
        have : udpRecvBufLen < Device.commuBufLen := by decide
        omega)
      simp only [ht, toDevice, Function.iterate_succ_apply']
    · rfl

/-! ### Runs -/

theorem received_fits {x : List UInt8 × Nat} (hf : fits x = true) :
    s.received (x.1.take Device.commuBufLen) x.2 =
      { s with recvLen := x.1.length
               pRecvBuf := s.pRecvBuf.write 0 x.1
               sockAddr := x.2
               recvSem := s.recvSem + 1
               netWorkRecvSem := s.netWorkRecvSem + 1
               pc := .select } := by
  have hx := fits_iff.1 hf
  rw [take_of_fits hf, received, if_neg (Nat.ne_of_gt hx.1), if_pos hx.2]

theorem received_not_fits {x : List UInt8 × Nat} (hf : fits x = false) :
    (s.received (x.1.take Device.commuBufLen) x.2).recvSem = s.recvSem ∧
    (s.received (x.1.take Device.commuBufLen) x.2).netWorkRecvSem = s.netWorkRecvSem ∧
    (s.received (x.1.take Device.commuBufLen) x.2).pRecvBuf = s.pRecvBuf ∧
    (s.received (x.1.take Device.commuBufLen) x.2).sockAddr = s.sockAddr := by
  rw [← @fits_take x.1 x.2, ← Bool.not_eq_true, fits_iff] at hf
  unfold received
  split
  · exact ⟨rfl, rfl, rfl, rfl⟩
  · rw [if_neg fun hc => hf ⟨by dsimp only; omega, hc⟩]
    exact ⟨rfl, rfl, rfl, rfl⟩

theorem Woken.received {x : List UInt8 × Nat} (hw : Woken h s)
    (hh : Commu.handed h' = Commu.handed h ++ [x].filter fits) :
    Woken h' (s.received (x.1.take Device.commuBufLen) x.2) := by
  cases hf : fits x with
  | true =>
    rw [List.filter_singleton, hf] at hh
    rw [received_fits hf]
    refine ⟨?_, ?_, fun y hy => ?_⟩
    · rw [hh, List.length_append, ← hw.recvSem]; rfl
    · rw [hh, List.length_append, ← hw.netWorkRecvSem]; rfl
    · rw [hh, cond_true, List.getLast?_concat, Option.some.injEq] at hy
      subst hy
      refine ⟨?_, rfl⟩
      show (s.pRecvBuf.write 0 x.1).read 0 x.1.length = x.1
      exact Mem.read_write
  | false =>
    rw [List.filter_singleton, hf, cond_false, List.append_nil] at hh
    obtain ⟨h1, h2, h3, h4⟩ := received_not_fits (s := s) hf
    refine ⟨by rw [h1, hh, hw.recvSem], by rw [h2, hh, hw.netWorkRecvSem], ?_⟩
    rw [h3, h4, hh]
    exact hw.copied

/-- A step that hands nothing over and leaves the variables of the process thread. -/
theorem Woken.congr (hw : Woken h s) (hh : Commu.handed h' = Commu.handed h) (h1 : s'.recvSem = s.recvSem)
    (h2 : s'.netWorkRecvSem = s.netWorkRecvSem) (h3 : s'.pRecvBuf = s.pRecvBuf) (h4 : s'.sockAddr = s.sockAddr) :
    Woken h' s' := by
  refine ⟨by rw [h1, hh, hw.recvSem], by rw [h2, hh, hw.netWorkRecvSem], ?_⟩
  rw [h3, h4, hh]
  exact hw.copied

theorem taken_of_ne (ha : s.takes a = none) : taken ((s, a) :: h) = taken h := by
  rw [taken, ha]; exact List.append_nil _

theorem handed_of_ne (ha : s.hands a = none) : handed ((s, a) :: h) = handed h := by
  rw [handed, ha]; exact List.append_nil _

theorem woken_of_run (hr : system.Run h s) : Woken h s := by
  refine hr.inv' (I := Woken) ?_ fun h s a s' hw hs => ?_
  · rintro s ⟨pRecvBuf, rfl⟩
    exact ⟨rfl, rfl, fun x hx => by cases hx⟩
  · obtain ⟨d, addr, rfl, rfl⟩ | ⟨dead, isset, pc, rfl, rfl, -⟩ | ⟨dead, x, rfl, hx, rfl⟩ | ⟨rfl, hso, rfl⟩ :=
      step_cases hs
    · exact hw.congr (handed_of_ne rfl) rfl rfl rfl rfl
    · exact hw.congr (handed_of_ne rfl) rfl rfl rfl rfl
    · refine Woken.received (h := h) ⟨hw.recvSem, hw.netWorkRecvSem, hw.copied⟩ ?_
      rw [handed_recvfrom, hx]; rfl
    · refine hw.congr (handed_of_ne ?_) rfl rfl rfl rfl
      rw [hands_recvfrom, hso]; rfl

/-- While the socket is open no empty datagram has been taken, and what has arrived has been taken or is in
the queue; an empty one has closed it for good. -/
structure Inv (h : List (Commu × CommuAct)) (s : Commu) : Prop where
  loops : s.socket = true → s.pc ≠ .exited
  ready : s.socket = true → s.pc = .recvfrom → s.queue ≠ []
  arrived : s.socket = true → arrived h = taken h ++ s.queue
  handed : s.socket = true → handed h = (taken h).filter fits
  full : s.socket = true → ∀ x ∈ taken h, x.1 ≠ []
  closed : s.socket = false → ∃ x ∈ Commu.arrived h, x.1 = []

/-- `recvfrom` on the open socket takes the oldest datagram; an empty one closes the socket. -/
theorem Inv.recvfrom {x : List UInt8 × Nat} {queue : List (List UInt8 × Nat)} {dead : Option (List UInt8 × Nat)}
    (hi : Inv h s) (hso : s.socket = true) (hq : s.queue = x :: queue) :
    Inv ((s, .recvfrom dead) :: h)
      (({ s with queue := queue }).received (x.1.take Device.commuBufLen) x.2) := by
  have htaken : taken ((s, .recvfrom dead) :: h) = taken h ++ [x] := by
    rw [taken, takes, if_pos hso, hq]; rfl
  have harrived : Commu.arrived ((s, .recvfrom dead) :: h) = taken h ++ (x :: queue) := by
    rw [← hq]; exact hi.arrived hso
  by_cases hx : x.1 = []
  · rw [hx, received_empty rfl]
    refine ⟨by rintro ⟨⟩, by rintro ⟨⟩, by rintro ⟨⟩, by rintro ⟨⟩, by rintro ⟨⟩, fun _ => ⟨x, ?_, hx⟩⟩
    rw [harrived]; exact List.mem_append_right _ List.mem_cons_self
  · obtain ⟨hs, hpc⟩ := @received_socket { s with queue := queue } _ x.2
      (Nat.pos_of_ne_zero fun h0 => hx (take_length_eq_zero.1 h0))
    refine ⟨fun _ => ?_, fun _ hc => ?_, fun _ => ?_, fun _ => ?_, fun _ => ?_, fun hc => ?_⟩
    · rw [hpc]; rintro ⟨⟩
    · rw [hpc] at hc; cases hc
    · rw [harrived, htaken, received_queue, List.append_assoc]; rfl
    · rw [handed_recvfrom, if_pos hso, hq, htaken, List.filter_append, hi.handed hso]; rfl
    · rw [htaken]
      intro y hy
      obtain hy | hy := List.mem_append.1 hy
      · exact hi.full hso y hy
      · rw [List.mem_singleton.1 hy]; exact hx
    · rw [hs] at hc; exact absurd (hso.symm.trans hc) (by decide)

theorem mem_arrived {x : List UInt8 × Nat} (hx : x ∈ arrived h) : x ∈ arrived ((s, a) :: h) := by
  cases a with
  | arrive d addr =>
    rw [arrived]
    split
    · exact List.mem_append_left _ hx
    · exact hx
  | _ => exact hx

/-- A closed socket stays closed. -/
theorem socket_of_closed (hso : s.socket = false) (hs : step a s = some s') : s'.socket = false := by
  obtain ⟨d, addr, rfl, rfl⟩ | ⟨dead, isset, pc, rfl, rfl, -⟩ | ⟨dead, x, rfl, hx, rfl⟩ | ⟨rfl, -, rfl⟩ :=
    step_cases hs
  · exact hso
  · exact hso
  · unfold Commu.received
    split
    · rfl
    · split <;> exact hso
  · exact hso

theorem inv_of_run (hr : system.Run h s) : Inv h s := by
  refine hr.inv' (I := Inv) ?_ fun h s a s' hi hs => ?_
  · rintro s ⟨pRecvBuf, rfl⟩
    exact ⟨by rintro _ ⟨⟩, by rintro _ ⟨⟩, fun _ => rfl, fun _ => rfl, fun _ _ hx => (List.not_mem_nil hx).elim,
      by rintro ⟨⟩⟩
  · cases hso : s.socket with
    | true =>
      obtain ⟨d, addr, rfl, rfl⟩ | ⟨dead, isset, pc, rfl, rfl, hpc⟩ | ⟨dead, x, rfl, hx, rfl⟩ | ⟨rfl, hc, rfl⟩ :=
        step_cases hs
      · refine ⟨fun _ => hi.loops hso, fun _ hpc => ?_, fun _ => ?_, fun _ => ?_, fun _ => ?_, fun hc => ?_⟩
        · simp only [hso, if_true]
          exact List.concat_ne_nil _ _
        · rw [taken_of_ne rfl, Commu.arrived, if_pos hso, hi.arrived hso, List.append_assoc]
          exact congrArg (taken h ++ ·) (if_pos hso).symm
        · rw [handed_of_ne rfl, taken_of_ne rfl, hi.handed hso]
        · rw [taken_of_ne rfl]; exact hi.full hso
        · exact absurd (hso.symm.trans hc) (by decide)
      · obtain ⟨hne, hrdy⟩ := hpc hso
        refine ⟨fun _ => hne, fun _ hc => hrdy hc, fun _ => ?_, fun _ => ?_, fun _ => ?_, fun hc => ?_⟩
        · rw [taken_of_ne rfl]; exact hi.arrived hso
        · rw [handed_of_ne rfl, taken_of_ne rfl, hi.handed hso]
        · rw [taken_of_ne rfl]; exact hi.full hso
        · exact absurd (hso.symm.trans hc) (by decide)
      · rw [if_pos hso] at hx ⊢
        obtain ⟨queue, hq⟩ := List.head?_eq_some_iff.1 hx
        rw [hq, List.tail_cons]
        exact hi.recvfrom hso hq
      · rw [hso] at hc; cases hc
    | false =>
      obtain ⟨x, hx, he⟩ := hi.closed hso
      have hs' : s'.socket = false := socket_of_closed hso hs
      have hmem : x ∈ Commu.arrived ((s, a) :: h) := mem_arrived hx
      exact ⟨fun hc => (Bool.noConfusion (hs'.symm.trans hc)), fun hc => (Bool.noConfusion (hs'.symm.trans hc)),
        fun hc => (Bool.noConfusion (hs'.symm.trans hc)), fun hc => (Bool.noConfusion (hs'.symm.trans hc)),
        fun hc => (Bool.noConfusion (hs'.symm.trans hc)), fun _ => ⟨x, hmem, he⟩⟩

/-! ### Serving -/

theorem step_select (hpc : s.pc = .select) (hso : s.socket = true) (hq : s.queue ≠ []) :
    system.step (.select 0 false) s = some { s with pc := .recvfrom } := by
  show step (.select 0 false) s = _
  unfold step
  dsimp only
  rw [if_pos hpc, if_pos hso, if_neg hq, if_neg (by decide), if_neg (by decide), if_pos (.inl hso)]

theorem step_recvfrom {x : List UInt8 × Nat} {queue : List (List UInt8 × Nat)} (hpc : s.pc = .recvfrom)
    (hso : s.socket = true) (hq : s.queue = x :: queue) : system.step (.recvfrom none) s =
      some (({ s with queue := queue }).received (x.1.take Device.commuBufLen) x.2) := by
  show step (.recvfrom none) s = _
  unfold step
  dsimp only
  rw [if_pos hpc, if_pos hso, hq]

/-- One round of the loop, on its own, takes the oldest datagram. -/
theorem exec_round {x : List UInt8 × Nat} {queue : List (List UInt8 × Nat)} (hi : Inv h s)
    (hso : s.socket = true) (hq : s.queue = x :: queue) (hx : x.1 ≠ []) :
    ∃ as h' s', (∀ a ∈ as, ofThread a = true) ∧ as.length ≤ 2 ∧ system.exec as h s = some (h', s') ∧
      s'.queue = queue ∧ s'.socket = true ∧ arrived h' = arrived h := by
  have hlen : 0 < (x.1.take Device.commuBufLen).length :=
    Nat.pos_of_ne_zero fun h0 => hx (take_length_eq_zero.1 h0)
  cases hpc : s.pc with
  | exited => exact absurd hpc (hi.loops hso)
  | recvfrom =>
    have hex : system.exec [.recvfrom none] h s = some ((s, .recvfrom none) :: h,
        ({ s with queue := queue }).received (x.1.take Device.commuBufLen) x.2) := by
      rw [Lts.exec, step_recvfrom hpc hso hq]; rfl
    exact ⟨_, _, _, by decide, by decide, hex, received_queue, (received_socket hlen).1.trans hso, rfl⟩
  | select =>
    have hex : system.exec [.select 0 false, .recvfrom none] h s = some
        (({ s with pc := .recvfrom }, .recvfrom none) :: (s, .select 0 false) :: h,
          ({ s with queue := queue, pc := .recvfrom }).received (x.1.take Device.commuBufLen) x.2) := by
      rw [Lts.exec, step_select hpc hso (hq ▸ List.cons_ne_nil _ _)]
      dsimp only
      rw [Lts.exec, step_recvfrom (s := { s with pc := .recvfrom }) rfl hso hq]; rfl
    exact ⟨_, _, _, by decide, by decide, hex, received_queue, (received_socket hlen).1.trans hso, rfl⟩

/-- The loop, on its own, empties the socket. -/
theorem exec_drain (hr : system.Run h s) (hso : s.socket = true) (hne : ∀ x ∈ s.queue, x.1 ≠ []) :
    ∃ as h' s', (∀ a ∈ as, ofThread a = true) ∧ as.length ≤ 2 * s.queue.length ∧
      system.exec as h s = some (h', s') ∧ s'.queue = [] ∧ s'.socket = true ∧ arrived h' = arrived h := by
  obtain ⟨queue, hq⟩ : ∃ queue, s.queue = queue := ⟨_, rfl⟩
  induction queue generalizing h s with
  | nil => exact ⟨[], h, s, by decide, Nat.zero_le _, rfl, hq, hso, rfl⟩
  | cons x queue ih =>
    rw [hq] at hne
    obtain ⟨as, h₁, s₁, hth, hlen, hex, hq₁, hso₁, har⟩ :=
      exec_round (inv_of_run hr) hso hq (hne x List.mem_cons_self)
    obtain ⟨bs, h₂, s₂, hth', hlen', hex', hq₂, hso₂, har'⟩ :=
      ih (hr.exec hex) hso₁ (fun y hy => hne y (List.mem_cons_of_mem _ (hq₁ ▸ hy))) hq₁
    refine ⟨as ++ bs, h₂, s₂, fun a ha => ?_, ?_, ?_, hq₂, hso₂, har'.trans har⟩
    · exact (List.mem_append.1 ha).elim (hth a) (hth' a)
    · rw [List.length_append, hq, List.length_cons]
      rw [hq₁] at hlen'
      omega
    · rw [Lts.exec_append hex]; exact hex'

theorem mem_arrived_exec {as : List CommuAct} {x : List UInt8 × Nat} (hx : x ∈ arrived h)
    (hex : system.exec as h s = some (h', s')) : x ∈ arrived h' := by
  induction as generalizing h s with
  | nil =>
    rw [Lts.exec, Option.some.injEq, Prod.mk.injEq] at hex
    exact hex.1 ▸ hx
  | cons a as ih =>
    rw [Lts.exec] at hex
    cases ha : system.step a s with
    | none => rw [ha] at hex; cases hex
    | some s₁ => rw [ha] at hex; exact ih (mem_arrived hx) hex

theorem serves_of_arrived (hr : system.Run h s) (hne : ∀ x ∈ arrived h, x.1 ≠ []) : Serves h s := by
  have hi := inv_of_run hr
  have hso : s.socket = true := Bool.eq_true_of_not_eq_false fun hc => by
    obtain ⟨x, hx, he⟩ := hi.closed hc
    exact hne x hx he
  obtain ⟨as, h', s', hth, hlen, hex, hq, hso', har⟩ := exec_drain hr hso fun x hx =>
    hne x (hi.arrived hso ▸ List.mem_append_right _ hx)
  have hi' := inv_of_run (hr.exec hex)
  refine ⟨woken_of_run hr, hso, hi.loops hso, hi.handed hso, as, h', s', hth, hlen, hex, hq, hso',
    hi'.loops hso', woken_of_run (hr.exec hex), ?_⟩
  rw [hi'.handed hso', ← har, hi'.arrived hso', hq, List.append_nil]

theorem arrived_of_serves (hr : system.Run h s) (hv : Serves h s) : ∀ x ∈ arrived h, x.1 ≠ [] := by
  intro x hx
  obtain ⟨as, h', s', -, -, hex, hq, hso', -⟩ := hv.drains
  have hi' := inv_of_run (hr.exec hex)
  refine hi'.full hso' x ?_
  have hx' := mem_arrived_exec hx hex
  rwa [hi'.arrived hso', hq, List.append_nil] at hx'

/-- The receive loop survives a run if and only if no empty datagram arrives in it. -/
theorem serves_iff (hr : system.Run h s) : Serves h s ↔ ∀ x ∈ arrived h, x.1 ≠ [] :=
  ⟨arrived_of_serves hr, serves_of_arrived hr⟩

/-- The round of an oversized datagram and that of one behind it. -/
theorem serves_iff_oversized : ∃ h s, system.Run h s ∧ arrived h = [(List.replicate 2000 7, 1), ([1, 2], 2)] ∧
    handed h = [([1, 2], 2)] ∧ (Serves h s ↔ ∀ x ∈ arrived h, x.1 ≠ []) := by
  obtain ⟨h, s, hr, ha, hh⟩ := system.exists_run_of_exec
    [.arrive (List.replicate 2000 7) 1, .select 0 false, .arrive [1, 2] 2, .recvfrom none, .select 0 false,
      .recvfrom none]
    (show system.init (start fun _ => 0) from ⟨_, rfl⟩)
    (P := fun h _ => arrived h = [(List.replicate 2000 7, 1), ([1, 2], 2)] ∧ handed h = [([1, 2], 2)])
    (by decide +kernel)
  exact ⟨h, s, hr, ha, hh, serves_iff hr⟩

/-- An empty datagram closes the socket: the one behind it never arrives. -/
theorem not_serves_of_empty : ∃ h s, system.Run h s ∧ s.socket = false ∧ s.queue = [([1, 2], 2)] ∧
    ¬ Serves h s := by
  obtain ⟨h, s, hr, hs, hq⟩ := system.exists_run_of_exec
    [.arrive [] 1, .arrive [1, 2] 2, .select 0 false, .recvfrom none]
    (show system.init (start fun _ => 0) from ⟨_, rfl⟩) (P := fun _ s => s.socket = false ∧ s.queue = [([1, 2], 2)])
    (by decide +kernel)
  exact ⟨h, s, hr, hs, hq, fun hv => absurd hv.socket (by rw [hs]; decide)⟩

end Commu

end Bootloader
