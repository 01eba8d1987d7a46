import Bootloader.Lib.Transition
import Bootloader.Lib.Queues

/-!
# Threads and the objects they wait on

`scheduler.c`, `thread.c` and `ipc.c`. What runs with the interrupts disabled is one step. In between an interrupt may
come, so that `rt_schedule` is a step of its own and a thread goes on behind it in a third one. Time is left to the
environment: the timer of a thread goes off at any moment at which it runs.
-/

namespace Bootloader.Rt

inductive Err
  | ok
  | error
  | timeout
  | full
deriving DecidableEq, Repr

inductive Stat
  | init
  | ready
  | suspend
  | close
deriving DecidableEq, Repr

/-- RT_IPC_FLAG_FIFO and RT_IPC_FLAG_PRIO. -/
inductive Flag
  | fifo
  | prio
deriving DecidableEq, Repr

/-- The lists the `tlist` of a thread is linked in. -/
inductive Place (ι : Type)
  | ready (prio : Nat)
  | sem (i : ι)
  | mutex (i : ι)
  | sender (i : ι)
  | receiver (i : ι)
deriving DecidableEq, Repr

/-- What a thread does behind the `rt_schedule` it has called. -/
inductive Cont (ι : Type)
  | done
  | sleep
  | sem (i : ι)
  | mutex (i : ι)
  | send (i : ι) (value : UInt32) (timeout : Int)
  | recv (i : ι) (timeout : Int)
deriving DecidableEq, Repr

inductive Pc (ι : Type)
  | user
  /-- Before `rt_schedule`. -/
  | schedule (c : Cont ι)
  /-- Behind `rt_schedule`, or switched away from in it. -/
  | behind (c : Cont ι)
deriving DecidableEq, Repr

structure Thread (ι : Type) where
  stat : Stat
  error : Err
  initPriority : Nat
  currentPriority : Nat
  /-- `thread_timer` is activated. -/
  timer : Bool
  pc : Pc ι
deriving DecidableEq, Repr

structure Sem where
  value : Nat
  flag : Flag
deriving DecidableEq, Repr

structure Mutex (τ : Type) where
  value : Nat
  owner : Option τ
  originalPriority : Nat
  hold : Nat
  flag : Flag
deriving DecidableEq, Repr

structure Mailbox where
  msgPool : Nat → UInt32
  size : Nat
  entry : Nat
  inOffset : Nat
  outOffset : Nat
  flag : Flag

/-- What the operations on threads and lists leave alone. -/
structure Globals (τ ι : Type) where
  current : τ
  /-- `rt_scheduler_lock_nest`, an `rt_int16_t`: without the bound of the type, which takes 32768 calls of
  `rt_enter_critical` one within the other, and 0 where the source guards against values below it. -/
  lockNest : Nat
  sem : ι → Sem
  mutex : ι → Mutex τ
  mailbox : ι → Mailbox

/-- `fault`: an assertion has failed, or what is no thread or a freed one was used as a thread, or a `tlist` was
linked a second time. -/
structure Kernel (τ ι : Type) extends Globals τ ι where
  queue : Place ι → List τ
  readyGroup : BitVec 32
  thread : τ → Thread ι
  fault : Bool

/-- How a call leaves the interrupts enabled again: it returns, or it calls `rt_schedule` first. -/
inductive Exit (ι : Type)
  | ret (e : Err)
  | wait (c : Cont ι)
deriving DecidableEq, Repr

/-- What has happened to an object. -/
inductive Event (ι : Type)
  | took (i : ι)
  | released (i : ι)
  | locked (i : ι)
  | unlocked (i : ι)
  | put (i : ι) (value : UInt32)
  | got (i : ι) (value : UInt32)
deriving DecidableEq, Repr

structure Outcome (τ ι : Type) where
  kernel : Kernel τ ι
  exit : Exit ι
  event : Option (Event ι)

/-- `__lowest_bit_bitmap`. -/
def lowestBitBitmap : List Nat :=
  [0, 0, 1, 0, 2, 0, 1, 0, 3, 0, 1, 0, 2, 0, 1, 0,
   4, 0, 1, 0, 2, 0, 1, 0, 3, 0, 1, 0, 2, 0, 1, 0,
   5, 0, 1, 0, 2, 0, 1, 0, 3, 0, 1, 0, 2, 0, 1, 0,
   4, 0, 1, 0, 2, 0, 1, 0, 3, 0, 1, 0, 2, 0, 1, 0,
   6, 0, 1, 0, 2, 0, 1, 0, 3, 0, 1, 0, 2, 0, 1, 0,
   4, 0, 1, 0, 2, 0, 1, 0, 3, 0, 1, 0, 2, 0, 1, 0,
   5, 0, 1, 0, 2, 0, 1, 0, 3, 0, 1, 0, 2, 0, 1, 0,
   4, 0, 1, 0, 2, 0, 1, 0, 3, 0, 1, 0, 2, 0, 1, 0,
   7, 0, 1, 0, 2, 0, 1, 0, 3, 0, 1, 0, 2, 0, 1, 0,
   4, 0, 1, 0, 2, 0, 1, 0, 3, 0, 1, 0, 2, 0, 1, 0,
   5, 0, 1, 0, 2, 0, 1, 0, 3, 0, 1, 0, 2, 0, 1, 0,
   4, 0, 1, 0, 2, 0, 1, 0, 3, 0, 1, 0, 2, 0, 1, 0,
   6, 0, 1, 0, 2, 0, 1, 0, 3, 0, 1, 0, 2, 0, 1, 0,
   4, 0, 1, 0, 2, 0, 1, 0, 3, 0, 1, 0, 2, 0, 1, 0,
   5, 0, 1, 0, 2, 0, 1, 0, 3, 0, 1, 0, 2, 0, 1, 0,
   4, 0, 1, 0, 2, 0, 1, 0, 3, 0, 1, 0, 2, 0, 1, 0]

/-- `__rt_ffs`. -/
def rtFfs (value : BitVec 32) : Nat :=
  let table (b : BitVec 32) := lowestBitBitmap.getD b.toNat 0
  if value = 0 then 0
  else if value &&& 0xff ≠ 0 then table (value &&& 0xff) + 1
  else if value &&& 0xff00 ≠ 0 then table ((value &&& 0xff00) >>> 8) + 9
  else if value &&& 0xff0000 ≠ 0 then table ((value &&& 0xff0000) >>> 16) + 17
  else table ((value &&& 0xff000000) >>> 24) + 25

variable {τ ι : Type}

/-- `number_mask`, which is set with `current_priority`. -/
def Thread.numberMask (x : Thread ι) : BitVec 32 := 1#32 <<< x.currentPriority

/-- RT_IPC_FLAG_PRIO: before the first thread of a lower priority. -/
def insertPrio (prio : τ → Nat) (t : τ) : List τ → List τ
  | [] => [t]
  | s :: l => if prio t < prio s then t :: s :: l else s :: insertPrio prio t l

namespace Mailbox

def put (value : UInt32) (b : Mailbox) : Mailbox :=
  { b with
    msgPool := Function.update b.msgPool b.inOffset value
    inOffset := if b.size ≤ b.inOffset + 1 then 0 else b.inOffset + 1
    entry := b.entry + 1 }

def first (b : Mailbox) : UInt32 := b.msgPool b.outOffset

def get (b : Mailbox) : Mailbox :=
  { b with
    outOffset := if b.size ≤ b.outOffset + 1 then 0 else b.outOffset + 1
    entry := b.entry - 1 }

end Mailbox

/-- What is left of the time to wait. -/
def Cont.left (timeout : Int) (elapsed : Nat) : Int := if 0 < timeout then max 0 (timeout - elapsed) else timeout

namespace Kernel
variable [DecidableEq τ] [DecidableEq ι]

def modify (t : τ) (f : Thread ι → Thread ι) (k : Kernel τ ι) : Kernel τ ι :=
  { k with thread := Function.update k.thread t (f (k.thread t)) }

def setQueue (p : Place ι) (l : List τ) (k : Kernel τ ι) : Kernel τ ι := { k with queue := Function.update k.queue p l }

def setSem (i : ι) (s : Sem) (k : Kernel τ ι) : Kernel τ ι := { k with sem := Function.update k.sem i s }

def setMutex (i : ι) (m : Mutex τ) (k : Kernel τ ι) : Kernel τ ι := { k with mutex := Function.update k.mutex i m }

def setMailbox (i : ι) (b : Mailbox) (k : Kernel τ ι) : Kernel τ ι :=
  { k with mailbox := Function.update k.mailbox i b }

def faultIf (b : Bool) (k : Kernel τ ι) : Kernel τ ι := { k with fault := k.fault || b }

def prio (k : Kernel τ ι) (t : τ) : Nat := (k.thread t).currentPriority

/-- `rt_list_remove` of the `tlist`. -/
def listRemove (t : τ) (k : Kernel τ ι) : Kernel τ ι := { k with queue := unlink k.queue t }

/-! ### scheduler.c -/

def scheduleInsertThread (t : τ) (k : Kernel τ ι) : Kernel τ ι :=
  let k := k.modify t ({ · with stat := .ready })
  { k.setQueue (.ready (k.prio t)) (k.queue (.ready (k.prio t)) ++ [t]) with
    readyGroup := k.readyGroup ||| (k.thread t).numberMask }

def scheduleRemoveThread (t : τ) (k : Kernel τ ι) : Kernel τ ι :=
  let k := k.listRemove t
  if k.queue (.ready (k.prio t)) = [] then { k with readyGroup := k.readyGroup &&& ~~~(k.thread t).numberMask } else k

def schedule (k : Kernel τ ι) : Kernel τ ι :=
  if k.lockNest = 0 then
    match rtFfs k.readyGroup with
    | 0 => k.faultIf true
    | p + 1 =>
      match k.queue (.ready p) with
      | [] => k.faultIf true
      | t :: _ => { k with current := t }
  else k

/-! ### thread.c -/

/-- `rt_thread_suspend`, which refuses a thread that is not ready. -/
def suspend (t : τ) (k : Kernel τ ι) : Kernel τ ι :=
  if (k.thread t).stat = .ready then
    ((k.modify t ({ · with stat := .suspend })).scheduleRemoveThread t).modify t ({ · with timer := false })
  else k

/-- `rt_thread_resume`, which refuses a thread that is not suspended. -/
def resume (t : τ) (k : Kernel τ ι) : Kernel τ ι :=
  if (k.thread t).stat = .suspend then
    ((k.listRemove t).modify t ({ · with timer := false })).scheduleInsertThread t
  else k

/-- RT_THREAD_CTRL_CHANGE_PRIORITY. -/
def changePriority (t : τ) (p : Nat) (k : Kernel τ ι) : Kernel τ ι :=
  if (k.thread t).stat = .ready then
    ((k.scheduleRemoveThread t).modify t ({ · with currentPriority := p })).scheduleInsertThread t
  else k.modify t ({ · with currentPriority := p })

/-- `rt_timer_check` for the timer of a thread: `rt_thread_timeout` without its `rt_schedule`. -/
def threadTimeout (t : τ) (k : Kernel τ ι) : Kernel τ ι :=
  let k := k.faultIf ((k.thread t).stat != .suspend)
  (((k.modify t ({ · with error := .timeout })).listRemove t).scheduleInsertThread t).modify t
    ({ · with timer := false })

/-- The time of the timer is set and the timer started, if there is one to wait. -/
def startTimer (time : Int) (t : τ) (k : Kernel τ ι) : Kernel τ ι :=
  if 0 < time then k.modify t ({ · with timer := true }) else k

def threadYield (k : Kernel τ ι) : Outcome τ ι :=
  let t := k.current
  let p := Place.ready (k.prio t)
  if (k.thread t).stat = .ready ∧ 1 < (k.queue p).length then
    let k := k.listRemove t
    ⟨k.setQueue p (k.queue p ++ [t]), .wait .done, none⟩
  else ⟨k, .ret .ok, none⟩

def threadSleep (k : Kernel τ ι) : Outcome τ ι :=
  let t := k.current
  ⟨(k.suspend t).modify t ({ · with timer := true }), .wait .sleep, none⟩

/-- `rt_thread_startup` of a thread that is called by a thread. -/
def threadStartup (t : τ) (k : Kernel τ ι) : Outcome τ ι :=
  let k := k.faultIf ((k.thread t).stat != .init)
  ⟨(k.modify t fun x => { x with currentPriority := x.initPriority, stat := .suspend }).resume t, .wait .done, none⟩

def threadExit (k : Kernel τ ι) : Outcome τ ι :=
  let t := k.current
  ⟨(k.scheduleRemoveThread t).modify t ({ · with stat := .close, timer := false }), .wait .done, none⟩

def enterCritical (k : Kernel τ ι) : Outcome τ ι := ⟨{ k with lockNest := k.lockNest + 1 }, .ret .ok, none⟩

def exitCritical (k : Kernel τ ι) : Outcome τ ι :=
  ⟨{ k with lockNest := k.lockNest - 1 }, if k.lockNest ≤ 1 then .wait .done else .ret .ok, none⟩

/-! ### ipc.c -/

/-- `rt_ipc_list_suspend`. -/
def listSuspend (p : Place ι) (flag : Flag) (t : τ) (k : Kernel τ ι) : Kernel τ ι :=
  let k := (k.suspend t).faultIf ((k.thread t).stat != .ready)
  k.setQueue p (match flag with
    | .fifo => k.queue p ++ [t]
    | .prio => insertPrio k.prio t (k.queue p))

/-- `rt_ipc_list_resume`. -/
def listResume (p : Place ι) (k : Kernel τ ι) : Kernel τ ι :=
  match k.queue p with
  | [] => k.faultIf true
  | t :: _ => k.resume t

def semTake (i : ι) (time : Int) (k : Kernel τ ι) : Outcome τ ι :=
  let t := k.current
  let s := k.sem i
  if 0 < s.value then ⟨k.setSem i { s with value := s.value - 1 }, .ret .ok, some (.took i)⟩
  else if time = 0 then ⟨k, .ret .timeout, none⟩
  else
    ⟨((k.modify t ({ · with error := .ok })).listSuspend (.sem i) s.flag t).startTimer time t, .wait (.sem i), none⟩

def semRelease (i : ι) (k : Kernel τ ι) : Outcome τ ι :=
  let s := k.sem i
  if k.queue (.sem i) = [] then
    ⟨k.setSem i { s with value := (s.value + 1) % 65536 }, .ret .ok, some (.released i)⟩
  else ⟨k.listResume (.sem i), .wait .done, some (.released i)⟩

/-- The owner of a mutex gets the priority of the thread that is about to wait, if that is the more urgent one. -/
def inherit (m : Mutex τ) (t : τ) (k : Kernel τ ι) : Kernel τ ι :=
  match m.owner with
  | none => k.faultIf true
  | some u =>
    let k := k.faultIf ((k.thread u).stat = .close)
    if k.prio t < k.prio u then k.changePriority u (k.prio t) else k

/-- `rt_mutex_take` behind the reset of the error. -/
def mutexTry (i : ι) (time : Int) (k : Kernel τ ι) : Outcome τ ι :=
  let t := k.current
  let m := k.mutex i
  if m.owner = some t then ⟨k.setMutex i { m with hold := (m.hold + 1) % 256 }, .ret .ok, some (.locked i)⟩
  else if 0 < m.value then
    ⟨k.setMutex i { m with
      value := m.value - 1, owner := some t, originalPriority := k.prio t, hold := (m.hold + 1) % 256 },
      .ret .ok, some (.locked i)⟩
  else if time = 0 then ⟨k.modify t ({ · with error := .timeout }), .ret .timeout, none⟩
  else ⟨((k.inherit m t).listSuspend (.mutex i) m.flag t).startTimer time t, .wait (.mutex i), none⟩

def mutexTake (i : ι) (time : Int) (k : Kernel τ ι) : Outcome τ ι :=
  (k.modify k.current ({ · with error := .ok })).mutexTry i time

/-- The mutex goes to the first thread that waits for it. -/
def mutexPass (i : ι) (m : Mutex τ) (k : Kernel τ ι) : Outcome τ ι :=
  match k.queue (.mutex i) with
  | u :: _ =>
    ⟨(k.setMutex i { m with owner := some u, originalPriority := k.prio u, hold := m.hold + 1 }).listResume (.mutex i),
      .wait .done, some (.unlocked i)⟩
  | [] =>
    ⟨k.setMutex i { m with value := m.value + 1, owner := none, originalPriority := 0xff }, .ret .ok,
      some (.unlocked i)⟩

def mutexRelease (i : ι) (k : Kernel τ ι) : Outcome τ ι :=
  let t := k.current
  let m := k.mutex i
  if m.owner ≠ some t then ⟨k.modify t ({ · with error := .error }), .ret .error, none⟩
  else
    let m := { m with hold := (m.hold + 255) % 256 }
    if m.hold = 0 then
      (if m.originalPriority ≠ k.prio t then k.changePriority t m.originalPriority else k).mutexPass i m
    else ⟨k.setMutex i m, .ret .ok, some (.unlocked i)⟩

/-- A mail is put into a mailbox that has room. -/
def mbPut (i : ι) (value : UInt32) (k : Kernel τ ι) : Outcome τ ι :=
  let k := k.setMailbox i ((k.mailbox i).put value)
  if k.queue (.receiver i) = [] then ⟨k, .ret .ok, some (.put i value)⟩
  else ⟨k.listResume (.receiver i), .wait .done, some (.put i value)⟩

/-- The loop of `rt_mb_send_wait`, up to where it waits. -/
def mbSendLoop (i : ι) (value : UInt32) (timeout : Int) (k : Kernel τ ι) : Outcome τ ι :=
  let t := k.current
  let b := k.mailbox i
  if b.entry = b.size then
    let k := k.modify t ({ · with error := .ok })
    if timeout = 0 then ⟨k, .ret .full, none⟩
    else ⟨(k.listSuspend (.sender i) b.flag t).startTimer timeout t, .wait (.send i value timeout), none⟩
  else k.mbPut i value

def mbSendWait (i : ι) (value : UInt32) (timeout : Int) (k : Kernel τ ι) : Outcome τ ι :=
  if (k.mailbox i).entry = (k.mailbox i).size ∧ timeout = 0 then ⟨k, .ret .full, none⟩
  else k.mbSendLoop i value timeout

/-- A mail is taken out of a mailbox that is not empty. -/
def mbGet (i : ι) (k : Kernel τ ι) : Outcome τ ι :=
  let value := (k.mailbox i).first
  let k := k.setMailbox i (k.mailbox i).get
  if k.queue (.sender i) = [] then ⟨k, .ret .ok, some (.got i value)⟩
  else ⟨k.listResume (.sender i), .wait .done, some (.got i value)⟩

/-- The loop of `rt_mb_recv`, up to where it waits. -/
def mbRecvLoop (i : ι) (timeout : Int) (k : Kernel τ ι) : Outcome τ ι :=
  let t := k.current
  let b := k.mailbox i
  if b.entry = 0 then
    let k := k.modify t ({ · with error := .ok })
    if timeout = 0 then ⟨k.modify t ({ · with error := .timeout }), .ret .timeout, none⟩
    else ⟨(k.listSuspend (.receiver i) b.flag t).startTimer timeout t, .wait (.recv i timeout), none⟩
  else k.mbGet i

def mbRecv (i : ι) (timeout : Int) (k : Kernel τ ι) : Outcome τ ι :=
  if (k.mailbox i).entry = 0 ∧ timeout = 0 then ⟨k, .ret .timeout, none⟩ else k.mbRecvLoop i timeout

/-- What the running thread does behind its `rt_schedule`, `elapsed` ticks after it has suspended itself. -/
def goOn (elapsed : Nat) (c : Cont ι) (k : Kernel τ ι) : Outcome τ ι :=
  let e := (k.thread k.current).error
  match c with
  | .done => ⟨k, .ret .ok, none⟩
  | .sleep => ⟨if e = .timeout then k.modify k.current ({ · with error := .ok }) else k, .ret .ok, none⟩
  | .sem i => ⟨k, .ret e, if e = .ok then some (.took i) else none⟩
  | .mutex i => ⟨k, .ret e, if e = .ok then some (.locked i) else none⟩
  | .send i value timeout =>
    if e = .ok then k.mbSendLoop i value (Cont.left timeout elapsed) else ⟨k, .ret e, none⟩
  | .recv i timeout => if e = .ok then k.mbRecvLoop i (Cont.left timeout elapsed) else ⟨k, .ret e, none⟩

end Kernel

inductive Call (τ ι : Type)
  | semTake (i : ι) (time : Int)
  | semRelease (i : ι)
  | mutexTake (i : ι) (time : Int)
  | mutexRelease (i : ι)
  | mbSendWait (i : ι) (value : UInt32) (timeout : Int)
  | mbRecv (i : ι) (timeout : Int)
  | threadSleep
  | threadYield
  | threadStartup (t : τ)
  | changePriority (t : τ) (p : Nat)
  | threadExit
  | enterCritical
  | exitCritical
deriving DecidableEq, Repr

/-- What an interrupt may call. -/
def Call.fromIsr : Call τ ι → Bool
  | .semTake _ time => time = 0
  | .semRelease _ => true
  | .mbSendWait _ _ timeout => timeout = 0
  | .mbRecv _ timeout => timeout = 0
  | .threadYield => true
  | _ => false

/-- The running thread may be suspended. -/
def Call.mayWait : Call τ ι → Bool
  | .semTake _ time => time ≠ 0
  | .mutexTake _ time => time ≠ 0
  | .mbSendWait _ _ timeout => timeout ≠ 0
  | .mbRecv _ timeout => timeout ≠ 0
  | .threadSleep => true
  | .threadExit => true
  | _ => false

inductive Act (τ ι : Type)
  /-- The running thread calls. -/
  | call (c : Call τ ι)
  /-- The running thread is at its `rt_schedule`. -/
  | schedule
  /-- The running thread goes on behind its `rt_schedule`. -/
  | go (elapsed : Nat)
  /-- An interrupt calls. -/
  | isr (c : Call τ ι)
  /-- The tick interrupt finds that the timer of a thread is over. -/
  | timeout (t : τ)
  /-- An interrupt calls `rt_schedule`, behind a call or a timeout of its own. -/
  | preempt
deriving DecidableEq, Repr

namespace Kernel
variable [DecidableEq τ] [DecidableEq ι]

def call : Call τ ι → Kernel τ ι → Outcome τ ι
  | .semTake i time, k => k.semTake i time
  | .semRelease i, k => k.semRelease i
  | .mutexTake i time, k => k.mutexTake i time
  | .mutexRelease i, k => k.mutexRelease i
  | .mbSendWait i value timeout, k => k.mbSendWait i value timeout
  | .mbRecv i timeout, k => k.mbRecv i timeout
  | .threadSleep, k => k.threadSleep
  | .threadYield, k => k.threadYield
  | .threadStartup t, k => k.threadStartup t
  | .changePriority t p, k => ⟨k.changePriority t p, .ret .ok, none⟩
  | .threadExit, k => k.threadExit
  | .enterCritical, k => k.enterCritical
  | .exitCritical, k => k.exitCritical

end Kernel

/-- Where a thread stands behind a call. -/
def Exit.pc : Exit ι → Pc ι
  | .ret _ => .user
  | .wait c => .schedule c

variable [DecidableEq τ] [DecidableEq ι]

def Outcome.leave (t : τ) (r : Outcome τ ι) : Outcome τ ι :=
  { r with kernel := r.kernel.modify t ({ · with pc := r.exit.pc }) }

def Act.run : Act τ ι → Kernel τ ι → Option (Outcome τ ι)
  | .call c, k => if (k.thread k.current).pc = .user then some ((k.call c).leave k.current) else none
  | .schedule, k =>
    match (k.thread k.current).pc with
    | .schedule c => some ⟨(k.modify k.current ({ · with pc := .behind c })).schedule, .wait c, none⟩
    | _ => none
  | .go elapsed, k =>
    match (k.thread k.current).pc with
    | .behind c => some ((k.goOn elapsed c).leave k.current)
    | _ => none
  | .isr c, k => if c.fromIsr then some (k.call c) else none
  | .timeout t, k => if (k.thread t).timer then some ⟨k.threadTimeout t, .ret .ok, none⟩ else none
  | .preempt, k => some ⟨k.schedule, .ret .ok, none⟩

/-- The objects as they are initialised, and no thread started yet. -/
structure Kernel.Fresh (k : Kernel τ ι) : Prop where
  queue : ∀ p, k.queue p = []
  readyGroup : k.readyGroup = 0
  thread : ∀ t, ∃ p < 32, k.thread t = ⟨.init, .ok, p, p, false, .user⟩
  lockNest : k.lockNest = 0
  sem : ∀ i, (k.sem i).value < 65536
  mutex : ∀ i, ∃ flag, k.mutex i = ⟨1, none, 0xff, 0, flag⟩
  mailbox : ∀ i, (k.mailbox i).entry = 0 ∧ (k.mailbox i).inOffset = 0 ∧ (k.mailbox i).outOffset = 0
  fault : k.fault = false

/-- The threads `ts` are started, and then the scheduler: `rt_system_scheduler_start`. -/
def Kernel.boot (ts : List τ) (k : Kernel τ ι) : Kernel τ ι :=
  (ts.foldl (fun k t => (k.threadStartup t).kernel) k).schedule

def kernelSystem (idle : τ) : Lts (Kernel τ ι) (Act τ ι) where
  init k := ∃ k₀ ts, Kernel.Fresh k₀ ∧ ts.Nodup ∧ idle ∈ ts ∧ k = k₀.boot ts
  step a k := (a.run k).map (·.kernel)

/-- A call that the kernel can rely on: a thread is started once, gets a priority there is, does not end while it
holds a mutex and does not take one more than 255 times. -/
def Call.Proper (k : Kernel τ ι) : Call τ ι → Prop
  | .threadStartup t => (k.thread t).stat = .init
  | .changePriority _ p => p < 32
  | .threadExit => ∀ i, (k.mutex i).owner ≠ some k.current
  | .mutexTake i _ => (k.mutex i).hold < 255
  | _ => True

instance [Fintype ι] (k : Kernel τ ι) : (c : Call τ ι) → Decidable (c.Proper k)
  | .threadStartup t => inferInstanceAs (Decidable ((k.thread t).stat = .init))
  | .changePriority _ p => inferInstanceAs (Decidable (p < 32))
  | .threadExit => inferInstanceAs (Decidable (∀ i, (k.mutex i).owner ≠ some k.current))
  | .mutexTake i _ => inferInstanceAs (Decidable ((k.mutex i).hold < 255))
  | .semTake _ _ | .semRelease _ | .mutexRelease _ | .mbSendWait _ _ _ | .mbRecv _ _ | .threadSleep | .threadYield
  | .enterCritical | .exitCritical => .isTrue trivial

/-- A thread does not wait while it has locked the scheduler, and the idle thread not at all. -/
def Allowed (idle : τ) (k : Kernel τ ι) : Act τ ι → Prop
  | .call c => (c.mayWait → k.lockNest = 0 ∧ k.current ≠ idle) ∧ c.Proper k
  | _ => True

instance [Fintype ι] (idle : τ) (k : Kernel τ ι) : (a : Act τ ι) → Decidable (Allowed idle k a)
  | .call c => inferInstanceAs (Decidable ((c.mayWait → k.lockNest = 0 ∧ k.current ≠ idle) ∧ c.Proper k))
  | .schedule | .go _ | .isr _ | .timeout _ | .preempt => .isTrue trivial

end Bootloader.Rt
