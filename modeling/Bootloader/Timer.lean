import Bootloader.Lib.Transition
import Bootloader.Lib.Words

/-!
# Timers

`timer.c` with its one list (RT_TIMER_SKIP_LIST_LEVEL is 1) and the tick of `clock.c`. A call is one step: the callers
in the kernel have the interrupts disabled, and so has the tick interrupt. The timeout functions leave the timers alone,
as `rt_thread_timeout` does.
-/

namespace Bootloader.Rt

structure Timer where
  initTick : Nat
  timeoutTick : Nat
  periodic : Bool
  activated : Bool
deriving DecidableEq, Repr

/-- `fired`: whose timeout functions the last `rt_timer_check` has called. -/
structure Timers (θ : Type) where
  tick : Nat
  list : List θ
  timer : θ → Timer
  fired : List θ

/-- RT_TICK_MAX / 2. -/
def halfTick : Nat := 0xFFFFFFFF / 2

variable {θ : Type}

/-- Behind the timers that are over at the same tick or earlier. -/
def insertTimer (timeoutTick : θ → Nat) (t : θ) : List θ → List θ
  | [] => [t]
  | s :: l =>
    if sub32 (timeoutTick s) (timeoutTick t) = 0 then s :: insertTimer timeoutTick t l
    else if sub32 (timeoutTick s) (timeoutTick t) < halfTick then t :: s :: l
    else s :: insertTimer timeoutTick t l

namespace Timers
variable [DecidableEq θ]

def modify (t : θ) (f : Timer → Timer) (s : Timers θ) : Timers θ :=
  { s with timer := Function.update s.timer t (f (s.timer t)) }

def remove (t : θ) (s : Timers θ) : Timers θ := { s with list := s.list.erase t }

/-- `rt_timer_start`, which asserts that the time is less than half of all ticks. -/
def start (t : θ) (s : Timers θ) : Option (Timers θ) :=
  let s := (s.remove t).modify t ({ · with activated := false })
  if (s.timer t).initTick < halfTick then
    let s := s.modify t fun x => { x with timeoutTick := (s.tick + x.initTick) % 2 ^ 32 }
    let s := { s with list := insertTimer (fun u => (s.timer u).timeoutTick) t s.list }
    some (s.modify t ({ · with activated := true }))
  else none

/-- `rt_timer_stop`, which refuses a timer that is not activated. -/
def stop (t : θ) (s : Timers θ) : Timers θ :=
  if (s.timer t).activated then (s.remove t).modify t ({ · with activated := false }) else s

/-- Calls the timeout function. The loop of `rt_timer_check` clears the flag behind it on both branches. -/
def expire (t : θ) (s : Timers θ) : Timers θ :=
  { (s.remove t).modify t ({ · with activated := false }) with fired := s.fired ++ [t] }

/-- The loop of `rt_timer_check`. A periodic timer of no ticks would keep it going. -/
def checkLoop : Nat → Timers θ → Option (Timers θ)
  | 0, _ => none
  | fuel + 1, s =>
    match s.list with
    | [] => some s
    | t :: _ =>
      if sub32 s.tick (s.timer t).timeoutTick < halfTick then
        if (s.timer t).periodic ∧ (s.timer t).activated then ((s.expire t).start t).bind (checkLoop fuel)
        else checkLoop fuel (s.expire t)
      else some s

def tickIncrease (s : Timers θ) : Option (Timers θ) :=
  checkLoop (s.list.length + 1) { s with tick := (s.tick + 1) % 2 ^ 32, fired := [] }

end Timers

inductive TimerAct (θ : Type)
  /-- RT_TIMER_CTRL_SET_TIME. -/
  | setTime (t : θ) (time : Nat)
  /-- RT_TIMER_CTRL_SET_PERIODIC and RT_TIMER_CTRL_SET_ONESHOT. -/
  | setPeriodic (t : θ) (periodic : Bool)
  | start (t : θ)
  | stop (t : θ)
  | tick
deriving DecidableEq, Repr

variable [DecidableEq θ]

def Timers.step : TimerAct θ → Timers θ → Option (Timers θ)
  | .setTime t time, s => some (s.modify t ({ · with initTick := time }))
  | .setPeriodic t periodic, s => some (s.modify t ({ · with periodic := periodic }))
  | .start t, s => s.start t
  | .stop t, s => some (s.stop t)
  | .tick, s => s.tickIncrease

def timerSystem : Lts (Timers θ) (TimerAct θ) where
  init s := s.tick = 0 ∧ s.list = [] ∧ ∀ t, (s.timer t).activated = false ∧ (s.timer t).initTick < halfTick ∧
    ((s.timer t).periodic → 0 < (s.timer t).initTick)
  step := Timers.step

/-- What `rt_timer_start` asserts and, of a periodic timer, that it takes time. -/
def TimerAct.Proper (s : Timers θ) : TimerAct θ → Prop
  | .setTime t time => time < halfTick ∧ ((s.timer t).periodic → 0 < time)
  | .setPeriodic t periodic => periodic → 0 < (s.timer t).initTick
  | .start _ | .stop _ | .tick => True

instance TimerAct.Proper.decidable (s : Timers θ) : (a : TimerAct θ) → Decidable (a.Proper s)
  | .setTime t time => inferInstanceAs (Decidable (time < halfTick ∧ ((s.timer t).periodic = true → 0 < time)))
  | .setPeriodic t periodic => inferInstanceAs (Decidable (periodic = true → 0 < (s.timer t).initTick))
  | .start _ | .stop _ | .tick => .isTrue trivial

/-! ### What a timer is for -/

abbrev TimerHistory (θ : Type) := List (Timers θ × TimerAct θ)

namespace TimerHistory

/-- The time: how often the tick interrupt has come. -/
def now : TimerHistory θ → Nat
  | [] => 0
  | (_, .tick) :: h => now h + 1
  | _ :: h => now h

/-- What a tick makes of the times: those that are over at `n` are taken, and of a periodic timer renewed. -/
def renewed (n : Nat) (timer : θ → Timer) (due : θ → Option Nat) (t : θ) : Option Nat :=
  if ∃ d ∈ due t, d ≤ n then if (timer t).periodic then some (n + (timer t).initTick) else none else due t

/-- When a timer that runs is over. -/
def due : TimerHistory θ → θ → Option Nat
  | [] => fun _ => none
  | (s, .start t) :: h => Function.update (due h) t (some (now h + (s.timer t).initTick))
  | (_, .stop t) :: h => Function.update (due h) t none
  | (s, .tick) :: h => renewed (now h + 1) s.timer (due h)
  | _ :: h => due h

end TimerHistory

end Bootloader.Rt
