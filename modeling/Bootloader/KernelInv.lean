import Bootloader.KernelLists

/-!
# What the kernel keeps

Every thread stands in the list that its state and its place in the program name, the running thread is ready unless it
is about to call `rt_schedule`, and nothing goes wrong. The invariant holds whatever the interrupts do.
-/

namespace Bootloader.Rt
variable {τ ι : Type}

def Cont.place : Cont ι → Option (Place ι)
  | .done => none
  | .sleep => none
  | .sem i => some (.sem i)
  | .mutex i => some (.mutex i)
  | .send i _ _ => some (.sender i)
  | .recv i _ => some (.receiver i)

def Pc.cont : Pc ι → Option (Cont ι)
  | .user => none
  | .schedule c => some c
  | .behind c => some c

def Thread.place (x : Thread ι) : Option (Place ι) := x.pc.cont.bind Cont.place

/-- Where the thread is to be found. -/
def Thread.home (x : Thread ι) : Option (Place ι) :=
  match x.stat with
  | .ready => some (.ready x.currentPriority)
  | .suspend => x.place
  | _ => none

/-- Ready, and in no call that waits. -/
def Thread.Settled (x : Thread ι) : Prop := x.stat = .ready ∧ (x.pc.cont = none ∨ x.pc.cont = some .done)

theorem Cont.place_ne_ready {c : Cont ι} {q : Nat} : c.place ≠ some (.ready q) := by
  cases c <;> simp [Cont.place]

theorem Thread.place_ne_ready {x : Thread ι} {q : Nat} : x.place ≠ some (.ready q) := by
  rw [Thread.place]
  cases x.pc.cont with
  | none => simp
  | some c => exact c.place_ne_ready

theorem Thread.home_of_ready {x : Thread ι} (h : x.stat = .ready) : x.home = some (.ready x.currentPriority) := by
  rw [Thread.home, h]

theorem Thread.home_of_suspend {x : Thread ι} (h : x.stat = .suspend) : x.home = x.place := by
  rw [Thread.home, h]

theorem Thread.suspend_of_home {x : Thread ι} {p : Place ι} (h : x.home = some p) (hp : ∀ q, p ≠ .ready q) :
    x.stat = .suspend := by
  rw [Thread.home] at h
  split at h
  · exact absurd (Option.some.inj h).symm (hp _)
  · next hs => exact hs
  · cases h

theorem Thread.ready_of_home {x : Thread ι} {q : Nat} (h : x.home = some (.ready q)) : x.stat = .ready := by
  rw [Thread.home] at h
  split at h
  · next hs => exact hs
  · exact absurd h Thread.place_ne_ready
  · cases h

theorem Thread.home_ne_ready {x : Thread ι} (h : x.stat ≠ .ready) (q : Nat) : x.home ≠ some (.ready q) := by
  rw [Thread.home]
  split
  · contradiction
  · exact Thread.place_ne_ready
  · simp

/-- Free or held: the value and the count say so. -/
structure Mutex.Sound (m : Mutex τ) : Prop where
  value : m.value = if m.owner.isSome then 0 else 1
  hold : m.hold ≤ 255
  held : m.hold = 0 ↔ m.owner = none

theorem Mutex.Sound.free {m : Mutex τ} (h : m.Sound) (hv : 0 < m.value) :
    m.owner = none ∧ m.value = 1 ∧ m.hold = 0 := by
  cases ho : m.owner with
  | none => exact ⟨rfl, by simpa [ho] using h.value, h.held.2 ho⟩
  | some u =>
    have := h.value
    simp [ho] at this
    omega

theorem Mutex.Sound.owned {m : Mutex τ} (h : m.Sound) (hv : m.value = 0) : ∃ u, m.owner = some u := by
  rw [← Option.isSome_iff_exists]
  by_contra hn
  have := h.value
  simp [hn, hv] at this

namespace Kernel

def home (k : Kernel τ ι) (t : τ) : Option (Place ι) := (k.thread t).home

/-- What no step breaks, whichever thread runs. -/
structure Tidy (k : Kernel τ ι) : Prop where
  linked : Linked k.home k
  timer : ∀ t, (k.thread t).timer = true → (k.thread t).stat = .suspend
  initPriority : ∀ t, (k.thread t).initPriority < 32
  mutex : ∀ i, (k.mutex i).Sound
  owner : ∀ i u, (k.mutex i).owner = some u → (k.thread u).stat ≠ .close ∧ (k.mutex i).originalPriority < 32
  mailbox : ∀ i, (k.mailbox i).Sound
  fault : k.fault = false

structure Sound (idle : τ) (k : Kernel τ ι) : Prop extends Tidy k where
  idle : (k.thread idle).Settled

/-- The running thread is ready or about to call `rt_schedule`, and with the scheduler locked it waits for nothing. -/
structure Inv (idle : τ) (k : Kernel τ ι) : Prop where
  sound : k.Sound idle
  running : (k.thread k.current).stat = .ready ∨ ∃ c, (k.thread k.current).pc = .schedule c
  locked : 0 < k.lockNest → (k.thread k.current).Settled

variable {idle : τ} {k k' : Kernel τ ι} {t : τ} {x : Thread ι}

/-- Wherever a thread stands it still stands, and ready threads are still ready. -/
structure Keeps (k k' : Kernel τ ι) : Prop where
  current : k'.current = k.current
  lockNest : k'.lockNest = k.lockNest
  pc : ∀ u, (k'.thread u).pc = (k.thread u).pc
  ready : ∀ u, (k.thread u).stat = .ready → (k'.thread u).stat = .ready

/-- The running thread may be suspended. -/
structure CanWait (idle : τ) (k : Kernel τ ι) : Prop where
  ready : (k.thread k.current).stat = .ready
  lockNest : k.lockNest = 0
  idle : k.current ≠ idle

namespace Keeps

theorem refl (k : Kernel τ ι) : k.Keeps k := ⟨rfl, rfl, fun _ => rfl, fun _ h => h⟩

theorem trans {k₁ k₂ k₃ : Kernel τ ι} (h : k₁.Keeps k₂) (h' : k₂.Keeps k₃) : k₁.Keeps k₃ :=
  ⟨h'.current.trans h.current, h'.lockNest.trans h.lockNest, fun u => (h'.pc u).trans (h.pc u),
    fun u hu => h'.ready u (h.ready u hu)⟩

theorem of_eq (hc : k'.current = k.current) (hl : k'.lockNest = k.lockNest) (ht : k'.thread = k.thread) : k.Keeps k' :=
  ⟨hc, hl, fun _ => by rw [ht], fun _ h => ht ▸ h⟩

theorem canWait (h : k.Keeps k') (hw : k.CanWait idle) : k'.CanWait idle :=
  ⟨h.ready _ (h.current ▸ hw.ready), h.lockNest.trans hw.lockNest, h.current ▸ hw.idle⟩

theorem inv (h : k.Keeps k') (hi : k.Inv idle) (hs : k'.Sound idle) : k'.Inv idle := by
  refine ⟨hs, ?_, fun hl => ?_⟩
  · rw [h.current, h.pc]
    exact hi.running.imp_left (h.ready _)
  · have := hi.locked (h.lockNest ▸ hl)
    rw [Thread.Settled, h.current, h.pc]
    exact ⟨h.ready _ this.1, this.2⟩

end Keeps

/-- The call does not suspend the thread. -/
structure Passes (idle : τ) (k : Kernel τ ι) (r : Outcome τ ι) : Prop where
  sound : r.kernel.Sound idle
  keeps : k.Keeps r.kernel
  exit : r.exit.pc.cont = none ∨ r.exit.pc.cont = some .done

theorem Passes.ret {e : Err} {v : Option (Event ι)} (h : k'.Sound idle) (hk : k.Keeps k') :
    Passes idle k ⟨k', .ret e, v⟩ :=
  ⟨h, hk, .inl rfl⟩

theorem Passes.done {v : Option (Event ι)} (h : k'.Sound idle) (hk : k.Keeps k') :
    Passes idle k ⟨k', .wait .done, v⟩ :=
  ⟨h, hk, .inr rfl⟩

theorem Passes.exit_place {r : Outcome τ ι} (h : Passes idle k r) : r.exit.pc.cont.bind Cont.place = none := by
  rcases h.exit with he | he <;> rw [he] <;> rfl

theorem Keeps.setSem [DecidableEq ι] (i : ι) (s : Sem) : k.Keeps (k.setSem i s) := .of_eq rfl rfl rfl

theorem Keeps.setMutex [DecidableEq ι] (i : ι) (m : Mutex τ) : k.Keeps (k.setMutex i m) := .of_eq rfl rfl rfl

theorem Keeps.setMailbox [DecidableEq ι] (i : ι) (b : Mailbox) : k.Keeps (k.setMailbox i b) := .of_eq rfl rfl rfl

theorem Sound.setSem [DecidableEq ι] (h : k.Sound idle) (i : ι) (s : Sem) : (k.setSem i s).Sound idle :=
  ⟨⟨h.linked.congr rfl rfl fun _ => rfl, h.timer, h.initPriority, h.mutex, h.owner, h.mailbox, h.fault⟩, h.idle⟩

theorem Sound.setMailbox [DecidableEq ι] {i : ι} {b : Mailbox} (h : k.Sound idle) (hb : b.Sound) :
    (k.setMailbox i b).Sound idle := by
  refine ⟨⟨h.linked.congr rfl rfl fun _ => rfl, h.timer, h.initPriority, h.mutex, h.owner, fun j => ?_, h.fault⟩,
    h.idle⟩
  simp only [Kernel.setMailbox, Function.update_apply]
  split
  · exact hb
  · exact h.mailbox j

theorem Sound.setLock (h : k.Sound idle) (n : Nat) : Sound idle { k with lockNest := n } :=
  ⟨⟨h.linked.congr rfl rfl fun _ => rfl, h.timer, h.initPriority, h.mutex, h.owner, h.mailbox, h.fault⟩, h.idle⟩

theorem Sound.setMutex [DecidableEq ι] {i : ι} {m : Mutex τ} (h : k.Sound idle) (hv : m.Sound)
    (ho : ∀ u, m.owner = some u → (k.thread u).stat ≠ .close ∧ m.originalPriority < 32) :
    (k.setMutex i m).Sound idle := by
  refine ⟨⟨h.linked.congr rfl rfl fun _ => rfl, h.timer, h.initPriority, fun j => ?_, fun j u hu => ?_, h.mailbox,
    h.fault⟩, h.idle⟩
  · simp only [Kernel.setMutex, Function.update_apply]
    split
    · exact hv
    · exact h.mutex j
  · simp only [Kernel.setMutex, Function.update_apply] at hu ⊢
    split at hu
    · next hj => rw [if_pos hj]; exact ho u hu
    · next hj => rw [if_neg hj]; exact h.owner j u hu

/-- `rt_schedule` finds a thread. -/
theorem Sound.schedule (h : k.Sound idle) (hl : 0 < k.lockNest → (k.thread k.current).Settled) :
    k.schedule.Inv idle := by
  unfold Kernel.schedule
  split
  · next h0 =>
    obtain ⟨q, u, l, hf, hq, hu, -⟩ := h.linked.exists_head (t := idle) (Thread.home_of_ready h.idle.1)
    simp only [hf, hq]
    refine ⟨⟨⟨h.linked.congr rfl rfl fun _ => rfl, h.timer, h.initPriority, h.mutex, h.owner, h.mailbox,
      h.fault⟩, h.idle⟩, .inl ?_,
      fun hl => ?_⟩
    · exact Thread.ready_of_home hu
    · exact absurd hl (by simp [h0])
  · next h0 => exact ⟨h, .inl (hl (Nat.pos_of_ne_zero h0)).1, hl⟩

/-- `rt_schedule` picks a ready thread of the highest priority. -/
theorem Sound.schedule_le (h : k.Sound idle) (h0 : k.lockNest = 0) : (k.thread k.schedule.current).stat = .ready ∧
    ∀ t, (k.thread t).stat = .ready → k.prio k.schedule.current ≤ k.prio t := by
  obtain ⟨q, u, l, hf, hq, hu, hp, hmin⟩ := h.linked.exists_head (t := idle) (Thread.home_of_ready h.idle.1)
  have hs : k.schedule.current = u := by simp [Kernel.schedule, h0, hf, hq]
  rw [hs, hp]
  exact ⟨Thread.ready_of_home hu, fun t ht => hmin t _ (Thread.home_of_ready ht)⟩

/-- A thread that is not about to call `rt_schedule` runs. -/
theorem Inv.ready (h : k.Inv idle) (hn : ∀ c, (k.thread k.current).pc ≠ .schedule c) :
    (k.thread k.current).stat = .ready := by
  rcases h.running with hr | ⟨c, hc⟩
  · exact hr
  · exact absurd hc (hn c)

theorem Fresh.tidy (h : k.Fresh) : k.Tidy := by
  have hth := h.thread
  refine ⟨⟨⟨fun p => by simp [h.queue], fun p t => ?_⟩, fun p => by simp [h.queue, h.readyGroup], fun t => ?_,
    fun t p ht => ?_⟩,
    fun t ht => ?_, fun t => ?_, fun i => ?_, fun i u hu => ?_, fun i => ?_, h.fault⟩
  · obtain ⟨q, -, hq⟩ := hth t
    simp [h.queue, Kernel.home, hq, Thread.home]
  · obtain ⟨q, hlt, hq⟩ := hth t
    simpa [Kernel.prio, hq] using hlt
  · obtain ⟨q, -, hq⟩ := hth t
    simp [Kernel.home, hq, Thread.home] at ht
  · obtain ⟨q, -, hq⟩ := hth t
    simp [hq] at ht
  · obtain ⟨q, hlt, hq⟩ := hth t
    simpa [hq] using hlt
  · obtain ⟨f, hf⟩ := h.mutex i
    rw [hf]
    exact ⟨rfl, by simp, by simp⟩
  · obtain ⟨f, hf⟩ := h.mutex i
    simp [hf] at hu
  · obtain ⟨h1, h2, h3⟩ := h.mailbox i
    refine ⟨by simp [h1], fun hn => by rw [h3]; exact Nat.pos_of_ne_zero hn, by simp [h1, h2, h3]⟩

variable [DecidableEq τ]

theorem home_update (h : k'.thread = Function.update k.thread t x) : k'.home = Function.update k.home t x.home := by
  funext u
  rw [Kernel.home, h, Function.update_apply, Function.update_apply]
  split <;> rfl

/-- One thread changes. -/
theorem Tidy.update (h : k.Tidy) (hk : k'.thread = Function.update k.thread t x) (hg : k'.toGlobals = k.toGlobals)
    (hf : k'.fault = false) (hl : Linked (Function.update k.home t x.home) k')
    (ht : x.timer = true → x.stat = .suspend) (hi : x.initPriority = (k.thread t).initPriority)
    (hc : x.stat = .close → ∀ i, (k.mutex i).owner ≠ some t) : k'.Tidy := by
  refine ⟨home_update hk ▸ hl, fun u => ?_, fun u => ?_, ?_, fun i u hu => ?_, by rw [hg]; exact h.mailbox, hf⟩
  · rw [hk, Function.update_apply]
    split
    · exact ht
    · exact h.timer u
  · rw [hk, Function.update_apply]
    split
    · rw [hi]
      exact h.initPriority t
    · exact h.initPriority u
  · rw [hg]
    exact h.mutex
  · rw [hg] at hu ⊢
    refine ⟨?_, (h.owner i u hu).2⟩
    rw [hk, Function.update_apply]
    split
    · next he => exact fun hx => hc hx i (he ▸ hu)
    · exact (h.owner i u hu).1

/-- The thread of a call to `rt_thread_startup`. -/
theorem threadStartup_thread [DecidableEq ι] : (k.threadStartup t).kernel.thread = Function.update k.thread t
    { k.thread t with currentPriority := (k.thread t).initPriority, stat := .ready, timer := false } := by
  change (((k.faultIf _).modify t fun x => { x with currentPriority := x.initPriority, stat := .suspend }).resume
    t).thread = _
  rw [resume_thread (by simp [Kernel.modify])]
  simp [Kernel.modify, faultIf]

theorem Tidy.startup [DecidableEq ι] (h : k.Tidy) (ht : (k.thread t).stat = .init) :
    (k.threadStartup t).kernel.Tidy := by
  have hh : k.home t = none := by simp [Kernel.home, Thread.home, ht]
  have hs : ((k.modify t fun x => { x with currentPriority := x.initPriority, stat := .suspend }).thread t).stat =
      .suspend := by simp [Kernel.modify]
  have hl := (h.linked.setPrio (f := fun x => { x with currentPriority := x.initPriority, stat := .suspend }) (t := t)
    (by simp [hh]) (h.initPriority t)).resume hs (by simp [hh])
  refine h.update threadStartup_thread (by simp [threadStartup, Kernel.modify, faultIf])
    (by simp [threadStartup, Kernel.modify, faultIf, ht, h.fault]) ?_ (by simp) rfl (by simp)
  simpa [threadStartup, ht, Kernel.prio, Kernel.modify, Thread.home] using hl

namespace Sound

theorem update (h : k.Sound idle) (hk : k'.thread = Function.update k.thread t x) (hg : k'.toGlobals = k.toGlobals)
    (hf : k'.fault = false) (hl : Linked (Function.update k.home t x.home) k')
    (ht : x.timer = true → x.stat = .suspend) (hi : x.initPriority = (k.thread t).initPriority)
    (hs : t = idle → x.Settled) (hc : x.stat = .close → ∀ i, (k.mutex i).owner ≠ some t) : k'.Sound idle := by
  refine ⟨h.toTidy.update hk hg hf hl ht hi hc, ?_⟩
  rw [hk, Function.update_apply]
  split
  · next he => exact hs he.symm
  · exact h.idle

/-- The running thread moves on, or changes its error. -/
theorem modify {f : Thread ι → Thread ι} (h : k.Sound idle) (hs : (f (k.thread t)).stat = (k.thread t).stat)
    (hp : (f (k.thread t)).currentPriority = (k.thread t).currentPriority)
    (hi : (f (k.thread t)).initPriority = (k.thread t).initPriority)
    (ht : (f (k.thread t)).timer = (k.thread t).timer)
    (hc : (k.thread t).stat = .ready ∨ (f (k.thread t)).place = (k.thread t).place)
    (hd : t = idle → (f (k.thread t)).Settled) : (k.modify t f).Sound idle := by
  have hh : (f (k.thread t)).home = k.home t := by
    rw [Kernel.home]
    rcases hc with hr | hc
    · rw [Thread.home_of_ready hr, Thread.home_of_ready (hs.trans hr), hp]
    · simp only [Thread.home, hs, hp, hc]
  refine h.update (x := f (k.thread t)) rfl rfl h.fault ?_ (fun hx => ?_) hi hd fun hx i hu => ?_
  · rw [hh, Function.update_eq_self]
    exact h.linked.modify hp
  · rw [hs]
    exact h.timer t (ht ▸ hx)
  · exact (h.owner i t hu).1 (hs ▸ hx)

theorem resume [DecidableEq ι] (h : k.Sound idle) (ht : (k.thread t).stat = .suspend) : (k.resume t).Sound idle := by
  refine h.update (resume_thread ht) (by simp) (by simp [h.fault]) ?_ (by simp) rfl ?_ (by simp)
  · exact h.linked.resume ht (Thread.home_ne_ready (by simp [ht]))
  · intro he
    have := h.idle.1
    rw [← he, ht] at this
    cases this

theorem threadTimeout [DecidableEq ι] (h : k.Sound idle) (ht : (k.thread t).timer = true) :
    (k.threadTimeout t).Sound idle := by
  have hs := h.timer t ht
  refine h.update threadTimeout_thread (by simp) (by simp [threadTimeout_fault, h.fault, hs]) ?_
    (by simp) rfl ?_ (by simp)
  · exact h.linked.threadTimeout (Thread.home_ne_ready (by simp [hs]))
  · intro he
    have := h.idle.1
    rw [← he, hs] at this
    cases this

theorem changePriority [DecidableEq ι] {q : Nat} (h : k.Sound idle) (hq : q < 32) :
    (k.changePriority t q).Sound idle := by
  refine h.update changePriority_thread (by simp) (by simp [h.fault]) ?_ (h.timer t) rfl ?_ fun hc i hu => ?_
  · by_cases hr : (k.thread t).stat = .ready
    · have hh : Thread.home { k.thread t with currentPriority := q } = some (.ready q) := Thread.home_of_ready hr
      rw [hh]
      exact h.linked.changePriority hr hq
    · have hh : Thread.home { k.thread t with currentPriority := q } = k.home t := by
        simp only [Kernel.home, Thread.home, Thread.place]
        split <;> simp_all
      rw [hh, Function.update_eq_self, Kernel.changePriority, if_neg hr]
      exact h.linked.setPrio (Thread.home_ne_ready hr) hq
  · rintro rfl
    exact h.idle
  · exact (h.owner i t hu).1 hc

/-- A thread waits in the list of an object. -/
theorem block [DecidableEq ι] {p : Place ι} {c : Cont ι} {flag : Flag} {time : Int} (h : k.Sound idle)
    (hr : (k.thread t).stat = .ready) (hi : t ≠ idle) (hc : c.place = some p) :
    (((k.listSuspend p flag t).startTimer time t).modify t ({ · with pc := .schedule c })).Sound idle := by
  have hth : (((k.listSuspend p flag t).startTimer time t).modify t ({ · with pc := .schedule c })).thread =
      Function.update k.thread t
        { k.thread t with stat := .suspend, timer := decide (0 < time), pc := .schedule c } := by
    simp [Kernel.modify, startTimer_thread, listSuspend_thread hr]
  refine h.update hth (by simp [Kernel.modify]) (by simp [Kernel.modify, listSuspend_fault hr, h.fault]) ?_
    (by simp) rfl (fun he => absurd he hi) (by simp)
  have hp : ∀ q, p ≠ .ready q := fun q hq => c.place_ne_ready (hq ▸ hc)
  have hh : Thread.home { k.thread t with
      stat := .suspend, timer := decide (0 < time), pc := .schedule c } = some p := by
    simpa [Thread.home, Thread.place, Pc.cont] using hc
  rw [hh]
  exact (h.linked.listSuspend hr hp).startTimer.modify rfl

theorem sleep (h : k.Sound idle) (hr : (k.thread t).stat = .ready) (hi : t ≠ idle) :
    ((k.suspend t).modify t ({ · with timer := true, pc := .schedule .sleep })).Sound idle := by
  refine h.update (x := { k.thread t with stat := .suspend, timer := true, pc := .schedule .sleep })
    (by simp [Kernel.modify, suspend_thread hr]) (by simp [Kernel.modify]) (by simp [Kernel.modify, h.fault]) ?_
    (by simp) rfl (fun he => absurd he hi) (by simp)
  exact (h.linked.suspend hr).modify rfl

theorem exit (h : k.Sound idle) (hi : t ≠ idle) (ho : ∀ i, (k.mutex i).owner ≠ some t) :
    ((k.scheduleRemoveThread t).modify t ({ · with stat := .close, timer := false, pc := .schedule .done })).Sound
      idle := by
  refine h.update (x := { k.thread t with stat := .close, timer := false, pc := .schedule .done })
    (by simp [Kernel.modify]) (by simp [Kernel.modify]) (by simp [Kernel.modify, h.fault]) ?_
    (by simp) rfl (fun he => absurd he hi) (fun _ => ho)
  exact (h.linked.remove t).modify rfl

theorem startup [DecidableEq ι] (h : k.Sound idle) (ht : (k.thread t).stat = .init) :
    (k.threadStartup t).kernel.Sound idle := by
  refine ⟨h.toTidy.startup ht, ?_⟩
  have hi : idle ≠ t := by
    rintro rfl
    have := h.idle.1
    rw [ht] at this
    cases this
  rw [threadStartup_thread, Function.update_of_ne hi]
  exact h.idle

theorem yield [DecidableEq ι] (h : k.Sound idle) : k.threadYield.kernel.Sound idle := by
  unfold threadYield
  dsimp only
  split
  · next hc => exact
      ⟨⟨h.linked.rotate (Thread.home_of_ready hc.1), h.timer, h.initPriority, h.mutex, h.owner, h.mailbox,
        h.fault⟩, h.idle⟩
  · exact h

end Sound

/-! ### Calls -/

/-- The call passes or, where `w` allows it, the thread waits. -/
def Allows (idle : τ) (w : Prop) (k : Kernel τ ι) (r : Outcome τ ι) : Prop :=
  Passes idle k r ∨ w ∧ (r.leave k.current).kernel.Inv idle

namespace Keeps

theorem of_update (hk : k'.thread = Function.update k.thread t x) (hg : k'.toGlobals = k.toGlobals)
    (hp : x.pc = (k.thread t).pc) (hs : (k.thread t).stat = .ready → x.stat = .ready) : k.Keeps k' := by
  refine ⟨by rw [hg], by rw [hg], fun u => ?_, fun u hu => ?_⟩
  · rw [hk, Function.update_apply]
    split
    · next he => rw [hp, he]
    · rfl
  · rw [hk, Function.update_apply]
    split
    · next he => exact hs (he ▸ hu)
    · exact hu

theorem setError (e : Err) : k.Keeps (k.modify t ({ · with error := e })) := of_update rfl rfl rfl id

theorem changePriority [DecidableEq ι] (q : Nat) : k.Keeps (k.changePriority t q) :=
  of_update changePriority_thread (by simp) rfl id

theorem resume [DecidableEq ι] : k.Keeps (k.resume t) := by
  by_cases ht : (k.thread t).stat = .suspend
  · exact of_update (resume_thread ht) (by simp) rfl fun _ => rfl
  · rw [Kernel.resume, if_neg ht]
    exact .refl k

theorem threadTimeout [DecidableEq ι] : k.Keeps (k.threadTimeout t) :=
  of_update threadTimeout_thread (by simp) rfl fun _ => rfl

end Keeps

theorem Sound.setError (h : k.Sound idle) (e : Err) : (k.modify t ({ · with error := e })).Sound idle :=
  h.modify rfl rfl rfl rfl (.inr rfl) fun ht => ht ▸ h.idle

/-- The running thread leaves a call that has not suspended it. -/
theorem Sound.leave {r : Outcome τ ι} (h : r.kernel.Sound idle) (ht : r.kernel.current = t)
    (hr : (r.kernel.thread t).stat = .ready) (he : r.exit.pc.cont = none ∨ r.exit.pc.cont = some .done) :
    (r.leave t).kernel.Inv idle := by
  subst ht
  have hth : (r.leave r.kernel.current).kernel.thread r.kernel.current =
      { r.kernel.thread r.kernel.current with pc := r.exit.pc } := Function.update_self ..
  have hset : Thread.Settled { r.kernel.thread r.kernel.current with pc := r.exit.pc } := ⟨hr, he⟩
  refine ⟨h.modify (f := ({ · with pc := r.exit.pc })) (t := r.kernel.current) rfl rfl rfl rfl (.inl hr) fun _ => hset,
    .inl ?_, fun _ => ?_⟩
  · change ((r.leave r.kernel.current).kernel.thread r.kernel.current).stat = .ready
    rw [hth]
    exact hr
  · change ((r.leave r.kernel.current).kernel.thread r.kernel.current).Settled
    rw [hth]
    exact hset

theorem Passes.leave {r : Outcome τ ι} (h : Passes idle k r) (hr : (k.thread k.current).stat = .ready) :
    (r.leave k.current).kernel.Inv idle :=
  h.sound.leave h.keeps.current (h.keeps.ready _ hr) h.exit

theorem Allows.passes {w : Prop} {r : Outcome τ ι} (h : Allows idle w k r) (hw : ¬w) : Passes idle k r :=
  h.resolve_right fun hr => hw hr.1

theorem Allows.leave {w : Prop} {r : Outcome τ ι} (h : Allows idle w k r) (hr : (k.thread k.current).stat = .ready) :
    (r.leave k.current).kernel.Inv idle :=
  h.elim (fun hp => hp.leave hr) And.right

theorem Sound.wait [DecidableEq ι] {p : Place ι} {c : Cont ι} {flag : Flag} {time : Int} {e : Option (Event ι)}
    (h : k.Sound idle)
    (hw : k.CanWait idle) (ht : k.current = t) (hc : c.place = some p) :
    ((Outcome.mk ((k.listSuspend p flag t).startTimer time t) (.wait c) e).leave t).kernel.Inv idle := by
  subst ht
  refine ⟨h.block hw.ready hw.idle hc, .inr ⟨c, ?_⟩, fun hl => ?_⟩
  · simp [Outcome.leave, Kernel.modify, Exit.pc]
  · simp [Outcome.leave, Kernel.modify, hw.lockNest] at hl

/-- The head of a list of an object is resumed. -/
theorem Sound.listResume [DecidableEq ι] {p : Place ι} (h : k.Sound idle) (hp : ∀ q, p ≠ .ready q)
    (hq : k.queue p ≠ []) : (k.listResume p).Sound idle ∧ k.Keeps (k.listResume p) := by
  obtain ⟨u, l, hl⟩ := List.exists_cons_of_ne_nil hq
  have hu : (k.thread u).stat = .suspend := Thread.suspend_of_home
    ((h.linked.placed.mem_iff p u).1 (by rw [hl]; exact List.mem_cons_self)) hp
  have hr : k.listResume p = k.resume u := by simp only [Kernel.listResume, hl]
  rw [hr]
  exact ⟨h.resume hu, .resume⟩

variable [DecidableEq ι] {i : ι} {time : Int}

theorem semTake_allows (h : k.Sound idle) (hw : time ≠ 0 → k.CanWait idle) :
    Allows idle (time ≠ 0) k (k.semTake i time) := by
  simp only [semTake]
  split
  · exact .inl (.ret (h.setSem _ _) (.setSem _ _))
  · split
    · exact .inl (.ret h (.refl k))
    · next ht => exact .inr ⟨ht, (h.setError .ok).wait ((Keeps.setError .ok).canWait (hw ht)) rfl rfl⟩

theorem semRelease_passes (h : k.Sound idle) : Passes idle k (k.semRelease i) := by
  simp only [semRelease]
  split
  · exact .ret (h.setSem _ _) (.setSem _ _)
  · next hq =>
    obtain ⟨hs, hk⟩ := h.listResume (by simp) hq
    exact .done hs hk

theorem inherit_sound (h : k.Sound idle) (hv : (k.mutex i).value = 0) :
    (k.inherit (k.mutex i) t).Sound idle ∧ k.Keeps (k.inherit (k.mutex i) t) ∧
      (k.inherit (k.mutex i) t).toGlobals = k.toGlobals := by
  obtain ⟨u, hu⟩ := (h.mutex i).owned hv
  have hc := (h.owner i u hu).1
  have hk : k.inherit (k.mutex i) t = if k.prio t < k.prio u then k.changePriority u (k.prio t) else k := by
    simp [inherit, hu, hc]
  rw [hk]
  split
  · exact ⟨h.changePriority (h.linked.prio t), .changePriority _, by simp⟩
  · exact ⟨h, .refl k, rfl⟩

theorem mutexTry_allows (h : k.Sound idle) (hr : (k.thread k.current).stat ≠ .close) (hh : (k.mutex i).hold < 255)
    (hw : time ≠ 0 → k.CanWait idle) : Allows idle (time ≠ 0) k (k.mutexTry i time) := by
  have hm := h.mutex i
  simp only [mutexTry]
  split
  · next ho =>
    refine .inl (.ret (h.setMutex ⟨hm.value, ?_, ?_⟩ fun u hu => h.owner i u hu) (.setMutex _ _))
    · exact Nat.le_of_lt_succ (Nat.mod_lt _ (by decide))
    · rw [Nat.mod_eq_of_lt (by omega), ho]
      simp
  · split
    · next hv =>
      obtain ⟨ho, hv, hz⟩ := hm.free hv
      refine .inl (.ret (h.setMutex ⟨?_, ?_, ?_⟩ fun u hu => ?_) (.setMutex _ _))
      · rw [hv]
        rfl
      · exact Nat.le_of_lt_succ (Nat.mod_lt _ (by decide))
      · simp [hz]
      · cases hu
        exact ⟨hr, h.linked.prio _⟩
    · next hv =>
      split
      · exact .inl (.ret (h.setError .timeout) (.setError .timeout))
      · next ht =>
        obtain ⟨hs, hki, hg⟩ := inherit_sound (i := i) (t := k.current) h (Nat.eq_zero_of_not_pos hv)
        exact .inr ⟨ht, hs.wait (hki.canWait (hw ht)) (by rw [hg]) rfl⟩

theorem mutexTake_allows (h : k.Sound idle) (hr : (k.thread k.current).stat ≠ .close) (hh : (k.mutex i).hold < 255)
    (hw : time ≠ 0 → k.CanWait idle) : Allows idle (time ≠ 0) k (k.mutexTake i time) := by
  have hk : k.Keeps (k.modify k.current ({ · with error := .ok })) := .setError .ok
  refine (mutexTry_allows (i := i) (h.setError (t := k.current) .ok) ?_ hh fun ht => hk.canWait (hw ht)).imp_left
    fun hp => ⟨hp.sound, hk.trans hp.keeps, hp.exit⟩
  simpa [Kernel.modify] using hr

theorem mutexPass_passes {m : Mutex τ} (h : k.Sound idle) (hv : m.value = 0) (hz : m.hold = 0) :
    Passes idle k (k.mutexPass i m) := by
  unfold mutexPass
  split
  · next u l hl =>
    have hu : (k.thread u).stat = .suspend := Thread.suspend_of_home
      ((h.linked.placed.mem_iff _ u).1 (by rw [hl]; exact List.mem_cons_self)) (by simp)
    have hs : (k.setMutex i { m with owner := some u, originalPriority := k.prio u, hold := m.hold + 1 }).Sound idle :=
      h.setMutex ⟨by simp [hv], by simp [hz], by simp⟩ fun v hv => by
        cases hv
        exact ⟨by simp [hu], h.linked.prio u⟩
    obtain ⟨hs, hk⟩ := hs.listResume (p := .mutex i) (by simp) (by
      change k.queue (.mutex i) ≠ []
      simp [hl])
    exact .done hs ((Keeps.setMutex _ _).trans hk)
  · exact .ret (h.setMutex ⟨by simp [hv], by simp [hz], by simp [hz]⟩ (by simp)) (.setMutex _ _)

theorem mutexRelease_passes (h : k.Sound idle) : Passes idle k (k.mutexRelease i) := by
  have hm := h.mutex i
  simp only [mutexRelease]
  split
  · exact .ret (h.setError .error) (.setError .error)
  · next ho =>
    have ho := not_not.1 ho
    have hv : (k.mutex i).value = 0 := by simpa [ho] using hm.value
    split
    · next hz =>
      split
      · obtain ⟨hs, hk, he⟩ := mutexPass_passes (i := i)
          (m := { k.mutex i with hold := ((k.mutex i).hold + 255) % 256 })
          (h.changePriority (t := k.current) (h.owner i _ ho).2) hv hz
        exact ⟨hs, (Keeps.changePriority _).trans hk, he⟩
      · exact mutexPass_passes h hv hz
    · next hz =>
      refine .ret (h.setMutex ⟨hm.value, ?_, by simp [ho, hz]⟩ fun u hu => h.owner i u hu) (.setMutex _ _)
      exact Nat.le_of_lt_succ (Nat.mod_lt _ (by decide))

theorem mbPut_passes {v : UInt32} (h : k.Sound idle) (hne : (k.mailbox i).entry ≠ (k.mailbox i).size) :
    Passes idle k (k.mbPut i v) := by
  have hb : ((k.mailbox i).put v).Sound := ((h.mailbox i).put hne).1
  simp only [mbPut]
  split
  · exact .ret (h.setMailbox hb) (.setMailbox _ _)
  · next hq =>
    obtain ⟨hs, hk⟩ := (h.setMailbox hb).listResume (by simp) hq
    exact .done hs ((Keeps.setMailbox _ _).trans hk)

theorem mbGet_passes (h : k.Sound idle) (hne : (k.mailbox i).entry ≠ 0) : Passes idle k (k.mbGet i) := by
  have hb := ((h.mailbox i).get hne).1
  simp only [mbGet]
  split
  · exact .ret (h.setMailbox hb) (.setMailbox _ _)
  · next hq =>
    obtain ⟨hs, hk⟩ := (h.setMailbox hb).listResume (by simp) hq
    exact .done hs ((Keeps.setMailbox _ _).trans hk)

theorem mbSendLoop_allows {v : UInt32} (h : k.Sound idle) (hw : time ≠ 0 → k.CanWait idle) :
    Allows idle (time ≠ 0) k (k.mbSendLoop i v time) := by
  simp only [mbSendLoop]
  split
  · split
    · exact .inl (.ret (h.setError .ok) (.setError .ok))
    · next ht => exact .inr ⟨ht, (h.setError .ok).wait ((Keeps.setError .ok).canWait (hw ht)) rfl rfl⟩
  · next hne => exact .inl (mbPut_passes h hne)

theorem mbSendWait_allows {v : UInt32} (h : k.Sound idle) (hw : time ≠ 0 → k.CanWait idle) :
    Allows idle (time ≠ 0) k (k.mbSendWait i v time) := by
  unfold mbSendWait
  split
  · exact .inl (.ret h (.refl k))
  · exact mbSendLoop_allows h hw

theorem mbRecvLoop_allows (h : k.Sound idle) (hw : time ≠ 0 → k.CanWait idle) :
    Allows idle (time ≠ 0) k (k.mbRecvLoop i time) := by
  simp only [mbRecvLoop]
  split
  · split
    · exact .inl (.ret ((h.setError .ok).setError .timeout) ((Keeps.setError .ok).trans (.setError .timeout)))
    · next ht => exact .inr ⟨ht, (h.setError .ok).wait ((Keeps.setError .ok).canWait (hw ht)) rfl rfl⟩
  · next hne => exact .inl (mbGet_passes h hne)

theorem mbRecv_allows (h : k.Sound idle) (hw : time ≠ 0 → k.CanWait idle) :
    Allows idle (time ≠ 0) k (k.mbRecv i time) := by
  unfold mbRecv
  split
  · exact .inl (.ret h (.refl k))
  · exact mbRecvLoop_allows h hw

theorem threadYield_passes (h : k.Sound idle) : Passes idle k k.threadYield := by
  refine ⟨h.yield, ?_, ?_⟩ <;> simp only [threadYield] <;> split
  · exact .of_eq rfl rfl rfl
  · exact .refl k
  · exact .inr rfl
  · exact .inl rfl

theorem threadStartup_passes (h : k.Sound idle) (ht : (k.thread t).stat = .init) :
    Passes idle k (k.threadStartup t) := by
  refine ⟨h.startup ht, ?_, .inr rfl⟩
  have hk : k.Keeps (k.modify t fun x => { x with currentPriority := x.initPriority, stat := .suspend }) :=
    .of_update rfl rfl rfl (by simp [ht])
  simpa [threadStartup, ht] using hk.trans .resume

/-- A call of a thread that may wait where the call does. -/
theorem Inv.call_leave {c : Call τ ι} (h : k.Inv idle) (hr : (k.thread k.current).stat = .ready)
    (ha : Allowed idle k (.call c)) : ((k.call c).leave k.current).kernel.Inv idle := by
  have hw : c.mayWait = true → k.CanWait idle := fun hc => ⟨hr, (ha.1 hc).1, (ha.1 hc).2⟩
  cases c with
  | semTake i time => exact (semTake_allows h.sound fun ht => hw (by simpa [Call.mayWait] using ht)).leave hr
  | semRelease i => exact (semRelease_passes h.sound).leave hr
  | mutexTake i time =>
    exact (mutexTake_allows h.sound (by simp [hr]) ha.2 fun ht => hw (by simpa [Call.mayWait] using ht)).leave hr
  | mutexRelease i => exact (mutexRelease_passes h.sound).leave hr
  | mbSendWait i v time => exact (mbSendWait_allows h.sound fun ht => hw (by simpa [Call.mayWait] using ht)).leave hr
  | mbRecv i time => exact (mbRecv_allows h.sound fun ht => hw (by simpa [Call.mayWait] using ht)).leave hr
  | threadSleep =>
    have hw := hw rfl
    change (((k.suspend k.current).modify k.current ({ · with timer := true })).modify k.current
      ({ · with pc := .schedule .sleep })).Inv idle
    rw [modify_modify]
    refine ⟨h.sound.sleep hr hw.idle, .inr ⟨.sleep, ?_⟩, fun hl => ?_⟩
    · simp [Kernel.modify]
    · simp [Kernel.modify, hw.lockNest] at hl
  | threadYield => exact (threadYield_passes h.sound).leave hr
  | threadStartup t => exact (threadStartup_passes h.sound ha.2).leave hr
  | changePriority t p => exact (Passes.ret (h.sound.changePriority ha.2) (.changePriority p)).leave hr
  | threadExit =>
    have hw := hw rfl
    change (((k.scheduleRemoveThread k.current).modify k.current ({ · with stat := .close, timer := false })).modify
      k.current ({ · with pc := .schedule .done })).Inv idle
    rw [modify_modify]
    refine ⟨h.sound.exit hw.idle ha.2, .inr ⟨.done, ?_⟩, fun hl => ?_⟩
    · simp [Kernel.modify]
    · simp [Kernel.modify, hw.lockNest] at hl
  | enterCritical => exact (h.sound.setLock _).leave rfl hr (.inl rfl)
  | exitCritical =>
    refine (h.sound.setLock _).leave rfl hr ?_
    simp only [Kernel.call, exitCritical]
    split
    · exact .inr rfl
    · exact .inl rfl

/-- A thread goes on behind its `rt_schedule`. -/
theorem Inv.go_leave {c : Cont ι} {elapsed : Nat} (h : k.Inv idle) (hc : (k.thread k.current).pc = .behind c) :
    ((k.goOn elapsed c).leave k.current).kernel.Inv idle := by
  have hr := h.ready fun c' => by simp [hc]
  have hw : c ≠ .done → k.CanWait idle := fun hne => by
    have hn : ¬ (k.thread k.current).Settled := fun hs => by
      have := hs.2
      rw [hc] at this
      simp [Pc.cont, hne] at this
    exact ⟨hr, by by_contra hl; exact hn (h.locked (Nat.pos_of_ne_zero hl)), fun he => hn (he ▸ h.sound.idle)⟩
  have hsame : ∀ (e : Err) (v : Option (Event ι)), ((Outcome.mk k (.ret e) v).leave k.current).kernel.Inv idle :=
    fun e v => (Passes.ret h.sound (.refl k)).leave hr
  cases c with
  | done => exact hsame _ _
  | sleep =>
    simp only [goOn]
    split
    · exact (Passes.ret (h.sound.setError .ok) (.setError .ok)).leave hr
    · exact hsame _ _
  | sem i => exact hsame _ _
  | mutex i => exact hsame _ _
  | send i v timeout =>
    simp only [goOn]
    split
    · exact (mbSendLoop_allows h.sound fun _ => hw (by simp)).leave hr
    · exact hsame _ _
  | recv i timeout =>
    simp only [goOn]
    split
    · exact (mbRecvLoop_allows h.sound fun _ => hw (by simp)).leave hr
    · exact hsame _ _

/-- A call of an interrupt does not wait. -/
theorem isr_passes {c : Call τ ι} (h : k.Sound idle) (hc : c.fromIsr = true) : Passes idle k (k.call c) := by
  cases c with
  | semTake i time =>
    have ht : time = 0 := by simpa [Call.fromIsr] using hc
    exact (semTake_allows h (absurd ht)).passes (not_not.2 ht)
  | semRelease i => exact semRelease_passes h
  | mbSendWait i v time =>
    have ht : time = 0 := by simpa [Call.fromIsr] using hc
    exact (mbSendWait_allows h (absurd ht)).passes (not_not.2 ht)
  | mbRecv i time =>
    have ht : time = 0 := by simpa [Call.fromIsr] using hc
    exact (mbRecv_allows h (absurd ht)).passes (not_not.2 ht)
  | threadYield => exact threadYield_passes h
  | mutexTake | mutexRelease | threadSleep | threadStartup | changePriority | threadExit | enterCritical
  | exitCritical => simp [Call.fromIsr] at hc

/-! ### Runs -/

section run
variable {r : Outcome τ ι}

theorem run_call {c : Call τ ι} (h : (Act.call c).run k = some r) :
    (k.thread k.current).pc = .user ∧ (k.call c).leave k.current = r := by
  simpa only [Act.run, Option.ite_none_right_eq_some, Option.some.injEq] using h

theorem run_schedule (h : Act.schedule.run k = some r) : ∃ c, (k.thread k.current).pc = .schedule c ∧
    ⟨(k.modify k.current ({ · with pc := .behind c })).schedule, .wait c, none⟩ = r := by
  simp only [Act.run] at h
  split at h
  · next c hc => exact ⟨c, hc, Option.some.inj h⟩
  · cases h

theorem run_go {elapsed : Nat} (h : (Act.go elapsed).run k = some r) : ∃ c, (k.thread k.current).pc = .behind c ∧
    (k.goOn elapsed c).leave k.current = r := by
  simp only [Act.run] at h
  split at h
  · next c hc => exact ⟨c, hc, Option.some.inj h⟩
  · cases h

theorem run_isr {c : Call τ ι} (h : (Act.isr c).run k = some r) : c.fromIsr = true ∧ k.call c = r := by
  simpa only [Act.run, Option.ite_none_right_eq_some, Option.some.injEq] using h

theorem run_timeout (h : (Act.timeout t).run k = some r) :
    (k.thread t).timer = true ∧ ⟨k.threadTimeout t, .ret .ok, none⟩ = r := by
  simpa only [Act.run, Option.ite_none_right_eq_some, Option.some.injEq] using h

end run

theorem Inv.step {a : Act τ ι} {r : Outcome τ ι} (h : k.Inv idle) (ha : Allowed idle k a) (hs : a.run k = some r) :
    r.kernel.Inv idle := by
  cases a with
  | call c =>
    obtain ⟨hpc, rfl⟩ := run_call hs
    exact h.call_leave (h.ready fun c => by simp [hpc]) ha
  | schedule =>
    obtain ⟨c, hc, rfl⟩ := run_schedule hs
    have hset : (k.thread k.current).Settled → Thread.Settled { k.thread k.current with pc := .behind c } :=
      fun hx => by simpa [Thread.Settled, hc, Pc.cont] using hx
    have hth : (k.modify k.current ({ · with pc := .behind c })).thread k.current =
        { k.thread k.current with pc := .behind c } := Function.update_self ..
    refine Sound.schedule (h.sound.modify (f := ({ · with pc := .behind c })) (t := k.current) rfl rfl rfl rfl (.inr ?_)
      fun hi => hset ?_) fun hl => ?_
    · simp [Thread.place, hc, Pc.cont]
    · rw [hi]
      exact h.sound.idle
    · change ((k.modify k.current ({ · with pc := .behind c })).thread k.current).Settled
      rw [hth]
      exact hset (h.locked hl)
  | go elapsed =>
    obtain ⟨c, hc, rfl⟩ := run_go hs
    exact h.go_leave hc
  | isr c =>
    obtain ⟨hc, rfl⟩ := run_isr hs
    have hp := isr_passes h.sound hc
    exact hp.keeps.inv h hp.sound
  | timeout t =>
    obtain ⟨ht, rfl⟩ := run_timeout hs
    exact Keeps.threadTimeout.inv h (h.sound.threadTimeout ht)
  | preempt =>
    cases hs
    exact h.sound.schedule h.locked

/-- The threads are started one after the other. -/
theorem startups {ts : List τ} (h : k.Tidy) (hn : ts.Nodup) (hi : ∀ t ∈ ts, (k.thread t).stat = .init)
    (hu : ∀ t, (k.thread t).pc = .user) :
    let k' := ts.foldl (fun k t => (k.threadStartup t).kernel) k
    k'.Tidy ∧ k'.lockNest = k.lockNest ∧ (∀ t, (k'.thread t).pc = .user) ∧
      ∀ t, t ∈ ts ∨ (k.thread t).stat = .ready → (k'.thread t).stat = .ready := by
  induction ts generalizing k with
  | nil => exact ⟨h, rfl, hu, fun t ht => by simpa using ht⟩
  | cons u ts ih =>
    obtain ⟨hmem, hn⟩ := List.nodup_cons.1 hn
    have hi' : ∀ t ∈ ts, ((k.threadStartup u).kernel.thread t).stat = .init := fun t ht => by
      have htu : t ≠ u := fun he => hmem (he ▸ ht)
      rw [threadStartup_thread, Function.update_of_ne htu]
      exact hi t (List.mem_cons_of_mem _ ht)
    have hu' : ∀ t, ((k.threadStartup u).kernel.thread t).pc = .user := fun t => by
      rw [threadStartup_thread, Function.update_apply]
      split <;> exact hu _
    obtain ⟨h1, h2, h3, h4⟩ := ih (h.startup (hi u List.mem_cons_self)) hn hi' hu'
    refine ⟨h1, h2.trans (by simp [threadStartup, Kernel.modify, faultIf]), h3, fun t ht => h4 t ?_⟩
    by_cases htu : t = u
    · subst htu
      simp [threadStartup_thread]
    · simpa [threadStartup_thread, htu] using ht

theorem Fresh.inv {ts : List τ} (h : k.Fresh) (hn : ts.Nodup) (hi : idle ∈ ts) : (k.boot ts).Inv idle := by
  obtain ⟨h1, h2, h3, h4⟩ := startups h.tidy hn (fun t _ => by obtain ⟨q, -, hq⟩ := h.thread t; simp [hq])
    fun t => by obtain ⟨q, -, hq⟩ := h.thread t; simp [hq]
  refine Sound.schedule ⟨h1, h4 idle (.inl hi), .inl (by rw [h3]; rfl)⟩ fun hl => ?_
  rw [h2, h.lockNest] at hl
  exact absurd hl (by decide)

theorem Inv.run {h : List (Kernel τ ι × Act τ ι)} (hr : (kernelSystem idle).Run h k)
    (hg : Lts.Guarded (fun _ k a => Allowed idle k a) h) : k.Inv idle := by
  refine hr.inv (I := fun _ k => k.Inv idle) ?_ ?_ hg
  · rintro _ ⟨k₀, ts, hf, hn, hi, rfl⟩
    exact hf.inv hn hi
  · intro _ s a s' hs ha hst
    obtain ⟨r, hr, rfl⟩ := Option.map_eq_some_iff.1 hst
    exact hs.step ha hr

/-- Whatever the interrupts do and whenever a timer goes off: nothing goes wrong, every thread stands once in the list
it belongs to and in no other, the bitmap names the priorities of the ready threads, and `rt_schedule` picks a ready
thread of the highest priority. -/
theorem consistent_of_run {h : List (Kernel τ ι × Act τ ι)} (hr : (kernelSystem idle).Run h k)
    (hg : Lts.Guarded (fun _ k a => Allowed idle k a) h) :
    k.fault = false ∧ (∀ t p, (k.queue p).count t = if (k.thread t).home = some p then 1 else 0) ∧
      (∀ q, k.readyGroup.getLsbD q = true ↔ ∃ t, (k.thread t).stat = .ready ∧ k.prio t = q) ∧
      (k.lockNest = 0 → (k.thread k.schedule.current).stat = .ready ∧
        ∀ t, (k.thread t).stat = .ready → k.prio k.schedule.current ≤ k.prio t) := by
  have hi := Inv.run hr hg
  have hl := hi.sound.linked
  have hready : ∀ t, (k.thread t).stat = .ready → k.home t = some (.ready (k.prio t)) := fun t ht =>
    Thread.home_of_ready ht
  refine ⟨hi.sound.fault, fun t p => ?_, fun q => ?_, fun h0 => ?_⟩
  · split
    · next hp => exact List.count_eq_one_of_mem (hl.placed.nodup p) ((hl.placed.mem_iff p t).2 hp)
    · next hp => exact List.count_eq_zero_of_not_mem fun hm => hp ((hl.placed.mem_iff p t).1 hm)
  · rw [hl.bit q]
    constructor
    · intro hne
      obtain ⟨t, ht⟩ := List.exists_mem_of_ne_nil _ hne
      have ht := (hl.placed.mem_iff _ t).1 ht
      exact ⟨t, Thread.ready_of_home ht, (hl.ready t q ht).symm⟩
    · rintro ⟨t, ht, rfl⟩
      exact List.ne_nil_of_mem ((hl.placed.mem_iff _ t).2 (hready t ht))
  · exact hi.sound.schedule_le h0

end Kernel

/-- The idle thread and two others, with one object of each kind. -/
def sampleKernel : Kernel (Fin 3) Unit where
  current := 0
  lockNest := 0
  sem _ := ⟨0, .fifo⟩
  mutex _ := ⟨1, none, 0xff, 0, .prio⟩
  mailbox _ := ⟨fun _ => 0, 2, 0, 0, 0, .fifo⟩
  queue _ := []
  readyGroup := 0
  thread t := ⟨.init, .ok, ![31, 10, 5] t, ![31, 10, 5] t, false, .user⟩
  fault := false

abbrev sampleSystem : Lts (Kernel (Fin 3) Unit) (Act (Fin 3) Unit) := kernelSystem 0

theorem sampleKernel_init : sampleSystem.init (sampleKernel.boot [0, 1, 2]) := by
  refine ⟨sampleKernel, [0, 1, 2], ⟨fun _ => rfl, rfl, fun t => ⟨![31, 10, 5] t, ?_, rfl⟩, rfl,
    fun _ => Nat.zero_lt_succ _,
    fun _ => ⟨_, rfl⟩, fun _ => ⟨rfl, rfl, rfl⟩, rfl⟩, by decide, by decide, rfl⟩
  revert t
  decide

/-- Thread 2 waits for the semaphore, an interrupt releases it while thread 1 runs. -/
theorem Kernel.consistent_of_run_wake : ∃ h k, sampleSystem.Run h k ∧ k.current = 2 ∧
    (k.thread (k.schedule.current)).stat = .ready ∧ ∀ t, (k.thread t).stat = .ready →
      k.prio k.schedule.current ≤ k.prio t := by
  obtain ⟨h, k, hr, hg, hc, hl⟩ := Lts.exists_run_of_exec (S := sampleSystem)
    (P := fun h k => Lts.Guarded (fun _ k a => Allowed 0 k a) h ∧ k.current = 2 ∧ k.lockNest = 0)
    [.call (.semTake () (-1)), .schedule, .call (.mutexTake () 0), .isr (.semRelease ()), .preempt, .go 0]
    sampleKernel_init (by decide +kernel)
  exact ⟨h, k, hr, hc, (Kernel.consistent_of_run hr hg).2.2.2 hl⟩

end Bootloader.Rt
