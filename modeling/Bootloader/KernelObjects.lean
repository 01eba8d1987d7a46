import Bootloader.KernelEffect

/-!
# What the objects keep over a run

The steps of a run, seen from one semaphore, mutex or mailbox, are steps of the abstract object. What that object keeps
is said here of the calls that have returned and of the lists of the kernel.
-/

namespace Bootloader.Rt
variable {τ ι : Type} [DecidableEq τ] [DecidableEq ι]

/-- What the step does to an object. -/
def Act.event (x : Kernel τ ι × Act τ ι) : Option (Event ι) := (x.2.run x.1).bind (·.event)

abbrev History (τ ι : Type) := List (Kernel τ ι × Act τ ι)

namespace History

def semLabels (i : ι) (h : History τ ι) : List Semaphore.Label :=
  h.filterMap fun x => (Act.event x).bind (Event.semLabel i)

def lockLabels (i : ι) (h : History τ ι) : List (Lock.Label τ) :=
  h.filterMap fun x => (Act.event x).bind (Event.lockLabel i x.1.current)

def mailLabels (i : ι) (h : History τ ι) : List (Channel.Label UInt32) :=
  h.filterMap fun x => (Act.event x).bind (Event.mailLabel i)

/-- How often `rt_sem_take` has returned RT_EOK. -/
def takes (i : ι) (h : History τ ι) : Nat := (h.semLabels i).count .took

/-- How often `rt_sem_release` has been called. -/
def releases (i : ι) (h : History τ ι) : Nat := (h.semLabels i).count .released

/-- How often `rt_mutex_take` has returned RT_EOK to the thread. -/
def locks (i : ι) (t : τ) (h : History τ ι) : Nat := (h.lockLabels i).count (.locked t)

/-- How often the thread has called `rt_mutex_release` as the owner. -/
def unlocks (i : ι) (t : τ) (h : History τ ι) : Nat := (h.lockLabels i).count (.unlocked t)

/-- The mails that have been accepted, in the order of time. -/
def sent (i : ι) (h : History τ ι) : List UInt32 := ((h.mailLabels i).filterMap Channel.Label.puts).reverse

/-- The mails that have been received, in the order of time. -/
def received (i : ι) (h : History τ ι) : List UInt32 := ((h.mailLabels i).filterMap Channel.Label.gots).reverse

end History

namespace Kernel
variable {idle t : τ} {i : ι} {k k' : Kernel τ ι} {e : Option (Event ι)}

/-- The threads that have been woken at the list of an object and have not gone on yet. -/
def woken [Fintype τ] (p : Place ι) (k : Kernel τ ι) : Finset τ :=
  Finset.univ.filter fun t => (k.thread t).place = some p ∧ (k.thread t).stat ≠ .suspend ∧ (k.thread t).error = .ok

/-- How often the thread holds the mutex. What it has been handed counts from when it is back from `rt_mutex_take`. -/
def held [Fintype τ] (i : ι) (t : τ) (k : Kernel τ ι) : Nat :=
  if (k.mutex i).owner = some t ∧ t ∉ k.woken (.mutex i) then (k.mutex i).hold else 0

omit [DecidableEq τ] in
theorem mem_woken [Fintype τ] {p : Place ι} : t ∈ k.woken p ↔ k.phase p t = .back .ok := by
  rw [woken, Finset.mem_filter_univ, Kernel.phase, Thread.phase_eq_back]

omit [DecidableEq τ] in
theorem standing_woken [Fintype τ] {p : Place ι} : standing (k.phase p) (.back .ok) = (k.woken p).card :=
  congrArg Finset.card (Finset.filter_congr fun _ _ => Thread.phase_eq_back)

omit [DecidableEq ι] [DecidableEq τ] in
/-- What is in the list of an object is what waits for it. -/
theorem Tidy.mem_queue {p : Place ι} (h : k.Tidy) (hp : ∀ q, p ≠ .ready q) :
    t ∈ k.queue p ↔ (k.thread t).place = some p ∧ (k.thread t).stat = .suspend := by
  rw [h.linked.placed.mem_iff]
  constructor
  · intro hm
    have hs := Thread.suspend_of_home hm hp
    exact ⟨(Thread.home_of_suspend hs).symm.trans hm, hs⟩
  · rintro ⟨hp, hs⟩
    exact (Thread.home_of_suspend hs).trans hp

omit [DecidableEq τ] in
theorem Tidy.waits {p : Place ι} (h : k.Tidy) (hp : ∀ q, p ≠ .ready q) (ht : t ∈ k.queue p) :
    k.phase p t = .waits (k.thread t).error := by
  obtain ⟨hp, hs⟩ := (h.mem_queue hp).1 ht
  exact Thread.phase_eq_waits.2 ⟨hp, hs, rfl⟩

/-! ### The start -/

theorem startups_toGlobals (ts : List τ) :
    (ts.foldl (fun k t => (k.threadStartup t).kernel) k).toGlobals = k.toGlobals := by
  induction ts generalizing k with
  | nil => rfl
  | cons t ts ih =>
    rw [List.foldl_cons, ih]
    simp [threadStartup, Kernel.modify, faultIf]

/-- Nobody is in a call when the scheduler starts, and the objects are as they have been initialised. -/
structure AtRest (k : Kernel τ ι) : Prop where
  phase : ∀ p t, k.phase p t = .out
  sem : ∀ i, (k.sem i).value < 65536
  mutex : ∀ i, (k.mutex i).owner = none ∧ (k.mutex i).hold = 0
  mailbox : ∀ i, (k.mailbox i).entry = 0

theorem init_atRest (h : (kernelSystem idle).init k) : k.AtRest := by
  obtain ⟨k₀, ts, hf, hn, -, rfl⟩ := h
  obtain ⟨-, -, hu, -⟩ := startups hf.tidy hn (fun t _ => by obtain ⟨q, -, hq⟩ := hf.thread t; simp [hq])
    fun t => by obtain ⟨q, -, hq⟩ := hf.thread t; simp [hq]
  have hs := fun o => schedule_same (o := o) (k := ts.foldl (fun k t => (k.threadStartup t).kernel) k₀)
  have hg := startups_toGlobals (k := k₀) ts
  have hth : (k₀.boot ts).thread = (ts.foldl (fun k t => (k.threadStartup t).kernel) k₀).thread := by
    unfold boot schedule
    split
    · split
      · rfl
      · split <;> rfl
    · rfl
  refine ⟨fun p t => Thread.phase_eq_out.2 ?_, fun i => ?_, fun i => ?_, fun i => ?_⟩
  · rw [hth, Thread.place, hu]
    simp [Pc.cont]
  · rw [boot, (hs none).sem i (by simp), hg]
    exact hf.sem i
  · rw [boot, (hs none).mutex i (by simp), hg]
    obtain ⟨f, hm⟩ := hf.mutex i
    simp [hm]
  · rw [boot, (hs none).mailbox i (by simp), hg]
    exact (hf.mailbox i).1

/-! ### One object -/

/-- The one object that the step concerns. -/
theorem Effect.object (h : Effect t k e k') : ∃ o, SameBut o k k' ∧ (∀ v ∈ e, o = some v.object) ∧
    (∀ i, o = some (.sem i) →
      Semaphore.Step .ok 65536 (k.semState i) (e.bind (Event.semLabel i)) (k'.semState i)) ∧
    (∀ i, o = some (.mutex i) → Lock.Step .ok (k.lockState i) (e.bind (Event.lockLabel i t)) (k'.lockState i)) ∧
    ∀ i, o = some (.mailbox i) → Channel.Step .ok (k.channel i) (e.bind (Event.mailLabel i)) (k'.channel i) := by
  cases h with
  | quiet hs he => exact ⟨none, hs, by simp [he], by simp, by simp, by simp⟩
  | sem j hs he hst =>
    refine ⟨_, hs, fun v hv => by rw [he v hv], fun i hi => ?_, by simp, by simp⟩
    cases hi
    exact hst
  | mutex j hs he hst =>
    refine ⟨_, hs, fun v hv => by rw [he v hv], by simp, fun i hi => ?_, by simp⟩
    cases hi
    exact hst
  | mailbox j hs he hst =>
    refine ⟨_, hs, fun v hv => by rw [he v hv], by simp, by simp, fun i hi => ?_⟩
    cases hi
    exact hst

theorem Effect.semStep (h : Effect t k e k') (i : ι) :
    Semaphore.Step .ok 65536 (k.semState i) (e.bind (Event.semLabel i)) (k'.semState i) := by
  obtain ⟨o, hs, he, hst, -, -⟩ := h.object
  by_cases ho : o = some (.sem i)
  · exact hst i ho
  · have hn : e.bind (Event.semLabel i) = none := Option.bind_eq_none_iff.2 fun v hv =>
      Event.semLabel_none fun hi => ho (hi ▸ he v hv)
    rw [semState_congr hs ho, hn]
    exact .skip

theorem Effect.lockStep (h : Effect t k e k') (i : ι) :
    Lock.Step .ok (k.lockState i) (e.bind (Event.lockLabel i t)) (k'.lockState i) := by
  obtain ⟨o, hs, he, -, hst, -⟩ := h.object
  by_cases ho : o = some (.mutex i)
  · exact hst i ho
  · have hn : e.bind (Event.lockLabel i t) = none := Option.bind_eq_none_iff.2 fun v hv =>
      Event.lockLabel_none fun hi => ho (hi ▸ he v hv)
    rw [lockState_congr hs ho, hn]
    exact .skip

theorem Effect.mailStep (h : Effect t k e k') (i : ι) :
    Channel.Step .ok (k.channel i) (e.bind (Event.mailLabel i)) (k'.channel i) := by
  obtain ⟨o, hs, he, -, -, hst⟩ := h.object
  by_cases ho : o = some (.mailbox i)
  · exact hst i ho
  · have hn : e.bind (Event.mailLabel i) = none := Option.bind_eq_none_iff.2 fun v hv =>
      Event.mailLabel_none fun hi => ho (hi ▸ he v hv)
    rw [channel_congr hs ho, hn]
    exact .skip

/-! ### Runs -/

section runs
variable {h : History τ ι}

theorem event_eq {a : Act τ ι} {r : Outcome τ ι} (hr : a.run k = some r) : Act.event (k, a) = r.event := by
  simp [Act.event, hr]

/-- A run as an object sees it. -/
theorem steps_of_run {σ κ : Type} {Step : σ → Option κ → σ → Prop} (f : Kernel τ ι → σ) (l : τ → Event ι → Option κ)
    (hst : ∀ {t k e k'}, Effect t k e k' → Step (f k) (e.bind (l t)) (f k')) (hr : (kernelSystem idle).Run h k)
    (hg : Lts.Guarded (fun _ k a => Allowed idle k a) h) :
    Steps Step (f (Lts.start h k)) (h.filterMap fun x => (Act.event x).bind (l x.1.current)) (f k) := by
  refine (Steps.of_run (I := fun k => k.Inv idle) f _ ?_ ?_ hr hg).2
  · rintro _ ⟨k₀, ts, hf, hn, hi, rfl⟩
    exact hf.inv hn hi
  · intro _ k a k' hi ha hs
    obtain ⟨r, hr, rfl⟩ := Option.map_eq_some_iff.1 hs
    refine ⟨hi.step ha hr, ?_⟩
    simp only [event_eq hr]
    exact hst (step_effect hi ha hr)

theorem lock_of_run (hr : (kernelSystem idle).Run h k) (hg : Lts.Guarded (fun _ k a => Allowed idle k a) h) (i : ι) :
    Lock.Inv .ok (k.lockState i) ∧ ∀ t, h.locks i t = Lock.holds .ok (k.lockState i) t + h.unlocks i t := by
  have h0 := init_atRest hr.init_start
  have hf : ∀ t, (Lts.start h k).phase (.mutex i) t = .out := h0.phase _
  have hst := steps_of_run (lockState i) (Event.lockLabel i) (fun he => he.lockStep i) hr hg
  refine Lock.balanced ⟨?_, ?_, ?_, ?_⟩ (fun t => ?_) hst
  · simp [lockState, h0.mutex]
  · simp [lockState, hf]
  · simp [lockState, hf]
  · simp [lockState, hf]
  · simp [Lock.holds, lockState, h0.mutex]

/-- However threads, interrupts and timeouts interleave: what is received is what has been sent, in its order, and what
has not been received yet is in the mailbox, which holds no more than its size. -/
theorem mail_fifo (hr : (kernelSystem idle).Run h k) (hg : Lts.Guarded (fun _ k a => Allowed idle k a) h) (i : ι) :
    h.sent i = h.received i ++ (k.mailbox i).content ∧ (k.mailbox i).content.length ≤ (k.mailbox i).size := by
  have h0 := init_atRest hr.init_start
  have hst := steps_of_run (channel i) (fun _ => Event.mailLabel i) (fun he => he.mailStep i) hr hg
  have hf := Channel.fifo (List.length_eq_zero_iff.1 (by simp [channel, Mailbox.content_length, h0.mailbox])) hst
  refine ⟨?_, ?_⟩
  · have hr := congrArg List.reverse hf
    rw [List.reverse_append, List.reverse_reverse] at hr
    exact hr
  · rw [Mailbox.content_length]
    exact ((Inv.run hr hg).sound.mailbox i).le

/-- Of two mails one has been received. -/
theorem mail_fifo_two : ∃ h k, sampleSystem.Run h k ∧ History.sent () h = [7, 8] ∧ History.received () h = [7] ∧
    (k.mailbox ()).content = [8] := by
  obtain ⟨h, k, hr, hg, h1, h2⟩ := Lts.exists_run_of_exec (S := sampleSystem)
    (P := fun h _ => Lts.Guarded (fun _ k a => Allowed 0 k a) h ∧ History.sent () h = [7, 8] ∧
      History.received () h = [7])
    [.isr (.mbSendWait () 7 0), .call (.mbRecv () (-1)), .isr (.mbSendWait () 8 0)] sampleKernel_init
    (by decide +kernel)
  have hf := (mail_fifo hr hg ()).1
  rw [h1, h2] at hf
  exact ⟨h, k, hr, h1, h2, (List.cons.inj hf).2.symm⟩

variable [Fintype τ]

/-- However threads, interrupts and timeouts interleave: what a semaphore has at the start and what is released is what
it has now, what has been handed to a thread that is not back yet, and what has been taken, but for the rounds that its
16 bits make; and nobody waits for it while there is something to take. -/
theorem sem_conserved (hr : (kernelSystem idle).Run h k) (hg : Lts.Guarded (fun _ k a => Allowed idle k a) h) (i : ι) :
    (∃ n, ((Lts.start h k).sem i).value + h.releases i =
      (k.sem i).value + (k.woken (.sem i)).card + h.takes i + 65536 * n) ∧
      (k.queue (.sem i) ≠ [] → (k.sem i).value = 0) := by
  have h0 := init_atRest hr.init_start
  have hz : standing ((Lts.start h k).phase (.sem i)) (.back .ok) = 0 := by
    simp [standing, h0.phase]
  obtain ⟨hi, n, hn⟩ := Semaphore.conserved (by decide)
    ⟨h0.sem i, fun t e ht => by simp [semState, h0.phase] at ht⟩
    (steps_of_run (semState i) (fun _ => Event.semLabel i) (fun he => he.semStep i) hr hg)
  refine ⟨⟨n, ?_⟩, fun hq => ?_⟩
  · simp only [Semaphore.units, semState, hz, standing_woken, Nat.add_zero] at hn
    exact hn
  · obtain ⟨t, ht⟩ := List.exists_mem_of_ne_nil _ hq
    exact (hi.waits t _ ((Inv.run hr hg).sound.waits (by simp) ht)).2

/-- Thread 2 has been handed the semaphore and has not gone on yet. -/
theorem sem_conserved_handed : ∃ h k, sampleSystem.Run h k ∧ History.releases () h = 1 ∧ (k.woken (.sem ())).card = 1 ∧
    ∃ n, ((Lts.start h k).sem ()).value + History.releases () h =
      (k.sem ()).value + (k.woken (.sem ())).card + History.takes () h + 65536 * n := by
  obtain ⟨h, k, hr, hg, h1, h2⟩ := Lts.exists_run_of_exec (S := sampleSystem)
    (P := fun h k => Lts.Guarded (fun _ k a => Allowed 0 k a) h ∧ History.releases () h = 1 ∧
      (k.woken (.sem ())).card = 1)
    [.call (.semTake () (-1)), .schedule, .isr (.semRelease ())] sampleKernel_init (by decide +kernel)
  exact ⟨h, k, hr, h1, h2, (sem_conserved hr hg ()).1⟩

/-- However threads, interrupts and timeouts interleave: of `rt_mutex_take` and `rt_mutex_release` a thread has done as
many more of the first as it holds the mutex, so that no two threads hold it at the same time; and whoever waits for it
waits for another thread. -/
theorem mutex_excludes (hr : (kernelSystem idle).Run h k) (hg : Lts.Guarded (fun _ k a => Allowed idle k a) h) (i : ι) :
    (∀ t, h.locks i t = k.held i t + h.unlocks i t) ∧
      (∀ t u, h.unlocks i t < h.locks i t → h.unlocks i u < h.locks i u → t = u) ∧
      ∀ u ∈ k.queue (.mutex i), ∃ t ≠ u, (k.mutex i).owner = some t := by
  obtain ⟨hi, hb⟩ := lock_of_run hr hg i
  have hb' : ∀ t, h.locks i t = k.held i t + h.unlocks i t := fun t => by
    rw [hb t, Lock.holds, held]
    simp only [mem_woken]
    rfl
  have howner : ∀ t, h.unlocks i t < h.locks i t → (k.mutex i).owner = some t := fun t ht => by
    by_contra hn
    have := hb' t
    simp only [held, hn, false_and, if_false] at this
    omega
  refine ⟨hb', fun t u ht hu => ?_, fun u hu => ?_⟩
  · exact Option.some.inj ((howner t ht).symm.trans (howner u hu))
  · obtain ⟨-, ho, hn⟩ := hi.waits u _ ((Inv.run hr hg).sound.waits (by simp) hu)
    obtain ⟨t, ht⟩ := Option.ne_none_iff_exists'.1 ho
    exact ⟨t, fun he => hn (he ▸ ht), ht⟩

/-- Thread 1 waits for the mutex that thread 2 holds while it sleeps. -/
theorem mutex_excludes_waits : ∃ h k, sampleSystem.Run h k ∧ k.queue (.mutex ()) = [1] ∧ History.locks () 2 h = 1 ∧
    (∀ t, History.locks () t h = k.held () t + History.unlocks () t h) ∧ ∃ t ≠ 1, (k.mutex ()).owner = some t := by
  obtain ⟨h, k, hr, hg, h1, h2⟩ := Lts.exists_run_of_exec (S := sampleSystem)
    (P := fun h k => Lts.Guarded (fun _ k a => Allowed 0 k a) h ∧ k.queue (.mutex ()) = [1] ∧ History.locks () 2 h = 1)
    [.call (.mutexTake () (-1)), .call .threadSleep, .schedule, .call (.mutexTake () (-1))] sampleKernel_init
    (by decide +kernel)
  obtain ⟨hb, -, hw⟩ := mutex_excludes hr hg ()
  exact ⟨h, k, hr, h1, h2, hb, hw 1 (by simp [h1])⟩

/-- However threads, interrupts and timeouts interleave: while a thread waits to receive, for every mail in the mailbox
there is a thread that has been woken to receive one, and while one waits to send, for every free place one that has
been woken to send. -/
theorem mail_served (hr : (kernelSystem idle).Run h k) (hg : Lts.Guarded (fun _ k a => Allowed idle k a) h) (i : ι) :
    (k.queue (.receiver i) ≠ [] → (k.mailbox i).entry ≤ (k.woken (.receiver i)).card) ∧
      (k.queue (.sender i) ≠ [] → (k.mailbox i).size - (k.mailbox i).entry ≤ (k.woken (.sender i)).card) := by
  have h0 := init_atRest hr.init_start
  have hs := (Inv.run hr hg).sound
  have hst := steps_of_run (channel i) (fun _ => Event.mailLabel i) (fun he => he.mailStep i) hr hg
  have hi := Channel.Inv.run ⟨by simp [channel, Mailbox.content_length, h0.mailbox],
    fun t e ht => by simp [channel, h0.phase] at ht, fun t e ht => by simp [channel, h0.phase] at ht⟩ hst
  refine ⟨fun hq => ?_, fun hq => ?_⟩ <;> obtain ⟨t, ht⟩ := List.exists_mem_of_ne_nil _ hq
  · have := (hi.receivers t _ (hs.waits (by simp) ht)).2
    rwa [channel, Mailbox.content_length, standing_woken] at this
  · have := (hi.senders t _ (hs.waits (by simp) ht)).2
    rwa [channel, Mailbox.content_length, standing_woken] at this

/-- Two threads wait to receive, and the first has been woken. -/
theorem mail_served_one : ∃ h k, sampleSystem.Run h k ∧ (k.mailbox ()).entry = 1 ∧
    1 ≤ (k.woken (.receiver ())).card := by
  obtain ⟨h, k, hr, hg, h1, h2⟩ := Lts.exists_run_of_exec (S := sampleSystem)
    (P := fun h k => Lts.Guarded (fun _ k a => Allowed 0 k a) h ∧ (k.mailbox ()).entry = 1 ∧
      k.queue (.receiver ()) ≠ [])
    [.call (.mbRecv () (-1)), .schedule, .call (.mbRecv () (-1)), .isr (.mbSendWait () 5 0)] sampleKernel_init
    (by decide +kernel)
  exact ⟨h, k, hr, h1, h1 ▸ (mail_served hr hg ()).1 h2⟩

end runs

end Kernel

end Bootloader.Rt
