import Bootloader.KernelInv
import Bootloader.Lib.Sync

/-!
# What a step does to the objects

Every step of the kernel is a step of at most one semaphore, mutex or mailbox as an abstract object, and leaves the
others and the threads that wait for them alone.
-/

namespace Bootloader.Rt
variable {τ ι : Type}

inductive Object (ι : Type)
  | sem (i : ι)
  | mutex (i : ι)
  | mailbox (i : ι)
deriving DecidableEq, Repr

def Place.object : Place ι → Option (Object ι)
  | .ready _ => none
  | .sem i => some (.sem i)
  | .mutex i => some (.mutex i)
  | .sender i => some (.mailbox i)
  | .receiver i => some (.mailbox i)

def Event.object : Event ι → Object ι
  | .took i => .sem i
  | .released i => .sem i
  | .locked i => .mutex i
  | .unlocked i => .mutex i
  | .put i _ => .mailbox i
  | .got i _ => .mailbox i

def Event.semLabel [DecidableEq ι] (i : ι) : Event ι → Option Semaphore.Label
  | .took j => if j = i then some .took else none
  | .released j => if j = i then some .released else none
  | _ => none

def Event.lockLabel [DecidableEq ι] (i : ι) (t : τ) : Event ι → Option (Lock.Label τ)
  | .locked j => if j = i then some (.locked t) else none
  | .unlocked j => if j = i then some (.unlocked t) else none
  | _ => none

def Event.mailLabel [DecidableEq ι] (i : ι) : Event ι → Option (Channel.Label UInt32)
  | .put j v => if j = i then some (.put v) else none
  | .got j v => if j = i then some (.got v) else none
  | _ => none

variable [DecidableEq ι]

@[simp] theorem Event.semLabel_took {i : ι} : (Event.took i).semLabel i = some .took := if_pos rfl

@[simp] theorem Event.semLabel_released {i : ι} : (Event.released i).semLabel i = some .released := if_pos rfl

@[simp] theorem Event.lockLabel_locked {i : ι} {t : τ} : (Event.locked i).lockLabel i t = some (.locked t) := if_pos rfl

@[simp] theorem Event.lockLabel_unlocked {i : ι} {t : τ} : (Event.unlocked i).lockLabel i t = some (.unlocked t) :=
  if_pos rfl

@[simp] theorem Event.mailLabel_put {i : ι} {v : UInt32} : (Event.put i v).mailLabel i = some (.put v) := if_pos rfl

@[simp] theorem Event.mailLabel_got {i : ι} {v : UInt32} : (Event.got i v).mailLabel i = some (.got v) := if_pos rfl

theorem Event.semLabel_none {i : ι} {v : Event ι} (h : v.object ≠ .sem i) : v.semLabel i = none := by
  cases v <;> simp_all [Event.object, Event.semLabel]

theorem Event.lockLabel_none {i : ι} {t : τ} {v : Event ι} (h : v.object ≠ .mutex i) : v.lockLabel i t = none := by
  cases v <;> simp_all [Event.object, Event.lockLabel]

theorem Event.mailLabel_none {i : ι} {v : Event ι} (h : v.object ≠ .mailbox i) : v.mailLabel i = none := by
  cases v <;> simp_all [Event.object, Event.mailLabel]

/-- Where the thread stands at the list of an object. -/
def Thread.phase (p : Place ι) (x : Thread ι) : Phase Err :=
  if x.place = some p then if x.stat = .suspend then .waits x.error else .back x.error else .out

theorem Thread.phase_eq_out {x : Thread ι} {p : Place ι} : x.phase p = .out ↔ x.place ≠ some p := by
  unfold Thread.phase
  split
  · split <;> simp_all
  · simp_all

theorem Thread.phase_eq_waits {x : Thread ι} {p : Place ι} {e : Err} :
    x.phase p = .waits e ↔ x.place = some p ∧ x.stat = .suspend ∧ x.error = e := by
  unfold Thread.phase
  split
  · split <;> simp_all
  · simp_all

theorem Thread.phase_eq_back {x : Thread ι} {p : Place ι} {e : Err} :
    x.phase p = .back e ↔ x.place = some p ∧ x.stat ≠ .suspend ∧ x.error = e := by
  unfold Thread.phase
  split
  · split <;> simp_all
  · simp_all

namespace Kernel

def phase (k : Kernel τ ι) (p : Place ι) (t : τ) : Phase Err := (k.thread t).phase p

def semState (i : ι) (k : Kernel τ ι) : Semaphore.State τ Err := ⟨(k.sem i).value, k.phase (.sem i)⟩

def lockState (i : ι) (k : Kernel τ ι) : Lock.State τ Err :=
  ⟨(k.mutex i).owner, (k.mutex i).hold, k.phase (.mutex i)⟩

def channel (i : ι) (k : Kernel τ ι) : Channel.State τ Err UInt32 :=
  ⟨(k.mailbox i).content, (k.mailbox i).size, k.phase (.sender i), k.phase (.receiver i)⟩

/-- The objects other than `o` are as before, and so are the threads that wait for them. -/
structure SameBut (o : Option (Object ι)) (k k' : Kernel τ ι) : Prop where
  phase : ∀ p, p.object ≠ none → p.object ≠ o → k'.phase p = k.phase p
  sem : ∀ i, o ≠ some (.sem i) → k'.sem i = k.sem i
  mutex : ∀ i, o ≠ some (.mutex i) → k'.mutex i = k.mutex i
  mailbox : ∀ i, o ≠ some (.mailbox i) → k'.mailbox i = k.mailbox i

namespace SameBut
variable {o : Option (Object ι)} {k k' k'' : Kernel τ ι}

theorem refl (o : Option (Object ι)) (k : Kernel τ ι) : SameBut o k k :=
  ⟨fun _ _ _ => rfl, fun _ _ => rfl, fun _ _ => rfl, fun _ _ => rfl⟩

theorem trans (h : SameBut o k k') (h' : SameBut o k' k'') : SameBut o k k'' :=
  ⟨fun p hp hn => (h'.phase p hp hn).trans (h.phase p hp hn), fun i hi => (h'.sem i hi).trans (h.sem i hi),
    fun i hi => (h'.mutex i hi).trans (h.mutex i hi), fun i hi => (h'.mailbox i hi).trans (h.mailbox i hi)⟩

theorem of_none (h : SameBut none k k') : SameBut o k k' :=
  ⟨fun p hp _ => h.phase p hp hp, fun i _ => h.sem i (by simp), fun i _ => h.mutex i (by simp),
    fun i _ => h.mailbox i (by simp)⟩

/-- Only the threads change, and nowhere in what they wait for. -/
theorem of_phase (hg : k'.toGlobals = k.toGlobals) (hp : ∀ p, p.object ≠ none → k'.phase p = k.phase p) :
    SameBut o k k' :=
  ⟨fun p h _ => hp p h, fun _ _ => by rw [hg], fun _ _ => by rw [hg], fun _ _ => by rw [hg]⟩

/-- Only the threads at one list change. -/
theorem of_place {p : Place ι} (hg : k'.toGlobals = k.toGlobals) (hp : ∀ q ≠ p, k'.phase q = k.phase q) :
    SameBut p.object k k' :=
  ⟨fun q _ hq => hp q fun he => hq (he ▸ rfl), fun _ _ => by rw [hg], fun _ _ => by rw [hg], fun _ _ => by rw [hg]⟩

theorem setSem (i : ι) (s : Sem) : SameBut (some (.sem i)) k (k.setSem i s) :=
  ⟨fun _ _ _ => rfl, fun _ hj => Function.update_of_ne (fun he => hj (by rw [he])) _ _, fun _ _ => rfl, fun _ _ => rfl⟩

theorem setMutex (i : ι) (m : Mutex τ) : SameBut (some (.mutex i)) k (k.setMutex i m) :=
  ⟨fun _ _ _ => rfl, fun _ _ => rfl, fun _ hj => Function.update_of_ne (fun he => hj (by rw [he])) _ _, fun _ _ => rfl⟩

theorem setMailbox (i : ι) (b : Mailbox) : SameBut (some (.mailbox i)) k (k.setMailbox i b) :=
  ⟨fun _ _ _ => rfl, fun _ _ => rfl, fun _ _ => rfl, fun _ hj => Function.update_of_ne (fun he => hj (by rw [he])) _ _⟩

end SameBut

variable {o : Option (Object ι)} {k k' : Kernel τ ι}

theorem semState_congr {i : ι} (h : SameBut o k k') (ho : o ≠ some (.sem i)) : k'.semState i = k.semState i := by
  rw [semState, semState, h.sem i ho, h.phase (.sem i) (by simp [Place.object]) ho.symm]

theorem lockState_congr {i : ι} (h : SameBut o k k') (ho : o ≠ some (.mutex i)) : k'.lockState i = k.lockState i := by
  rw [lockState, lockState, h.mutex i ho, h.phase (.mutex i) (by simp [Place.object]) ho.symm]

theorem channel_congr {i : ι} (h : SameBut o k k') (ho : o ≠ some (.mailbox i)) : k'.channel i = k.channel i := by
  rw [channel, channel, h.mailbox i ho, h.phase (.sender i) (by simp [Place.object]) ho.symm,
    h.phase (.receiver i) (by simp [Place.object]) ho.symm]

variable {idle t : τ} {x : Thread ι} {p : Place ι}

theorem Keeps.out (h : k.Keeps k') (ho : k.phase p t = .out) : k'.phase p t = .out :=
  Thread.phase_eq_out.2 (by rw [Thread.place, h.pc]; exact Thread.phase_eq_out.1 ho)

/-- Nobody is in an empty list. -/
theorem not_waits (h : Linked k.home k) (hq : k.queue p = []) (u : τ) (e : Err) : k.phase p u ≠ .waits e := fun hw => by
  obtain ⟨hp, hs, -⟩ := Thread.phase_eq_waits.1 hw
  have hm := (h.placed.mem_iff p u).2 ((Thread.home_of_suspend hs).trans hp)
  rw [hq] at hm
  cases hm

theorem semState_setSem {s : Sem} : (k.setSem i s).semState i = ⟨s.value, k.phase (.sem i)⟩ :=
  congrArg₂ Semaphore.State.mk (congrArg Sem.value (Function.update_self ..)) rfl

theorem lockState_setMutex {m : Mutex τ} : (k.setMutex i m).lockState i = ⟨m.owner, m.hold, k.phase (.mutex i)⟩ := by
  have h : (k.setMutex i m).mutex i = m := Function.update_self ..
  rw [lockState, h]
  rfl

variable [DecidableEq τ]

/-- A step of at most one object; `t` is the running thread. -/
inductive Effect (t : τ) (k : Kernel τ ι) (e : Option (Event ι)) (k' : Kernel τ ι) : Prop
  | quiet (h : SameBut none k k') (he : e = none)
  | sem (i : ι) (h : SameBut (some (.sem i)) k k') (he : ∀ v ∈ e, v.object = .sem i)
      (hs : Semaphore.Step .ok 65536 (k.semState i) (e.bind (Event.semLabel i)) (k'.semState i))
  | mutex (i : ι) (h : SameBut (some (.mutex i)) k k') (he : ∀ v ∈ e, v.object = .mutex i)
      (hs : Lock.Step .ok (k.lockState i) (e.bind (Event.lockLabel i t)) (k'.lockState i))
  | mailbox (i : ι) (h : SameBut (some (.mailbox i)) k k') (he : ∀ v ∈ e, v.object = .mailbox i)
      (hs : Channel.Step .ok (k.channel i) (e.bind (Event.mailLabel i)) (k'.channel i))

theorem Effect.same_right {t : τ} {k'' : Kernel τ ι} {e : Option (Event ι)} (h : Effect t k e k')
    (hs : SameBut none k' k'') : Effect t k e k'' := by
  cases h with
  | quiet h he => exact .quiet (h.trans hs) he
  | sem i h he hst => exact .sem i (h.trans hs.of_none) he (semState_congr hs (by simp) ▸ hst)
  | mutex i h he hst => exact .mutex i (h.trans hs.of_none) he (lockState_congr hs (by simp) ▸ hst)
  | mailbox i h he hst => exact .mailbox i (h.trans hs.of_none) he (channel_congr hs (by simp) ▸ hst)

theorem Effect.same_left {t : τ} {k'' : Kernel τ ι} {e : Option (Event ι)} (hs : SameBut none k k')
    (h : Effect t k' e k'') : Effect t k e k'' := by
  cases h with
  | quiet h he => exact .quiet (hs.trans h) he
  | sem i h he hst => exact .sem i (hs.of_none.trans h) he (semState_congr hs (by simp) ▸ hst)
  | mutex i h he hst => exact .mutex i (hs.of_none.trans h) he (lockState_congr hs (by simp) ▸ hst)
  | mailbox i h he hst => exact .mailbox i (hs.of_none.trans h) he (channel_congr hs (by simp) ▸ hst)

/-! ### Operations -/

theorem phase_update (hk : k'.thread = Function.update k.thread t x) (p : Place ι) :
    k'.phase p = Function.update (k.phase p) t (x.phase p) := by
  funext u
  rw [Kernel.phase, hk, Function.update_apply, Function.update_apply]
  split <;> rfl

theorem SameBut.update (hk : k'.thread = Function.update k.thread t x) (hg : k'.toGlobals = k.toGlobals)
    (hx : ∀ p, p.object ≠ none → x.phase p = k.phase p t) : SameBut o k k' :=
  .of_phase hg fun p hp => by rw [phase_update hk, hx p hp, Function.update_eq_self]

theorem SameBut.of_out (hk : k'.thread = Function.update k.thread t x) (hg : k'.toGlobals = k.toGlobals)
    (hx : x.place = none) (hn : (k.thread t).place = none) : SameBut o k k' :=
  .update hk hg fun p _ => by
    rw [Kernel.phase, Thread.phase_eq_out.2 (by simp [hx]), Thread.phase_eq_out.2 (by simp [hn])]

theorem setError_same {e : Err} (h : (k.thread t).place = none ∨ (k.thread t).error = e) :
    SameBut o k (k.modify t ({ · with error := e })) := by
  refine .update rfl rfl fun p _ => ?_
  rcases h with h | h
  · have h1 : Thread.phase p { k.thread t with error := e } = .out := Thread.phase_eq_out.2 (by
      change (k.thread t).place ≠ some p
      simp [h])
    rw [h1, Kernel.phase, Thread.phase_eq_out.2 (by simp [h])]
  · rw [← h]
    rfl

theorem changePriority_same {q : Nat} : SameBut o k (k.changePriority t q) :=
  .update changePriority_thread (by simp) fun _ _ => rfl

theorem leave_phase {r : Outcome τ ι} (he : r.exit.pc.cont.bind Cont.place = none) (p : Place ι) :
    (r.leave t).kernel.phase p = Function.update (r.kernel.phase p) t .out := by
  have h1 : Thread.phase p { r.kernel.thread t with pc := r.exit.pc } = .out := Thread.phase_eq_out.2 (by
    change r.exit.pc.cont.bind Cont.place ≠ some p
    simp [he])
  rw [← h1]
  exact phase_update rfl p

/-- A thread that is not at the list leaves its call. -/
theorem leave_phase_out {r : Outcome τ ι} (he : r.exit.pc.cont.bind Cont.place = none)
    (ho : r.kernel.phase p t = .out) : (r.leave t).kernel.phase p = r.kernel.phase p := by
  rw [leave_phase he, ← ho, Function.update_eq_self]

theorem leave_same {r : Outcome τ ι} (h : (r.kernel.thread t).place = none)
    (he : r.exit.pc.cont.bind Cont.place = none) : SameBut o r.kernel (r.leave t).kernel :=
  .of_phase rfl fun q _ => by
    have hout : r.kernel.phase q t = .out := Thread.phase_eq_out.2 (by simp [h])
    rw [leave_phase he, ← hout, Function.update_eq_self]

/-- The thread at the head of a list is woken. -/
theorem listResume_phase (h : Linked k.home k) (hp : ∀ q, p ≠ .ready q) (hq : k.queue p ≠ []) :
    (k.listResume p).toGlobals = k.toGlobals ∧ (∀ q ≠ p, (k.listResume p).phase q = k.phase q) ∧
      ∃ u e, k.queue p = u :: (k.queue p).tail ∧ k.phase p u = .waits e ∧
        (k.listResume p).phase p = Function.update (k.phase p) u (.back e) := by
  obtain ⟨u, l, hl⟩ := List.exists_cons_of_ne_nil hq
  have hm := (h.placed.mem_iff p u).1 (by rw [hl]; exact List.mem_cons_self)
  have hu := Thread.suspend_of_home hm hp
  have hpl : (k.thread u).place = some p := (Thread.home_of_suspend hu).symm.trans hm
  have hr : k.listResume p = k.resume u := by simp only [Kernel.listResume, hl]
  have hph : ∀ q, (k.listResume p).phase q =
      Function.update (k.phase q) u (Thread.phase q { k.thread u with stat := .ready, timer := false }) := fun q => by
    rw [hr]
    exact phase_update (resume_thread hu) q
  refine ⟨by rw [hr, resume_toGlobals], fun q hne => ?_, u, (k.thread u).error, by rw [hl]; rfl,
    Thread.phase_eq_waits.2 ⟨hpl, hu, rfl⟩, ?_⟩
  · have hn : (k.thread u).place ≠ some q := fun he => hne (Option.some.inj (hpl ▸ he)).symm
    have h1 : Thread.phase q { k.thread u with stat := .ready, timer := false } = .out := Thread.phase_eq_out.2 hn
    rw [hph, h1, ← Thread.phase_eq_out.2 hn]
    exact Function.update_eq_self ..
  · have h1 : Thread.phase p { k.thread u with stat := .ready, timer := false } = .back (k.thread u).error :=
      Thread.phase_eq_back.2 ⟨hpl, by simp, rfl⟩
    rw [hph, h1]

/-- A thread moves to `x` at a list, and nothing else happens. -/
structure Moves (p : Place ι) (t : τ) (x : Phase Err) (k k' : Kernel τ ι) : Prop where
  sem : k'.sem = k.sem
  mutex : k'.mutex = k.mutex
  mailbox : k'.mailbox = k.mailbox
  others : ∀ q, q.object ≠ none → q ≠ p → k'.phase q = k.phase q
  phase : k'.phase p = Function.update (k.phase p) t x

namespace Moves
variable {y : Phase Err} {i : ι}

theorem sameBut (h : Moves p t y k k') : SameBut p.object k k' :=
  ⟨fun q hq hn => h.others q hq fun he => hn (he ▸ rfl), fun _ _ => by rw [h.sem], fun _ _ => by rw [h.mutex],
    fun _ _ => by rw [h.mailbox]⟩

theorem semState (h : Moves (.sem i) t y k k') : k'.semState i =
    { k.semState i with phase := Function.update (k.semState i).phase t y } := by
  rw [Kernel.semState, h.sem, h.phase]
  rfl

theorem lockState (h : Moves (.mutex i) t y k k') : k'.lockState i =
    { k.lockState i with phase := Function.update (k.lockState i).phase t y } := by
  rw [Kernel.lockState, h.mutex, h.phase]
  rfl

theorem sender (h : Moves (.sender i) t y k k') : k'.channel i =
    { k.channel i with senders := Function.update (k.channel i).senders t y } := by
  rw [Kernel.channel, h.mailbox, h.phase, h.others (.receiver i) (by simp [Place.object]) (by simp)]
  rfl

theorem receiver (h : Moves (.receiver i) t y k k') : k'.channel i =
    { k.channel i with receivers := Function.update (k.channel i).receivers t y } := by
  rw [Kernel.channel, h.mailbox, h.phase, h.others (.sender i) (by simp [Place.object]) (by simp)]
  rfl

end Moves

/-- A thread that was at one list leaves its call, which has changed nothing but the thread. -/
theorem leave_moves {r : Outcome τ ι} (hk : r.kernel.thread = Function.update k.thread t x)
    (hg : r.kernel.toGlobals = k.toGlobals) (he : r.exit.pc.cont.bind Cont.place = none)
    (ho : ∀ q ≠ p, k.phase q t = .out) :
    Moves p t .out k (r.leave t).kernel := by
  have hph : ∀ q, (r.leave t).kernel.phase q = Function.update (k.phase q) t .out := fun q => by
    rw [leave_phase he, phase_update hk, Function.update_idem]
  have hg' : (r.leave t).kernel.toGlobals = k.toGlobals := hg
  refine ⟨by rw [hg'], by rw [hg'], by rw [hg'], fun q _ hne => ?_, hph p⟩
  rw [hph, ← ho q hne, Function.update_eq_self]

/-- The running thread waits. -/
theorem wait_moves {k₁ : Kernel τ ι} {c : Cont ι} (flag : Flag) (time : Int) (e : Option (Event ι))
    (hs : SameBut none k k₁) (he : (k₁.thread t).error = .ok) (hr : (k₁.thread t).stat = .ready)
    (hc : c.place = some p) (hp : p.object ≠ none) (ho : ∀ q ≠ p, k₁.phase q t = .out) :
    Moves p t (.waits .ok) k
      ((Outcome.mk ((k₁.listSuspend p flag t).startTimer time t) (.wait c) e).leave t).kernel := by
  have hth : ((Outcome.mk ((k₁.listSuspend p flag t).startTimer time t) (.wait c) e).leave t).kernel.thread =
      Function.update k₁.thread t
        { k₁.thread t with stat := .suspend, timer := decide (0 < time), pc := .schedule c } := by
    simp [Outcome.leave, Kernel.modify, startTimer_thread, listSuspend_thread hr, Exit.pc]
  have hg : ((Outcome.mk ((k₁.listSuspend p flag t).startTimer time t) (.wait c) e).leave t).kernel.toGlobals =
      k₁.toGlobals := by simp [Outcome.leave, Kernel.modify]
  refine ⟨?_, ?_, ?_, fun q hq hne => ?_, ?_⟩
  · rw [hg]
    exact funext fun i => hs.sem i (by simp)
  · rw [hg]
    exact funext fun i => hs.mutex i (by simp)
  · rw [hg]
    exact funext fun i => hs.mailbox i (by simp)
  · have h1 : Thread.phase q { k₁.thread t with stat := .suspend, timer := decide (0 < time), pc := .schedule c } =
        .out :=
      Thread.phase_eq_out.2 fun he => hne (Option.some.inj ((hc.symm.trans he))).symm
    rw [phase_update hth, h1, ← ho q hne, Function.update_eq_self, hs.phase q hq hq]
  · have h1 : Thread.phase p { k₁.thread t with stat := .suspend, timer := decide (0 < time), pc := .schedule c } =
        .waits .ok := Thread.phase_eq_waits.2 ⟨hc, rfl, he⟩
    rw [phase_update hth, h1, hs.phase p hp hp]

/-- A thread that waits for nothing resets its error and waits. -/
theorem wait_moves_ok {c : Cont ι} (flag : Flag) (time : Int) (e : Option (Event ι)) (hr : (k.thread t).stat = .ready)
    (he : (k.thread t).place = none ∨ (k.thread t).error = .ok) (hc : c.place = some p) (hp : p.object ≠ none)
    (ho : ∀ q ≠ p, k.phase q t = .out) :
    Moves p t (.waits .ok) k
      ((Outcome.mk (((k.modify t ({ · with error := .ok })).listSuspend p flag t).startTimer time t) (.wait c)
      e).leave t).kernel :=
  wait_moves flag time e (setError_same he) (by simp [Kernel.modify])
    (by simpa [Kernel.modify] using hr) hc hp fun q hq =>
    Thread.phase_eq_out.2 (by simpa [Kernel.modify, Thread.place] using Thread.phase_eq_out.1 (ho q hq))

/-! ### Calls -/

/-- The call passes, or where `w` allows it the thread waits. -/
def Shows (w : Prop) (k : Kernel τ ι) (r : Outcome τ ι) : Prop :=
  (r.exit.pc.cont.bind Cont.place = none ∧ k.Keeps r.kernel ∧ Effect k.current k r.event r.kernel) ∨
    w ∧ Effect k.current k r.event (r.leave k.current).kernel

variable {i : ι} {time : Int}

theorem Effect.refl : Effect t k none k := .quiet (.refl _ k) rfl

theorem semTake_shows (hw : time ≠ 0 → (k.thread k.current).stat = .ready ∧ (k.thread k.current).place = none) :
    Shows (time ≠ 0) k (k.semTake i time) := by
  simp only [semTake]
  split
  · next hv =>
    refine .inl ⟨rfl, .setSem i _, .sem i (.setSem i _) (by simp [Event.object]) ?_⟩
    rw [semState_setSem, Option.bind_some, Event.semLabel_took]
    exact .take hv
  · next hv =>
    split
    · exact .inl ⟨rfl, .refl k, .refl⟩
    · next ht =>
      obtain ⟨hr, hn⟩ := hw ht
      have hout : ∀ q, k.phase q k.current = .out := fun q => Thread.phase_eq_out.2 (by simp [hn])
      have hj := wait_moves_ok (k.sem i).flag time none (c := .sem i) hr (.inl hn) rfl
        (by simp [Place.object]) fun q _ => hout q
      refine .inr ⟨ht, .sem i hj.sameBut (by simp) ?_⟩
      rw [hj.semState]
      exact .join k.current (Nat.eq_zero_of_not_pos hv) (hout _)

theorem semRelease_shows (h : k.Sound idle) : Shows False k (k.semRelease i) := by
  simp only [semRelease]
  split
  · next hq =>
    refine .inl ⟨rfl, .setSem i _, .sem i (.setSem i _) (by simp [Event.object]) ?_⟩
    rw [semState_setSem, Option.bind_some, Event.semLabel_released]
    exact .release (not_waits h.linked hq)
  · next hq =>
    obtain ⟨hg, hp, u, e, -, hu, hph⟩ := listResume_phase h.linked (by simp) hq
    refine .inl ⟨rfl, (h.listResume (by simp) hq).2, .sem i (.of_place hg hp) (by simp [Event.object]) ?_⟩
    have hs : (k.listResume (.sem i)).semState i =
        { k.semState i with phase := Function.update (k.semState i).phase u (.back e) } := by
      rw [semState, hg, hph]
      rfl
    rw [hs, Option.bind_some, Event.semLabel_released]
    exact .hand u e hu

theorem inherit_same (h : k.Sound idle) (hv : (k.mutex i).value = 0) :
    SameBut none k (k.inherit (k.mutex i) t) ∧
      ∀ u, ((k.inherit (k.mutex i) t).thread u).error = (k.thread u).error := by
  obtain ⟨u, hu⟩ := (h.mutex i).owned hv
  have hc := (h.owner i u hu).1
  simp only [inherit, hu, hc, decide_false, faultIf_false]
  split
  · refine ⟨changePriority_same, fun v => ?_⟩
    rw [changePriority_thread, Function.update_apply]
    split
    · next hvu => rw [hvu]
    · rfl
  · exact ⟨.refl none k, fun _ => rfl⟩

theorem mutexTry_shows (h : k.Sound idle) (hh : (k.mutex i).hold < 255) (hn : (k.thread k.current).place = none)
    (he : (k.thread k.current).error = .ok) (hw : time ≠ 0 → (k.thread k.current).stat = .ready) :
    Shows (time ≠ 0) k (k.mutexTry i time) := by
  have hout : k.phase (.mutex i) k.current = .out := Thread.phase_eq_out.2 (by simp [hn])
  have hmod : ((k.mutex i).hold + 1) % 256 = (k.mutex i).hold + 1 := Nat.mod_eq_of_lt (by omega)
  simp only [mutexTry, hmod]
  split
  · next ho =>
    refine .inl ⟨rfl, .setMutex i _, .mutex i (.setMutex i _) (by simp [Event.object]) ?_⟩
    rw [lockState_setMutex, Option.bind_some, Event.lockLabel_locked]
    exact .again k.current ho hout
  · next ho =>
    split
    · next hv =>
      refine .inl ⟨rfl, .setMutex i _, .mutex i (.setMutex i _) (by simp [Event.object]) ?_⟩
      rw [lockState_setMutex, Option.bind_some, Event.lockLabel_locked]
      exact .lock k.current ((h.mutex i).free hv).1 hout
    · next hv =>
      have hv := Nat.eq_zero_of_not_pos hv
      split
      · exact .inl ⟨rfl, .setError .timeout, .quiet (setError_same (.inl hn)) rfl⟩
      · next ht =>
        obtain ⟨hs, her⟩ := inherit_same (i := i) (t := k.current) h hv
        obtain ⟨-, hk, -⟩ := inherit_sound (i := i) (t := k.current) h hv
        have hj := wait_moves (k.mutex i).flag time none (c := .mutex i) hs
          ((her k.current).trans he) (hk.ready _ (hw ht)) rfl (by simp [Place.object]) fun q _ =>
            Thread.phase_eq_out.2 (by
              rw [Thread.place, hk.pc, ← Thread.place, hn]
              simp)
        refine .inr ⟨ht, .mutex i hj.sameBut (by simp) ?_⟩
        rw [hj.lockState]
        obtain ⟨u, hu⟩ := (h.mutex i).owned hv
        exact .join k.current (by simp [lockState, hu]) ho hout

theorem mutexTake_shows (h : k.Sound idle) (hh : (k.mutex i).hold < 255) (hn : (k.thread k.current).place = none)
    (hw : time ≠ 0 → (k.thread k.current).stat = .ready) : Shows (time ≠ 0) k (k.mutexTake i time) := by
  have hs : SameBut none k (k.modify k.current ({ · with error := .ok })) := setError_same (.inl hn)
  have hsh := mutexTry_shows (k := k.modify k.current ({ · with error := .ok }))
    (h.setError (t := k.current) .ok) hh (by simpa [Kernel.modify, Thread.place] using hn) (by simp [Kernel.modify])
    (by simpa [Kernel.modify] using hw)
  exact hsh.imp (fun hp => ⟨hp.1, (Keeps.setError .ok).trans hp.2.1, .same_left hs hp.2.2⟩) fun hp =>
    ⟨hp.1, .same_left hs hp.2⟩

/-- The owner `t` gives the mutex away. -/
theorem mutexPass_shows {m : Mutex τ} (h : k.Sound idle) (hz : m.hold = 0) (hl : (k.lockState i).owner = some t)
    (h1 : (k.lockState i).hold = 1) (hout : k.phase (.mutex i) t = .out) :
    (k.mutexPass i m).exit.pc.cont.bind Cont.place = none ∧
      Effect t k (k.mutexPass i m).event (k.mutexPass i m).kernel := by
  unfold mutexPass
  split
  · next u l hq =>
    obtain ⟨hg, hp, v, e, hv, hw, hph⟩ := listResume_phase (p := .mutex i)
      (k := k.setMutex i { m with owner := some u, originalPriority := k.prio u, hold := m.hold + 1 })
      (h.linked.congr rfl rfl fun _ => rfl) (by simp) (by
        change k.queue (.mutex i) ≠ []
        simp [hq])
    obtain rfl : u = v := (List.cons.inj (hq.symm.trans hv)).1
    refine ⟨rfl, .mutex i ((SameBut.setMutex i _).trans (.of_place hg hp)) (by simp [Event.object]) ?_⟩
    have hs : ((k.setMutex i { m with owner := some u, originalPriority := k.prio u, hold := m.hold + 1 }).listResume
        (.mutex i)).lockState i = ⟨some u, 1, Function.update (k.lockState i).phase u (.back e)⟩ := by
      have hm : (k.setMutex i { m with owner := some u, originalPriority := k.prio u, hold := m.hold + 1 }).mutex i =
          { m with owner := some u, originalPriority := k.prio u, hold := m.hold + 1 } := Function.update_self ..
      rw [lockState, hg, hph, hm, hz]
      rfl
    rw [hs, Option.bind_some, Event.lockLabel_unlocked]
    exact .pass t u e hl hout h1 hw
  · next hq =>
    refine ⟨rfl, .mutex i (.setMutex i _) (by simp [Event.object]) ?_⟩
    rw [lockState_setMutex, Option.bind_some, Event.lockLabel_unlocked]
    exact hz ▸ .free t hl hout h1 (not_waits h.linked hq)

theorem mutexRelease_shows (h : k.Sound idle) (hn : (k.thread k.current).place = none) :
    Shows False k (k.mutexRelease i) := by
  suffices hs : (k.mutexRelease i).exit.pc.cont.bind Cont.place = none ∧
      Effect k.current k (k.mutexRelease i).event (k.mutexRelease i).kernel from
    .inl ⟨hs.1, (mutexRelease_passes h).keeps, hs.2⟩
  have hm := h.mutex i
  have hout : k.phase (.mutex i) k.current = .out := Thread.phase_eq_out.2 (by simp [hn])
  simp only [mutexRelease]
  split
  · exact ⟨rfl, .quiet (setError_same (.inl hn)) rfl⟩
  · next ho =>
    have ho := not_not.1 ho
    have hpos : 0 < (k.mutex i).hold := Nat.pos_of_ne_zero fun hz => by simp [hm.held.1 hz] at ho
    have hmod : ((k.mutex i).hold + 255) % 256 = (k.mutex i).hold - 1 := by
      have := hm.hold
      omega
    rw [hmod]
    split
    · next hz =>
      have h1 : (k.mutex i).hold = 1 := by omega
      split
      · have hs : SameBut none k (k.changePriority k.current (k.mutex i).originalPriority) := changePriority_same
        have hl := lockState_congr (i := i) hs (by simp)
        obtain ⟨hx, hp⟩ := mutexPass_shows (i := i) (t := k.current)
          (m := { k.mutex i with hold := (k.mutex i).hold - 1 })
          (h.changePriority (t := k.current) (h.owner i _ ho).2) hz
          ((congrArg Lock.State.owner hl).trans ho) ((congrArg Lock.State.hold hl).trans h1)
          ((congrFun (congrArg Lock.State.phase hl) _).trans hout)
        exact ⟨hx, .same_left hs hp⟩
      · exact mutexPass_shows h hz ho h1 hout
    · next hz =>
      refine ⟨rfl, .mutex i (.setMutex i _) (by simp [Event.object]) ?_⟩
      rw [lockState_setMutex, Option.bind_some, Event.lockLabel_unlocked]
      exact .unlock k.current ho hout (by simp only [lockState]; omega)

/-- A mail has come into the mailbox. -/
structure Puts (i : ι) (v : UInt32) (k k' : Kernel τ ι) : Prop where
  same : SameBut (some (.mailbox i)) k k'
  mailbox : k'.mailbox i = (k.mailbox i).put v
  senders : Channel.Returns .ok (k.phase (.sender i)) (k'.phase (.sender i))
  receivers : Channel.Wakes (k.phase (.receiver i)) (k'.phase (.receiver i))

/-- A mail has been taken out of the mailbox. -/
structure Gets (i : ι) (k k' : Kernel τ ι) : Prop where
  same : SameBut (some (.mailbox i)) k k'
  mailbox : k'.mailbox i = (k.mailbox i).get
  senders : Channel.Wakes (k.phase (.sender i)) (k'.phase (.sender i))
  receivers : Channel.Returns .ok (k.phase (.receiver i)) (k'.phase (.receiver i))

variable {v : UInt32}

theorem Puts.effect (h : Puts i v k k') (hs : (k.mailbox i).Sound) (hne : (k.mailbox i).entry ≠ (k.mailbox i).size) :
    Effect t k (some (.put i v)) k' := by
  refine .mailbox i h.same (by simp [Event.object]) ?_
  have hk : k'.channel i = ⟨(k.mailbox i).content ++ [v], (k.mailbox i).size, k'.phase (.sender i),
      k'.phase (.receiver i)⟩ := by
    rw [channel, h.mailbox, (hs.put hne).2]
    rfl
  rw [hk, Option.bind_some, Event.mailLabel_put]
  refine .put (s := k.channel i) v ?_ h.senders h.receivers
  simp only [channel, Mailbox.content_length]
  exact Nat.lt_of_le_of_ne hs.le hne

theorem Gets.effect (h : Gets i k k') (hs : (k.mailbox i).Sound) (hne : (k.mailbox i).entry ≠ 0) :
    Effect t k (some (.got i (k.mailbox i).first)) k' := by
  refine .mailbox i h.same (by simp [Event.object]) ?_
  have hk : k'.channel i = ⟨(k.mailbox i).get.content, (k.mailbox i).size, k'.phase (.sender i),
      k'.phase (.receiver i)⟩ := by
    rw [channel, h.mailbox]
    rfl
  rw [hk, Option.bind_some, Event.mailLabel_got]
  exact .get (s := k.channel i) _ _ (hs.get hne).2 h.receivers h.senders

theorem mbPut_puts (h : k.Sound idle) : (k.mbPut i v).event = some (.put i v) ∧
    (k.mbPut i v).exit.pc.cont.bind Cont.place = none ∧ Puts i v k (k.mbPut i v).kernel ∧
    (k.mbPut i v).kernel.phase (.sender i) = k.phase (.sender i) := by
  have hm : (k.setMailbox i ((k.mailbox i).put v)).mailbox i = (k.mailbox i).put v := Function.update_self ..
  simp only [mbPut]
  split
  · next hq => exact ⟨rfl, rfl, ⟨.setMailbox i _, hm, .inl rfl, .inl ⟨not_waits h.linked hq, rfl⟩⟩, rfl⟩
  · next hq =>
    obtain ⟨hg, hp, u, e, -, hw, hph⟩ := listResume_phase (p := .receiver i)
      (k := k.setMailbox i ((k.mailbox i).put v)) (h.linked.congr rfl rfl fun _ => rfl) (by simp) hq
    have hps := hp (.sender i) (by simp)
    exact ⟨rfl, rfl, ⟨(SameBut.setMailbox i _).trans (.of_place hg hp), by rw [hg]; exact hm, .inl hps,
      .inr ⟨u, e, hw, hph⟩⟩, hps⟩

theorem mbGet_gets (h : k.Sound idle) : (k.mbGet i).event = some (.got i (k.mailbox i).first) ∧
    (k.mbGet i).exit.pc.cont.bind Cont.place = none ∧ Gets i k (k.mbGet i).kernel ∧
    (k.mbGet i).kernel.phase (.receiver i) = k.phase (.receiver i) := by
  have hm : (k.setMailbox i (k.mailbox i).get).mailbox i = (k.mailbox i).get := Function.update_self ..
  simp only [mbGet]
  split
  · next hq => exact ⟨rfl, rfl, ⟨.setMailbox i _, hm, .inl ⟨not_waits h.linked hq, rfl⟩, .inl rfl⟩, rfl⟩
  · next hq =>
    obtain ⟨hg, hp, u, e, -, hw, hph⟩ := listResume_phase (p := .sender i)
      (k := k.setMailbox i (k.mailbox i).get) (h.linked.congr rfl rfl fun _ => rfl) (by simp) hq
    have hpr := hp (.receiver i) (by simp)
    exact ⟨rfl, rfl, ⟨(SameBut.setMailbox i _).trans (.of_place hg hp), by rw [hg]; exact hm, .inr ⟨u, e, hw, hph⟩,
      .inl hpr⟩, hpr⟩

/-- The running thread is at the list `p` and nowhere else, if anywhere: it has just come, or it has been woken
there. -/
structure Enters (p : Place ι) (k : Kernel τ ι) : Prop where
  others : ∀ q ≠ p, k.phase q k.current = .out
  here : k.phase p k.current = .out ∨ k.phase p k.current = .back .ok
  error : (k.thread k.current).place = none ∨ (k.thread k.current).error = .ok

omit [DecidableEq τ] in
theorem Enters.of_none (h : (k.thread k.current).place = none) : Enters p k :=
  ⟨fun q _ => Thread.phase_eq_out.2 (by simp [h]), .inl (Thread.phase_eq_out.2 (by simp [h])), .inl h⟩

theorem Enters.returns (h : Enters p k) : Channel.Returns .ok (k.phase p)
    (Function.update (k.phase p) k.current .out) := by
  rcases h.here with ho | hb
  · exact .inl (by rw [← ho, Function.update_eq_self])
  · exact .inr ⟨_, hb, rfl⟩

/-- The thread is not served and gives up. -/
theorem Enters.quits {r : Outcome τ ι} (h : Enters p k) (hk : r.kernel.thread = Function.update k.thread k.current x)
    (hg : r.kernel.toGlobals = k.toGlobals) (he : r.exit.pc.cont.bind Cont.place = none) :
    SameBut none k (r.leave k.current).kernel ∨
      k.phase p k.current = .back .ok ∧ Moves p k.current .out k (r.leave k.current).kernel := by
  have hm := leave_moves hk hg he h.others
  refine h.here.imp (fun ho => ?_) fun hb => ⟨hb, hm⟩
  refine ⟨fun q hq _ => ?_, fun _ _ => by rw [hm.sem], fun _ _ => by rw [hm.mutex], fun _ _ => by rw [hm.mailbox]⟩
  by_cases hqp : q = p
  · rw [hqp, hm.phase, ← ho, Function.update_eq_self]
  · exact hm.others q hq hqp

theorem mbSendLoop_leave (h : k.Sound idle) (he : Enters (.sender i) k)
    (hw : time ≠ 0 → (k.thread k.current).stat = .ready) :
    Effect k.current k (k.mbSendLoop i v time).event ((k.mbSendLoop i v time).leave k.current).kernel := by
  simp only [mbSendLoop]
  split
  · next hfull =>
    have hcap : (k.channel i).content.length = (k.channel i).cap := by
      simpa [channel, Mailbox.content_length] using hfull
    split
    · rcases he.quits (r := ⟨k.modify k.current ({ · with error := .ok }), .ret .full, none⟩) rfl rfl rfl with
        hq | ⟨hb, hm⟩
      · exact .quiet hq rfl
      · refine .mailbox i hm.sameBut (by simp) ?_
        rw [hm.sender]
        exact .sender (.giveUp k.current .ok hb fun _ => hcap)
    · next ht =>
      have hm := wait_moves_ok (k.mailbox i).flag time none (c := .send i v time) (hw ht)
        he.error rfl (by simp [Place.object]) he.others
      refine .mailbox i hm.sameBut (by simp) ?_
      rw [hm.sender]
      exact .sender (.join k.current he.here hcap)
  · next hne =>
    obtain ⟨hev, hx, hp, hps⟩ := mbPut_puts (v := v) (i := i) h
    have hout : ∀ q ≠ .sender i, (k.mbPut i v).kernel.phase q k.current = .out := fun q hq =>
      (mbPut_passes h hne).keeps.out (he.others q hq)
    rw [hev]
    refine Puts.effect ⟨hp.same.trans (.of_place (p := .sender i) rfl fun q hq => leave_phase_out hx (hout q hq)),
      hp.mailbox, ?_, ?_⟩ (h.mailbox i) hne
    · rw [leave_phase hx, hps]
      exact he.returns
    · rw [leave_phase_out hx (hout _ (by simp))]
      exact hp.receivers

theorem mbRecvLoop_leave (h : k.Sound idle) (he : Enters (.receiver i) k)
    (hw : time ≠ 0 → (k.thread k.current).stat = .ready) :
    Effect k.current k (k.mbRecvLoop i time).event ((k.mbRecvLoop i time).leave k.current).kernel := by
  simp only [mbRecvLoop]
  split
  · next hempty =>
    have hnil : (k.channel i).content = [] := by
      rw [← List.length_eq_zero_iff]
      simpa [channel, Mailbox.content_length] using hempty
    split
    · rw [modify_modify]
      rcases he.quits (r := ⟨k.modify k.current fun x => { x with error := .timeout }, .ret .timeout, none⟩)
          rfl rfl rfl with
        hq | ⟨hb, hm⟩
      · exact .quiet hq rfl
      · refine .mailbox i hm.sameBut (by simp) ?_
        rw [hm.receiver]
        exact .receiver (.giveUp k.current .ok hb fun _ => hnil)
    · next ht =>
      have hm := wait_moves_ok (k.mailbox i).flag time none (c := .recv i time) (hw ht)
        he.error rfl (by simp [Place.object]) he.others
      refine .mailbox i hm.sameBut (by simp) ?_
      rw [hm.receiver]
      exact .receiver (.join k.current he.here hnil)
  · next hne =>
    obtain ⟨hev, hx, hg, hpr⟩ := mbGet_gets (i := i) h
    have hout : ∀ q ≠ .receiver i, (k.mbGet i).kernel.phase q k.current = .out := fun q hq =>
      (mbGet_passes h hne).keeps.out (he.others q hq)
    rw [hev]
    refine Gets.effect ⟨hg.same.trans (.of_place (p := .receiver i) rfl fun q hq => leave_phase_out hx (hout q hq)),
      hg.mailbox, ?_, ?_⟩ (h.mailbox i) hne
    · rw [leave_phase_out hx (hout _ (by simp))]
      exact hg.senders
    · rw [leave_phase hx, hpr]
      exact he.returns

theorem mbSendWait_leave (h : k.Sound idle) (hn : (k.thread k.current).place = none)
    (hw : time ≠ 0 → (k.thread k.current).stat = .ready) :
    Effect k.current k (k.mbSendWait i v time).event ((k.mbSendWait i v time).leave k.current).kernel := by
  unfold mbSendWait
  split
  · exact .quiet (leave_same (r := ⟨k, .ret .full, none⟩) hn rfl) rfl
  · exact mbSendLoop_leave h (.of_none hn) hw

theorem mbRecv_leave (h : k.Sound idle) (hn : (k.thread k.current).place = none)
    (hw : time ≠ 0 → (k.thread k.current).stat = .ready) :
    Effect k.current k (k.mbRecv i time).event ((k.mbRecv i time).leave k.current).kernel := by
  unfold mbRecv
  split
  · exact .quiet (leave_same (r := ⟨k, .ret .timeout, none⟩) hn rfl) rfl
  · exact mbRecvLoop_leave h (.of_none hn) hw

/-! ### Steps -/

theorem Shows.leave {w : Prop} {r : Outcome τ ι} (h : Shows w k r) (hn : (k.thread k.current).place = none) :
    Effect k.current k r.event (r.leave k.current).kernel := by
  rcases h with ⟨hx, hk, he⟩ | ⟨-, he⟩
  · refine he.same_right (leave_same ?_ hx)
    rw [Thread.place, hk.pc]
    exact hn
  · exact he

/-- A call that concerns no object. -/
theorem quiet_leave {r : Outcome τ ι} (hs : SameBut none k r.kernel) (he : r.event = none)
    (hx : r.exit.pc.cont.bind Cont.place = none) (hpc : (r.kernel.thread k.current).pc = (k.thread k.current).pc)
    (hn : (k.thread k.current).place = none) : Effect k.current k r.event (r.leave k.current).kernel :=
  .quiet (hs.trans (leave_same (by rw [Thread.place, hpc]; exact hn) hx)) he

theorem threadYield_same : SameBut none k k.threadYield.kernel := by
  simp only [threadYield]
  split
  · exact .of_phase rfl fun _ _ => rfl
  · exact .refl none k

theorem threadYield_event : k.threadYield.event = none := by
  simp only [threadYield]
  split <;> rfl

theorem call_effect {c : Call τ ι} (h : k.Inv idle) (hu : (k.thread k.current).pc = .user)
    (ha : Allowed idle k (.call c)) :
    Effect k.current k (k.call c).event ((k.call c).leave k.current).kernel := by
  have hs := h.sound
  have hr := h.ready fun c => by simp [hu]
  have hn : (k.thread k.current).place = none := by simp [Thread.place, hu, Pc.cont]
  cases c with
  | semTake i time => exact (semTake_shows fun _ => ⟨hr, hn⟩).leave hn
  | semRelease i => exact (semRelease_shows hs).leave hn
  | mutexTake i time => exact (mutexTake_shows hs ha.2 hn fun _ => hr).leave hn
  | mutexRelease i => exact (mutexRelease_shows hs hn).leave hn
  | mbSendWait i v time => exact mbSendWait_leave hs hn fun _ => hr
  | mbRecv i time => exact mbRecv_leave hs hn fun _ => hr
  | threadSleep =>
    have hth : k.threadSleep.kernel.thread =
        Function.update k.thread k.current { k.thread k.current with stat := .suspend, timer := true } := by
      simp [threadSleep, Kernel.modify, suspend_thread hr]
    refine quiet_leave (.of_out hth (by simp [Kernel.call, threadSleep, Kernel.modify]) hn hn) rfl rfl ?_ hn
    change (k.threadSleep.kernel.thread k.current).pc = _
    rw [hth, Function.update_self]
  | threadYield =>
    have hp := threadYield_passes hs
    exact quiet_leave threadYield_same threadYield_event hp.exit_place (hp.keeps.pc _) hn
  | threadStartup t =>
    refine quiet_leave
      (.update threadStartup_thread (by simp [Kernel.call, threadStartup, Kernel.modify, faultIf]) fun p _ => ?_)
      rfl rfl ((threadStartup_passes hs ha.2).keeps.pc _) hn
    have ht : (k.thread t).stat = .init := ha.2
    simp [Kernel.phase, Thread.phase, Thread.place, ht]
  | changePriority t p =>
    exact quiet_leave changePriority_same rfl rfl ((Keeps.changePriority p).pc _) hn
  | threadExit =>
    have hth : k.threadExit.kernel.thread =
        Function.update k.thread k.current { k.thread k.current with stat := .close, timer := false } := by
      simp [threadExit, Kernel.modify]
    refine quiet_leave (.of_out hth (by simp [Kernel.call, threadExit, Kernel.modify]) hn hn) rfl rfl ?_ hn
    change (k.threadExit.kernel.thread k.current).pc = _
    rw [hth, Function.update_self]
  | enterCritical => exact quiet_leave ⟨fun _ _ _ => rfl, fun _ _ => rfl, fun _ _ => rfl, fun _ _ => rfl⟩ rfl rfl rfl hn
  | exitCritical =>
    refine quiet_leave ⟨fun _ _ _ => rfl, fun _ _ => rfl, fun _ _ => rfl, fun _ _ => rfl⟩ rfl ?_ rfl hn
    simp only [Kernel.call, exitCritical]
    split <;> rfl

theorem Shows.passes {w : Prop} {r : Outcome τ ι} (h : Shows w k r) (hw : ¬w) : Effect k.current k r.event r.kernel :=
  (h.resolve_right fun hp => hw hp.1).2.2

theorem isr_effect {c : Call τ ι} (h : k.Sound idle) (hc : c.fromIsr = true) :
    Effect k.current k (k.call c).event (k.call c).kernel := by
  cases c with
  | semTake i time =>
    have ht : time = 0 := by simpa [Call.fromIsr] using hc
    exact (semTake_shows (absurd ht)).passes (not_not.2 ht)
  | semRelease i => exact (semRelease_shows h).passes not_false
  | mbSendWait i v time =>
    have ht : time = 0 := by simpa [Call.fromIsr] using hc
    simp only [Kernel.call, mbSendWait, mbSendLoop, ht, and_true]
    split
    · exact .refl
    · next hne =>
      obtain ⟨hev, -, hp, -⟩ := mbPut_puts (v := v) (i := i) h
      rw [hev]
      exact hp.effect (h.mailbox i) hne
  | mbRecv i time =>
    have ht : time = 0 := by simpa [Call.fromIsr] using hc
    simp only [Kernel.call, mbRecv, mbRecvLoop, ht, and_true]
    split
    · exact .refl
    · next hne =>
      obtain ⟨hev, -, hg, -⟩ := mbGet_gets (i := i) h
      rw [hev]
      exact hg.effect (h.mailbox i) hne
  | threadYield => exact .quiet threadYield_same threadYield_event
  | mutexTake | mutexRelease | threadSleep | threadStartup | changePriority | threadExit | enterCritical
  | exitCritical => simp [Call.fromIsr] at hc

theorem go_effect {c : Cont ι} {elapsed : Nat} (h : k.Inv idle) (hc : (k.thread k.current).pc = .behind c) :
    Effect k.current k (k.goOn elapsed c).event ((k.goOn elapsed c).leave k.current).kernel := by
  have hr := h.ready fun c' => by simp [hc]
  have hpl : (k.thread k.current).place = c.place := by rw [Thread.place, hc]; rfl
  have hothers : ∀ p, c.place = some p → ∀ q ≠ p, k.phase q k.current = .out := fun p hp q hq =>
    Thread.phase_eq_out.2 (by
      rw [hpl, hp]
      exact fun he => hq (Option.some.inj he).symm)
  have hback : ∀ p, c.place = some p → k.phase p k.current = .back (k.thread k.current).error := fun p hp =>
    Thread.phase_eq_back.2 ⟨hpl.trans hp, by simp [hr], rfl⟩
  have hmoves : ∀ p e v, c.place = some p →
      Moves p k.current .out k ((Outcome.mk k (.ret e) v).leave k.current).kernel :=
    fun p e v hp => leave_moves (Function.update_eq_self k.current k.thread).symm rfl rfl (hothers p hp)
  have henters : ∀ p, c.place = some p → (k.thread k.current).error = .ok → Enters p k := fun p hp he =>
    ⟨hothers p hp, .inr (he ▸ hback p hp), .inr he⟩
  cases c with
  | done => exact quiet_leave (r := ⟨k, .ret .ok, none⟩) (.refl none k) rfl rfl rfl hpl
  | sleep =>
    simp only [goOn]
    split
    · exact quiet_leave (r := ⟨k.modify k.current ({ · with error := .ok }), .ret .ok, none⟩)
        (setError_same (.inl hpl)) rfl rfl
        (by simp [Kernel.modify]) hpl
    · exact quiet_leave (r := ⟨k, .ret .ok, none⟩) (.refl none k) rfl rfl rfl hpl
  | sem i =>
    have hg : k.goOn elapsed (.sem i) = ⟨k, .ret (k.thread k.current).error,
        if (k.thread k.current).error = .ok then some (.took i) else none⟩ := rfl
    rw [hg]
    have hm := hmoves (.sem i) (k.thread k.current).error
      (if (k.thread k.current).error = .ok then some (.took i) else none) rfl
    refine .sem i hm.sameBut (by split <;> simp [Event.object]) ?_
    rw [hm.semState]
    have hb := hback (.sem i) rfl
    split
    · next he =>
      rw [Option.bind_some, Event.semLabel_took]
      exact .leave k.current (he ▸ hb)
    · next he => exact .giveUp k.current _ hb he
  | mutex i =>
    have hg : k.goOn elapsed (.mutex i) = ⟨k, .ret (k.thread k.current).error,
        if (k.thread k.current).error = .ok then some (.locked i) else none⟩ := rfl
    rw [hg]
    have hm := hmoves (.mutex i) (k.thread k.current).error
      (if (k.thread k.current).error = .ok then some (.locked i) else none) rfl
    refine .mutex i hm.sameBut (by split <;> simp [Event.object]) ?_
    rw [hm.lockState]
    have hb := hback (.mutex i) rfl
    split
    · next he =>
      rw [Option.bind_some, Event.lockLabel_locked]
      exact .leave k.current (he ▸ hb)
    · next he => exact .giveUp k.current _ hb he
  | send i v timeout =>
    simp only [goOn]
    split
    · next he => exact mbSendLoop_leave h.sound (henters _ rfl he) fun _ => hr
    · next he =>
      have hm := hmoves (.sender i) (k.thread k.current).error none rfl
      refine .mailbox i hm.sameBut (by simp) ?_
      rw [hm.sender]
      exact .sender (.giveUp k.current _ (hback _ rfl) fun h => absurd h he)
  | recv i timeout =>
    simp only [goOn]
    split
    · next he => exact mbRecvLoop_leave h.sound (henters _ rfl he) fun _ => hr
    · next he =>
      have hm := hmoves (.receiver i) (k.thread k.current).error none rfl
      refine .mailbox i hm.sameBut (by simp) ?_
      rw [hm.receiver]
      exact .receiver (.giveUp k.current _ (hback _ rfl) fun h => absurd h he)

/-- The timer of a thread that waits goes off. -/
theorem timeout_moves (hs : (k.thread t).stat = .suspend) (hp : (k.thread t).place = some p) :
    k.phase p t = .waits (k.thread t).error ∧ Moves p t (.back .timeout) k (k.threadTimeout t) := by
  have hph : ∀ q, (k.threadTimeout t).phase q = Function.update (k.phase q) t
      (Thread.phase q { k.thread t with error := .timeout, stat := .ready, timer := false }) :=
    phase_update threadTimeout_thread
  refine ⟨Thread.phase_eq_waits.2 ⟨hp, hs, rfl⟩, rfl, rfl, rfl, fun q _ hq => ?_, ?_⟩
  · have hn : (k.thread t).place ≠ some q := fun he => hq (Option.some.inj (he.symm.trans hp))
    have h1 : Thread.phase q { k.thread t with error := .timeout, stat := .ready, timer := false } = .out :=
      Thread.phase_eq_out.2 hn
    rw [hph, h1, ← Thread.phase_eq_out.2 hn]
    exact Function.update_eq_self ..
  · have h1 : Thread.phase p { k.thread t with error := .timeout, stat := .ready, timer := false } = .back .timeout :=
      Thread.phase_eq_back.2 ⟨hp, by simp, rfl⟩
    rw [hph, h1]

theorem timeout_effect {u : τ} (hs : (k.thread t).stat = .suspend) : Effect u k none (k.threadTimeout t) := by
  rcases hp : (k.thread t).place with _ | p
  · exact .quiet (.of_out threadTimeout_thread rfl hp hp) rfl
  · obtain ⟨hw, hm⟩ := timeout_moves hs hp
    have hne : Err.timeout ≠ .ok := by simp
    rcases p with q | i | i | i | i
    · exact absurd hp Thread.place_ne_ready
    · refine .sem i hm.sameBut (by simp) ?_
      rw [hm.semState]
      exact .expire t _ _ hw hne
    · refine .mutex i hm.sameBut (by simp) ?_
      rw [hm.lockState]
      exact .expire t _ _ hw hne
    · refine .mailbox i hm.sameBut (by simp) ?_
      rw [hm.sender]
      exact .sender (.expire t _ _ hw hne)
    · refine .mailbox i hm.sameBut (by simp) ?_
      rw [hm.receiver]
      exact .receiver (.expire t _ _ hw hne)

omit [DecidableEq τ] in
theorem schedule_same : SameBut o k k.schedule := by
  unfold schedule
  split
  · split
    · exact ⟨fun _ _ _ => rfl, fun _ _ => rfl, fun _ _ => rfl, fun _ _ => rfl⟩
    · split <;> exact ⟨fun _ _ _ => rfl, fun _ _ => rfl, fun _ _ => rfl, fun _ _ => rfl⟩
  · exact .refl o k

theorem step_effect {a : Act τ ι} {r : Outcome τ ι} (h : k.Inv idle) (ha : Allowed idle k a) (hs : a.run k = some r) :
    Effect k.current k r.event r.kernel := by
  cases a with
  | call c =>
    obtain ⟨hpc, rfl⟩ := run_call hs
    exact call_effect h hpc ha
  | schedule =>
    obtain ⟨c, hc, rfl⟩ := run_schedule hs
    have hm : SameBut none k (k.modify k.current ({ · with pc := .behind c })) :=
      .update rfl rfl fun p _ => by simp [Kernel.phase, Thread.phase, Thread.place, hc, Pc.cont]
    exact .quiet (hm.trans schedule_same) rfl
  | go elapsed =>
    obtain ⟨c, hc, rfl⟩ := run_go hs
    exact go_effect h hc
  | isr c =>
    obtain ⟨hc, rfl⟩ := run_isr hs
    exact isr_effect h.sound hc
  | timeout t =>
    obtain ⟨ht, rfl⟩ := run_timeout hs
    exact timeout_effect (h.sound.timer t ht)
  | preempt =>
    cases hs
    exact .quiet schedule_same rfl

end Kernel

end Bootloader.Rt
