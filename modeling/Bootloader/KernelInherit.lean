import Bootloader.KernelInv

/-!
# Priority inheritance

As long as no thread takes a second mutex and nobody changes a priority, the owner of a mutex is at least as urgent as
every thread that waits for it, and a thread that owns none has the priority it was created with.
-/

namespace Bootloader.Rt
variable {τ ι : Type} [DecidableEq τ] [DecidableEq ι]

/-- A thread that takes a mutex owns no other, and no priority is changed but by the mutexes. -/
def Single (k : Kernel τ ι) : Act τ ι → Prop
  | .call (.mutexTake i _) => ∀ j ≠ i, (k.mutex j).owner ≠ some k.current
  | .call (.changePriority _ _) => False
  | _ => True

instance [Fintype ι] (k : Kernel τ ι) : (a : Act τ ι) → Decidable (Single k a)
  | .call (.mutexTake i _) => inferInstanceAs (Decidable (∀ j ≠ i, (k.mutex j).owner ≠ some k.current))
  | .call (.changePriority _ _) => .isFalse id
  | .call (.semTake _ _) | .call (.semRelease _) | .call (.mutexRelease _) | .call (.mbSendWait _ _ _)
  | .call (.mbRecv _ _) | .call .threadSleep | .call .threadYield | .call (.threadStartup _) | .call .threadExit
  | .call .enterCritical | .call .exitCritical | .schedule | .go _ | .isr _ | .timeout _ | .preempt => .isTrue trivial

omit [DecidableEq τ] in
/-- RT_IPC_FLAG_PRIO keeps a list in the order of the priorities. -/
theorem insertPrio_pairwise {prio : τ → Nat} {t : τ} {l : List τ} (h : l.Pairwise (prio · ≤ prio ·)) :
    (insertPrio prio t l).Pairwise (prio · ≤ prio ·) := by
  induction l with
  | nil => exact List.pairwise_singleton _ _
  | cons s l ih =>
    obtain ⟨hs, hl⟩ := List.pairwise_cons.1 h
    rw [insertPrio]
    split
    · next hlt =>
      refine List.pairwise_cons.2 ⟨fun u hu => ?_, h⟩
      rcases List.mem_cons.1 hu with rfl | hu
      · exact hlt.le
      · exact hlt.le.trans (hs u hu)
    · next hge =>
      refine List.pairwise_cons.2 ⟨fun u hu => ?_, ih hl⟩
      rcases List.mem_cons.1 ((insertPrio_perm prio t l).mem_iff.1 hu) with rfl | hu
      · exact Nat.le_of_not_lt hge
      · exact hs u hu

namespace Kernel
variable {idle t : τ} {i : ι} {k k' : Kernel τ ι} {x : Thread ι}

structure Inherits (k : Kernel τ ι) : Prop where
  own : ∀ t, (∀ i, (k.mutex i).owner ≠ some t) → k.prio t = (k.thread t).initPriority
  owner : ∀ i t, (k.mutex i).owner = some t →
    (k.mutex i).originalPriority = (k.thread t).initPriority ∧ k.prio t ≤ (k.thread t).initPriority
  single : ∀ i j t, (k.mutex i).owner = some t → (k.mutex j).owner = some t → i = j
  started : ∀ i t, (k.mutex i).owner = some t → (k.thread t).stat ≠ .init
  waits : ∀ i, ∀ t ∈ k.queue (.mutex i), (k.mutex i).owner ≠ none ∧ ∀ j, (k.mutex j).owner ≠ some t
  sorted : ∀ i, (k.mutex i).flag = .prio → (k.queue (.mutex i)).Pairwise (k.prio · ≤ k.prio ·)
  inherits : ∀ i u, (k.mutex i).flag = .prio → (k.mutex i).owner = some u →
    ∀ t ∈ k.queue (.mutex i), k.prio u ≤ k.prio t

/-- Priorities and owners are as before, and nobody has come to wait for a mutex. -/
structure Calm (k k' : Kernel τ ι) : Prop where
  owner : ∀ i, (k'.mutex i).owner = (k.mutex i).owner
  original : ∀ i, (k'.mutex i).originalPriority = (k.mutex i).originalPriority
  flag : ∀ i, (k'.mutex i).flag = (k.mutex i).flag
  prio : ∀ t, k'.prio t = k.prio t
  init : ∀ t, (k'.thread t).initPriority = (k.thread t).initPriority
  started : ∀ t, (k'.thread t).stat = .init → (k.thread t).stat = .init
  queue : ∀ i, (k'.queue (.mutex i)).Sublist (k.queue (.mutex i))

namespace Calm

omit [DecidableEq τ] [DecidableEq ι] in
theorem refl (k : Kernel τ ι) : k.Calm k :=
  ⟨fun _ => rfl, fun _ => rfl, fun _ => rfl, fun _ => rfl, fun _ => rfl, fun _ => id, fun _ => List.Sublist.refl _⟩

omit [DecidableEq τ] [DecidableEq ι] in
theorem trans {k'' : Kernel τ ι} (h : k.Calm k') (h' : k'.Calm k'') : k.Calm k'' :=
  ⟨fun i => (h'.owner i).trans (h.owner i), fun i => (h'.original i).trans (h.original i),
    fun i => (h'.flag i).trans (h.flag i), fun t => (h'.prio t).trans (h.prio t),
    fun t => (h'.init t).trans (h.init t), fun t ht => h.started t (h'.started t ht),
    fun i => (h'.queue i).trans (h.queue i)⟩

omit [DecidableEq τ] [DecidableEq ι] in
/-- Only lists, and no mutex, are concerned. -/
theorem of_thread (hm : k'.mutex = k.mutex) (ht : k'.thread = k.thread)
    (hq : ∀ i, (k'.queue (.mutex i)).Sublist (k.queue (.mutex i))) : k.Calm k' :=
  ⟨fun i => by rw [hm], fun i => by rw [hm], fun i => by rw [hm], fun t => by rw [Kernel.prio, ht, Kernel.prio],
    fun t => by rw [ht], fun t => by rw [ht]; exact id, hq⟩

omit [DecidableEq τ] [DecidableEq ι] in
theorem of_eq (hm : k'.mutex = k.mutex) (ht : k'.thread = k.thread) (hq : k'.queue = k.queue) : k.Calm k' :=
  .of_thread hm ht fun i => by rw [hq]

omit [DecidableEq ι] in
theorem modify {f : Thread ι → Thread ι} (hp : (f (k.thread t)).currentPriority = (k.thread t).currentPriority)
    (hi : (f (k.thread t)).initPriority = (k.thread t).initPriority)
    (hs : (f (k.thread t)).stat = .init → (k.thread t).stat = .init) : k.Calm (k.modify t f) := by
  have hth : ∀ u, (k.modify t f).thread u = if u = t then f (k.thread t) else k.thread u := fun u =>
    Function.update_apply ..
  refine ⟨fun _ => rfl, fun _ => rfl, fun _ => rfl, fun u => ?_, fun u => ?_, fun u => ?_, fun _ => List.Sublist.refl _⟩
  · rw [Kernel.prio, hth]
    split
    · next he => rw [he, hp, Kernel.prio]
    · rfl
  · rw [hth]
    split
    · next he => rw [he, hi]
    · rfl
  · rw [hth]
    split
    · next he => rw [he]; exact hs
    · exact id

omit [DecidableEq τ] in
theorem setMutex {m : Mutex τ} (ho : m.owner = (k.mutex i).owner)
    (hp : m.originalPriority = (k.mutex i).originalPriority)
    (hf : m.flag = (k.mutex i).flag) : k.Calm (k.setMutex i m) := by
  have hm : ∀ j, (k.setMutex i m).mutex j = if j = i then m else k.mutex j := fun j => Function.update_apply ..
  refine ⟨fun j => ?_, fun j => ?_, fun j => ?_, fun _ => rfl, fun _ => rfl, fun _ => id,
    fun _ => List.Sublist.refl _⟩ <;>
    rw [hm] <;> split <;> simp_all

omit [DecidableEq ι] in
theorem listRemove : k.Calm (k.listRemove t) := .of_thread rfl rfl fun _ => List.erase_sublist

omit [DecidableEq τ] in
theorem setQueue {p : Place ι} {l : List τ} (hp : ∀ i, p ≠ .mutex i) : k.Calm (k.setQueue p l) :=
  .of_thread rfl rfl fun i => by
    have hq : (k.setQueue p l).queue (.mutex i) = k.queue (.mutex i) := Function.update_of_ne (hp i).symm _ _
    rw [hq]

omit [DecidableEq ι] in
theorem scheduleRemoveThread : k.Calm (k.scheduleRemoveThread t) := by
  simp only [Kernel.scheduleRemoveThread]
  split
  · exact listRemove.trans (.of_eq rfl rfl rfl)
  · exact listRemove

theorem scheduleInsertThread : k.Calm (k.scheduleInsertThread t) :=
  (modify (f := ({ · with stat := .ready })) rfl rfl (by simp)).trans
    ((setQueue (p := .ready _) (by simp)).trans (.of_eq rfl rfl rfl))

omit [DecidableEq ι] in
theorem suspend : k.Calm (k.suspend t) := by
  unfold Kernel.suspend
  split
  · exact ((modify rfl rfl (by simp)).trans scheduleRemoveThread).trans (modify rfl rfl id)
  · exact .refl k

theorem resume : k.Calm (k.resume t) := by
  unfold Kernel.resume
  split
  · exact (listRemove.trans (modify rfl rfl id)).trans scheduleInsertThread
  · exact .refl k

theorem threadTimeout : k.Calm (k.threadTimeout t) := by
  simp only [Kernel.threadTimeout]
  have hf : k.Calm (k.faultIf ((k.thread t).stat != .suspend)) := .of_eq rfl rfl rfl
  have he := hf.trans (modify (t := t) (f := ({ · with error := .timeout })) rfl rfl id)
  exact ((he.trans listRemove).trans scheduleInsertThread).trans (modify rfl rfl id)

omit [DecidableEq ι] in
theorem startTimer {time : Int} : k.Calm (k.startTimer time t) := by
  unfold Kernel.startTimer
  split
  · exact modify rfl rfl id
  · exact .refl k

theorem listSuspend {p : Place ι} {flag : Flag} (hp : ∀ i, p ≠ .mutex i) : k.Calm (k.listSuspend p flag t) := by
  simp only [Kernel.listSuspend]
  have hf : k.Calm ((k.suspend t).faultIf ((k.thread t).stat != .ready)) := suspend.trans (.of_eq rfl rfl rfl)
  exact hf.trans (setQueue hp)

theorem listResume {p : Place ι} : k.Calm (k.listResume p) := by
  unfold Kernel.listResume
  split
  · exact .of_eq rfl rfl rfl
  · exact resume

omit [DecidableEq τ] [DecidableEq ι] in
theorem schedule : k.Calm k.schedule := by
  unfold Kernel.schedule
  split
  · split
    · exact .of_eq rfl rfl rfl
    · split
      · exact .of_eq rfl rfl rfl
      · exact .of_eq rfl rfl rfl
  · exact .refl k

end Calm

theorem changePriority_sublist {u : τ} {q : Nat} (j : ι) :
    ((k.changePriority u q).queue (.mutex j)).Sublist (k.queue (.mutex j)) := by
  unfold changePriority
  split
  · have h1 := (Calm.scheduleRemoveThread (k := k) (t := u)).queue j
    have h2 := (Calm.scheduleInsertThread (t := u)
      (k := (k.scheduleRemoveThread u).modify u ({ · with currentPriority := q }))).queue j
    exact h2.trans h1
  · exact List.Sublist.refl _

omit [DecidableEq τ] [DecidableEq ι] in
theorem not_mem_queue (h : k.Sound idle) (hr : (k.thread t).stat = .ready) (j : ι) :
    t ∉ k.queue (.mutex j) := fun hm => by
  have hs := Thread.suspend_of_home ((h.linked.placed.mem_iff _ t).1 hm) (by simp)
  rw [hr] at hs
  cases hs

theorem scheduleInsertThread_queue (j : ι) : (k.scheduleInsertThread t).queue (.mutex j) = k.queue (.mutex j) := by
  rw [scheduleInsertThread_eq]
  simp

theorem changePriority_prio {u v : τ} {q : Nat} : (k.changePriority u q).prio v = if v = u then q else k.prio v := by
  rw [Kernel.prio, changePriority_thread, Function.update_apply]
  split <;> rfl

theorem changePriority_queue {u : τ} {q : Nat} {j : ι} (hu : u ∉ k.queue (.mutex j)) :
    (k.changePriority u q).queue (.mutex j) = k.queue (.mutex j) := by
  unfold changePriority
  split
  · rw [scheduleInsertThread_queue]
    change (k.scheduleRemoveThread u).queue _ = _
    rw [scheduleRemoveThread_eq]
    exact List.erase_of_not_mem hu
  · rfl

theorem listResume_toGlobals {p : Place ι} : (k.listResume p).toGlobals = k.toGlobals := by
  unfold listResume
  split
  · rfl
  · exact resume_toGlobals

/-- The head of the list is taken out. -/
theorem listResume_queue {u : τ} {l : List τ} (hq : k.queue (.mutex i) = u :: l) (hu : (k.thread u).stat = .suspend) :
    (k.listResume (.mutex i)).queue (.mutex i) = l := by
  have hr : k.listResume (.mutex i) = k.resume u := by simp only [Kernel.listResume, hq]
  rw [hr, Kernel.resume, if_pos hu, scheduleInsertThread_queue]
  change (k.queue (.mutex i)).erase u = l
  rw [hq, List.erase_cons_head]

namespace Inherits

omit [DecidableEq τ] [DecidableEq ι] in
theorem calm (h : k.Inherits) (hc : k.Calm k') : k'.Inherits := by
  refine ⟨fun t ht => ?_, fun i t ht => ?_, fun i j t hi hj => ?_, fun i t ht hs => ?_, fun i t ht => ?_,
    fun i hf => ?_, fun i u hf hu t ht => ?_⟩
  · rw [hc.prio, hc.init]
    exact h.own t fun i => hc.owner i ▸ ht i
  · rw [hc.prio, hc.init, hc.original]
    exact h.owner i t (hc.owner i ▸ ht)
  · exact h.single i j t (hc.owner i ▸ hi) (hc.owner j ▸ hj)
  · exact h.started i t (hc.owner i ▸ ht) (hc.started t hs)
  · obtain ⟨h1, h2⟩ := h.waits i t ((hc.queue i).subset ht)
    exact ⟨hc.owner i ▸ h1, fun j => hc.owner j ▸ h2 j⟩
  · simp only [hc.prio]
    exact (h.sorted i (hc.flag i ▸ hf)).sublist (hc.queue i)
  · rw [hc.prio, hc.prio]
    exact h.inherits i u (hc.flag i ▸ hf) (hc.owner i ▸ hu) t ((hc.queue i).subset ht)

omit [DecidableEq τ] in
/-- A thread that owns nothing and waits for nothing locks a free mutex. -/
theorem lock {m : Mutex τ} (h : k.Inherits) (ho : (k.mutex i).owner = none) (hn : ∀ j, (k.mutex j).owner ≠ some t)
    (hs : (k.thread t).stat ≠ .init) (hq : ∀ j, t ∉ k.queue (.mutex j)) (hm : m.owner = some t)
    (hp : m.originalPriority = k.prio t) (hf : m.flag = (k.mutex i).flag) : (k.setMutex i m).Inherits := by
  have hmut : ∀ j, (k.setMutex i m).mutex j = if j = i then m else k.mutex j := fun j => Function.update_apply ..
  have hempty : k.queue (.mutex i) = [] := List.eq_nil_iff_forall_not_mem.2 fun u hu => (h.waits i u hu).1 ho
  have howner : ∀ j u, ((k.setMutex i m).mutex j).owner = some u → j = i ∧ u = t ∨ j ≠ i ∧ (k.mutex j).owner = some u :=
    fun j u hu => by
      rw [hmut] at hu
      split at hu
      · next hj => exact .inl ⟨hj, Option.some.inj (hu.symm.trans hm)⟩
      · next hj => exact .inr ⟨hj, hu⟩
  refine ⟨fun u hu => h.own u fun j hj => ?_, fun j u hu => ?_, fun j l u hj hl => ?_, fun j u hu => ?_,
    fun j u hu => ?_, fun j hj => ?_, fun j u hj hu v hv => ?_⟩
  · refine hu j ?_
    rw [hmut, if_neg fun he => by rw [he, ho] at hj; cases hj]
    exact hj
  · rcases howner j u hu with ⟨rfl, rfl⟩ | ⟨hj, hu⟩
    · rw [hmut, if_pos rfl, hp]
      exact ⟨h.own u hn, (h.own u hn).le⟩
    · rw [hmut, if_neg hj]
      exact h.owner j u hu
  · rcases howner j u hj with ⟨hji, hut⟩ | ⟨-, hju⟩ <;> rcases howner l u hl with ⟨hli, hlt⟩ | ⟨-, hlu⟩
    · rw [hji, hli]
    · exact absurd (hut ▸ hlu) (hn l)
    · exact absurd (hlt ▸ hju) (hn j)
    · exact h.single j l u hju hlu
  · rcases howner j u hu with ⟨-, rfl⟩ | ⟨-, hu⟩
    · exact hs
    · exact h.started j u hu
  · change u ∈ k.queue (.mutex j) at hu
    have hj : j ≠ i := by
      rintro rfl
      rw [hempty] at hu
      cases hu
    obtain ⟨h1, h2⟩ := h.waits j u hu
    rw [hmut, if_neg hj]
    refine ⟨h1, fun l hl => ?_⟩
    rcases howner l u hl with ⟨-, rfl⟩ | ⟨-, hl⟩
    · exact hq j hu
    · exact h2 l hl
  · refine h.sorted j ?_
    rw [hmut] at hj
    split at hj
    · next he => rw [he, ← hf, hj]
    · exact hj
  · change v ∈ k.queue (.mutex j) at hv
    rcases howner j u hu with ⟨rfl, -⟩ | ⟨hji, hu⟩
    · rw [hempty] at hv
      cases hv
    · rw [hmut, if_neg hji] at hj
      exact h.inherits j u hj hu v hv

/-- The owner of a mutex gets a more urgent priority. -/
theorem lower {q : Nat} {u : τ} (h : k.Inherits) (hu : (k.mutex i).owner = some u) (hq : q ≤ k.prio u) :
    (k.changePriority u q).Inherits := by
  have hm : (k.changePriority u q).mutex = k.mutex := by rw [changePriority_toGlobals]
  have hth : ∀ v, (k.changePriority u q).thread v =
      if v = u then { k.thread u with currentPriority := q } else k.thread v := fun v => by
    rw [changePriority_thread, Function.update_apply]
  have hp : ∀ v, v ≠ u → (k.changePriority u q).prio v = k.prio v := fun v hv => changePriority_prio.trans (if_neg hv)
  have hle : ∀ v, (k.changePriority u q).prio v ≤ k.prio v := fun v => by
    rw [changePriority_prio]
    split
    · next hv => exact hv ▸ hq
    · exact Nat.le_refl _
  have hi : ∀ v, ((k.changePriority u q).thread v).initPriority = (k.thread v).initPriority := fun v => by
    rw [hth]
    split
    · next hv => rw [hv]
    · rfl
  have hsub : ∀ j, ((k.changePriority u q).queue (.mutex j)).Sublist (k.queue (.mutex j)) := changePriority_sublist
  -- The owner does not wait for a mutex itself.
  have hw : ∀ j, ∀ v ∈ k.queue (.mutex j), v ≠ u := fun j v hv he => (h.waits j v hv).2 i (he ▸ hu)
  refine ⟨fun v hv => ?_, fun j v hv => ?_, fun j l v => ?_, fun j v hv => ?_, fun j v hv => ?_, fun j hf => ?_,
    fun j v hf hv w hjw => ?_⟩
  · rw [hm] at hv
    rw [hi, hp v fun he => hv i (he ▸ hu)]
    exact h.own v hv
  · rw [hm] at hv ⊢
    obtain ⟨h1, h2⟩ := h.owner j v hv
    rw [hi]
    exact ⟨h1, (hle v).trans h2⟩
  · rw [hm]
    exact h.single j l v
  · rw [hm] at hv
    have := h.started j v hv
    rw [hth]
    split
    · next he => exact he ▸ this
    · exact this
  · rw [hm]
    exact h.waits j v ((hsub j).subset hv)
  · rw [hm] at hf
    refine ((h.sorted j hf).sublist (hsub j)).imp_of_mem fun {v w} hv hw' hvw => ?_
    rw [hp v (hw j v ((hsub j).subset hv)), hp w (hw j w ((hsub j).subset hw'))]
    exact hvw
  · rw [hm] at hf hv
    have hjw := (hsub j).subset hjw
    rw [hp w (hw j w hjw)]
    exact (hle v).trans (h.inherits j v hf hv w hjw)

/-- A thread that owns nothing waits for a mutex whose owner is as urgent as it is. -/
theorem wait {u : τ} (h : k.Inherits) (ho : (k.mutex i).owner = some u) (hle : k.prio u ≤ k.prio t)
    (hn : ∀ j, (k.mutex j).owner ≠ some t) : (k.listSuspend (.mutex i) (k.mutex i).flag t).Inherits := by
  have hs : ((k.suspend t).faultIf ((k.thread t).stat != .ready)).Inherits :=
    (h.calm Calm.suspend).calm (.of_eq rfl rfl rfl)
  have hc : k.Calm (k.suspend t) := .suspend
  have hperm : ((k.listSuspend (.mutex i) (k.mutex i).flag t).queue (.mutex i)).Perm
      (t :: (k.suspend t).queue (.mutex i)) := by
    simp only [Kernel.listSuspend, Kernel.setQueue, Function.update_self]
    cases (k.mutex i).flag with
    | fifo => exact List.perm_append_singleton t _
    | prio => exact insertPrio_perm _ _ _
  have hne : ∀ j, j ≠ i → (k.listSuspend (.mutex i) (k.mutex i).flag t).queue (.mutex j) =
      (k.suspend t).queue (.mutex j) := fun j hj => Function.update_of_ne (by simpa using hj) _ _
  have hmem : ∀ j, ∀ v ∈ (k.listSuspend (.mutex i) (k.mutex i).flag t).queue (.mutex j),
      j = i ∧ v = t ∨ v ∈ (k.suspend t).queue (.mutex j) := fun j v hv => by
    by_cases hj : j = i
    · subst hj
      exact (List.mem_cons.1 (hperm.mem_iff.1 hv)).imp_left fun he => ⟨rfl, he⟩
    · exact .inr (hne j hj ▸ hv)
  refine ⟨hs.own, hs.owner, hs.single, hs.started, fun j v hv => ?_, fun j hf => ?_, fun j w hf hw v hv => ?_⟩
  · rcases hmem j v hv with ⟨rfl, rfl⟩ | hv
    · refine ⟨?_, fun l hl => hn l (hc.owner l ▸ hl)⟩
      change ((k.suspend v).mutex j).owner ≠ none
      rw [hc.owner, ho]
      simp
    · exact hs.waits j v hv
  · by_cases hj : j = i
    · subst hj
      have hflag : (k.mutex j).flag = .prio := hc.flag j ▸ hf
      have hq : (k.listSuspend (.mutex j) (k.mutex j).flag t).queue (.mutex j) =
          insertPrio (k.suspend t).prio t ((k.suspend t).queue (.mutex j)) := by
        simp only [Kernel.listSuspend, Kernel.setQueue, Function.update_self, hflag]
        rfl
      rw [hq]
      exact insertPrio_pairwise (hs.sorted j hf)
    · rw [hne j hj]
      exact hs.sorted j hf
  · rcases hmem j v hv with ⟨rfl, rfl⟩ | hv
    · change ((k.suspend v).mutex j).owner = some w at hw
      rw [hc.owner, ho] at hw
      obtain rfl := Option.some.inj hw
      change (k.suspend v).prio u ≤ (k.suspend v).prio v
      rw [hc.prio, hc.prio]
      exact hle
    · exact hs.inherits j w hf hw v hv

/-- The owner `t` gets its priority back and gives the mutex to the first thread that waits for it, if there is one. -/
theorem give (h : k.Inherits) (hl : Linked k.home k) (ho : (k.mutex i).owner = some t)
    (hp : ∀ v ≠ t, k'.prio v = k.prio v) (ht : k'.prio t = (k.thread t).initPriority)
    (hinit : ∀ v, (k'.thread v).initPriority = (k.thread v).initPriority)
    (hst : ∀ v, (k'.thread v).stat = .init → (k.thread v).stat = .init) (hm : ∀ j ≠ i, k'.mutex j = k.mutex j)
    (hf : (k'.mutex i).flag = (k.mutex i).flag)
    (hsub : ∀ j, (k'.queue (.mutex j)).Sublist (k.queue (.mutex j)))
    (hi : (k'.mutex i).owner = none ∧ k.queue (.mutex i) = [] ∨ ∃ u l, k.queue (.mutex i) = u :: l ∧
      (k'.mutex i).owner = some u ∧ (k'.mutex i).originalPriority = k.prio u ∧ (k'.queue (.mutex i)).Sublist l) :
    k'.Inherits := by
  -- The new owner was the head of the list, so that it owns no mutex yet and is not in the list any more.
  have hnew : ∀ u, (k'.mutex i).owner = some u → u ∈ k.queue (.mutex i) ∧ u ≠ t ∧
      (k'.mutex i).originalPriority = k.prio u ∧ ∀ j, ∀ v ∈ k'.queue (.mutex j), v ≠ u := fun u hu => by
    rcases hi with ⟨hn, -⟩ | ⟨w, l, hq, hw, horig, hql⟩
    · rw [hn] at hu
      cases hu
    obtain rfl := Option.some.inj (hw.symm.trans hu)
    have hmem : w ∈ k.queue (.mutex i) := by
      rw [hq]
      exact List.mem_cons_self
    refine ⟨hmem, fun he => (h.waits i w hmem).2 i (he ▸ ho), horig, fun j v hv he => ?_⟩
    subst he
    by_cases hj : j = i
    · subst hj
      have hnd := hl.placed.nodup (.mutex j)
      rw [hq] at hnd
      exact (List.nodup_cons.1 hnd).1 (hql.subset hv)
    · have h1 := (hl.placed.mem_iff _ v).1 ((hsub j).subset hv)
      rw [(hl.placed.mem_iff _ v).1 hmem] at h1
      exact hj (Place.mutex.inj (Option.some.inj h1)).symm
  -- Another mutex has the owner that it had, who is not the thread that gives.
  have hold : ∀ j v, j ≠ i → (k'.mutex j).owner = some v → (k.mutex j).owner = some v ∧ v ≠ t := fun j v hj hv => by
    rw [hm j hj] at hv
    exact ⟨hv, fun he => hj (h.single j i v hv (he ▸ ho))⟩
  have hwait : ∀ j, ∀ v ∈ k.queue (.mutex j), v ≠ t := fun j v hv he => (h.waits j v hv).2 i (he ▸ ho)
  refine ⟨fun v hv => ?_, fun j v hv => ?_, fun j l v hj hl => ?_, fun j v hv hs => ?_, fun j v hv => ?_,
    fun j hj => ?_, fun j v hj hv w hw => ?_⟩
  · by_cases hvt : v = t
    · rw [hvt, ht, hinit]
    · rw [hp v hvt, hinit]
      refine h.own v fun j hj => ?_
      by_cases hji : j = i
      · exact hvt (Option.some.inj (hj.symm.trans (hji ▸ ho)))
      · exact hv j (by rw [hm j hji, hj])
  · by_cases hj : j = i
    · subst hj
      obtain ⟨hmem, hvt, horig, -⟩ := hnew v hv
      have hown := h.own v (h.waits j v hmem).2
      rw [horig, hp v hvt, hinit]
      exact ⟨hown, hown.le⟩
    · obtain ⟨hv, hvt⟩ := hold j v hj hv
      rw [hm j hj, hp v hvt, hinit]
      exact h.owner j v hv
  · by_cases hji : j = i <;> by_cases hli : l = i
    · rw [hji, hli]
    · subst hji
      exact absurd (hold l v hli hl).1 ((h.waits j v (hnew v hj).1).2 l)
    · subst hli
      exact absurd (hold j v hji hj).1 ((h.waits l v (hnew v hl).1).2 j)
    · exact h.single j l v (hold j v hji hj).1 (hold l v hli hl).1
  · by_cases hj : j = i
    · subst hj
      have hsus := Thread.suspend_of_home ((hl.placed.mem_iff _ v).1 (hnew v hv).1) (by simp)
      rw [hst v hs] at hsus
      cases hsus
    · exact h.started j v (hold j v hj hv).1 (hst v hs)
  · obtain ⟨h1, h2⟩ := h.waits j v ((hsub j).subset hv)
    refine ⟨?_, fun l hlv => ?_⟩
    · by_cases hj : j = i
      · subst hj
        rcases hi with ⟨-, hq⟩ | ⟨u, l, -, hu, -, -⟩
        · have := (hsub j).subset hv
          rw [hq] at this
          cases this
        · rw [hu]
          simp
      · rw [hm j hj]
        exact h1
    · by_cases hli : l = i
      · subst hli
        exact (hnew v hlv).2.2.2 j v hv rfl
      · exact h2 l (hold l v hli hlv).1
  · have hflag : (k.mutex j).flag = .prio := by
      by_cases hji : j = i
      · subst hji
        exact hf ▸ hj
      · exact hm j hji ▸ hj
    refine ((h.sorted j hflag).sublist (hsub j)).imp_of_mem fun {v w} hv hw hvw => ?_
    rw [hp v (hwait j v ((hsub j).subset hv)), hp w (hwait j w ((hsub j).subset hw))]
    exact hvw
  · have hw' := (hsub j).subset hw
    rw [hp w (hwait j w hw')]
    by_cases hji : j = i
    · subst hji
      rw [hp v (hnew v hv).2.1]
      rcases hi with ⟨hn, -⟩ | ⟨u, l, hq, hu, -, hql⟩
      · rw [hn] at hv
        cases hv
      · obtain rfl := Option.some.inj (hu.symm.trans hv)
        have hsorted := h.sorted j (hf ▸ hj)
        rw [hq] at hsorted
        exact (List.pairwise_cons.1 hsorted).1 w (hql.subset hw)
    · obtain ⟨hv, hvt⟩ := hold j v hji hv
      rw [hp v hvt]
      exact h.inherits j v (hm j hji ▸ hj) hv w hw'

/-- `k₁` is `k` but for the priority of the owner `t`, which is again the one of its own. -/
theorem pass {k₁ : Kernel τ ι} {m : Mutex τ} (h : k.Inherits) (hl : Linked k.home k) (ho : (k.mutex i).owner = some t)
    (hm : k₁.mutex = k.mutex) (hq : ∀ j, k₁.queue (.mutex j) = k.queue (.mutex j)) (hp : ∀ v ≠ t, k₁.prio v = k.prio v)
    (ht : k₁.prio t = (k.thread t).initPriority)
    (hinit : ∀ v, (k₁.thread v).initPriority = (k.thread v).initPriority)
    (hst : ∀ v, (k₁.thread v).stat = (k.thread v).stat) (hf : m.flag = (k.mutex i).flag) :
    (k₁.mutexPass i m).kernel.Inherits := by
  have hset : ∀ m' j, j ≠ i → (k₁.setMutex i m').mutex j = k.mutex j := fun m' j hj =>
    (Function.update_of_ne hj _ _).trans (congrFun hm j)
  have hself : ∀ m', (k₁.setMutex i m').mutex i = m' := fun m' => Function.update_self ..
  unfold mutexPass
  split
  · next u l hul =>
    have hul' : k.queue (.mutex i) = u :: l := (hq i).symm.trans hul
    have hus : (k.thread u).stat = .suspend := Thread.suspend_of_home
      ((hl.placed.mem_iff _ u).1 (by rw [hul']; exact List.mem_cons_self)) (by simp)
    have hut : u ≠ t := fun he => (h.waits i u (by rw [hul']; exact List.mem_cons_self)).2 i (he ▸ ho)
    have hc := Calm.listResume (p := .mutex i)
      (k := k₁.setMutex i { m with owner := some u, originalPriority := k₁.prio u, hold := m.hold + 1 })
    have hql : ((k₁.setMutex i { m with owner := some u, originalPriority := k₁.prio u, hold := m.hold + 1 }).listResume
        (.mutex i)).queue (.mutex i) = l :=
      listResume_queue (by exact hul) (by exact (hst u).trans hus)
    refine h.give hl ho (fun v hv => (hc.prio v).trans (hp v hv)) ((hc.prio t).trans ht)
      (fun v => (hc.init v).trans (hinit v)) (fun v hv => hst v ▸ hc.started v hv) (fun j hj => ?_) ?_
      (fun j => hq j ▸ hc.queue j) (.inr ⟨u, l, hul', ?_, ?_, ?_⟩)
    · rw [listResume_toGlobals]
      exact hset _ j hj
    · rw [hc.flag, hself]
      exact hf
    · rw [hc.owner, hself]
    · rw [hc.original, hself]
      exact hp u hut
    · rw [hql]
  · next hnil =>
    refine h.give hl ho hp ht hinit (fun v hv => hst v ▸ hv) (fun j hj => hset _ j hj) ?_ (fun j => ?_)
      (.inl ⟨?_, (hq i).symm.trans hnil⟩)
    · rw [hself]
      exact hf
    · change (k₁.queue (.mutex j)).Sublist _
      rw [hq]
    · rw [hself]

theorem mutexTry {time : Int} (h : k.Inherits) (hs : k.Sound idle) (hr : (k.thread k.current).stat = .ready)
    (hn : ∀ j ≠ i, (k.mutex j).owner ≠ some k.current) : (k.mutexTry i time).kernel.Inherits := by
  simp only [Kernel.mutexTry]
  split
  · exact h.calm (.setMutex rfl rfl rfl)
  · next ho =>
    have hn' : ∀ j, (k.mutex j).owner ≠ some k.current := fun j => by
      by_cases hj : j = i
      · exact hj ▸ ho
      · exact hn j hj
    split
    · next hv =>
      exact h.lock ((hs.mutex i).free hv).1 hn' (by simp [hr]) (not_mem_queue hs hr) rfl rfl rfl
    · next hv =>
      split
      · exact h.calm (.modify (f := ({ · with error := .timeout })) rfl rfl id)
      · obtain ⟨u, hu⟩ := (hs.mutex i).owned (Nat.eq_zero_of_not_pos hv)
        have hc := (hs.owner i u hu).1
        have hk : k.inherit (k.mutex i) k.current =
            if k.prio k.current < k.prio u then k.changePriority u (k.prio k.current) else k := by
          simp [Kernel.inherit, hu, hc]
        refine calm ?_ Calm.startTimer
        rw [hk]
        split
        · next hlt =>
          have hm : (k.changePriority u (k.prio k.current)).mutex = k.mutex := by rw [changePriority_toGlobals]
          have hut : k.current ≠ u := fun he => ho (he ▸ hu)
          have hw := (h.lower (q := k.prio k.current) hu hlt.le).wait (i := i) (t := k.current) (u := u)
            (by rw [hm]; exact hu) ?_ fun j => by rw [hm]; exact hn' j
          · rw [hm] at hw
            exact hw
          · rw [changePriority_prio, changePriority_prio, if_pos rfl, if_neg hut]
        · next hge => exact h.wait hu (Nat.le_of_not_lt hge) hn'

theorem mutexRelease (h : k.Inherits) (hs : k.Sound idle) (hr : (k.thread k.current).stat = .ready) :
    (k.mutexRelease i).kernel.Inherits := by
  simp only [Kernel.mutexRelease]
  split
  · exact h.calm (.modify (f := ({ · with error := .error })) rfl rfl id)
  · next ho =>
    have ho := not_not.1 ho
    have horig := (h.owner i _ ho).1
    split
    · split
      · have hth := changePriority_thread (k := k) (t := k.current) (q := (k.mutex i).originalPriority)
        refine h.pass hs.linked ho (by rw [changePriority_toGlobals])
          (fun j => changePriority_queue (not_mem_queue hs hr j)) (fun v hv => ?_) ?_ (fun v => ?_) (fun v => ?_) rfl
        · rw [changePriority_prio, if_neg hv]
        · rw [changePriority_prio, if_pos rfl]
          exact horig
        · rw [hth, Function.update_apply]
          split
          · next he => rw [he]
          · rfl
        · rw [hth, Function.update_apply]
          split
          · next he => rw [he]
          · rfl
      · next hp =>
        exact h.pass hs.linked ho rfl (fun _ => rfl) (fun _ _ => rfl) ((not_not.1 hp).symm.trans horig)
          (fun _ => rfl) (fun _ => rfl) rfl
    · exact h.calm (.setMutex rfl rfl rfl)

end Inherits

/-! ### Steps -/

namespace Calm
variable {time : Int} {v : UInt32}

/-- The running thread waits for something else than a mutex. -/
theorem wait {p : Place ι} {flag : Flag} (hp : ∀ i, p ≠ .mutex i) :
    k.Calm (((k.modify t ({ · with error := .ok })).listSuspend p flag t).startTimer time t) :=
  ((modify (f := ({ · with error := .ok })) rfl rfl id).trans (listSuspend hp)).trans startTimer

theorem semTake : k.Calm (k.semTake i time).kernel := by
  simp only [Kernel.semTake]
  split
  · exact .of_eq rfl rfl rfl
  · split
    · exact .refl k
    · exact wait (by simp)

theorem semRelease : k.Calm (k.semRelease i).kernel := by
  simp only [Kernel.semRelease]
  split
  · exact .of_eq rfl rfl rfl
  · exact listResume

theorem mbPut : k.Calm (k.mbPut i v).kernel := by
  have hs : k.Calm (k.setMailbox i ((k.mailbox i).put v)) := .of_eq rfl rfl rfl
  simp only [Kernel.mbPut]
  split
  · exact hs
  · exact hs.trans listResume

theorem mbGet : k.Calm (k.mbGet i).kernel := by
  have hs : k.Calm (k.setMailbox i (k.mailbox i).get) := .of_eq rfl rfl rfl
  simp only [Kernel.mbGet]
  split
  · exact hs
  · exact hs.trans listResume

theorem mbSendLoop : k.Calm (k.mbSendLoop i v time).kernel := by
  simp only [Kernel.mbSendLoop]
  split
  · split
    · exact modify (f := ({ · with error := .ok })) rfl rfl id
    · exact wait (by simp)
  · exact mbPut

theorem mbSendWait : k.Calm (k.mbSendWait i v time).kernel := by
  unfold Kernel.mbSendWait
  split
  · exact .refl k
  · exact mbSendLoop

theorem mbRecvLoop : k.Calm (k.mbRecvLoop i time).kernel := by
  simp only [Kernel.mbRecvLoop]
  split
  · split
    · exact (modify (f := ({ · with error := .ok })) rfl rfl id).trans
        (modify (f := ({ · with error := .timeout })) rfl rfl id)
    · exact wait (by simp)
  · exact mbGet

theorem mbRecv : k.Calm (k.mbRecv i time).kernel := by
  unfold Kernel.mbRecv
  split
  · exact .refl k
  · exact mbRecvLoop

theorem threadYield : k.Calm k.threadYield.kernel := by
  simp only [Kernel.threadYield]
  split
  · exact listRemove.trans (setQueue (by simp))
  · exact .refl k

theorem goOn {c : Cont ι} {elapsed : Nat} : k.Calm (k.goOn elapsed c).kernel := by
  cases c with
  | done => exact .refl k
  | sleep =>
    simp only [Kernel.goOn]
    split
    · exact modify (f := ({ · with error := .ok })) rfl rfl id
    · exact .refl k
  | sem i => exact .refl k
  | mutex i => exact .refl k
  | send i v timeout =>
    simp only [Kernel.goOn]
    split
    · exact mbSendLoop
    · exact .refl k
  | recv i timeout =>
    simp only [Kernel.goOn]
    split
    · exact mbRecvLoop
    · exact .refl k

theorem isr {c : Call τ ι} (hc : c.fromIsr = true) : k.Calm (k.call c).kernel := by
  cases c with
  | semTake i time => exact semTake
  | semRelease i => exact semRelease
  | mbSendWait i v time => exact mbSendWait
  | mbRecv i time => exact mbRecv
  | threadYield => exact threadYield
  | mutexTake | mutexRelease | threadSleep | threadStartup | changePriority | threadExit | enterCritical
  | exitCritical => simp [Call.fromIsr] at hc

theorem threadStartup (hp : k.prio t = (k.thread t).initPriority) : k.Calm (k.threadStartup t).kernel := by
  have hf : k.Calm (k.faultIf ((k.thread t).stat != .init)) := .of_eq rfl rfl rfl
  have hm := hf.trans (modify (t := t) (f := fun x => { x with currentPriority := x.initPriority, stat := .suspend })
    hp.symm rfl (by simp))
  exact hm.trans resume

theorem startups {ts : List τ} (hp : ∀ t, k.prio t = (k.thread t).initPriority) :
    k.Calm (ts.foldl (fun k t => (k.threadStartup t).kernel) k) := by
  induction ts generalizing k with
  | nil => exact .refl k
  | cons t ts ih =>
    have hc := threadStartup (hp t)
    exact hc.trans (ih fun u => by rw [hc.prio, hc.init, hp])

omit [DecidableEq ι] in
theorem leave {r : Outcome τ ι} : r.kernel.Calm (r.leave t).kernel :=
  modify (f := ({ · with pc := r.exit.pc })) rfl rfl id

end Calm

theorem Inherits.call {c : Call τ ι} (h : k.Inherits) (hs : k.Sound idle) (hr : (k.thread k.current).stat = .ready)
    (ha : Allowed idle k (.call c)) (h1 : Single k (.call c)) : (k.call c).kernel.Inherits := by
  cases c with
  | semTake i time => exact h.calm .semTake
  | semRelease i => exact h.calm .semRelease
  | mutexTake i time =>
    have hc : k.Calm (k.modify k.current ({ · with error := .ok })) := .modify rfl rfl id
    exact (h.calm hc).mutexTry (hs.setError .ok) (by simpa [Kernel.modify] using hr) h1
  | mutexRelease i => exact h.mutexRelease hs hr
  | mbSendWait i v time => exact h.calm .mbSendWait
  | mbRecv i time => exact h.calm .mbRecv
  | threadSleep => exact h.calm (Calm.suspend.trans (.modify (f := ({ · with timer := true })) rfl rfl id))
  | threadYield => exact h.calm .threadYield
  | threadStartup t => exact h.calm (.threadStartup (h.own t fun i hi => h.started i t hi ha.2))
  | changePriority t p => exact h1.elim
  | threadExit =>
    exact h.calm (Calm.scheduleRemoveThread.trans
      (.modify (f := ({ · with stat := .close, timer := false })) rfl rfl (by simp)))
  | enterCritical => exact h.calm (.of_eq rfl rfl rfl)
  | exitCritical => exact h.calm (.of_eq rfl rfl rfl)

theorem Inherits.step {a : Act τ ι} {r : Outcome τ ι} (h : k.Inherits) (hi : k.Inv idle) (ha : Allowed idle k a)
    (h1 : Single k a) (hs : a.run k = some r) : r.kernel.Inherits := by
  cases a with
  | call c =>
    obtain ⟨hpc, rfl⟩ := run_call hs
    have hr := hi.ready fun c => by simp [hpc]
    exact (h.call hi.sound hr ha h1).calm .leave
  | schedule =>
    obtain ⟨c, -, rfl⟩ := run_schedule hs
    exact h.calm ((Calm.modify rfl rfl id).trans .schedule)
  | go elapsed =>
    obtain ⟨c, -, rfl⟩ := run_go hs
    exact h.calm (Calm.goOn.trans .leave)
  | isr c =>
    obtain ⟨hc, rfl⟩ := run_isr hs
    exact h.calm (.isr hc)
  | timeout t =>
    obtain ⟨-, rfl⟩ := run_timeout hs
    exact h.calm .threadTimeout
  | preempt =>
    cases hs
    exact h.calm .schedule

/-! ### Runs -/

omit [DecidableEq τ] [DecidableEq ι] in
theorem Fresh.inherits (h : k.Fresh) : k.Inherits := by
  have ho : ∀ i, (k.mutex i).owner = none := fun i => by
    obtain ⟨f, hf⟩ := h.mutex i
    rw [hf]
  have hn : ∀ i t, (k.mutex i).owner ≠ some t := fun i t => by simp [ho i]
  refine ⟨fun t _ => ?_, fun i t ht => absurd ht (hn i t), fun i _ t ht => absurd ht (hn i t),
    fun i t ht => absurd ht (hn i t),
    fun i t ht => ?_, fun i _ => ?_, fun i u _ hu => absurd hu (hn i u)⟩
  · obtain ⟨q, -, hq⟩ := h.thread t
    rw [Kernel.prio, hq]
  · rw [h.queue] at ht
    cases ht
  · rw [h.queue]
    exact List.Pairwise.nil

theorem Inherits.run {h : List (Kernel τ ι × Act τ ι)} (hr : (kernelSystem idle).Run h k)
    (hg : Lts.Guarded (fun _ k a => Allowed idle k a ∧ Single k a) h) : k.Inv idle ∧ k.Inherits := by
  refine hr.inv (I := fun _ k => k.Inv idle ∧ k.Inherits) ?_ ?_ hg
  · rintro _ ⟨k₀, ts, hf, hn, hi, rfl⟩
    have hp : ∀ t, k₀.prio t = (k₀.thread t).initPriority := fun t => by
      obtain ⟨q, -, hq⟩ := hf.thread t
      rw [Kernel.prio, hq]
    exact ⟨hf.inv hn hi, hf.inherits.calm ((Calm.startups hp).trans .schedule)⟩
  · rintro _ s a s' ⟨hi, hin⟩ ⟨ha, h1⟩ hst
    obtain ⟨r, hr, rfl⟩ := Option.map_eq_some_iff.1 hst
    exact ⟨hi.step ha hr, hin.step hi ha h1 hr⟩

/-- Priority inheritance, as long as no thread takes a second mutex and nobody else changes a priority: nobody is less
urgent than it was created, and only owners of a mutex are more urgent. A mutex with RT_IPC_FLAG_PRIO is waited for in
the order of the priorities, and its owner is as urgent as everybody who waits for it, so that no thread of a priority
in between runs while the owner is ready. -/
theorem mutex_inherits {h : List (Kernel τ ι × Act τ ι)} (hr : (kernelSystem idle).Run h k)
    (hg : Lts.Guarded (fun _ k a => Allowed idle k a ∧ Single k a) h) :
    (∀ t, k.prio t ≤ (k.thread t).initPriority ∧
      ((∀ i, (k.mutex i).owner ≠ some t) → k.prio t = (k.thread t).initPriority)) ∧
    ∀ i, (k.mutex i).flag = .prio → (k.queue (.mutex i)).Pairwise (k.prio · ≤ k.prio ·) ∧
      ∀ u, (k.mutex i).owner = some u → ∀ t ∈ k.queue (.mutex i), k.prio u ≤ k.prio t ∧
        (k.lockNest = 0 → (k.thread u).stat = .ready → k.prio k.schedule.current ≤ k.prio t) := by
  obtain ⟨hi, hin⟩ := Inherits.run hr hg
  refine ⟨fun t => ⟨?_, hin.own t⟩, fun i hf => ⟨hin.sorted i hf, fun u hu t ht => ?_⟩⟩
  · by_cases ho : ∃ i, (k.mutex i).owner = some t
    · obtain ⟨i, ho⟩ := ho
      exact (hin.owner i t ho).2
    · exact (hin.own t fun i hi => ho ⟨i, hi⟩).le
  · have hut := hin.inherits i u hf hu t ht
    exact ⟨hut, fun h0 hs => ((hi.sound.schedule_le h0).2 u hs).trans hut⟩

/-- Thread 2 waits for the mutex of thread 1, which is as urgent now. -/
theorem mutex_inherits_boost : ∃ h k, sampleSystem.Run h k ∧ k.queue (.mutex ()) = [2] ∧ k.prio 1 = 5 ∧
    (k.thread 1).initPriority = 10 ∧ k.prio k.schedule.current ≤ k.prio 2 := by
  obtain ⟨h, k, hr, hg, hq, hp, hin, ho, hf, h0, hs⟩ := Lts.exists_run_of_exec (S := sampleSystem)
    (P := fun h k => Lts.Guarded (fun _ k a => Allowed 0 k a ∧ Single k a) h ∧ k.queue (.mutex ()) = [2] ∧
      k.prio 1 = 5 ∧ (k.thread 1).initPriority = 10 ∧ (k.mutex ()).owner = some 1 ∧ (k.mutex ()).flag = .prio ∧
      k.lockNest = 0 ∧ (k.thread 1).stat = .ready)
    [.call .threadSleep, .schedule, .call (.mutexTake () (-1)), .timeout 2, .preempt, .go 0, .call (.mutexTake () (-1))]
    sampleKernel_init (by decide +kernel)
  exact ⟨h, k, hr, hq, hp, hin, (((mutex_inherits hr hg).2 () hf).2 1 ho 2 (by simp [hq])).2 h0 hs⟩

end Kernel

end Bootloader.Rt
