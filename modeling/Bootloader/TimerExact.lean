import Bootloader.Timer

/-!
# Timers: exact to the tick

`s.Timed lo n due` says of the timers at the time `n` that they run as `due` tells: a timer is in the list while it
runs, the list is in the order of the times, and `timeoutTick` is the time in 32 bits. No time is before `lo` or half of
all ticks away, so the comparison of two ticks is that of the times although the counter wraps. In the loop of
`rt_timer_check` times that are one tick old are in the list.
-/

namespace Bootloader.Rt
variable {θ : Type}

/-! ### The order of the ticks -/

theorem sub32_now {n d : Nat} (hn : n ≤ d + 1) (hd : d < n + halfTick) :
    sub32 (n % 2 ^ 32) (d % 2 ^ 32) < halfTick ↔ d ≤ n := by
  unfold halfTick at *
  unfold sub32
  omega

theorem sub32_eq_zero {d e : Nat} (he : e ≤ d + halfTick) (hd : d < e + halfTick) :
    sub32 (d % 2 ^ 32) (e % 2 ^ 32) = 0 ↔ d = e := by
  unfold halfTick at *
  unfold sub32
  omega

theorem sub32_lt {d e : Nat} (he : e ≤ d + halfTick) (hd : d < e + halfTick) :
    sub32 (d % 2 ^ 32) (e % 2 ^ 32) < halfTick ↔ e ≤ d := by
  unfold halfTick at *
  unfold sub32
  omega

section insert
variable {timeoutTick : θ → Nat} {t : θ} {l : List θ}

theorem insertTimer_perm : (insertTimer timeoutTick t l).Perm (t :: l) := by
  induction l with
  | nil => exact .refl _
  | cons s l ih =>
    rw [insertTimer]
    split_ifs
    · exact (ih.cons s).trans (.swap ..)
    · exact .refl _
    · exact (ih.cons s).trans (.swap ..)

theorem insertTimer_filter {p : θ → Bool} (hp : p t = false) :
    (insertTimer timeoutTick t l).filter p = l.filter p := by
  induction l with
  | nil => simp [insertTimer, hp]
  | cons s l ih =>
    rw [insertTimer]
    split_ifs
    · rw [List.filter_cons, List.filter_cons, ih]
    · rw [List.filter_cons_of_neg (by rw [hp]; exact Bool.false_ne_true)]
    · rw [List.filter_cons, List.filter_cons, ih]

theorem insertTimer_pairwise {d : θ → Nat} (ht : timeoutTick t = d t % 2 ^ 32)
    (hf : ∀ u ∈ l, timeoutTick u = d u % 2 ^ 32)
    (hw : ∀ u ∈ l, d t ≤ d u + halfTick ∧ d u < d t + halfTick) (hl : l.Pairwise (d · ≤ d ·)) :
    (insertTimer timeoutTick t l).Pairwise (d · ≤ d ·) := by
  induction l with
  | nil => exact List.pairwise_singleton _ _
  | cons s l ih =>
    obtain ⟨hs, hl'⟩ := List.pairwise_cons.1 hl
    obtain ⟨hts, hst⟩ := hw s List.mem_cons_self
    -- Both branches that go on find a time that is not behind the new one.
    have behind (h : d s ≤ d t) : (s :: insertTimer timeoutTick t l).Pairwise (d · ≤ d ·) := by
      refine List.pairwise_cons.2 ⟨fun u hu => ?_, ih (fun u hu => hf u (List.mem_cons_of_mem _ hu))
        (fun u hu => hw u (List.mem_cons_of_mem _ hu)) hl'⟩
      obtain rfl | hu := List.mem_cons.1 (insertTimer_perm.mem_iff.1 hu)
      · exact h
      · exact hs u hu
    simp only [insertTimer, hf s List.mem_cons_self, ht, sub32_eq_zero hts hst, sub32_lt hts hst]
    split_ifs with heq hle
    · exact behind heq.le
    · refine List.pairwise_cons.2 ⟨fun u hu => ?_, hl⟩
      obtain rfl | hu := List.mem_cons.1 hu
      · exact hle
      · exact hle.trans (hs u hu)
    · exact behind (not_le.1 hle).le

end insert

/-! ### The operations keep the times -/

/-- A timer at the time `n` that is over at `due`, if it runs. -/
structure Timer.Timed (lo n : Nat) (due : Option Nat) (x : Timer) : Prop where
  activated : x.activated = due.isSome
  timeoutTick : ∀ d ∈ due, x.timeoutTick = d % 2 ^ 32
  window : ∀ d ∈ due, lo ≤ d ∧ d < n + halfTick
  time : x.initTick < halfTick
  period : x.periodic = true → 0 < x.initTick

structure Timers.Timed (lo n : Nat) (due : θ → Option Nat) (s : Timers θ) : Prop where
  tick : s.tick = n % 2 ^ 32
  timer : ∀ t, (s.timer t).Timed lo n (due t)
  nodup : s.list.Nodup
  mem : ∀ t, t ∈ s.list ↔ (due t).isSome = true
  sorted : s.list.Pairwise fun t u => (due t).getD 0 ≤ (due u).getD 0

section modify
variable [DecidableEq θ] {s : Timers θ} {f : Timer → Timer} {t u : θ}

theorem Timers.modify_self : (s.modify t f).timer t = f (s.timer t) := Function.update_self ..

theorem Timers.modify_of_ne (h : u ≠ t) : (s.modify t f).timer u = s.timer u := Function.update_of_ne h ..

/-- What `rt_timer_control` sets. -/
def Timer.setting (x : Timer) : Nat × Bool := (x.initTick, x.periodic)

theorem Timers.setting_off (s : Timers θ) (t u : θ) :
    ((s.modify t ({ · with activated := false })).timer u).setting = (s.timer u).setting := by
  by_cases hu : u = t
  · subst hu; rw [modify_self]; rfl
  · rw [modify_of_ne hu]

end modify

namespace Timer.Timed
variable {lo n : Nat} {o : Option Nat} {x : Timer}

theorem off (h : x.Timed lo n o) : { x with activated := false }.Timed lo n none where
  activated := rfl
  timeoutTick d hd := by cases hd
  window d hd := by cases hd
  time := h.time
  period := h.period

theorem on (h : x.Timed lo n o) (hlo : lo ≤ n) :
    { x with timeoutTick := (n + x.initTick) % 2 ^ 32, activated := true }.Timed lo n (some (n + x.initTick)) where
  activated := rfl
  timeoutTick d hd := by
    rw [Option.mem_some_iff] at hd
    exact congrArg (· % 2 ^ 32) hd
  window d hd := by
    have := h.time
    rw [Option.mem_some_iff] at hd
    omega
  time := h.time
  period := h.period

theorem update [DecidableEq θ] {timer : θ → Timer} {due : θ → Option Nat} {t : θ}
    (h : ∀ u, (timer u).Timed lo n (due u)) (hx : x.Timed lo n o) (u : θ) :
    (Function.update timer t x u).Timed lo n (Function.update due t o u) := by
  by_cases hu : u = t
  · subst hu
    rw [Function.update_self, Function.update_self]; exact hx
  · rw [Function.update_of_ne hu, Function.update_of_ne hu]; exact h u

end Timer.Timed

section start
variable [DecidableEq θ] {lo n : Nat} {due : θ → Option Nat} {s : Timers θ} {t : θ}

omit [DecidableEq θ] in
theorem Timers.Timed.setFired (h : s.Timed lo n due) (fired : List θ) : Timed lo n due { s with fired := fired } :=
  { h with }

omit [DecidableEq θ] in
theorem Timers.Timed.due_of_mem (h : s.Timed lo n due) (ht : t ∈ s.list) : ∃ d, due t = some d :=
  Option.isSome_iff_exists.1 ((h.mem t).1 ht)

theorem Timers.Timed.modify (h : s.Timed lo n due) {f : Timer → Timer}
    (hf : (f (s.timer t)).Timed lo n (due t)) : (s.modify t f).Timed lo n due :=
  { h with
    timer := fun u => by
      have hu := Timer.Timed.update (t := t) h.timer hf u
      rwa [Function.update_eq_self] at hu }

theorem Timers.Timed.remove (h : s.Timed lo n due) (t : θ) :
    ((s.remove t).modify t ({ · with activated := false })).Timed lo n (Function.update due t none) where
  tick := h.tick
  timer := Timer.Timed.update h.timer (h.timer t).off
  nodup := h.nodup.erase t
  mem u := by
    refine h.nodup.mem_erase_iff.trans ?_
    by_cases hu : u = t
    · subst hu; simp
    · rw [Function.update_of_ne hu, h.mem]; simp [hu]
  sorted := by
    refine (h.sorted.sublist List.erase_sublist).imp_of_mem fun {u v} hu hv huv => ?_
    rw [Function.update_of_ne (h.nodup.mem_erase_iff.1 hu).1, Function.update_of_ne (h.nodup.mem_erase_iff.1 hv).1]
    exact huv

/-- What `rt_timer_start` does with a timer that is in no list, its writes of the timer in one. -/
def Timers.enter (t : θ) (s : Timers θ) : Timers θ :=
  { s with
    list := insertTimer (Function.update (fun u => (s.timer u).timeoutTick) t
      ((s.tick + (s.timer t).initTick) % 2 ^ 32)) t s.list
    timer := Function.update s.timer t
      { s.timer t with timeoutTick := (s.tick + (s.timer t).initTick) % 2 ^ 32, activated := true } }

theorem Timers.start_eq (h : (s.timer t).initTick < halfTick) :
    s.start t = some (((s.remove t).modify t ({ · with activated := false })).enter t) := by
  have hkey : (fun u => (Function.update s.timer t { s.timer t with
      timeoutTick := (s.tick + (s.timer t).initTick) % 2 ^ 32, activated := false } u).timeoutTick) =
      Function.update (fun u => (Function.update s.timer t { s.timer t with activated := false } u).timeoutTick) t
        ((s.tick + (s.timer t).initTick) % 2 ^ 32) := by
    funext u
    by_cases hu : u = t
    · subst hu; simp
    · simp only [Function.update_of_ne hu]
  simp only [Timers.start, Timers.enter, Timers.remove, Timers.modify, Function.update_self, Function.update_idem,
    if_pos h, hkey]

theorem Timers.Timed.enter {i : Nat} (h : s.Timed lo n due) (hlo : lo ≤ n) (hn : n ≤ lo + 1) (ht : due t = none)
    (hi : (s.timer t).initTick = i) : (s.enter t).Timed lo n (Function.update due t (some (n + i))) := by
  subst hi
  have htick : (s.tick + (s.timer t).initTick) % 2 ^ 32 = (n + (s.timer t).initTick) % 2 ^ 32 := by
    rw [h.tick, Nat.mod_add_mod]
  have hne {u d} (hd : due u = some d) : u ≠ t := by
    rintro rfl
    cases ht.symm.trans hd
  have htl : t ∉ s.list := by rw [h.mem, ht]; exact Bool.false_ne_true
  refine ⟨h.tick, Timer.Timed.update h.timer ?timer, ?nodup, ?mem, ?sorted⟩
  case timer =>
    rw [htick]; exact (h.timer t).on hlo
  case nodup =>
    exact insertTimer_perm.nodup_iff.2 (List.nodup_cons.2 ⟨htl, h.nodup⟩)
  case mem =>
    intro u
    refine insertTimer_perm.mem_iff.trans ?_
    by_cases hu : u = t
    · subst hu; simp
    · rw [Function.update_of_ne hu, ← h.mem, List.mem_cons, or_iff_right hu]
  case sorted =>
    refine insertTimer_pairwise (d := fun u => (Function.update due t _ u).getD 0) ?_ ?_ ?_ ?_
    · simp only [Function.update_self, Option.getD_some]; exact htick
    · intro u hu
      obtain ⟨d, hd⟩ := h.due_of_mem hu
      simp only [Function.update_of_ne (hne hd), hd, Option.getD_some]
      exact (h.timer u).timeoutTick d hd
    · intro u hu
      obtain ⟨d, hd⟩ := h.due_of_mem hu
      have hw := (h.timer u).window d hd
      have hi := (h.timer t).time
      simp only [Function.update_self, Function.update_of_ne (hne hd), hd, Option.getD_some]
      omega
    · refine h.sorted.imp_of_mem fun {u v} hu hv huv => ?_
      rw [Function.update_of_ne (ne_of_mem_of_not_mem hu htl), Function.update_of_ne (ne_of_mem_of_not_mem hv htl)]
      exact huv

theorem Timers.setting_enter (s : Timers θ) (t u : θ) : ((s.enter t).timer u).setting = (s.timer u).setting := by
  by_cases hu : u = t
  · subst hu; simp only [enter, Timer.setting, Function.update_self]
  · simp only [enter, Function.update_of_ne hu]

theorem Timers.Timed.start (h : s.Timed lo n due) (hlo : lo ≤ n) (hn : n ≤ lo + 1) (t : θ) :
    ∃ s', s.start t = some s' ∧ s'.Timed lo n (Function.update due t (some (n + (s.timer t).initTick))) := by
  have h₁ := (h.remove t).enter hlo hn (Function.update_self ..) (congrArg Timer.initTick Timers.modify_self)
  rw [Function.update_idem] at h₁
  exact ⟨_, Timers.start_eq (h.timer t).time, h₁⟩

theorem Timers.Timed.stop (h : s.Timed lo n due) : (s.stop t).Timed lo n (Function.update due t none) := by
  rw [Timers.stop]
  split_ifs with ha
  · exact h.remove t
  · rw [(h.timer t).activated, Option.isSome_iff_ne_none, not_not] at ha
    rw [← ha, Function.update_eq_self]; exact h

end start

/-! ### The loop of a tick -/

section tick
open Timers TimerHistory
variable [DecidableEq θ] {lo n : Nat} {due : θ → Option Nat} {s : Timers θ} {t : θ} {l : List θ}

/-- Whether `t` is over at `n`. -/
def elapsed (n : Nat) (due : θ → Option Nat) (t : θ) : Bool := decide (∃ d ∈ due t, d ≤ n)

omit [DecidableEq θ] in
theorem elapsed_iff : elapsed n due t = true ↔ ∃ d ∈ due t, d ≤ n := decide_eq_true_iff

theorem elapsed_update_of_ne {o : Option Nat} {u : θ} (hu : u ≠ t) :
    elapsed n (Function.update due t o) u = elapsed n due u := by
  rw [elapsed, elapsed, Function.update_of_ne hu]

/-- Taking one time and setting it anew is part of what the tick makes of all of them. -/
theorem renewed_update {timer : θ → Timer} {o : Option Nat} (ht : ∃ d ∈ due t, d ≤ n)
    (ho : o = if (s.timer t).periodic = true then some (n + (s.timer t).initTick) else none)
    (hc : ∀ u, (timer u).setting = (s.timer u).setting)
    (hnot : ¬∃ d ∈ o, d ≤ n) : renewed n timer (Function.update due t o) = renewed n s.timer due := by
  funext u
  by_cases hu : u = t
  · subst hu
    rw [renewed, Function.update_self, if_neg hnot, renewed, if_pos ht, ho]
  · obtain ⟨hi, hp⟩ := Prod.mk.inj (hc u)
    rw [renewed, renewed, Function.update_of_ne hu, hi, hp]

/-- What is taken from the head of the list is not over when it is in the list again. -/
theorem Timers.Timed.take {d : Nat} (fuel : Nat) (h : s.Timed lo n due) (hlo : lo ≤ n) (hn : n ≤ lo + 1)
    (hl : s.list = t :: l) (hd : due t = some d) (hdn : d ≤ n) :
    ∃ (due₁ : θ → Option Nat) (s₁ : Timers θ), s.checkLoop (fuel + 1) = s₁.checkLoop fuel ∧ s₁.Timed lo n due₁ ∧
      s₁.fired = s.fired ++ [t] ∧ s₁.list.filter (elapsed n due₁) = l.filter (elapsed n due) ∧
      renewed n s₁.timer due₁ = renewed n s.timer due := by
  have htl : t ∉ l := (List.nodup_cons.1 (hl ▸ h.nodup)).1
  have hlt : (s.expire t).list = l := by
    show s.list.erase t = l
    rw [hl, List.erase_cons_head]
  have hx : sub32 s.tick (s.timer t).timeoutTick < halfTick := by
    have hw := (h.timer t).window d hd
    rw [h.tick, (h.timer t).timeoutTick d hd]
    exact (sub32_now (by omega) hw.2).2 hdn
  have hrest (o : Option Nat) : l.filter (elapsed n (Function.update due t o)) = l.filter (elapsed n due) :=
    List.filter_congr fun u hu => elapsed_update_of_ne (ne_of_mem_of_not_mem hu htl)
  have hov : ∃ e ∈ due t, e ≤ n := ⟨d, hd, hdn⟩
  have h₁ : (s.expire t).Timed lo n (Function.update due t none) := (h.remove t).setFired _
  by_cases hp : (s.timer t).periodic = true
  · -- `rt_timer_start` takes the timer from the list and clears its flag once more, which changes nothing.
    have he := start_eq (h₁.timer t).time
    have h₂ := (h₁.remove t).enter (i := (s.timer t).initTick) hlo hn (Function.update_self ..)
      (congrArg Prod.fst ((setting_off _ t t).trans (setting_off _ t t)))
    rw [Function.update_idem, Function.update_idem] at h₂
    have hnot : ¬∃ e ∈ some (n + (s.timer t).initTick), e ≤ n := by
      have := (h.timer t).period hp
      rintro ⟨e, he, hen⟩
      rw [Option.mem_some_iff] at he
      omega
    refine ⟨_, _, ?_, h₂, rfl, ?_, ?_⟩
    · rw [checkLoop, hl]
      simp only
      rw [if_pos hx, if_pos ⟨hp, by rw [(h.timer t).activated, hd]; rfl⟩, he, Option.bind_some]
    · refine (insertTimer_filter ?_).trans ((congrArg (List.filter _) ?_).trans (hrest _))
      · rwa [← Bool.not_eq_true, elapsed_iff, Function.update_self]
      · exact (congrArg (List.erase · t) hlt).trans (List.erase_of_not_mem htl)
    · exact renewed_update hov (if_pos hp).symm
        (fun u => (setting_enter _ t u).trans ((setting_off _ t u).trans (setting_off _ t u))) hnot
  · refine ⟨_, _, ?_, h₁, rfl, ?_, ?_⟩
    · rw [checkLoop, hl]
      simp only
      rw [if_pos hx, if_neg fun hc => hp hc.1]
    · rw [hlt, hrest]
    · exact renewed_update hov (if_neg hp).symm (setting_off _ t) (by simp)

omit [DecidableEq θ] in
/-- Where no time is over any more, the loop has done its work. -/
theorem Timers.Timed.settle (h : s.Timed lo n due) (ho : ∀ t, elapsed n due t = false) :
    s.Timed n n (renewed n s.timer due) := by
  have hr : renewed n s.timer due = due := by
    funext t
    rw [renewed, if_neg fun hc => Bool.false_ne_true ((ho t).symm.trans (elapsed_iff.2 hc))]
  rw [hr]
  refine { h with timer := fun t =>
    { h.timer t with window := fun d hd => ⟨le_of_not_ge fun hdn => ?_, ((h.timer t).window d hd).2⟩ } }
  exact Bool.false_ne_true ((ho t).symm.trans (elapsed_iff.2 ⟨d, hd, hdn⟩))

theorem Timers.Timed.checkLoop (fuel : Nat) (h : s.Timed lo n due) (hlo : lo ≤ n) (hn : n ≤ lo + 1)
    (hfuel : (s.list.filter (elapsed n due)).length < fuel) :
    ∃ s', s.checkLoop fuel = some s' ∧ s'.fired = s.fired ++ s.list.filter (elapsed n due) ∧
      s'.Timed n n (renewed n s.timer due) := by
  -- Each pass takes one timer that is over from the head; the times change with it, so `due` is general.
  induction fuel generalizing s due with
  | zero => exact absurd hfuel (Nat.not_lt_zero _)
  | succ fuel ih =>
    cases hl : s.list with
    | nil =>
      have hnone (t : θ) : due t = none := by
        rw [← Option.not_isSome_iff_eq_none, ← h.mem, hl]; exact List.not_mem_nil
      refine ⟨s, by rw [Timers.checkLoop, hl], by simp, h.settle fun t => ?_⟩
      rw [elapsed, hnone]; simp
    | cons t l =>
      obtain ⟨d, hd⟩ : ∃ d, due t = some d :=
        Option.isSome_iff_exists.1 ((h.mem t).1 (by rw [hl]; exact List.mem_cons_self))
      by_cases hdn : d ≤ n
      · have ht : elapsed n due t = true := elapsed_iff.2 ⟨d, hd, hdn⟩
        obtain ⟨due₁, s₁, he, h₁, hf, hfil, hr⟩ := h.take fuel hlo hn hl hd hdn
        rw [hl, List.filter_cons_of_pos ht, List.length_cons] at hfuel
        obtain ⟨s', he', hf', h'⟩ := ih h₁ (by rw [hfil]; omega)
        refine ⟨s', he.trans he', ?_, hr ▸ h'⟩
        rw [hf', hf, hfil, List.filter_cons_of_pos ht, List.append_assoc, List.singleton_append]
      · -- The first timer is not over, so no other is.
        have hall (u : θ) : elapsed n due u = false := by
          rw [← Bool.not_eq_true, elapsed_iff]
          rintro ⟨e, he, hen⟩
          have hu : u ∈ t :: l := hl ▸ (h.mem u).2 (Option.isSome_iff_exists.2 ⟨e, he⟩)
          obtain rfl | hu := List.mem_cons.1 hu
          · rw [Option.mem_def, hd, Option.some.injEq] at he; omega
          · have hle := (List.pairwise_cons.1 (hl ▸ h.sorted)).1 u hu
            rw [Option.mem_def] at he
            simp only [hd, he, Option.getD_some] at hle
            omega
        have hx : ¬ sub32 s.tick (s.timer t).timeoutTick < halfTick := by
          have hw := (h.timer t).window d hd
          rw [h.tick, (h.timer t).timeoutTick d hd, sub32_now (by omega) hw.2]
          exact hdn
        refine ⟨s, ?_, ?_, h.settle hall⟩
        · rw [Timers.checkLoop, hl]
          simp only
          rw [if_neg hx]
        · rw [List.filter_eq_nil_iff.2 (fun u _ => by rw [hall]; exact Bool.false_ne_true), List.append_nil]

theorem Timers.Timed.tickIncrease (h : s.Timed n n due) :
    ∃ s', s.tickIncrease = some s' ∧ s'.fired = s.list.filter (elapsed (n + 1) due) ∧
      s'.Timed (n + 1) (n + 1) (renewed (n + 1) s.timer due) := by
  have h₁ : Timed n (n + 1) due { s with tick := (s.tick + 1) % 2 ^ 32, fired := [] } :=
    { h with
      tick := by
        show (s.tick + 1) % 2 ^ 32 = _
        rw [h.tick, Nat.mod_add_mod]
      timer := fun t =>
        { h.timer t with
          window := fun d hd => by
            have hw := (h.timer t).window d hd
            omega } }
  obtain ⟨s', he, hf, h'⟩ := h₁.checkLoop (s.list.length + 1) (Nat.le_succ n) le_rfl
    (Nat.lt_succ_of_le (List.length_filter_le ..))
  exact ⟨s', he, hf.trans (List.nil_append _), h'⟩

end tick

/-! ### Every run -/

section runs
open TimerHistory
variable [DecidableEq θ] {h : TimerHistory θ} {s s' : Timers θ} {a : TimerAct θ}

theorem Timers.Timed.step (hi : s.Timed (now h) (now h) (due h)) (hp : a.Proper s) (hs : s.step a = some s') :
    s'.Timed (now ((s, a) :: h)) (now ((s, a) :: h)) (due ((s, a) :: h)) := by
  cases a with
  | setTime t time =>
    rw [Timers.step, Option.some.injEq] at hs
    subst hs
    exact hi.modify { hi.timer t with time := hp.1, period := hp.2 }
  | setPeriodic t periodic =>
    rw [Timers.step, Option.some.injEq] at hs
    subst hs
    exact hi.modify { hi.timer t with period := hp }
  | start t =>
    obtain ⟨s₁, he, h₁⟩ := hi.start le_rfl (Nat.le_succ _) t
    rw [Timers.step, he, Option.some.injEq] at hs
    subst hs
    exact h₁
  | stop t =>
    rw [Timers.step, Option.some.injEq] at hs
    subst hs
    exact hi.stop
  | tick =>
    obtain ⟨s₁, he, -, h₁⟩ := hi.tickIncrease
    rw [Timers.step, he, Option.some.injEq] at hs
    subst hs
    exact h₁

theorem timed_of_run (hr : timerSystem.Run h s) (hg : Lts.Guarded (fun _ s a => TimerAct.Proper s a) h) :
    s.Timed (now h) (now h) (due h) := by
  refine hr.inv (C := fun _ s a => TimerAct.Proper s a) (I := fun h s => s.Timed (now h) (now h) (due h)) ?_ ?_ hg
  · rintro s ⟨h0, hl, ht⟩
    exact
      { tick := h0
        timer := fun t =>
          { activated := (ht t).1
            timeoutTick := fun d hd => by cases hd
            window := fun d hd => by cases hd
            time := (ht t).2.1
            period := (ht t).2.2 }
        nodup := by rw [hl]; exact List.nodup_nil
        mem := fun t => by rw [hl]; simp [due]
        sorted := by rw [hl]; exact List.Pairwise.nil }
  · intro h s a s' hi hp hs
    exact hi.step hp hs

/-- Every tick returns and calls the timeout functions of the timers that are over by then, in the order of their
times and each once; no timer that runs is left behind. -/
theorem timers_exact (hr : timerSystem.Run h s) (hg : Lts.Guarded (fun _ s a => TimerAct.Proper s a) h) :
    (∀ t, ∀ d ∈ due h t, now h ≤ d) ∧ ∃ s', s.tickIncrease = some s' ∧
      (∀ t, t ∈ s'.fired ↔ ∃ d ∈ due h t, d ≤ now h + 1) ∧ s'.fired.Nodup ∧
      s'.fired.Pairwise fun t u => ∀ d ∈ due h t, ∀ e ∈ due h u, d ≤ e := by
  have hi := timed_of_run hr hg
  obtain ⟨s', he, hf, -⟩ := hi.tickIncrease
  refine ⟨fun t d hd => ((hi.timer t).window d hd).1, s', he, fun t => ?_, ?_, ?_⟩
  · rw [hf, List.mem_filter, elapsed_iff]
    refine and_iff_right_of_imp ?_
    rintro ⟨d, hd, -⟩
    exact (hi.mem t).2 (Option.isSome_iff_exists.2 ⟨d, hd⟩)
  · rw [hf]; exact hi.nodup.filter _
  · rw [hf]
    refine (hi.sorted.filter _).imp fun {t u} htu d hd e he => ?_
    rw [Option.mem_def] at hd he
    simpa only [hd, he, Option.getD_some] using htu

def sampleTimers : Timers Bool where
  tick := 0
  list := []
  timer t := { initTick := if t then 2 else 1, timeoutTick := 0, periodic := t, activated := false }
  fired := []

theorem sampleTimers_init : timerSystem.init sampleTimers := by
  refine ⟨rfl, rfl, fun t => ?_⟩
  cases t with
  | false => exact ⟨rfl, by decide, by decide⟩
  | true => exact ⟨rfl, by decide, by decide⟩

/-- A periodic timer of two ticks is over for the second time at the fourth, a timer that was over at the first stays
out of the list. -/
theorem timers_exact_periodic : ∃ (h : TimerHistory Bool) (s s' : Timers Bool), timerSystem.Run h s ∧ now h = 3 ∧
    s.tickIncrease = some s' ∧ true ∈ s'.fired ∧ false ∉ s'.fired := by
  obtain ⟨h, s, hr, hg, hn, ht, hf⟩ := Lts.exists_run_of_exec (S := timerSystem (θ := Bool))
    (P := fun h _ => Lts.Guarded (fun _ s a => TimerAct.Proper s a) h ∧ now h = 3 ∧ due h true = some 4 ∧
      due h false = none)
    [.start false, .start true, .tick, .tick, .tick] sampleTimers_init (by decide +kernel)
  obtain ⟨-, s', he, hfired, -⟩ := timers_exact hr hg
  refine ⟨h, s, s', hr, hn, he, (hfired true).2 ⟨4, ht, by omega⟩, fun hm => ?_⟩
  obtain ⟨d, hd, -⟩ := (hfired false).1 hm
  rw [hf] at hd
  cases hd

end runs

end Bootloader.Rt
