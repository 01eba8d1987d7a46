import Bootloader.Kernel

/-!
# The lists of the kernel

What each operation of the scheduler does to the threads, and that it keeps the ready bitmap and the lists as they
should be.
-/

namespace Bootloader.Rt
variable {τ ι : Type}

/-! ### `__rt_ffs` -/

theorem lowestBitBitmap_spec : ∀ n < 256, n ≠ 0 →
    n.testBit (lowestBitBitmap.getD n 0) ∧ ∀ q < lowestBitBitmap.getD n 0, n.testBit q = false := by
  decide +kernel

/-- The lowest bit of a byte of `v` is the lowest of `v` where the bytes below are zero. -/
theorem lowest_of_byte {v : BitVec 32} {s : Nat} (h0 : v.toNat / 2 ^ s % 256 ≠ 0) (hl : v.toNat % 2 ^ s = 0) :
    v.getLsbD (lowestBitBitmap.getD (v.toNat / 2 ^ s % 256) 0 + s) = true ∧
      ∀ q < lowestBitBitmap.getD (v.toNat / 2 ^ s % 256) 0 + s, v.getLsbD q = false := by
  obtain ⟨hb, hq⟩ := lowestBitBitmap_spec _ (Nat.mod_lt _ (by decide)) h0
  have hbyte : ∀ q, (v.toNat / 2 ^ s % 256).testBit q = (decide (q < 8) && v.toNat.testBit (q + s)) := fun q => by
    rw [show 256 = 2 ^ 8 by rfl, Nat.testBit_mod_two_pow, Nat.testBit_div_two_pow]
  have hlow : ∀ q < s, v.toNat.testBit q = false := fun q hqs => by
    have := Nat.testBit_mod_two_pow v.toNat s q
    simpa [hl, hqs] using this.symm
  rw [hbyte, Bool.and_eq_true] at hb
  refine ⟨hb.2, fun q hlt => ?_⟩
  change v.toNat.testBit q = false
  by_cases hqs : q < s
  · exact hlow q hqs
  · have h := hq (q - s) (by omega)
    rw [hbyte, Nat.sub_add_cancel (Nat.le_of_not_lt hqs), Bool.and_eq_false_iff, decide_eq_false_iff_not] at h
    have := of_decide_eq_true hb.1
    exact h.resolve_left (by omega)

theorem getLsbD_byte (i : Nat) : (0xff#32).getLsbD i = decide (i < 8) := by
  by_cases h : i < 32
  · revert i
    decide
  · rw [BitVec.getLsbD_of_ge _ _ (by omega), decide_eq_false (by omega)]

theorem and_byte_toNat (v : BitVec 32) {s : Nat} (hs : s ≤ 24) :
    (v &&& (0xff#32 <<< s)).toNat = v.toNat / 2 ^ s % 256 * 2 ^ s := by
  apply Nat.eq_of_testBit_eq
  intro i
  change (v &&& (0xff#32 <<< s)).getLsbD i = _
  rw [BitVec.getLsbD_and, BitVec.getLsbD_shiftLeft, getLsbD_byte, Nat.testBit_mul_two_pow,
    show 256 = 2 ^ 8 by rfl, Nat.testBit_mod_two_pow, Nat.testBit_div_two_pow]
  by_cases h1 : s ≤ i
  · rw [Nat.sub_add_cancel h1]
    by_cases h2 : i - s < 8
    · simp [h1, h2, show i < 32 by omega, BitVec.getLsbD]
    · simp [h2]
  · simp [h1, show i < s by omega]

theorem byte_toNat (v : BitVec 32) {s : Nat} (hs : s ≤ 24) :
    ((v &&& (0xff#32 <<< s)) >>> s).toNat = v.toNat / 2 ^ s % 256 := by
  rw [BitVec.toNat_ushiftRight, Nat.shiftRight_eq_div_pow, and_byte_toNat v hs,
    Nat.mul_div_cancel _ (Nat.two_pow_pos s)]

theorem byte_eq_zero (v : BitVec 32) {s : Nat} (hs : s ≤ 24) :
    v &&& (0xff#32 <<< s) = 0 ↔ v.toNat / 2 ^ s % 256 = 0 := by
  rw [← BitVec.toNat_inj, and_byte_toNat v hs]
  simp

theorem mod_step {n s : Nat} (h : n % 2 ^ s = 0) (h' : n / 2 ^ s % 256 = 0) : n % 2 ^ (s + 8) = 0 := by
  rw [Nat.pow_add, Nat.mod_mul, h, h', Nat.mul_zero, Nat.add_zero]

theorem rtFfs_spec (v : BitVec 32) :
    (v = 0 ∧ rtFfs v = 0) ∨ ∃ p, rtFfs v = p + 1 ∧ v.getLsbD p = true ∧ ∀ q < p, v.getLsbD q = false := by
  by_cases hv : v = 0
  · exact .inl ⟨hv, by simp [rtFfs, hv]⟩
  right
  have h0 : v.toNat % 2 ^ 0 = 0 := Nat.mod_one _
  have hbyte : ∀ s ≤ 24, v.toNat % 2 ^ s = 0 → v &&& (0xff#32 <<< s) ≠ 0 →
      v.getLsbD (lowestBitBitmap.getD ((v &&& (0xff#32 <<< s)) >>> s).toNat 0 + s) = true ∧
        ∀ q < lowestBitBitmap.getD ((v &&& (0xff#32 <<< s)) >>> s).toNat 0 + s, v.getLsbD q = false := by
    intro s hs hl hne
    rw [byte_toNat v hs]
    exact lowest_of_byte (fun h => hne ((byte_eq_zero v hs).2 h)) hl
  unfold rtFfs
  by_cases b0 : v &&& 0xff ≠ 0
  · exact ⟨_, (if_neg hv).trans (if_pos b0), hbyte 0 (by omega) h0 b0⟩
  have h8 := mod_step h0 ((byte_eq_zero v (by omega)).1 (not_not.1 b0))
  by_cases b1 : v &&& 0xff00 ≠ 0
  · exact ⟨_, (if_neg hv).trans ((if_neg b0).trans (if_pos b1)), hbyte 8 (by omega) h8 b1⟩
  have h16 := mod_step h8 ((byte_eq_zero v (by omega)).1 (not_not.1 b1))
  by_cases b2 : v &&& 0xff0000 ≠ 0
  · exact ⟨_, (if_neg hv).trans ((if_neg b0).trans ((if_neg b1).trans (if_pos b2))), hbyte 16 (by omega) h16 b2⟩
  have h24 := mod_step h16 ((byte_eq_zero v (by omega)).1 (not_not.1 b2))
  have b3 : v &&& 0xff000000 ≠ 0 := fun h => by
    have h32 := mod_step h24 ((byte_eq_zero v (by omega)).1 h)
    exact hv (BitVec.eq_of_toNat_eq (by have := v.isLt; rw [Nat.mod_eq_of_lt this] at h32; exact h32))
  exact ⟨_, (if_neg hv).trans ((if_neg b0).trans ((if_neg b1).trans (if_neg b2))), hbyte 24 (by omega) h24 b3⟩

theorem insertPrio_perm (prio : τ → Nat) (t : τ) (l : List τ) : (insertPrio prio t l).Perm (t :: l) := by
  induction l with
  | nil => rfl
  | cons s l ih =>
    rw [insertPrio]
    split
    · rfl
    · exact (ih.cons s).trans (List.Perm.swap t s l)

/-! ### The pool of a mailbox -/

namespace Mailbox
variable {b : Mailbox} {value : UInt32}

/-- The mails, the oldest first. -/
def content (b : Mailbox) : List UInt32 := (List.range b.entry).map fun j => b.msgPool ((b.outOffset + j) % b.size)

structure Sound (b : Mailbox) : Prop where
  le : b.entry ≤ b.size
  out : b.size ≠ 0 → b.outOffset < b.size
  next : b.inOffset = (b.outOffset + b.entry) % b.size

theorem content_length : b.content.length = b.entry := by simp [content]

/-- The offsets go round. -/
theorem wrap_eq {n size : Nat} (h : n < size) : (if size ≤ n + 1 then 0 else n + 1) = (n + 1) % size := by
  split
  · rw [show n + 1 = size by omega, Nat.mod_self]
  · rw [Nat.mod_eq_of_lt (by omega)]

theorem Sound.put (h : b.Sound) (hne : b.entry ≠ b.size) :
    (b.put value).Sound ∧ (b.put value).content = b.content ++ [value] := by
  have hlt := Nat.lt_of_le_of_ne h.le hne
  have hi := h.next
  have hin : b.inOffset < b.size := hi ▸ Nat.mod_lt _ (by omega)
  refine ⟨⟨hlt, h.out, ?_⟩, ?_⟩
  · change (if b.size ≤ b.inOffset + 1 then 0 else b.inOffset + 1) = (b.outOffset + (b.entry + 1)) % b.size
    rw [wrap_eq hin, hi, Nat.mod_add_mod, Nat.add_assoc]
  · have hfirst : ∀ j < b.entry, Function.update b.msgPool b.inOffset value ((b.outOffset + j) % b.size) =
        b.msgPool ((b.outOffset + j) % b.size) := fun j hj => by
      rw [Function.update_of_ne]
      rw [hi]
      intro he
      have := (Nat.ModEq.add_left_cancel' b.outOffset he).eq_of_lt_of_lt (by omega) hlt
      omega
    change (List.range (b.entry + 1)).map (fun j => Function.update b.msgPool b.inOffset value
      ((b.outOffset + j) % b.size))
      = _
    rw [List.range_succ, List.map_append, List.map_singleton, ← hi, Function.update_self, content]
    congr 1
    exact List.map_congr_left fun j hj => hfirst j (List.mem_range.1 hj)

theorem Sound.get (h : b.Sound) (hne : b.entry ≠ 0) : b.get.Sound ∧ b.content = b.first :: b.get.content := by
  have hle := h.le
  have ho := h.out (by omega)
  have hout : b.get.outOffset = (b.outOffset + 1) % b.size := wrap_eq ho
  obtain ⟨n, hn⟩ := Nat.exists_eq_succ_of_ne_zero hne
  have hget : b.get.entry = n := by simp [Mailbox.get, hn]
  refine ⟨⟨by rw [hget]; exact (Nat.le_succ n).trans (hn ▸ hle), fun _ => hout ▸ Nat.mod_lt _ (by omega), ?_⟩, ?_⟩
  · change b.inOffset = (b.get.outOffset + b.get.entry) % b.size
    rw [hout, hget, Nat.mod_add_mod, h.next, hn, Nat.add_right_comm, Nat.add_assoc]
  · rw [content, content, hget, hn, List.range_succ_eq_map, List.map_cons, List.map_map, Nat.add_zero,
      Nat.mod_eq_of_lt ho, Mailbox.first]
    congr 1
    refine List.map_congr_left fun j _ => ?_
    change b.msgPool ((b.outOffset + (j + 1)) % b.size) = b.msgPool ((b.get.outOffset + j) % b.size)
    rw [hout, Nat.mod_add_mod, Nat.add_right_comm, Nat.add_assoc]

end Mailbox

namespace Kernel
variable {home : τ → Option (Place ι)} {k k' : Kernel τ ι} {t : τ} {p : Place ι} {q : Nat}

/-! ### The lists and the bitmap -/

/-- Every thread is in the list of its `home` and in no other, and the bitmap names the ready lists that are not
empty. -/
structure Linked (home : τ → Option (Place ι)) (k : Kernel τ ι) : Prop where
  placed : Placed k.queue home
  bit : ∀ p, k.readyGroup.getLsbD p = true ↔ k.queue (.ready p) ≠ []
  prio : ∀ t, k.prio t < 32
  ready : ∀ t p, home t = some (.ready p) → p = k.prio t

theorem getLsbD_numberMask (h : k.prio t < 32) (p : Nat) :
    (k.thread t).numberMask.getLsbD p = decide (p = k.prio t) := by
  change (1#32 <<< k.prio t).getLsbD p = _
  rw [BitVec.getLsbD_shiftLeft]
  by_cases hp : p = k.prio t
  · simp [hp, h]
  · by_cases hl : p < k.prio t
    · simp [hl, hp]
    · have : ¬ p - k.prio t = 0 := by omega
      simp [hp, this]

namespace Linked

theorem congr (h : Linked home k) (hq : k'.queue = k.queue) (hg : k'.readyGroup = k.readyGroup)
    (hp : ∀ t, k'.prio t = k.prio t) : Linked home k' := by
  refine ⟨hq ▸ h.placed, fun p => ?_, fun t => ?_, fun t p ht => ?_⟩
  · rw [hq, hg]
    exact h.bit p
  · rw [hp]
    exact h.prio t
  · rw [hp]
    exact h.ready t p ht

/-- The scheduler finds a thread, and no thread of a higher priority is ready. -/
theorem exists_head (h : Linked home k) (ht : home t = some (.ready q)) :
    ∃ q u l, rtFfs k.readyGroup = q + 1 ∧ k.queue (.ready q) = u :: l ∧ home u = some (.ready q) ∧ k.prio u = q ∧
      ∀ v p, home v = some (.ready p) → q ≤ p := by
  have hbit : ∀ v p, home v = some (.ready p) → k.readyGroup.getLsbD p = true := fun v p hv =>
    (h.bit p).2 (List.ne_nil_of_mem ((h.placed.mem_iff _ v).2 hv))
  rcases rtFfs_spec k.readyGroup with ⟨h0, -⟩ | ⟨q, hq, hb, hlow⟩
  · have := hbit t q ht
    simp [h0] at this
  · obtain ⟨u, l, hl⟩ := List.exists_cons_of_ne_nil ((h.bit q).1 hb)
    have hu := (h.placed.mem_iff (.ready q) u).1 (by rw [hl]; exact List.mem_cons_self)
    refine ⟨q, u, l, hq, hl, hu, (h.ready u q hu).symm, fun v p hv => ?_⟩
    by_contra hlt
    have := hbit v p hv
    rw [hlow p (by omega)] at this
    cases this

end Linked

@[simp] theorem faultIf_false : k.faultIf false = k := by
  simp [faultIf]

variable [DecidableEq τ]

theorem modify_modify {f g : Thread ι → Thread ι} : (k.modify t f).modify t g = k.modify t fun x => g (f x) := by
  simp [modify]

@[simp] theorem startTimer_toGlobals {time : Int} : (k.startTimer time t).toGlobals = k.toGlobals := by
  unfold startTimer
  split <;> rfl

@[simp] theorem startTimer_fault {time : Int} : (k.startTimer time t).fault = k.fault := by
  unfold startTimer
  split <;> rfl

@[simp] theorem startTimer_queue {time : Int} : (k.startTimer time t).queue = k.queue := by
  unfold startTimer
  split <;> rfl

theorem startTimer_thread {time : Int} : (k.startTimer time t).thread =
    Function.update k.thread t { k.thread t with timer := (k.thread t).timer || 0 < time } := by
  unfold startTimer
  split <;> simp [modify, *]

theorem scheduleRemoveThread_eq : k.scheduleRemoveThread t =
    { k with
      queue := unlink k.queue t
      readyGroup := if (k.queue (.ready (k.prio t))).erase t = [] then k.readyGroup &&& ~~~(k.thread t).numberMask
        else k.readyGroup } := by
  by_cases h : (k.queue (.ready (k.prio t))).erase t = [] <;>
    simp only [prio] at h <;> simp [scheduleRemoveThread, listRemove, unlink, prio, h]

@[simp] theorem scheduleRemoveThread_thread : (k.scheduleRemoveThread t).thread = k.thread := by
  rw [scheduleRemoveThread_eq]

@[simp] theorem scheduleRemoveThread_toGlobals : (k.scheduleRemoveThread t).toGlobals = k.toGlobals := by
  rw [scheduleRemoveThread_eq]

@[simp] theorem scheduleRemoveThread_fault : (k.scheduleRemoveThread t).fault = k.fault := by
  rw [scheduleRemoveThread_eq]

theorem suspend_thread (h : (k.thread t).stat = .ready) : (k.suspend t).thread =
    Function.update k.thread t { k.thread t with stat := .suspend, timer := false } := by
  simp [suspend, h, modify]

@[simp] theorem suspend_toGlobals : (k.suspend t).toGlobals = k.toGlobals := by
  unfold suspend
  split
  · simp [modify]
  · rfl

@[simp] theorem suspend_fault : (k.suspend t).fault = k.fault := by
  unfold suspend
  split
  · simp [modify]
  · rfl

namespace Linked

theorem modify {f : Thread ι → Thread ι} (h : Linked home k)
    (hf : (f (k.thread t)).currentPriority = (k.thread t).currentPriority) : Linked home (k.modify t f) := by
  refine h.congr rfl rfl fun u => ?_
  simp only [Kernel.prio, Kernel.modify, Function.update_apply]
  split
  · next hu => rw [hf, hu]
  · rfl

theorem startTimer {time : Int} (h : Linked home k) : Linked home (k.startTimer time t) := by
  unfold Kernel.startTimer
  split
  · exact h.modify rfl
  · exact h

theorem queue_ready (h : Linked home k) (hq : k.prio t ≠ q) : (k.queue (.ready q)).erase t = k.queue (.ready q) :=
  h.placed.erase_eq fun ht => hq (h.ready t q ht).symm

theorem remove (h : Linked home k) (t : τ) : Linked (Function.update home t none) (k.scheduleRemoveThread t) := by
  rw [scheduleRemoveThread_eq]
  refine ⟨h.placed.unlink t, fun p => ?_, h.prio, fun u p hu => ?_⟩
  · change BitVec.getLsbD (if _ then _ else _) p = true ↔ (k.queue (.ready p)).erase t ≠ []
    have hmask := getLsbD_numberMask (h.prio t) p
    by_cases hp : k.prio t = p
    · subst hp
      by_cases he : (k.queue (.ready (k.prio t))).erase t = []
      · rw [if_pos he, BitVec.getLsbD_and, BitVec.getLsbD_not, hmask, decide_eq_true (Eq.refl (k.prio t))]
        exact iff_of_false (by simp) fun hn => hn he
      · rw [if_neg he]
        exact iff_of_true ((h.bit _).2 fun hn => he (by rw [hn, List.erase_nil])) he
    · rw [h.queue_ready hp, ← h.bit p]
      split
      · rw [BitVec.getLsbD_and, BitVec.getLsbD_not, hmask, decide_eq_false (Ne.symm hp)]
        simpa using fun hb => BitVec.lt_of_getLsbD hb
      · rfl
  · by_cases hut : u = t
    · simp [hut] at hu
    · rw [Function.update_of_ne hut] at hu
      exact h.ready u p hu

/-- A thread that is in no ready list leaves its list. -/
theorem listRemove (h : Linked home k) (ht : ∀ p, home t ≠ some (.ready p)) :
    Linked (Function.update home t none) (k.listRemove t) := by
  refine ⟨h.placed.unlink t, fun p => ?_, h.prio, fun u p hu => ?_⟩
  · change _ ↔ (k.queue (.ready p)).erase t ≠ []
    rw [h.placed.erase_eq (ht p)]
    exact h.bit p
  · by_cases hut : u = t
    · simp [hut] at hu
    · rw [Function.update_of_ne hut] at hu
      exact h.ready u p hu

theorem setPrio {f : Thread ι → Thread ι} (h : Linked home k) (ht : ∀ p, home t ≠ some (.ready p))
    (hf : (f (k.thread t)).currentPriority < 32) : Linked home (k.modify t f) := by
  have hprio : ∀ u, u ≠ t → (k.modify t f).prio u = k.prio u := fun u hu => by
    simp [Kernel.prio, Kernel.modify, hu]
  refine ⟨h.placed, h.bit, fun u => ?_, fun u p hu => ?_⟩
  · by_cases hut : u = t
    · subst hut
      simpa [Kernel.prio, Kernel.modify] using hf
    · rw [hprio u hut]
      exact h.prio u
  · have hut : u ≠ t := fun he => ht p (he ▸ hu)
    rw [hprio u hut]
    exact h.ready u p hu

theorem suspend (h : Linked home k) (hs : (k.thread t).stat = .ready) :
    Linked (Function.update home t none) (k.suspend t) := by
  rw [Kernel.suspend, if_pos hs]
  exact ((h.modify rfl).remove t).modify rfl

end Linked

variable [DecidableEq ι]

theorem scheduleInsertThread_eq : k.scheduleInsertThread t =
    { k.modify t ({ · with stat := .ready }) with
      queue := Function.update k.queue (.ready (k.prio t)) (k.queue (.ready (k.prio t)) ++ [t])
      readyGroup := k.readyGroup ||| (k.thread t).numberMask } := by
  simp [scheduleInsertThread, modify, setQueue, prio, Thread.numberMask]

theorem scheduleInsertThread_thread :
    (k.scheduleInsertThread t).thread = Function.update k.thread t { k.thread t with stat := .ready } := by
  rw [scheduleInsertThread_eq]
  rfl

@[simp] theorem scheduleInsertThread_toGlobals : (k.scheduleInsertThread t).toGlobals = k.toGlobals := rfl

@[simp] theorem scheduleInsertThread_fault : (k.scheduleInsertThread t).fault = k.fault := rfl

theorem listSuspend_thread {flag : Flag} (h : (k.thread t).stat = .ready) : (k.listSuspend p flag t).thread =
    Function.update k.thread t { k.thread t with stat := .suspend, timer := false } :=
  suspend_thread h

@[simp] theorem listSuspend_toGlobals {flag : Flag} : (k.listSuspend p flag t).toGlobals = k.toGlobals :=
  suspend_toGlobals

theorem listSuspend_fault {flag : Flag} (h : (k.thread t).stat = .ready) :
    (k.listSuspend p flag t).fault = k.fault := by
  simp [listSuspend, setQueue, faultIf, h]

theorem resume_thread (h : (k.thread t).stat = .suspend) : (k.resume t).thread =
    Function.update k.thread t { k.thread t with stat := .ready, timer := false } := by
  simp [resume, h, scheduleInsertThread_thread, modify, listRemove]

@[simp] theorem resume_toGlobals : (k.resume t).toGlobals = k.toGlobals := by
  unfold resume
  split <;> rfl

@[simp] theorem resume_fault : (k.resume t).fault = k.fault := by
  unfold resume
  split <;> rfl

theorem changePriority_thread :
    (k.changePriority t q).thread = Function.update k.thread t { k.thread t with currentPriority := q } := by
  unfold changePriority
  split
  · next h =>
    rw [scheduleInsertThread_thread]
    simp [modify, ← h]
  · rfl

@[simp] theorem changePriority_toGlobals : (k.changePriority t q).toGlobals = k.toGlobals := by
  unfold changePriority
  split
  · simp [modify]
  · rfl

@[simp] theorem changePriority_fault : (k.changePriority t q).fault = k.fault := by
  unfold changePriority
  split
  · simp [modify]
  · rfl

theorem threadTimeout_thread : (k.threadTimeout t).thread =
    Function.update k.thread t { k.thread t with stat := .ready, error := .timeout, timer := false } := by
  simp [threadTimeout, modify, listRemove, faultIf, scheduleInsertThread_thread]

@[simp] theorem threadTimeout_toGlobals : (k.threadTimeout t).toGlobals = k.toGlobals := rfl

theorem threadTimeout_fault : (k.threadTimeout t).fault = (k.fault || (k.thread t).stat != .suspend) := rfl

namespace Linked

theorem insertReady (h : Linked home k) (ht : home t = none) :
    Linked (Function.update home t (some (.ready (k.prio t)))) (k.scheduleInsertThread t) := by
  have hprio : ∀ u, (k.scheduleInsertThread t).prio u = k.prio u := fun u => by
    rw [Kernel.prio, scheduleInsertThread_thread, Function.update_apply]
    split
    · next hu => rw [hu, Kernel.prio]
    · rfl
  refine ⟨?_, fun p => ?_, fun u => ?_, fun u p hu => ?_⟩
  · rw [scheduleInsertThread_eq]
    exact h.placed.insert ht (List.perm_append_singleton t _)
  · rw [scheduleInsertThread_eq]
    change BitVec.getLsbD (_ ||| _) p = true ↔ Function.update k.queue _ _ (.ready p) ≠ []
    rw [BitVec.getLsbD_or, getLsbD_numberMask (h.prio t) p]
    by_cases hp : p = k.prio t
    · subst hp
      simp [Kernel.prio]
    · have hne : Place.ready (ι := ι) p ≠ .ready (k.prio t) := fun he => hp (Place.ready.inj he)
      rw [Function.update_of_ne hne, decide_eq_false hp, Bool.or_false]
      exact h.bit p
  · rw [hprio]
    exact h.prio u
  · rw [hprio]
    by_cases hut : u = t
    · rw [hut, Function.update_self, Option.some.injEq, Place.ready.injEq] at hu
      rw [hut, hu]
    · rw [Function.update_of_ne hut] at hu
      exact h.ready u p hu

/-- A thread joins a list that is no ready list. -/
theorem insert {l : List τ} (h : Linked home k) (ht : home t = none) (hp : ∀ q, p ≠ .ready q)
    (hl : l.Perm (t :: k.queue p)) : Linked (Function.update home t (some p)) (k.setQueue p l) := by
  refine ⟨h.placed.insert ht hl, fun q => ?_, h.prio, fun u q hu => ?_⟩
  · change _ ↔ Function.update k.queue p l (.ready q) ≠ []
    rw [Function.update_of_ne (hp q).symm]
    exact h.bit q
  · by_cases hut : u = t
    · rw [hut, Function.update_self, Option.some.injEq] at hu
      exact absurd hu (hp q)
    · rw [Function.update_of_ne hut] at hu
      exact h.ready u q hu

theorem resume (h : Linked home k) (hs : (k.thread t).stat = .suspend) (ht : ∀ q, home t ≠ some (.ready q)) :
    Linked (Function.update home t (some (.ready (k.prio t)))) (k.resume t) := by
  rw [Kernel.resume, if_pos hs]
  have hm : ((k.listRemove t).modify t ({ · with timer := false })).prio t = k.prio t := by
    simp [Kernel.prio, Kernel.modify, Kernel.listRemove]
  simpa [hm] using ((h.listRemove ht).modify (f := ({ · with timer := false })) (t := t) rfl).insertReady
    (Function.update_self ..)

theorem threadTimeout (h : Linked home k) (ht : ∀ q, home t ≠ some (.ready q)) :
    Linked (Function.update home t (some (.ready (k.prio t)))) (k.threadTimeout t) := by
  have hm : ((k.modify t ({ · with error := .timeout })).listRemove t).prio t = k.prio t := by
    simp [Kernel.prio, Kernel.modify, Kernel.listRemove]
  have hl := ((h.modify (f := ({ · with error := .timeout })) (t := t) rfl).listRemove ht).insertReady
    (Function.update_self ..)
  rw [hm, Function.update_idem] at hl
  exact (hl.modify (f := ({ · with timer := false })) (t := t) rfl).congr rfl rfl fun _ => rfl

theorem changePriority (h : Linked home k) (hs : (k.thread t).stat = .ready) (hq : q < 32) :
    Linked (Function.update home t (some (.ready q))) (k.changePriority t q) := by
  rw [Kernel.changePriority, if_pos hs]
  have hr := (h.remove t).setPrio (f := ({ · with currentPriority := q })) (t := t) (by simp) hq
  have hm : ((k.scheduleRemoveThread t).modify t ({ · with currentPriority := q })).prio t = q := by
    simp [Kernel.prio, Kernel.modify]
  simpa [hm] using hr.insertReady (Function.update_self ..)

theorem listSuspend {flag : Flag} (h : Linked home k) (hs : (k.thread t).stat = .ready) (hp : ∀ q, p ≠ .ready q) :
    Linked (Function.update home t (some p)) (k.listSuspend p flag t) := by
  have hl : ∀ l, l.Perm (t :: (k.suspend t).queue p) →
      Linked (Function.update home t (some p)) ((k.suspend t).setQueue p l) := fun l hperm => by
    have hi := (h.suspend hs).insert (p := p) (Function.update_self ..) hp hperm
    rwa [Function.update_idem] at hi
  cases flag with
  | fifo => exact (hl _ (List.perm_append_singleton t _)).congr rfl rfl fun _ => rfl
  | prio => exact (hl _ (insertPrio_perm _ _ _)).congr rfl rfl fun _ => rfl

/-- A ready thread goes to the end of its list. -/
theorem rotate (h : Linked home k) (ht : home t = some (.ready (k.prio t))) :
    Linked home ((k.listRemove t).setQueue (.ready (k.prio t)) ((k.queue (.ready (k.prio t))).erase t ++ [t])) := by
  have hp := (h.placed.unlink t).insert (i := .ready (k.prio t)) (Function.update_self ..)
    (List.perm_append_singleton t _)
  rw [Function.update_idem, ← ht, Function.update_eq_self] at hp
  refine ⟨hp, fun p => ?_, h.prio, h.ready⟩
  change k.readyGroup.getLsbD p = true ↔ Function.update (unlink k.queue t) _ _ (.ready p) ≠ []
  rw [h.bit]
  by_cases hq : p = k.prio t
  · subst hq
    have := (h.placed.mem_iff _ t).2 ht
    simp [List.ne_nil_of_mem this]
  · rw [Function.update_of_ne fun he => hq (Place.ready.inj he)]
    change _ ↔ (k.queue (.ready p)).erase t ≠ []
    rw [h.queue_ready (Ne.symm hq)]

end Linked

end Kernel

end Bootloader.Rt
