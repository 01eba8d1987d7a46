import Bootloader.Branches

/-!
# What a step of the device can do

The inversion lemmas from which the invariants of the device are derived: `step_cases` by the thread
that steps, `updStep_net` for what the update thread leaves to the other two, `procStep_fileBuf`
for what the process thread does to the slots.
-/

namespace Bootloader.Device
variable {h : List (Device × Act)} {s s' : Device} {a : Act} {hw : FlashStatus}

theorem procStep_reset (ha : s.procStep = some s') (hp : s.proc = .userReset) :
    s' = reset s.flash s.eeprom := by
  rw [procStep, hp] at ha; cases ha; rfl

theorem updStep_reset (ha : s.updStep hw = some s') (hp : s.upd = .commitReset) :
    s' = reset s.flash s.eeprom := by
  rw [updStep, hp] at ha; cases ha; rfl

/-- Booting, the clock and a failure of the receive thread touch none of the variables that the process
thread and the update thread share. -/
theorem bootStep_frame (pins : Nat → Nat → Bool) (pc : BootPc) :
    ∃ e n m, s.bootStep pins pc = { s with eeprom := e, netLocalAddr := n, mode := m } := by
  cases pc with
  | cfgInit => exact ⟨_, _, _, rfl⟩
  | bootKeyCheck => rw [bootStep]; split <;> exact ⟨_, _, _, rfl⟩
  | bootKeySave k => rw [bootStep]; split <;> exact ⟨_, _, _, rfl⟩
  | versionCheck => rw [bootStep]; split <;> exact ⟨_, _, _, rfl⟩
  | versionSave k => rw [bootStep]; split <;> exact ⟨_, _, _, rfl⟩
  | enterUser => rw [bootStep]; split <;> exact ⟨_, _, _, rfl⟩

/-- A step, by what makes it. -/
inductive StepCase (s s' : Device) : Act → Prop
  | reset {a : Act} (e : Mem) : e = s.eeprom ∨ s.mode = .userApp → s.resets a = true → s' = reset s.flash e →
    StepCase s s' a
  | recv (d : List UInt8) (addr : Nat) : s.canRecv = true → s' = s.deliver d addr →
    StepCase s s' (.recv d addr)
  | proc : s.resets .proc = false → s.procStep = some s' → StepCase s s' .proc
  | upd (hw : FlashStatus) : s.resets (.upd hw) = false → s.yields = true → s.updStep hw = some s' →
    StepCase s s' (.upd hw)
  | other {a : Act} (e n : Mem) (t : Nat) (m : Mode) (c : Bool) :
    s.resets a = false → (∀ d addr, a ≠ .recv d addr) → a ≠ .proc → (∀ hw, a ≠ .upd hw) →
    s' = { s with eeprom := e, netLocalAddr := n, tick := t, mode := m, commu := c } → StepCase s s' a

theorem step_threads (ha : step a s = some s') (hr : s.resets a = false) (hb : ∀ pins, a ≠ .boot pins) :
    s.mode = .threads := by
  cases hm : s.mode with
  | threads => rfl
  | boot pc =>
    cases a with
    | powerLoss => cases hr
    | boot pins => exact absurd rfl (hb pins)
    | _ => simp only [step, hm] at ha; cases ha
  | userApp =>
    cases a with
    | powerLoss => cases hr
    | user eeprom => cases hr
    | _ => simp only [step, hm] at ha; cases ha

theorem step_cases (ha : step a s = some s') : StepCase s s' a := by
  by_cases hb : ∃ pins, a = .boot pins
  · obtain ⟨pins, rfl⟩ := hb
    cases hm : s.mode with
    | threads => simp only [step, hm] at ha; cases ha
    | userApp => simp only [step, hm] at ha; cases ha
    | boot pc =>
      simp only [step, hm, Option.some.injEq] at ha
      obtain ⟨e, n, m, hb⟩ := s.bootStep_frame pins pc
      exact .other e n s.tick m s.commu rfl (by rintro _ _ ⟨⟩) (by rintro ⟨⟩) (by rintro _ ⟨⟩) (ha ▸ hb)
  cases hr : s.resets a with
  | true =>
    cases a with
    | powerLoss => cases ha; exact .reset _ (.inl rfl) hr rfl
    | user eeprom =>
      cases hm : s.mode with
      | threads => simp only [step, hm] at ha; cases ha
      | boot pc => simp only [step, hm] at ha; cases ha
      | userApp => simp only [step, hm] at ha; cases ha; exact .reset _ (.inr hm) hr rfl
    | proc =>
      cases hm : s.mode with
      | boot pc => simp only [step, hm] at ha; cases ha
      | userApp => simp only [step, hm] at ha; cases ha
      | threads =>
        simp only [step, hm] at ha
        exact .reset _ (.inl rfl) hr (procStep_reset ha (by simpa [resets] using hr))
    | upd hw =>
      cases hm : s.mode with
      | boot pc => simp only [step, hm] at ha; cases ha
      | userApp => simp only [step, hm] at ha; cases ha
      | threads =>
        simp only [step, hm] at ha
        split at ha
        · exact .reset _ (.inl rfl) hr (updStep_reset ha (by simpa [resets] using hr))
        · cases ha
    | recv d addr => cases hr
    | recvFail => cases hr
    | elapse n => cases hr
    | boot pins => cases hr
  | false =>
    have hm := step_threads ha hr fun pins he => hb ⟨pins, he⟩
    cases a with
    | powerLoss => cases hr
    | user eeprom => cases hr
    | boot pins => exact absurd ⟨pins, rfl⟩ hb
    | recv d addr =>
      simp only [step, hm] at ha
      split at ha
      · next hc => cases ha; exact .recv d addr hc rfl
      · cases ha
    | proc => simp only [step, hm] at ha; exact .proc hr ha
    | upd hw =>
      simp only [step, hm] at ha
      split at ha
      · next hy => exact .upd hw hr hy ha
      · cases ha
    | recvFail =>
      simp only [step, hm] at ha; cases ha
      exact .other s.eeprom s.netLocalAddr s.tick .threads false rfl (by rintro _ _ ⟨⟩) (by rintro ⟨⟩)
        (by rintro _ ⟨⟩) rfl
    | elapse n =>
      simp only [step, hm] at ha; cases ha
      exact .other s.eeprom s.netLocalAddr (s.tick + n) .threads s.commu rfl (by rintro _ _ ⟨⟩)
        (by rintro ⟨⟩) (by rintro _ ⟨⟩) rfl

theorem deliver_cases (d : List UInt8) (addr : Nat) (s : Device) :
    (hands (.recv d addr) = some (d, addr) ∧ 0 < d.length ∧ d.length < udpRecvBufLen ∧
      s.deliver d addr = { s with
        pRecvBuf := s.pRecvBuf.write 0 d
        sockAddr := addr
        recvSem := Semaphore.countUp s.recvSem
        netWorkRecvSem := s.netWorkRecvSem.release }) ∨
    (hands (.recv d addr) = none ∧ ∃ c, s.deliver d addr = { s with commu := c }) := by
  unfold deliver hands udpRecvBufLen commuBufLen
  by_cases h0 : d.length = 0
  · right
    exact ⟨if_neg (by omega), false, by rw [if_pos (by omega)]⟩
  · by_cases hlt : d.length < 1100
    · left
      refine ⟨if_pos ⟨by omega, hlt⟩, by omega, hlt, ?_⟩
      rw [if_neg (by omega), if_pos (by omega)]
    · right
      exact ⟨if_neg (by omega), s.commu, by rw [if_neg (by omega), if_neg (by omega)]⟩

/-- What the other two threads see of a step of the update thread. -/
structure NetSame (s s' : Device) (a : Act) : Prop where
  proc : s'.proc = s.proc
  pRecvBuf : s'.pRecvBuf = s.pRecvBuf
  sockAddr : s'.sockAddr = s.sockAddr
  recvSem : s'.recvSem = s.recvSem
  netWorkRecvSem : s'.netWorkRecvSem = s.netWorkRecvSem
  seq : ∀ i, (s'.fileBuf i).seq = (s.fileBuf i).seq
  payload : s.ZeroesBehind a → ∀ i, (s'.fileBuf i).payload = (s.fileBuf i).payload
  used : s.HandsBackUsed a → ∀ i, (s'.fileBuf i).state ≠ .init → (s.fileBuf i).state ≠ .init

theorem updStep_net (ha : s.updStep hw = some s') (hr : s.resets (.upd hw) = false) :
    NetSame s s' (.upd hw) := by
  have hst := updStep_cases ha hr
  generalize hp : s.upd = pc at hst
  cases hst with
  | zeroByte hk =>
    exact ⟨rfl, rfl, rfl, rfl, rfl, fun _ => FileBufs.zeroByte_seq,
      fun hz _ => FileBufs.zeroByte_payload (hz (_, _) (by simp [zeroes, hp, hk])),
      fun _ i hi => by rwa [FileBufs.zeroByte_state] at hi⟩
  | release =>
    exact ⟨rfl, rfl, rfl, rfl, rfl, fun _ => FileBufs.release_seq, fun _ _ => FileBufs.release_payload,
      fun hb i => mt (FileBufs.release_state_init (hb _ (by simp [handsBack, hp]))).2⟩
  | _ => exact ⟨rfl, rfl, rfl, rfl, rfl, fun _ => rfl, fun _ _ => rfl, fun _ _ => id⟩

theorem procStep_entry (hp : s.procStep = some s') (he : s.enters .proc = true) :
    s' = { s with proc := s.dispatch } := by
  rw [procStep, show s.proc = .entry by simpa [enters] using he] at hp
  cases hp; rfl

theorem procStep_clear (hp : s.procStep = some s') (hc : s.clears .proc = true) :
    s' = { s.eraseClear with proc := .ackHead .eraseFlash [] [] } := by
  rw [procStep, show s.proc = .eraseClear by simpa [clears] using hc] at hp
  cases hp; rfl

/-- The process thread writes neither the flash nor the locals of the update thread. -/
theorem procStep_frame (hp : s.procStep = some s') (hr : s.resets .proc = false) :
    s'.flash = s.flash ∧ s'.mode = s.mode ∧ s'.upd = s.upd := by
  have hst := procStep_cases hp hr
  generalize s.proc = pc at hst
  cases hst <;> exact ⟨rfl, rfl, rfl⟩

/-- A step of the process thread clears the slots, stores a packet or leaves the slots alone. -/
theorem procStep_fileBuf (hp : s.procStep = some s') (hr : s.resets .proc = false) :
    (s.clears .proc = true ∧ s.stores .proc = none ∧ s'.fileBuf = .clear) ∨
    (s.clears .proc = false ∧ ∃ i q n l, s.proc = .copy i q n l ∧ ¬ l.length < n ∧
      s.stores .proc = some (q, l) ∧ s'.fileBuf = s.fileBuf.store i q l) ∨
    (s.clears .proc = false ∧ s.stores .proc = none ∧ s'.fileBuf = s.fileBuf) := by
  have hst := procStep_cases hp hr
  generalize hpc : s.proc = pc at hst
  cases hst with
  | eraseClear => exact .inl ⟨by simp [clears, hpc], by simp [stores, hpc], rfl⟩
  | copy hlt => exact .inr (.inr ⟨by simp [clears, hpc], by simp [stores, hpc, hlt], rfl⟩)
  | store hge =>
    exact .inr (.inl ⟨by simp [clears, hpc], _, _, _, _, rfl, hge, by simp [stores, hpc, hge], rfl⟩)
  | _ => exact .inr (.inr ⟨by simp [clears, hpc], by simp [stores, hpc], rfl⟩)

end Bootloader.Device
