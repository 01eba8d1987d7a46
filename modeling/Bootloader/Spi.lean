import Bootloader.Lib.Transition
import Bootloader.Lib.KeyCache

/-!
# The SPI ports

`SPI1_SendData` and `SPI2_SendData` in `bsp_spi.c`: a word out and a word in, with the peripheral set up from the
caller's structure and the caller's function on the chip select. A port remembers the structure and the function; it
takes up a new function only together with a new structure. A call holds the semaphore of its port from end to end.
-/

namespace Bootloader

/-- SPI1 and SPI2. -/
inductive SpiBus
  | spi1
  | spi2
deriving DecidableEq, Repr

section
variable (Ptr Nss Cfg : Type)

/-- The arguments of a call, `none` for `RT_NULL`, what the structure holds at the time, and the word that the other
side sends. -/
structure SpiCall where
  initStruct : Option Ptr
  config : Cfg
  nssCmd : Option Nss
  sendData : UInt16
  recvData : UInt16
deriving DecidableEq, Repr

/-- What `SPI_Init` and `SPI_Cmd` leave of a peripheral. -/
structure SpiPeriph where
  config : Option Cfg
  enabled : Bool
deriving DecidableEq, Repr

/-- What a call does on the outside. -/
inductive SpiEvent
  | cmd (newState : Bool)
  | init (config : Cfg)
  | nss (f : Nss) (newState : Bool)
  | transfer (periph : SpiPeriph Cfg) (sendData recvData : UInt16)
  | assertError
  | hardFault
deriving DecidableEq, Repr

/-- `SPI1CurInitStruct` and `SPI1CurNssCmd`, or those of SPI2, and the peripheral. -/
structure SpiPort where
  curInitStruct : Option Ptr
  curNssCmd : Option Nss
  periph : SpiPeriph Cfg
deriving DecidableEq, Repr

/-- The two ports, and whether the processor has stopped. -/
structure Spi where
  port : SpiBus → SpiPort Ptr Nss Cfg
  halted : Bool

end

variable {Ptr Nss Cfg : Type} [DecidableEq Ptr]

/-- The change of the configuration. -/
def SpiPort.configure (c : SpiCall Ptr Nss Cfg) (p : SpiPort Ptr Nss Cfg) :
    List (SpiEvent Nss Cfg) × SpiPort Ptr Nss Cfg :=
  if c.initStruct = p.curInitStruct then ([], p)
  else ([.cmd false, .init c.config, .cmd true], ⟨c.initStruct, c.nssCmd, ⟨some c.config, true⟩⟩)

namespace Spi

/-- `SPI1_SendData` and `SPI2_SendData`: the received word, the events and what is left. The caller's function decides
whether the port's function is called; where the port has none, that is a call of `RT_NULL`. -/
def sendData (bus : SpiBus) (c : SpiCall Ptr Nss Cfg) (s : Spi Ptr Nss Cfg) :
    Option UInt16 × List (SpiEvent Nss Cfg) × Spi Ptr Nss Cfg :=
  if s.halted = true then (none, [], s)
  else if c.initStruct = none then (none, [.assertError], s)
  else
    let (es, p) := (s.port bus).configure c
    let s := { s with port := Function.update s.port bus p }
    let transfer := .transfer p.periph c.sendData c.recvData
    match c.nssCmd, p.curNssCmd with
    | none, _ => (some c.recvData, es ++ [transfer], s)
    | some _, some f => (some c.recvData, es ++ [.nss f true, transfer, .nss f false], s)
    | some _, none => (none, es ++ [.hardFault], { s with halted := true })

def spi1SendData : SpiCall Ptr Nss Cfg → Spi Ptr Nss Cfg → Option UInt16 × List (SpiEvent Nss Cfg) × Spi Ptr Nss Cfg :=
  sendData .spi1

def spi2SendData : SpiCall Ptr Nss Cfg → Spi Ptr Nss Cfg → Option UInt16 × List (SpiEvent Nss Cfg) × Spi Ptr Nss Cfg :=
  sendData .spi2

def call (a : SpiBus × SpiCall Ptr Nss Cfg) :
    Spi Ptr Nss Cfg → Option UInt16 × List (SpiEvent Nss Cfg) × Spi Ptr Nss Cfg :=
  match a.1 with
  | .spi1 => spi1SendData a.2
  | .spi2 => spi2SendData a.2

/-- Behind the C start-up code. -/
def start : Spi Ptr Nss Cfg := ⟨fun _ => ⟨none, none, ⟨none, false⟩⟩, false⟩

/-- Any calls on the two ports, one after the other. -/
def system : Lts (Spi Ptr Nss Cfg) (SpiBus × SpiCall Ptr Nss Cfg) where
  init s := s = start
  step a s := some (call a s).2.2

end Spi

/-! ### What a call should do -/

/-- All but the set-up of the peripheral. -/
def SpiEvent.onBus : SpiEvent Nss Cfg → Bool
  | .cmd _ | .init _ => false
  | _ => true

/-- The transfer with the call's own configuration and its own function around it, if there is one. -/
def SpiCall.own (c : SpiCall Ptr Nss Cfg) : List (SpiEvent Nss Cfg) :=
  match c.nssCmd with
  | none => [.transfer ⟨some c.config, true⟩ c.sendData c.recvData]
  | some f => [.nss f true, .transfer ⟨some c.config, true⟩ c.sendData c.recvData, .nss f false]

/-- The call `c` can go with `d`: the same configuration, and no select function but that of `d`. -/
def SpiCall.GoesWith (d c : SpiCall Ptr Nss Cfg) : Prop :=
  d.config = c.config ∧ (c.nssCmd = none ∨ c.nssCmd = d.nssCmd)

instance [DecidableEq Nss] [DecidableEq Cfg] {d c : SpiCall Ptr Nss Cfg} : Decidable (d.GoesWith c) :=
  inferInstanceAs (Decidable (_ ∧ _))

/-! ### What a port remembers -/

namespace SpiPort

variable {c d : SpiCall Ptr Nss Cfg} {l : List (SpiCall Ptr Nss Cfg)}

/-- A port that remembers the call `d`. -/
def of : Option (SpiCall Ptr Nss Cfg) → SpiPort Ptr Nss Cfg
  | none => ⟨none, none, ⟨none, false⟩⟩
  | some d => ⟨d.initStruct, d.nssCmd, ⟨some d.config, true⟩⟩

/-- A port is a cache of calls whose key is the pointer. -/
theorem configure_of (hc : c.initStruct ≠ none) :
    ∃ es, (of (KeyCache.held SpiCall.initStruct l)).configure c = (es, of (KeyCache.held SpiCall.initStruct (c :: l))) ∧
      es.filter SpiEvent.onBus = [] := by
  rw [KeyCache.held]
  cases KeyCache.held SpiCall.initStruct l with
  | none => exact ⟨_, if_neg hc, rfl⟩
  | some d =>
    dsimp only
    by_cases hd : c.initStruct = d.initStruct
    · rw [if_pos hd]
      exact ⟨[], if_pos hd, rfl⟩
    · rw [if_neg hd]
      exact ⟨[.cmd false, .init c.config, .cmd true], if_neg hd, rfl⟩

end SpiPort

namespace Spi

variable {s s' : Spi Ptr Nss Cfg} {c d : SpiCall Ptr Nss Cfg} {a : SpiBus × SpiCall Ptr Nss Cfg}
  {h : List (Spi Ptr Nss Cfg × (SpiBus × SpiCall Ptr Nss Cfg))}

theorem call_eq : call a s = sendData a.1 a.2 s := by
  obtain ⟨bus, c⟩ := a
  cases bus <;> rfl

/-- What a call should do: but for the set-up of the peripheral, its own transfer. -/
def TransfersOwn (s : Spi Ptr Nss Cfg) (a : SpiBus × SpiCall Ptr Nss Cfg) : Prop :=
  (call a s).2.1.filter SpiEvent.onBus = a.2.own

/-- The calls on a port, the latest first. -/
def callsOn (bus : SpiBus) (h : List (Spi Ptr Nss Cfg × (SpiBus × SpiCall Ptr Nss Cfg))) : List (SpiCall Ptr Nss Cfg) :=
  (h.filter (·.2.1 = bus)).map (·.2.2)

/-- The call goes with the first of the calls on its port that come directly before it and have its pointer, if there
are such calls. -/
def Consistent (h : List (Spi Ptr Nss Cfg × (SpiBus × SpiCall Ptr Nss Cfg))) (_ : Spi Ptr Nss Cfg)
    (a : SpiBus × SpiCall Ptr Nss Cfg) : Prop :=
  ∀ d ∈ KeyCache.opener SpiCall.initStruct a.2.initStruct (callsOn a.1 h), d.GoesWith a.2

instance [DecidableEq Nss] [DecidableEq Cfg] {a : SpiBus × SpiCall Ptr Nss Cfg} : Decidable (Consistent h s a) :=
  inferInstanceAs (Decidable (∀ d ∈ KeyCache.opener _ _ _, SpiCall.GoesWith d a.2))

/-- A call on a port that is left remembering the call `d`. -/
theorem sendData_of {es : List (SpiEvent Nss Cfg)} (hs : s.halted = false) (hc : a.2.initStruct ≠ none)
    (hp : (s.port a.1).configure a.2 = (es, .of (some d))) (hes : es.filter SpiEvent.onBus = []) :
    (TransfersOwn s a ↔ d.GoesWith a.2) ∧ (call a s).2.2.port = Function.update s.port a.1 (.of (some d)) ∧
      (TransfersOwn s a → (call a s).2.2.halted = false) := by
  have hf (l : List (SpiEvent Nss Cfg)) : (es ++ l).filter SpiEvent.onBus = l.filter SpiEvent.onBus := by
    rw [List.filter_append, hes, List.nil_append]
  have hcur : (SpiPort.of (some d)).curNssCmd = d.nssCmd := rfl
  have hperiph : (SpiPort.of (some d)).periph = ⟨some d.config, true⟩ := rfl
  rw [TransfersOwn, SpiCall.GoesWith, SpiCall.own, call_eq, sendData, if_neg (by rw [hs]; decide), if_neg hc, hp]
  dsimp only
  rw [hcur, hperiph]
  cases hn : a.2.nssCmd with
  | none =>
    refine ⟨?_, rfl, fun _ => hs⟩
    rw [hf, List.filter_cons_of_pos rfl, List.filter_nil]
    simp
  | some f =>
    cases hd : d.nssCmd with
    | none =>
      -- the call of the null pointer is the last event
      dsimp only
      rw [hf, List.filter_cons_of_pos rfl, List.filter_nil]
      refine ⟨?_, rfl, ?_⟩ <;> simp
    | some g =>
      refine ⟨?_, rfl, fun _ => hs⟩
      rw [hf, List.filter_cons_of_pos rfl, List.filter_cons_of_pos rfl, List.filter_cons_of_pos rfl, List.filter_nil]
      constructor
      · intro he
        simp only [List.cons.injEq, SpiEvent.nss.injEq, SpiEvent.transfer.injEq, SpiPeriph.mk.injEq,
          Option.some.injEq] at he
        exact ⟨he.2.1.1.1, .inr (congrArg some he.1.1.symm)⟩
      · rintro ⟨he, hfg⟩
        obtain hfg | hfg := hfg
        · cases hfg
        · cases hfg
          rw [he]

omit [DecidableEq Ptr] in
theorem callsOn_cons {bus : SpiBus} : callsOn bus ((s, a) :: h) =
    if a.1 = bus then a.2 :: callsOn bus h else callsOn bus h := by
  rw [callsOn, List.filter_cons]
  dsimp only
  by_cases hb : a.1 = bus
  · rw [if_pos (decide_eq_true hb), if_pos hb]; rfl
  · rw [if_neg (by rwa [decide_eq_true_iff]), if_neg hb]; rfl

/-- The processor runs, and each port remembers the first of the latest calls on it that have one pointer. -/
structure Remembers (h : List (Spi Ptr Nss Cfg × (SpiBus × SpiCall Ptr Nss Cfg))) (s : Spi Ptr Nss Cfg) : Prop where
  halted : s.halted = false
  port : ∀ bus, s.port bus = .of (KeyCache.held SpiCall.initStruct (callsOn bus h))

theorem Remembers.call (hs : Remembers h s) (hc : a.2.initStruct ≠ none) :
    (TransfersOwn s a ↔ Consistent h s a) ∧ (TransfersOwn s a → Remembers ((s, a) :: h) (call a s).2.2) := by
  obtain ⟨es, hp, hes⟩ := SpiPort.configure_of (l := callsOn a.1 h) hc
  rw [← hs.port] at hp
  have hheld : KeyCache.held SpiCall.initStruct (a.2 :: callsOn a.1 h) =
      some ((KeyCache.opener SpiCall.initStruct a.2.initStruct (callsOn a.1 h)).getD a.2) := KeyCache.held_cons
  rw [hheld] at hp
  obtain ⟨hown, hport, hhalt⟩ := sendData_of hs.halted hc hp hes
  refine ⟨hown.trans ?_, fun ht => ⟨hhalt ht, fun bus => ?_⟩⟩
  · rw [Consistent]
    cases KeyCache.opener SpiCall.initStruct a.2.initStruct (callsOn a.1 h) with
    | none => exact ⟨fun _ d hd => absurd hd (by rintro ⟨⟩), fun _ => ⟨rfl, .inr rfl⟩⟩
    | some d => exact ⟨fun hg d' hd' => Option.mem_some_iff.1 hd' ▸ hg, fun hg => hg d rfl⟩
  · rw [hport, callsOn_cons]
    by_cases hb : a.1 = bus
    · rw [← hb, Function.update_self, if_pos rfl, hheld]
    · rw [Function.update_of_ne fun hc => hb hc.symm, if_neg hb, hs.port]

theorem remembers_of_run (hr : system.Run h s) (hn : ∀ x ∈ h, x.2.2.initStruct ≠ none)
    (ht : ∀ x ∈ h, TransfersOwn x.1 x.2) : Remembers h s := by
  induction hr with
  | init hi =>
    subst hi
    exact ⟨rfl, fun bus => rfl⟩
  | step hr ha ih =>
    cases ha
    rw [List.forall_mem_cons] at hn ht
    exact ((ih hn.2 ht.2).call hn.1).2 ht.1

/-- In a run every call makes its own transfer if and only if every call goes with the first of the calls on its port
that come directly before it and have its pointer. -/
theorem transfersOwn_iff (hr : system.Run h s) (hn : ∀ x ∈ h, x.2.2.initStruct ≠ none) :
    (∀ x ∈ h, TransfersOwn x.1 x.2) ↔ Lts.Guarded Consistent h := by
  induction hr with
  | init hi => exact ⟨fun _ => trivial, fun _ x hx => absurd hx List.not_mem_nil⟩
  | step hr ha ih =>
    rw [List.forall_mem_cons] at hn ⊢
    have ih := ih hn.2
    constructor
    · rintro ⟨hown, ht⟩
      exact ⟨((remembers_of_run hr hn.2 ht).call hn.1).1.1 hown, ih.1 ht⟩
    · rintro ⟨hcons, hg⟩
      have ht := ih.2 hg
      exact ⟨((remembers_of_run hr hn.2 ht).call hn.1).1.2 hcons, ht⟩

/-- Two devices with a structure and a function each, and a call without a function. -/
theorem transfersOwn_iff_two : ∃ h s, (system : Lts (Spi Nat Nat Nat) (SpiBus × SpiCall Nat Nat Nat)).Run h s ∧
    h.map (·.2) = [(.spi1, ⟨some 1, 10, some 1, 0, 0⟩), (.spi2, ⟨some 1, 10, none, 0, 0⟩),
      (.spi1, ⟨some 2, 20, some 2, 0, 0⟩), (.spi1, ⟨some 1, 10, some 1, 0, 0⟩)] ∧ ∀ x ∈ h, TransfersOwn x.1 x.2 := by
  have hinit : (system : Lts (Spi Nat Nat Nat) (SpiBus × SpiCall Nat Nat Nat)).Run [] start := .init rfl
  have hr := (((hinit.step (a := (.spi1, ⟨some 1, 10, some 1, 0, 0⟩)) rfl).step
    (a := (.spi1, ⟨some 2, 20, some 2, 0, 0⟩)) rfl).step (a := (.spi2, ⟨some 1, 10, none, 0, 0⟩)) rfl).step
    (a := (.spi1, ⟨some 1, 10, some 1, 0, 0⟩)) rfl
  exact ⟨_, _, hr, rfl, (transfersOwn_iff hr (by decide)).2 (by decide)⟩

/-- A second device with the structure of the first: the function of the first is called. -/
theorem not_transfersOwn_of_shared : ∃ t h s,
    (system : Lts (Spi Nat Nat Nat) (SpiBus × SpiCall Nat Nat Nat)).Run
      ((t, .spi1, ⟨some 1, 10, some 2, 0, 0⟩) :: h) s ∧
    h.map (·.2) = [(.spi1, ⟨some 1, 10, some 1, 0, 0⟩)] ∧
    (call (.spi1, ⟨some 1, 10, some 2, 0, 0⟩) t).2.1 =
      [.nss 1 true, .transfer ⟨some 10, true⟩ 0 0, .nss 1 false] ∧
    ¬ TransfersOwn t (.spi1, ⟨some 1, 10, some 2, 0, 0⟩) := by
  have hinit : (system : Lts (Spi Nat Nat Nat) (SpiBus × SpiCall Nat Nat Nat)).Run [] start := .init rfl
  have hr := (hinit.step (a := (.spi1, ⟨some 1, 10, some 1, 0, 0⟩)) rfl).step
    (a := (.spi1, ⟨some 1, 10, some 2, 0, 0⟩)) rfl
  refine ⟨_, _, _, hr, rfl, by decide, fun ht => ?_⟩
  rw [TransfersOwn] at ht
  exact absurd ht (by decide)

end Spi

end Bootloader
