import Bootloader.Receive

/-!
# The payloads in the slots

`SaveFileToBuf` gets the packet number and the length by value and the payload as a pointer into the
receive buffer, and may sleep before it copies. A slot holds what one datagram carried if no datagram
has changed the receive buffer between the call of `UDPPacketProcess` and the copy.
-/

namespace Bootloader

/-- A `DOWNLOAD` datagram with a packet number and a payload. -/
structure Carries (d : List UInt8) (seq : Nat) (payload : List UInt8) : Prop where
  cmd : cmdCode (ofList d) = Cmd.download.code
  seq : seq = packetIndex (ofList d)
  length : payload.length = dataLen (ofList d)
  fits : payloadOffset + payload.length ≤ d.length
  payload : payload = (ofList d).read payloadOffset payload.length

instance (d : List UInt8) (seq : Nat) (payload : List UInt8) : Decidable (Carries d seq payload) :=
  decidable_of_iff (cmdCode (ofList d) = Cmd.download.code ∧ seq = packetIndex (ofList d) ∧
      payload.length = dataLen (ofList d) ∧ payloadOffset + payload.length ≤ d.length ∧
      payload = (ofList d).read payloadOffset payload.length)
    ⟨fun ⟨h₁, h₂, h₃, h₄, h₅⟩ => ⟨h₁, h₂, h₃, h₄, h₅⟩, fun h => ⟨h.cmd, h.seq, h.length, h.fits, h.payload⟩⟩

namespace Device

/-- Every slot in use holds the number, the length and the payload of one datagram that was received. -/
def PayloadOk (h : List (Device × Act)) (s : Device) : Prop :=
  ∀ i, i < fileBufferNum → (s.fileBuf i).state ≠ .init →
    ∃ x ∈ handed h, Carries x.1 (s.fileBuf i).seq (s.fileBuf i).payload

instance (h : List (Device × Act)) (s : Device) : Decidable (PayloadOk h s) :=
  inferInstanceAs (Decidable (∀ i, i < fileBufferNum → (s.fileBuf i).state ≠ .init →
    ∃ x ∈ handed h, Carries x.1 (s.fileBuf i).seq (s.fileBuf i).payload))

/-- A packet is stored only if no datagram has changed the receive buffer since `UDPPacketProcess` was
called and the datagram is as long as it says; a slot is handed back only if no `ERASE_FLASH` has cleared
it, and `Download` zeroes only what is behind the payload in the slot. -/
def PayloadGuard (h : List (Device × Act)) (s : Device) (a : Act) : Prop :=
  s.HandsBackUsed a ∧ s.ZeroesBehind a ∧ ∀ p ∈ s.stores a,
    steady h = true ∧ ((datagram h).any fun x => payloadOffset + p.2.length ≤ x.1.length) = true

instance (h : List (Device × Act)) (s : Device) (a : Act) : Decidable (PayloadGuard h s a) :=
  inferInstanceAs (Decidable (_ ∧ _ ∧ ∀ p ∈ s.stores a, _))

variable {h : List (Device × Act)} {s s' : Device} {a : Act}

theorem CallInv.carries {d : List UInt8} {addr i q n : Nat} {l : List UInt8} (hd : CallInv h s d addr)
    (hpc : s.proc = .copy i q n l) (hn : ¬ l.length < n) (hst : steady h = true)
    (hlen : payloadOffset + l.length ≤ d.length) : Carries d q l := by
  have hread := hd.read hst
  rw [hpc] at hread
  obtain ⟨hc, hq, hdl, hle, hl⟩ := hread
  have hlen' : 18 + l.length ≤ d.length := hlen
  refine ⟨?_, ?_, ?_, hlen, ?_⟩
  · rw [← cmdCode_ofList hd.entry (by omega)]; exact hc
  · rw [hq]; exact packetIndex_ofList hd.entry (by omega)
  · rw [← dataLen_ofList hd.entry (Nat.le_trans (Nat.le_add_right _ _) hlen), ← hdl]; omega
  · rw [← read_ofList hd.entry hlen]; exact hl

theorem payloadOk_same (hI : PayloadOk h s) (hh : ∀ x ∈ handed h, x ∈ handed ((s, a) :: h))
    (hseq : ∀ i, (s'.fileBuf i).seq = (s.fileBuf i).seq)
    (hp : ∀ i, (s'.fileBuf i).payload = (s.fileBuf i).payload)
    (hu : ∀ i, (s'.fileBuf i).state ≠ .init → (s.fileBuf i).state ≠ .init) : PayloadOk ((s, a) :: h) s' := by
  intro i hi hne
  obtain ⟨x, hx, hc⟩ := hI i hi (hu i hne)
  exact ⟨x, hh x hx, by rw [hseq, hp]; exact hc⟩

theorem payloadOk_proc (hN : NetInv h s) (hI : PayloadOk h s) (hg : PayloadGuard h s .proc)
    (hr : s.resets .proc = false) (hp : s.procStep = some s') : PayloadOk ((s, .proc) :: h) s' := by
  have hh : handed ((s, .proc) :: h) = handed h := by rw [handed_cons hr]; exact List.append_nil _
  rcases procStep_fileBuf hp hr with ⟨-, -, hfb⟩ | ⟨-, i, q, n, l, hpc, hn, hs, hfb⟩ | ⟨-, -, hfb⟩
  · intro i _ hne
    rw [hfb] at hne
    exact absurd rfl hne
  · intro j hj hne
    rw [hh, hfb] at *
    by_cases hji : j = i
    · obtain ⟨hst, hany⟩ := hg.2.2 (q, l) hs
      obtain ⟨d, addr, hd⟩ := hN.call (by rw [hpc]; rfl)
      rw [hd.datagram] at hany
      refine ⟨_, hd.mem, ?_⟩
      rw [hji, FileBufs.store_payload, FileBufs.store, FileBufs.set_self]
      exact hd.carries hpc hn hst (by simpa using hany)
    · rw [FileBufs.store, FileBufs.set_of_ne hji] at hne ⊢
      exact hI j hj hne
  · exact payloadOk_same hI (fun x hx => by rw [hh]; exact hx) (fun i => by rw [hfb]) (fun i => by rw [hfb])
      fun i hi => by rwa [hfb] at hi

theorem payloadOk_next (hN : NetInv h s) (hI : PayloadOk h s) (hg : PayloadGuard h s a)
    (ha : step a s = some s') : PayloadOk ((s, a) :: h) s' := by
  cases step_cases ha with
  | reset e he hr hs => rw [hs]; exact fun i _ hne => absurd rfl hne
  | recv d addr hc hs =>
    have hh : ∀ x ∈ handed h, x ∈ handed ((s, .recv d addr) :: h) := fun x hx => by
      rw [handed_cons rfl]; exact List.mem_append_left _ hx
    rcases s.deliver_cases d addr with ⟨-, -, -, hs'⟩ | ⟨-, c, hs'⟩ <;> rw [hs, hs'] <;>
      exact payloadOk_same hI hh (fun _ => rfl) (fun _ => rfl) fun _ => id
  | proc hr hp => exact payloadOk_proc hN hI hg hr hp
  | upd hw hr hy hu =>
    have hsame := updStep_net hu hr
    exact payloadOk_same hI (fun x hx => by rw [handed_cons hr]; exact List.mem_append_left _ hx) hsame.seq
      (hsame.payload hg.2.1) (hsame.used hg.1)
  | other e n t m c hr h₁ h₂ h₃ hs =>
    rw [hs]
    exact payloadOk_same hI (fun x hx => by rw [handed_cons hr]; exact List.mem_append_left _ hx) (fun _ => rfl)
      (fun _ => rfl) fun _ => id

end Device

end Bootloader
