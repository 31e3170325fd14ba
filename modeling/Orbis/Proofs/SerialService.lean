import Orbis.Proofs.ConsoleBytes

/-!
# Servicing the serial line

A guest services the line by reading bytes for as long as the line status shows one, and by
identifying the interrupt once. Behind that nothing waits on either side, and this is kept by all
that the guest and the host can do short of a new byte: from the host, or sent by the guest while
it listens to the transmitter.
-/

namespace Orbis.Uart

variable {u : Uart}

/-! ### Identifying an interrupt -/

/-- The lowest bit is clear exactly while the line is up. -/
theorem getLsbD_zero_identification (u : Uart) :
    (u.identification.setWidth 32).getLsbD 0 = !u.interrupting := by
  unfold identification interrupting
  cases u.queuesEnabled <;> cases u.dataInterrupt <;> cases u.transmitterInterrupt <;> rfl

theorem source_identification (h : u.interrupting = true) :
    (u.identification.setWidth 32).extractLsb' 1 3 = if u.dataInterrupt then 0b010 else 0b001 := by
  unfold interrupting at h
  unfold identification
  generalize u.dataInterrupt = data, u.transmitterInterrupt = transmitter, u.queuesEnabled = queues
    at h
  revert data transmitter queues
  decide

/-! ### The loop of a guest -/

/-- The line without the bytes that wait for the guest. -/
def emptied (u : Uart) : Uart := { u with received := [] }

/-- A guest reads the line status, and a byte for as long as it shows one: the values that it reads
and the line behind the loop. -/
inductive Polls : Uart → List Word → Uart → Prop where
  | stop {u t : Uart} {status : Word} :
      u.loadAt .byte 5 = .ok (status, t) → status.getLsbD 0 = false → Polls u [] t
  | next {u s t r : Uart} {status v : Word} {vs : List Word} :
      u.loadAt .byte 5 = .ok (status, s) → status.getLsbD 0 = true →
      s.loadAt .byte 0 = .ok (v, t) → Polls t vs r → Polls u (v :: vs) r

theorem loadAt_lineStatus (u : Uart) :
    u.loadAt .byte 5 = .ok (u.lineStatus.setWidth 32, u) := rfl

theorem getLsbD_zero_lineStatus (u : Uart) :
    (u.lineStatus.setWidth 32).getLsbD 0 = !u.received.isEmpty := by
  unfold lineStatus
  cases u.received.isEmpty <;> rfl

theorem loadAt_data (hclosed : u.divisorOpen = false) :
    u.loadAt .byte 0 =
      .ok ((u.received.headD 0).setWidth 32, { u with received := u.received.tail }) := by
  change Except.ok (((u.load .data).1.setWidth 32), (u.load .data).2) = _
  rw [load, hclosed]
  rfl

theorem polls_emptied {bs : List Byte} (hclosed : u.divisorOpen = false) (hbs : u.received = bs) :
    u.Polls (bs.map (·.setWidth 32)) u.emptied := by
  -- A turn of the loop leaves the same line with the tail of the queue, so the induction is on it.
  induction bs generalizing u with
  | nil =>
    have hclear : (u.lineStatus.setWidth 32).getLsbD 0 = false := by
      rw [getLsbD_zero_lineStatus, hbs]
      rfl
    have hempty : u.emptied = u := by rw [emptied, ← hbs]
    rw [hempty]
    exact .stop u.loadAt_lineStatus hclear
  | cons b bs ih =>
    have hwaits : (u.lineStatus.setWidth 32).getLsbD 0 = true := by
      rw [getLsbD_zero_lineStatus, hbs]
      rfl
    have hload : u.loadAt .byte 0 = .ok (b.setWidth 32, { u with received := bs }) := by
      rw [loadAt_data hclosed, hbs]
      rfl
    have hrest : ({ u with received := bs } : Uart).Polls (bs.map (·.setWidth 32)) u.emptied :=
      ih hclosed rfl
    exact .next u.loadAt_lineStatus hwaits hload hrest

/-- The status and the bytes that the guest reads decide each turn of the loop. -/
theorem Polls.unique {vs vs' : List Word} {t t' : Uart} (h : u.Polls vs t) (h' : u.Polls vs' t') :
    vs = vs' ∧ t = t' := by
  induction h generalizing vs' with
  | stop hstatus hclear =>
    cases h' with
    | stop hstatus' _ =>
      cases hstatus.symm.trans hstatus'
      exact ⟨rfl, rfl⟩
    | next hstatus' hset =>
      cases hstatus.symm.trans hstatus'
      cases hclear.symm.trans hset
  | next hstatus hset hbyte _ ih =>
    cases h' with
    | stop hstatus' hclear =>
      cases hstatus.symm.trans hstatus'
      cases hset.symm.trans hclear
    | next hstatus' _ hbyte' hrest =>
      cases hstatus.symm.trans hstatus'
      cases hbyte.symm.trans hbyte'
      obtain ⟨rfl, rfl⟩ := ih hrest
      exact ⟨rfl, rfl⟩

/-- The loop takes the waiting bytes, in their order, and no more. -/
theorem polls_iff (hclosed : u.divisorOpen = false) (vs : List Word) (t : Uart) :
    u.Polls vs t ↔ vs = u.received.map (·.setWidth 32) ∧ t = u.emptied := by
  constructor
  · exact fun h => h.unique (polls_emptied hclosed rfl)
  · rintro ⟨rfl, rfl⟩
    exact polls_emptied hclosed rfl

/-! ### Operations behind the service -/

/-- What the guest and the host can do with the line. -/
inductive Operation where
  | load (w : Width) (offset : Word)
  | store (w : Width) (offset v : Word)
  | receive (keys : List Byte)
  | read
  | drain

/-- The line after an operation; an access that fails leaves it as it was. -/
def Operation.perform (u : Uart) : Operation → Uart
  | load w offset => ((u.loadAt w offset).map Prod.snd).toOption.getD u
  | store w offset v => (u.storeAt w offset v).toOption.getD u
  | receive keys => u.receive keys
  | read => u.read?.2
  | drain => u.drain.2

def performAll (u : Uart) (ops : List Operation) : Uart := ops.foldl Operation.perform u

/-- Whether an operation gives the line a new byte to report: a key, or a byte that the guest sends
while it listens to the transmitter. -/
def Operation.disturbs (u : Uart) : Operation → Bool
  | store .byte offset _ => decide (offset = 0) && !u.divisorOpen && u.enables.getLsbD 1
  | receive keys => !keys.isEmpty
  | _ => false

/-- None of some operations in a row disturbs the line that it meets. -/
def quiet (u : Uart) : List Operation → Bool
  | [] => true
  | op :: ops => !op.disturbs u && (op.perform u).quiet ops

/-- Nothing waits for the guest, and the transmitter has nothing to report. -/
structure Settled (u : Uart) : Prop where
  received : u.received = []
  transmitter : u.transmitterEmptied = false

theorem transmitterEmptied_load (h : u.transmitterEmptied = false) (r : Register) :
    (u.load r).2.transmitterEmptied = false := by
  cases r with
  | data => cases hopen : u.divisorOpen <;> simp [load, hopen, h]
  | identification => rfl
  | _ => exact h

theorem transmitterEmptied_store (u : Uart) (r : Register) (b : Byte) :
    (u.store r b).transmitterEmptied =
      if r = .data ∧ u.divisorOpen = false then u.enables.getLsbD 1 else u.transmitterEmptied := by
  cases r with
  | data | interruptEnable => cases hopen : u.divisorOpen <;> simp [store, hopen]
  | _ => rfl

namespace Settled

theorem interrupting (h : u.Settled) : u.interrupting = false := by
  rw [Uart.interrupting, dataInterrupt, transmitterInterrupt, h.received, h.transmitter,
    Bool.and_false]
  rfl

theorem load (h : u.Settled) (r : Register) : (u.load r).2.Settled where
  received := by
    have hqueue := u.received_load r
    rw [h.received] at hqueue
    exact (List.append_eq_nil_iff.mp hqueue).2
  transmitter := transmitterEmptied_load h.transmitter r

theorem store (h : u.Settled) {r : Register} (b : Byte)
    (hquiet : r = .data → u.divisorOpen = false → u.enables.getLsbD 1 = false) :
    (u.store r b).Settled where
  received := (u.received_store r b).trans h.received
  transmitter := by
    rw [transmitterEmptied_store]
    split
    next hsends => exact hquiet hsends.1 hsends.2
    next => exact h.transmitter

theorem perform (h : u.Settled) {op : Operation} (hquiet : op.disturbs u = false) :
    (op.perform u).Settled := by
  cases op with
  | load w offset =>
    cases w with
    | byte => exact h.load _
    | half | word => exact h
  | store w offset v =>
    cases w with
    | byte =>
      refine h.store _ fun hdata hclosed => ?_
      rw [Register.ofOffset_eq_data_iff] at hdata
      simpa [Operation.disturbs, hdata, hclosed] using hquiet
    | half | word => exact h
  | receive keys =>
    have hkeys : keys = [] := by simpa [Operation.disturbs] using hquiet
    rw [hkeys, Operation.perform, receive, List.append_nil]
    exact h
  | read | drain => exact ⟨h.received, h.transmitter⟩

theorem performAll {ops : List Operation} (h : u.Settled) (hquiet : u.quiet ops = true) :
    (u.performAll ops).Settled := by
  induction ops generalizing u with
  | nil => exact h
  | cons op ops ih =>
    obtain ⟨hop, hops⟩ := Bool.and_eq_true_iff.mp hquiet
    exact ih (h.perform (by simpa using hop)) hops

end Settled

/-- While the divisor is out of the way, the identification register tells whether the line is up
and for which source, and the loop of the guest reads the waiting bytes, each once and in their
order. One more read of the identification register then takes the line down, whatever is enabled
and whatever the transmitter had to report. It stays down, also over changes of what is enabled and
of the divisor latch, until a key is pressed, or the guest sends a byte while it listens to the
transmitter. -/
theorem service_lowers_line (u : Uart) (hclosed : u.divisorOpen = false) :
    (∃ v, u.loadAt .byte 2 = .ok (v, { u with transmitterEmptied := false }) ∧
      (u.interrupting = true ↔ v.getLsbD 0 = false) ∧
      (u.interrupting = true → v.extractLsb' 1 3 = if u.dataInterrupt then 0b010 else 0b001)) ∧
    (∀ vs t, u.Polls vs t ↔ vs = u.received.map (·.setWidth 32) ∧ t = u.emptied) ∧
    ∃ v t, u.emptied.loadAt .byte 2 = .ok (v, t) ∧ t.interrupting = false ∧
      ∀ ops, t.quiet ops = true → (t.performAll ops).interrupting = false := by
  refine ⟨⟨u.identification.setWidth 32, rfl, ?_, source_identification⟩, polls_iff hclosed,
    ⟨u.emptied.identification.setWidth 32, { u.emptied with transmitterEmptied := false }, rfl, ?_⟩⟩
  · rw [getLsbD_zero_identification, Bool.not_eq_false']
  · have hsettled : Settled { u.emptied with transmitterEmptied := false } := ⟨rfl, rfl⟩
    exact ⟨hsettled.interrupting, fun ops hquiet => (hsettled.performAll hquiet).interrupting⟩

/-- Two bytes wait and the transmitter has emptied. Behind the service the guest opens the divisor
latch, writes the divisor where it sends otherwise, closes the latch, and prints while it listens to
keys alone. -/
theorem service_lowers_line_over_divisor :
    let u : Uart :=
      { initial with received := [0x61, 0x62], enables := 0b11, transmitterEmptied := true }
    let ops : List Operation :=
      [.store .byte 3 0x83, .store .byte 0 0x0c, .store .byte 1 0x01, .store .byte 3 0x03,
        .store .byte 1 0b01, .store .byte 0 0x21, .drain, .load .word 0]
    u.Polls [0x61, 0x62] u.emptied ∧
    (∃ v, u.loadAt .byte 2 = .ok (v, { u with transmitterEmptied := false }) ∧
      v.getLsbD 0 = false ∧ v.extractLsb' 1 3 = 0b010) ∧
    ∃ v t, u.emptied.interrupting = true ∧ u.emptied.loadAt .byte 2 = .ok (v, t) ∧
      (t.performAll ops).enables = 0b01 ∧ (t.performAll ops).interrupting = false := by
  intro u ops
  have hclosed : u.divisorOpen = false := by decide
  obtain ⟨⟨v, hload, hup, hsource⟩, hpolls, w, t, hsettle, -, hstays⟩ :=
    u.service_lowers_line hclosed
  have hline : u.interrupting = true := by decide
  have hdata : u.dataInterrupt = true := by decide
  rw [if_pos hdata] at hsource
  refine ⟨(hpolls _ _).mpr ⟨rfl, rfl⟩, ⟨v, hload, hup.mp hline, hsource hline⟩, w, t, by decide,
    hsettle, ?_⟩
  cases hsettle
  exact ⟨by decide, hstays ops (by decide)⟩

end Orbis.Uart
