import Orbis.Proofs.PreciseFaults
import Orbis.Proofs.UserAccess

/-!
# The bytes of the console

Keys reach the guest, and printed bytes reach the host, each exactly once and in order. The queues
of the serial line are balanced against the history: what a step delivers, prints or takes is read
off the accesses that it completes and the calls that it answers, so nothing else touches a queue.
-/

namespace Orbis

/-! ### The queues of the serial line -/

namespace Uart

theorem Register.ofOffset_eq_data_iff (offset : Word) :
    Register.ofOffset offset = .data ↔ offset = 0 := by
  rw [← BitVec.toNat_inj]
  unfold Register.ofOffset
  split <;> simp_all

variable (u : Uart) (r : Register)

theorem received_load :
    (if r = .data ∧ u.divisorOpen = false ∧ u.received ≠ [] then [(u.load r).1] else []) ++
      (u.load r).2.received = u.received := by
  cases r with
  | data =>
    cases hopen : u.divisorOpen with
    | true => simp [load, hopen]
    | false => cases hreceived : u.received <;> simp [load, hopen, hreceived]
  | _ => rfl

theorem sent_load : (u.load r).2.sent = u.sent := by
  cases r with
  | data => cases hopen : u.divisorOpen <;> simp [load, hopen]
  | _ => rfl

theorem received_store (b : Byte) : (u.store r b).received = u.received := by
  cases r with
  | data | interruptEnable => cases hopen : u.divisorOpen <;> simp [store, hopen]
  | _ => rfl

theorem sent_store (b : Byte) :
    (u.store r b).sent.toList =
      u.sent.toList ++ if r = .data ∧ u.divisorOpen = false then [b] else [] := by
  cases r with
  | data | interruptEnable => cases hopen : u.divisorOpen <;> simp [store, hopen]
  | _ => simp [store]

end Uart

namespace Bus

theorem uart_loadImage {b b' : Bus} {image : ByteArray} {offset : Word}
    (h : b.loadImage image offset = .ok b') : b'.uart = b.uart := by
  unfold loadImage at h
  cases hl : b.ram.loadImage image offset with
  | error e =>
    rw [hl] at h
    cases h
  | ok r =>
    rw [hl] at h
    cases h
    rfl

theorem ofOffset_eq_data_iff (a : Word) :
    Uart.Register.ofOffset (a - uartBase) = .data ↔ a = uartBase := by
  rw [Uart.Register.ofOffset_eq_data_iff]
  constructor
  · intro h
    bv_omega
  · intro h
    bv_omega

theorem ne_uartBase_of_isRam {a : Word} (h : isRam a = true) : a ≠ uartBase := by
  rintro rfl
  cases h

end Bus

/-! ### Moving bytes -/

/-- What a step has to do with the devices: an access to the bus at its physical address, with the
datum that it gave or took, or a call of the console. -/
inductive Traffic where
  | none
  | load (w : Width) (a v : Word)
  | store (w : Width) (a v : Word)
  | press (keys : List Byte)
  | take (bytes : List Byte)
  deriving DecidableEq

namespace Traffic

def pressed : Traffic → List Byte
  | press keys => keys
  | _ => []

def taken : Traffic → List Byte
  | take bytes => bytes
  | _ => []

/-- The byte that the guest gets from the queue: by a byte load at the first register, with the
divisor latch closed and a byte waiting. -/
def delivered (u : Uart) : Traffic → List Byte
  | load .byte a v =>
    if a = Bus.uartBase ∧ u.divisorOpen = false ∧ u.received ≠ [] then [v.setWidth 8] else []
  | _ => []

/-- The byte that the guest prints: by a byte store at the first register, with the divisor latch
closed. -/
def printed (u : Uart) : Traffic → List Byte
  | store .byte a v => if a = Bus.uartBase ∧ u.divisorOpen = false then [v.setWidth 8] else []
  | _ => []

/-- The queues balance: a byte that has left one of them was delivered or taken, and a byte that has
entered one was pressed or printed. -/
structure Balances (t : Traffic) (u u' : Uart) : Prop where
  received : t.delivered u ++ u'.received = u.received ++ t.pressed
  sent : t.taken ++ u'.sent.toList = u.sent.toList ++ t.printed u

variable {b b' : Bus} {w : Width} {a v x : Word}

theorem none_balances (u : Uart) : none.Balances u u :=
  ⟨by simp [delivered, pressed], by simp [taken, printed]⟩

theorem press_balances (u : Uart) (keys : List Byte) : (press keys).Balances u (u.receive keys) :=
  ⟨rfl, by simp [taken, printed, Uart.receive]⟩

theorem read_balances (u : Uart) : (take u.read?.1.toList).Balances u u.read?.2 := by
  constructor
  · simp [delivered, pressed, Uart.read?]
  · obtain ⟨bytes, hsent⟩ : ∃ bytes, u.sent = ⟨bytes⟩ := ⟨_, rfl⟩
    cases bytes <;> simp [taken, printed, Uart.read?, hsent]

theorem drain_balances (u : Uart) : (take u.drain.1.toList).Balances u u.drain.2 := by
  constructor
  · simp [delivered, pressed, Uart.drain]
  · simp [taken, printed, Uart.drain]

-- The datum may have been extended since the bus gave it, but its low byte is the one delivered.
theorem load_balances (h : b.load w a = .ok (x, b'))
    (hv : w = .byte → v.setWidth 8 = x.setWidth 8) : (load w a v).Balances b.uart b'.uart := by
  rcases Bus.load_cases h with ⟨hram, rfl, -⟩ | ⟨rfl, rfl, rfl⟩
  · have hne := Bus.ne_uartBase_of_isRam hram
    cases w <;> exact ⟨by simp [delivered, pressed, hne], by simp [taken, printed]⟩
  · constructor
    · have hqueue := b.uart.received_load (.ofOffset (a - Bus.uartBase))
      simp only [Bus.ofOffset_eq_data_iff] at hqueue
      simp only [delivered, pressed, hv rfl, List.append_nil]
      simpa using hqueue
    · rw [Uart.sent_load]
      simp [taken, printed]

theorem store_balances (h : b.store w a v = .ok b') : (store w a v).Balances b.uart b'.uart := by
  rcases Bus.store_cases h with ⟨hram, r, rfl, -⟩ | ⟨rfl, rfl⟩
  · have hne := Bus.ne_uartBase_of_isRam hram
    cases w <;> exact ⟨by simp [delivered, pressed], by simp [taken, printed, hne]⟩
  · constructor
    · rw [Uart.received_store]
      simp [delivered, pressed]
    · rw [Uart.sent_store, ← BitVec.setWidth_eq_extractLsb' (by decide)]
      simp only [Bus.ofOffset_eq_data_iff]
      rfl

/-- The bus goes from one state to another just as its traffic says. -/
inductive Moves : Traffic → Bus → Bus → Prop
  | none (b : Bus) : Moves none b b
  | load {b b' : Bus} {w : Width} {a v x : Word} (h : b.load w a = .ok (x, b'))
      (hv : w = .byte → v.setWidth 8 = x.setWidth 8) : Moves (load w a v) b b'
  | store {b b' : Bus} {w : Width} {a v : Word} (h : b.store w a v = .ok b') :
      Moves (store w a v) b b'
  | press (b : Bus) (keys : List Byte) :
      Moves (press keys) b { b with uart := b.uart.receive keys }
  | read (b : Bus) : Moves (take b.uart.read?.1.toList) b { b with uart := b.uart.read?.2 }
  | drain (b : Bus) : Moves (take b.uart.drain.1.toList) b { b with uart := b.uart.drain.2 }

theorem Moves.balances {t : Traffic} (h : t.Moves b b') : t.Balances b.uart b'.uart := by
  cases h with
  | none => exact none_balances _
  | load h hv => exact load_balances h hv
  | store h => exact store_balances h
  | press b keys => exact press_balances _ keys
  | read => exact read_balances _
  | drain => exact drain_balances _

end Traffic

/-! ### The traffic of a session -/

/-- Calls that put an image into memory, past the bus. -/
def Call.Places : Call → Prop
  | loadImage _ _ | place _ _ => True
  | _ => False

namespace Cpu

/-! Accesses that have completed, at their physical addresses. -/

def loadTraffic (c : Cpu) (op : LoadOp) (a v : Word) : Traffic :=
  match c.dmmu.resolve a c.privilege .read with
  | .ok physical => .load op.width physical v
  | .error _ => .none

def storeTraffic (c : Cpu) (op : StoreOp) (a v : Word) : Traffic :=
  match c.dmmu.resolve a c.privilege .write with
  | .ok physical => .store op.width physical v
  | .error _ => .none

def cycleTraffic (c : Cpu) : Traffic :=
  match c.issued? with
  | some (.load op r x k) => c.loadTraffic op (c.displaced x k) (c.cycle.1.reg r)
  | some (.store op x y k) => c.storeTraffic op (c.displaced x k) (c.reg y)
  | _ => .none

end Cpu

def Step.traffic (c : Cpu) : Step → Traffic
  | .cycle => if c.cycle.2 = none then c.cycleTraffic else .none
  | .call (.load op a) (.loaded (.ok v)) => c.loadTraffic op a v
  | .call (.store op a v) (.stored (.ok ())) => c.storeTraffic op a v
  | .call (.peek w a) (.loaded (.ok v)) => .load w a v
  | .call (.poke w a v) (.stored (.ok ())) => .store w a v
  | .call (.press keys) _ => .press keys
  | .call .take (.byte b) => .take b.toList
  | .call .drain (.bytes bs) => .take bs.toList
  | _ => .none

namespace Cpu

variable {c d : Cpu} {i : Instruction} {f : Flow} {op : LoadOp} {sop : StoreOp} {a v : Word}

theorem extend_setWidth (op : LoadOp) (x : Word) (h : op.width = .byte) :
    (op.extend x).setWidth 8 = x.setWidth 8 := by
  cases op with
  | lbz => rfl
  | lbs => exact Word.setWidth_signExtend _ (by decide)
  | _ => cases h

theorem load_moves (h : c.Coherent) (hl : c.load op a = (.ok v, d)) :
    (c.loadTraffic op a v).Moves c.bus d.bus := by
  obtain ⟨physical, u, hresolve, hbus, rfl⟩ := load_resolves h hl
  rw [loadTraffic, hresolve]
  exact .load hbus (extend_setWidth op u)

theorem store_moves (hs : c.store sop a v = (.ok (), d)) :
    (c.storeTraffic sop a v).Moves c.bus d.bus := by
  obtain ⟨physical, hresolve, hbus⟩ := store_resolves hs
  rw [storeTraffic, hresolve]
  exact .store hbus

/-! ### What leaves the bus alone -/

theorem bus_writeSpr (c : Cpu) (r : Spr) (v : Word) : (c.writeSpr r v).bus = c.bus := by
  obtain ⟨_, _, _, _, _, _, _, hframe⟩ := c.writeSpr_frame r v
  rw [hframe]

theorem Effect.bus_eq (h : c.Effect i d f) (hf : f ≠ .next ∨ c.accessAddress? i = none) :
    d.bus = c.bus := by
  cases h with
  | load | store => exact absurd hf (by simp [accessAddress?])
  | transfer => split <;> rfl
  | mtspr | mtsprTick => exact c.bus_writeSpr _ _
  | _ => rfl

theorem bus_follow (c : Cpu) (f : Flow) : (c.follow f).1.bus = c.bus := by
  cases f <;> rfl

/-- A cycle that fails, or whose instruction makes no access, leaves the bus alone. -/
theorem bus_cycle (h : c.cycle.2 ≠ none ∨ ∀ i, c.issued? = some i → c.accessAddress? i = none) :
    c.cycle.1.bus = c.bus := by
  have hfollow : c.cycle.1.bus = c.attempt.1.bus := bus_follow _ _
  rw [hfollow]
  cases hi : c.issued? with
  | none =>
    obtain ⟨e, -, hattempt⟩ := attempt_of_not_issued hi
    obtain ⟨memo, last, s, hframe⟩ := c.issue_frame
    rw [hattempt, hframe]
  | some i =>
    obtain ⟨memo, last, s, hframe⟩ := c.fetched_frame
    have heffect := c.fetched.execute_effect i
    rw [attempt_of_issued hi, heffect.bus_eq, hframe]
    rcases h with hstop | hnone
    · refine .inl fun hnext => hstop ?_
      rw [show c.cycle.2 = (c.attempt.1.follow c.attempt.2).2 from rfl, attempt_of_issued hi, hnext]
      rfl
    · exact .inr ((c.accessAddress?_fetched i).trans (hnone i hi))

theorem cycle_moves (hc : c.Coherent) : (Step.cycle.traffic c).Moves c.bus c.cycle.1.bus := by
  by_cases hn : c.cycle.2 = none
  · obtain ⟨memo, last, s, hframe⟩ := c.fetched_frame
    have hfetched := hc.fetched
    rw [hframe] at hfetched
    -- Instructions without an access have no traffic either.
    have hnone (h : ∀ i, c.issued? = some i → c.accessAddress? i = none) :
        Traffic.none.Moves c.bus c.cycle.1.bus := by
      rw [bus_cycle (.inr h)]
      exact .none _
    rw [Step.traffic, if_pos hn, cycleTraffic]
    cases hi : c.issued? with
    | none => exact hnone (by simp [hi])
    | some i =>
      cases i with
      | load op r x k =>
        obtain ⟨f, hl, hbus⟩ := load_of_cycle hi hn
        rw [hframe] at hl
        have hmoves := load_moves hfetched hl
        rw [hbus]
        exact hmoves
      | store op x y k =>
        obtain ⟨f, hs, hbus⟩ := store_of_cycle hi hn
        rw [hframe] at hs
        have hmoves := store_moves hs
        rw [hbus]
        exact hmoves
      | _ =>
        refine hnone fun i hi' => ?_
        cases hi.symm.trans hi'
        rfl
  · rw [Step.traffic, if_neg hn, bus_cycle (.inl hn)]
    exact .none _

theorem bus_of_load_error {e : Exception} (h : c.load op a = (.error e, d)) : d.bus = c.bus := by
  unfold load at h
  generalize c.dmmu.load c.bus op.width a c.privilege = l at h
  obtain ⟨r, m⟩ := l
  cases r with
  | ok r => cases h
  | error e' =>
    cases h
    rfl

theorem bus_of_store_error {e : Exception} (h : c.store sop a v = (.error e, d)) :
    d.bus = c.bus := by
  unfold store at h
  generalize c.dmmu.store c.bus sop.width a c.privilege v = l at h
  obtain ⟨r, m⟩ := l
  cases r with
  | ok r => cases h
  | error e' =>
    cases h
    rfl

theorem call_moves (hc : c.Coherent) {k : Call} (hk : ¬k.Places) :
    ((Step.call k (c.answer k).1).traffic c).Moves c.bus (c.answer k).2.bus := by
  cases k with
  | load op a =>
    cases hl : c.load op a with
    | mk r d =>
      simp only [answer, hl]
      cases r with
      | ok v => exact load_moves hc hl
      | error e =>
        rw [bus_of_load_error hl]
        exact .none _
  | store op a v =>
    cases hs : c.store op a v with
    | mk r d =>
      simp only [answer, hs]
      cases r with
      | ok u => exact store_moves hs
      | error e =>
        rw [bus_of_store_error hs]
        exact .none _
  | peek w a =>
    simp only [answer]
    cases hl : c.bus.load w a with
    | ok r => exact .load hl fun _ => rfl
    | error e => exact .none _
  | poke w a v =>
    simp only [answer]
    cases hs : c.bus.store w a v with
    | ok b => exact .store hs
    | error e => exact .none _
  | press keys => exact .press _ keys
  | take => exact .read _
  | drain => exact .drain _
  | setSpr a v =>
    simp only [answer, setSpr, bus_writeSpr]
    exact .none _
  | loadImage | place => exact absurd trivial hk
  | _ => exact .none _

theorem uart_of_places {k : Call} (hk : k.Places) : (c.answer k).2.bus.uart = c.bus.uart := by
  cases k with
  | loadImage image pc =>
    simp only [answer, hosted, Simulator.loadImage]
    cases himage : c.reset.bus.loadImage image 0 with
    | ok b => exact Bus.uart_loadImage himage
    | error e => rfl
  | place image offset =>
    simp only [answer]
    cases himage : c.bus.loadImage image offset with
    | ok b => exact Bus.uart_loadImage himage
    | error e => rfl
  | _ => exact hk.elim

theorem call_balances (hc : c.Coherent) (k : Call) :
    ((Step.call k (c.answer k).1).traffic c).Balances c.bus.uart (c.answer k).2.bus.uart := by
  by_cases hk : k.Places
  · have hnone : (Step.call k (c.answer k).1).traffic c = .none := by
      cases k with
      | loadImage | place => rfl
      | _ => exact hk.elim
    rw [hnone, uart_of_places hk]
    exact Traffic.none_balances _
  · exact (call_moves hc hk).balances

end Cpu

theorem Step.balances {allowed : Call → Prop} {c : Cpu} {step : Step} (hc : c.Coherent)
    (hs : step.Possible allowed c) :
    (step.traffic c).Balances c.bus.uart (step.after c).bus.uart := by
  cases step with
  | call k r =>
    rw [hs.2]
    exact Cpu.call_balances hc k
  | cycle => exact (Cpu.cycle_moves hc).balances
  | sample | interrupt | settle => exact Traffic.none_balances _

/-- The bytes that the steps of a history have moved in one way, the oldest first. -/
def History.bytes (moved : Uart → Traffic → List Byte) : History → List Byte
  | [] => []
  | (c, step) :: past => History.bytes moved past ++ moved c.bus.uart (step.traffic c)

/-- All bytes are accounted for over a whole history. -/
theorem Recorded.balances {allowed : Call → Prop} {past : History} {c : Cpu}
    (h : Recorded allowed .initial past c) :
    past.bytes Traffic.delivered ++ c.bus.uart.received = past.bytes (fun _ => Traffic.pressed) ∧
      past.bytes (fun _ => Traffic.taken) ++ c.bus.uart.sent.toList =
        past.bytes Traffic.printed := by
  induction h with
  | start => exact ⟨rfl, rfl⟩
  | @push past c step h hs ih =>
    have hstep := Step.balances (h.coherent (.reset _)) hs
    obtain ⟨hreceived, hsent⟩ := ih
    constructor
    · rw [History.bytes, History.bytes, List.append_assoc, hstep.received, ← List.append_assoc,
        hreceived]
    · rw [History.bytes, History.bytes, List.append_assoc, hstep.sent, ← List.append_assoc, hsent]

/-- The console neither loses nor repeats nor reorders bytes. Whatever a host and its guest do, the
keys that the guest has read, with those that wait, are the keys that were pressed, and the bytes
that the host has taken, with those that wait, are the bytes that the guest has printed. No step
changes a queue but by moving a byte of it. -/
theorem Session.console_keeps_bytes (as : List Action) :
    let s := (Session.start .initial).performAll .real as
    s.past.bytes Traffic.delivered ++ s.now.bus.uart.received =
      s.past.bytes (fun _ => Traffic.pressed) ∧
    s.past.bytes (fun _ => Traffic.taken) ++ s.now.bus.uart.sent.toList =
      s.past.bytes Traffic.printed ∧
    (s.now.hosted.canRead = true ↔
      s.past.bytes (fun _ => Traffic.taken) ≠ s.past.bytes Traffic.printed) ∧
    ∀ (c : Cpu) (step : Step) (older : History), (c, step) :: older <:+ s.past →
      let t := step.traffic c
      (t.pressed = [] → t.delivered c.bus.uart = [] →
        (step.after c).bus.uart.received = c.bus.uart.received) ∧
      (t.taken = [] → t.printed c.bus.uart = [] →
        (step.after c).bus.uart.sent = c.bus.uart.sent) := by
  intro s
  have hrecorded : Recorded (fun _ => True) .initial s.past s.now :=
    Recorded.performAll (s := Session.start .initial) .start fun _ _ => trivial
  obtain ⟨hreceived, hsent⟩ := hrecorded.balances
  refine ⟨hreceived, hsent, ?_, ?_⟩
  · rw [← hsent]
    simp [Simulator.canRead, Uart.canRead, Simulator.uart, Cpu.hosted]
  · intro c step older hmoment t
    obtain ⟨hc, hpossible⟩ := hrecorded.of_suffix hmoment
    have hstep := Step.balances (hc.coherent (.reset _)) hpossible
    constructor
    · intro hpressed hdelivered
      have h := hstep.received
      rwa [hpressed, hdelivered, List.nil_append, List.append_nil] at h
    · intro htaken hprinted
      have h := hstep.sent
      rw [htaken, hprinted, List.nil_append, List.append_nil] at h
      exact Array.toList_inj.mp h

/-- A program that echoes a key, opens the divisor latch and writes to the divisor, and a host that
presses keys and takes a byte around it. -/
def echoing : List Action :=
  [(0, .load .lbz 5 1 0), (4, .store .sb 1 5 0), (8, .store .sb 1 2 3), (12, .store .sb 1 5 0)].map
      (fun (a, i) => .call (.poke .word a (Instruction.encode i))) ++
    [.call (.setReg 1 0x90000000), .call (.setReg 2 0x83), .call (.press [0x61, 0x62]), .run 4,
      .call .take, .call .reset, .call (.press [0x63])]

/-- The echo comes back once, the other keys wait, and the divisor is not printed. -/
theorem Session.console_keeps_bytes_echo :
    let s := (Session.start .initial).performAll .real echoing
    s.past.bytes Traffic.delivered = [0x61] ∧ s.now.bus.uart.received = [0x62, 0x63] ∧
    s.past.bytes Traffic.printed = [0x61] ∧ s.now.hosted.canRead = false ∧
    ∃ (c : Cpu) (older : History), (c, .cycle) :: older <:+ s.past ∧
      Step.cycle.traffic c = .store .byte Bus.uartBase 0x61 ∧
      c.cycle.1.bus.uart.sent = c.bus.uart.sent := by
  have h := Session.console_keeps_bytes echoing
  have hfacts :
      let s := (Session.start .initial).performAll .real echoing
      s.past.bytes Traffic.delivered = [0x61] ∧ s.past.bytes Traffic.printed = [0x61] ∧
        s.past.bytes (fun _ => Traffic.pressed) = [0x61, 0x62, 0x63] ∧
        s.past.bytes (fun _ => Traffic.taken) = [0x61] := by
    decide +kernel
  obtain ⟨c, older, hmoment, hwrite⟩ := History.exists_cycle
    ((Session.start .initial).performAll .real echoing).past 4
    (fun c _ => Step.cycle.traffic c = .store .byte Bus.uartBase 0x61 ∧
      c.bus.uart.divisorOpen = true)
    (by decide +kernel)
  generalize (Session.start .initial).performAll .real echoing = s at h hfacts hmoment ⊢
  dsimp only at h hfacts ⊢
  obtain ⟨hdelivered, hprinted, hpressed, htaken⟩ := hfacts
  obtain ⟨hreceived, -, hcanRead, hkept⟩ := h
  obtain ⟨htraffic, hopen⟩ := of_decide_eq_true hwrite
  rw [hdelivered, hpressed] at hreceived
  rw [htaken, hprinted] at hcanRead
  refine ⟨hdelivered, (List.cons.inj hreceived).2, hprinted, ?_, c, older, hmoment, htraffic, ?_⟩
  · exact Bool.eq_false_iff.mpr fun hcan => hcanRead.mp hcan rfl
  · apply (hkept c .cycle older hmoment).2
    · rw [htraffic]
      rfl
    · rw [htraffic]
      exact if_neg fun hclosed => Bool.false_ne_true (hclosed.2.symm.trans hopen)

end Orbis
