import Orbis.Proofs.Counters
import Orbis.Proofs.RamBytes

/-!
# Twins

Twins are machines that differ in their counters and in their buses, of which no access tells one
from the other. Whatever happens to both, they answer alike and remain twins. Buses of this kind are
equal ones, and ones with equal devices whose memories hold the same bytes.
-/

namespace Orbis

/-- Two results are the same error, or values that are related. -/
inductive Matches {ε α : Type} (R : α → α → Prop) : Except ε α → Except ε α → Prop
  | ok {a a' : α} (h : R a a') : Matches R (.ok a) (.ok a')
  | error (e : ε) : Matches R (.error e) (.error e)

theorem Matches.bind {ε α β : Type} {R : α → α → Prop} (x : Except ε β) {f g : β → Except ε α}
    (h : ∀ v, Matches R (f v) (g v)) : Matches R (x.bind f) (x.bind g) := by
  cases x with
  | ok v => exact h v
  | error e => exact .error e

namespace Bus

/-- The answers of two loads: the same datum, and related buses. -/
inductive SameDatum (S : Bus → Bus → Prop) : Word × Bus → Word × Bus → Prop
  | mk (v : Word) {b b' : Bus} (h : S b b') : SameDatum S (v, b) (v, b')

/-- Whatever a guest does to two related buses, the answers agree and they remain related. -/
structure GuestBisimulation (S : Bus → Bus → Prop) : Prop where
  interrupts {b b' : Bus} (h : S b b') : b'.interrupts = b.interrupts
  load {b b' : Bus} (h : S b b') (w : Width) (a : Word) :
    Matches (SameDatum S) (b.load w a) (b'.load w a)
  store {b b' : Bus} (h : S b b') (w : Width) (a v : Word) :
    Matches S (b.store w a v) (b'.store w a v)

/-- A host cannot tell two related buses apart by their serial lines, and keeps them related. -/
structure Bisimulation (S : Bus → Bus → Prop) : Prop extends GuestBisimulation S where
  uart {b b' : Bus} (h : S b b') : b'.uart = b.uart
  setUart {b b' : Bus} (h : S b b') (u : Uart) : S { b with uart := u } { b' with uart := u }
  loadImage {b b' : Bus} (h : S b b') (image : ByteArray) (offset : Word) :
    Matches S (b.loadImage image offset) (b'.loadImage image offset)

theorem GuestBisimulation.eq : GuestBisimulation (@Eq Bus) where
  interrupts h := h ▸ rfl
  load {b b'} h w a := by
    subst h
    cases b.load w a with
    | ok r => exact .ok (.mk r.1 rfl)
    | error e => exact .error e
  store {b b'} h w a v := by
    subst h
    cases b.store w a v with
    | ok b => exact .ok rfl
    | error e => exact .error e

/-- Buses with equal devices whose memories hold the same bytes. -/
structure Same (b b' : Bus) : Prop where
  uart : b'.uart = b.uart
  byte : ∀ j, j < ramSize → b'.ram.byte j = b.ram.byte j

namespace Same

variable {b b' : Bus}

theorem load (h : Same b b') (w : Width) (a : Word) :
    Matches (SameDatum Same) (b.load w a) (b'.load w a) := by
  by_cases hram : isRam a = true
  · rw [load_of_isRam hram, load_of_isRam hram, Ram.load, Ram.load]
    split
    · next hin =>
      have hread : b'.ram.read w a.toNat = b.ram.read w a.toNat :=
        Ram.read_congr fun j _ hj => h.byte j (Nat.lt_of_lt_of_le hj hin)
      rw [hread]
      exact .ok (.mk _ h)
    · exact .error _
  · unfold Bus.load route?
    rw [if_neg hram, h.uart]
    by_cases hline : uartBase ≤ a ∧ a ≤ uartEnd
    · simp only [if_pos hline]
      cases b.uart.loadAt w (a - uartBase) with
      | ok r => exact .ok (.mk r.1 ⟨rfl, h.byte⟩)
      | error e => exact .error e
    · simp only [if_neg hline]
      exact .error _

theorem store (h : Same b b') (w : Width) (a v : Word) :
    Matches Same (b.store w a v) (b'.store w a v) := by
  by_cases hram : isRam a = true
  · rw [store_of_isRam hram, store_of_isRam hram, Ram.store, Ram.store]
    split
    · next hin =>
      refine .ok ⟨h.uart, fun j hj => ?_⟩
      simp only [Ram.byte_write _ _ _ hin hj, h.byte j hj]
    · exact .error _
  · unfold Bus.store route?
    rw [if_neg hram, h.uart]
    by_cases hline : uartBase ≤ a ∧ a ≤ uartEnd
    · simp only [if_pos hline]
      cases b.uart.storeAt w (a - uartBase) v with
      | ok u => exact .ok ⟨rfl, h.byte⟩
      | error e => exact .error e
    · simp only [if_neg hline]
      exact .error _

theorem loadImage (h : Same b b') (image : ByteArray) (offset : Word) :
    Matches Same (b.loadImage image offset) (b'.loadImage image offset) := by
  unfold Bus.loadImage Ram.loadImage
  split
  · exact .error _
  · split
    · exact .error _
    · next hin =>
      refine .ok ⟨h.uart, fun j hj => ?_⟩
      simp only [Ram.byte_copy _ image (Nat.le_of_not_lt hin) hj, h.byte j hj]

theorem guestBisimulation : GuestBisimulation Same where
  interrupts h := by rw [interrupts, interrupts, h.uart]
  load := Same.load
  store := Same.store

theorem bisimulation : Bisimulation Same where
  toGuestBisimulation := guestBisimulation
  uart h := h.uart
  setUart h _ := ⟨rfl, h.byte⟩
  loadImage := Same.loadImage

end Same

end Bus

namespace Mmu

variable {side : Side} {S : Bus → Bus → Prop} {b b' : Bus}

/-- A load from either of two buses answers alike and remembers the same. -/
theorem load_matches (hS : Bus.GuestBisimulation S) (hb : S b b') (m : Mmu side) (w : Width)
    (a : Word) (p : Privilege) :
    ∃ r r' m', m.load b w a p = (r, m') ∧ m.load b' w a p = (r', m') ∧
      Matches (Bus.SameDatum S) r r' := by
  unfold load
  split
  · exact ⟨_, _, _, rfl, rfl, .bind (m.locate w a p).1 fun physical => hS.load hb w physical⟩
  · exact ⟨_, _, _, rfl, rfl, .error _⟩

theorem store_matches (hS : Bus.GuestBisimulation S) (hb : S b b') (m : Mmu side) (w : Width)
    (a : Word) (p : Privilege) (v : Word) :
    ∃ r r' m', m.store b w a p v = (r, m') ∧ m.store b' w a p v = (r', m') ∧ Matches S r r' := by
  unfold store
  split
  · exact ⟨_, _, _, rfl, rfl,
      .bind (m.translate a p .write).1 fun physical => hS.store hb w physical v⟩
  · exact ⟨_, _, _, rfl, rfl, .error _⟩

end Mmu

namespace Cpu

/-- Two machines that differ from a third in their counters, by numbers, and in their buses. -/
def Twins (S : Bus → Bus → Prop) (x y : Counter → Nat) (c d : Cpu) : Prop :=
  ∃ (u : Cpu) (b b' : Bus), S b b' ∧ c = u.ahead x b ∧ d = u.ahead y b'

namespace Twins

variable {S : Bus → Bus → Prop} {x y : Counter → Nat} {c d : Cpu}

/-- What does not touch the bus, and counts by adding only, keeps twins. -/
theorem of_ahead (h : Twins S x y c d) (f : Cpu → Cpu)
    (hf : ∀ (u : Cpu) (n : Counter → Nat) (b : Bus), f (u.ahead n b) = (f u).ahead n b) :
    Twins S x y (f c) (f d) := by
  obtain ⟨u, b, b', hb, rfl, rfl⟩ := h
  exact ⟨f u, b, b', hb, hf u x b, hf u y b'⟩

/-- What reads neither counters nor the bus cannot tell twins apart. -/
theorem observe_eq {α : Type} (h : Twins S x y c d) (f : Cpu → α)
    (hf : ∀ (u : Cpu) (n : Counter → Nat) (b : Bus), f (u.ahead n b) = f u) : f d = f c := by
  obtain ⟨u, b, b', -, rfl, rfl⟩ := h
  rw [hf, hf]

theorem of_uncounted (h : d.uncounted = { c.uncounted with bus := d.bus }) (hb : S c.bus d.bus) :
    Twins S c.count d.count c d := by
  refine ⟨c.uncounted, c.bus, d.bus, hb, c.ahead_uncounted.symm, ?_⟩
  have hd := d.ahead_uncounted
  rw [h] at hd
  exact hd.symm

theorem eq (h : Twins Eq x x c d) : d = c := by
  obtain ⟨u, b, b', rfl, rfl, rfl⟩ := h
  rfl

theorem count (h : Twins S x y c d) (q : Counter) :
    c.count q + y q = d.count q + x q := by
  obtain ⟨u, b, b', -, rfl, rfl⟩ := h
  rw [count_ahead, count_ahead]
  omega

theorem raise (h : Twins S x y c d) (e : Exception) (a : Word) :
    Twins S x y (c.raise e a) (d.raise e a) :=
  h.of_ahead (·.raise e a) fun u n b => u.raise_ahead n b e a

theorem setSpr (h : Twins S x y c d) (a v : Word) : Twins S x y (c.setSpr a v) (d.setSpr a v) :=
  h.of_ahead (·.setSpr a v) fun u n b => u.setSpr_ahead n b a v

theorem advance (h : Twins S x y c d) : Twins S x y c.advance d.advance :=
  h.of_ahead Cpu.advance fun _ _ _ => rfl

theorem settle (h : Twins S x y c d) (o : Outcome) :
    Twins S (x ∘ Counter.source) (y ∘ Counter.source) (c.settle o) (d.settle o) := by
  obtain ⟨u, b, b', hb, rfl, rfl⟩ := h
  exact ⟨u.settle o, b, b', hb, u.settle_ahead x b o, u.settle_ahead y b' o⟩

/-- The bus of twins may be changed together. -/
theorem withBus (h : Twins S x y c d) {b b' : Bus} (hb : S b b') :
    Twins S x y { c with bus := b } { d with bus := b' } := by
  obtain ⟨u, -, -, -, rfl, rfl⟩ := h
  exact ⟨u, b, b', hb, rfl, rfl⟩

theorem bus (h : Twins S x y c d) : S c.bus d.bus := by
  obtain ⟨u, b, b', hb, rfl, rfl⟩ := h
  exact hb

variable (hS : Bus.GuestBisimulation S)

include hS

theorem load (h : Twins S x y c d) (op : LoadOp) (a : Word) :
    ∃ r c' d', c.load op a = (r, c') ∧ d.load op a = (r, d') ∧ Twins S x y c' d' := by
  obtain ⟨u, b, b', hb, rfl, rfl⟩ := h
  obtain ⟨r, r', m, hl, hl', hresult⟩ := Mmu.load_matches hS hb u.dmmu op.width a u.privilege
  rw [load_ahead, load_ahead, hl, hl']
  cases hresult with
  | error e => exact ⟨_, _, _, rfl, rfl, { u with dmmu := m }, b, b', hb, rfl, rfl⟩
  | ok hdatum =>
    obtain ⟨v, hbus⟩ := hdatum
    exact ⟨_, _, _, rfl, rfl, { u with dmmu := m }, _, _, hbus, rfl, rfl⟩

theorem store (h : Twins S x y c d) (op : StoreOp) (a v : Word) :
    ∃ r c' d', c.store op a v = (r, c') ∧ d.store op a v = (r, d') ∧ Twins S x y c' d' := by
  obtain ⟨u, b, b', hb, rfl, rfl⟩ := h
  obtain ⟨r, r', m, hs, hs', hresult⟩ := Mmu.store_matches hS hb u.dmmu op.width a u.privilege v
  rw [store_ahead, store_ahead, hs, hs']
  cases hresult with
  | error e => exact ⟨_, _, _, rfl, rfl, { u with dmmu := m }, b, b', hb, rfl, rfl⟩
  | ok hbus => exact ⟨_, _, _, rfl, rfl, { u with dmmu := m }, _, _, hbus, rfl, rfl⟩

theorem execute (h : Twins S x y c d) (i : Instruction) :
    ∃ c' d' f, c.execute i = (c', f) ∧ d.execute i = (d', f) ∧ Twins S x y c' d' := by
  cases i with
  | load op r a k =>
    have haddress : d.displaced a k = c.displaced a k :=
      h.observe_eq (·.displaced a k) fun _ _ _ => rfl
    obtain ⟨v, c', d', hc, hd, htwins⟩ := h.load hS op (c.displaced a k)
    simp only [Cpu.execute, haddress, hc, hd]
    cases v with
    | ok v =>
      exact ⟨_, _, _, rfl, rfl, (htwins.of_ahead (·.setReg r v) fun _ _ _ => rfl).advance⟩
    | error e => exact ⟨_, _, _, rfl, rfl, htwins⟩
  | store op a r k =>
    have haddress : d.displaced a k = c.displaced a k :=
      h.observe_eq (·.displaced a k) fun _ _ _ => rfl
    have hvalue : d.reg r = c.reg r := h.observe_eq (·.reg r) fun _ _ _ => rfl
    obtain ⟨v, c', d', hc, hd, htwins⟩ := h.store hS op (c.displaced a k) (c.reg r)
    simp only [Cpu.execute, haddress, hvalue, hc, hd]
    cases v with
    | ok _ => exact ⟨_, _, _, rfl, rfl, htwins.advance⟩
    | error e => exact ⟨_, _, _, rfl, rfl, htwins⟩
  | _ =>
    obtain ⟨u, b, b', hb, rfl, rfl⟩ := h
    exact ⟨_, _, _, u.execute_ahead x b rfl, u.execute_ahead y b' rfl, _, b, b', hb, rfl, rfl⟩

omit hS in
theorem locateFetch (h : Twins S x y c d) :
    ∃ r c' d', c.locateFetch = (r, c') ∧ d.locateFetch = (r, d') ∧ Twins S x y c' d' := by
  obtain ⟨u, b, b', hb, rfl, rfl⟩ := h
  exact ⟨_, _, _, u.locateFetch_ahead x b, u.locateFetch_ahead y b', _, b, b', hb, rfl, rfl⟩

theorem fetch (h : Twins S x y c d) :
    ∃ r c' d', c.fetch = (r, c') ∧ d.fetch = (r, d') ∧ Twins S x y c' d' := by
  have hpc : d.pc = c.pc := h.observe_eq Cpu.pc fun _ _ _ => rfl
  obtain ⟨located, c', d', hc, hd, htwins⟩ := h.locateFetch
  unfold Cpu.fetch
  rw [hpc, hc, hd]
  split
  · have hload := Matches.bind located fun physical => hS.load htwins.bus .word physical
    simp only
    generalize located.bind (c'.bus.load .word) = r at hload ⊢
    generalize located.bind (d'.bus.load .word) = r' at hload ⊢
    cases hload with
    | error e => exact ⟨_, _, _, rfl, rfl, htwins⟩
    | ok hdatum =>
      obtain ⟨v, hbus⟩ := hdatum
      exact ⟨_, _, _, rfl, rfl, htwins.withBus hbus⟩
  · exact ⟨_, _, _, rfl, rfl, h⟩

theorem issue (h : Twins S x y c d) :
    ∃ r c' d', c.issue = (r, c') ∧ d.issue = (r, d') ∧ Twins S x y c' d' := by
  have hticked : Twins S x y c.ticked d.ticked := h.of_ahead Cpu.ticked fun _ _ _ => rfl
  have hexpired : (d.ticked.timer.expired && Supervision.has d.sr .tee) =
      (c.ticked.timer.expired && Supervision.has c.sr .tee) :=
    h.observe_eq (fun c => c.ticked.timer.expired && Supervision.has c.sr .tee) fun _ _ _ => rfl
  rw [issue_eq, issue_eq, hexpired]
  split
  · exact ⟨_, _, _, rfl, rfl, hticked⟩
  · exact hticked.fetch hS

theorem attempt (h : Twins S x y c d) :
    ∃ c' d' f, c.attempt = (c', f) ∧ d.attempt = (d', f) ∧ Twins S x y c' d' := by
  obtain ⟨r, c', d', hc, hd, htwins⟩ := h.issue hS
  unfold Cpu.attempt
  rw [hc, hd]
  cases r with
  | ok word => exact (htwins.of_ahead Cpu.countInstruction fun _ _ _ => rfl).execute hS _
  | error e =>
    have hpc : d'.pc = c'.pc := htwins.observe_eq Cpu.pc fun _ _ _ => rfl
    refine ⟨c', d', .fault e c'.pc, rfl, ?_, htwins⟩
    simp only [hpc]

theorem cycle (h : Twins S x y c d) :
    ∃ c' d' stop, c.cycle = (c', stop) ∧ d.cycle = (d', stop) ∧ Twins S x y c' d' := by
  obtain ⟨c', d', f, hc, hd, htwins⟩ := h.attempt hS
  unfold Cpu.cycle
  rw [hc, hd]
  cases f with
  | next | halt => exact ⟨_, _, _, rfl, rfl, htwins⟩
  | fault e a => exact ⟨_, _, _, rfl, rfl, htwins.raise e a⟩

theorem sampleInterrupts (h : Twins S x y c d) :
    d.sampleInterrupts.interruptDue = c.sampleInterrupts.interruptDue ∧
      Twins S x y c.sampleInterrupts d.sampleInterrupts := by
  have hlines := hS.interrupts h.bus
  obtain ⟨u, b, b', hb, rfl, rfl⟩ := h
  unfold Cpu.sampleInterrupts
  rw [hlines]
  exact ⟨rfl, { u with interrupts := u.interrupts.sample b.interrupts }, b, b', hb, rfl, rfl⟩

omit hS in
theorem takeInterrupt (h : Twins S x y c d) : Twins S x y c.takeInterrupt d.takeInterrupt :=
  h.of_ahead Cpu.takeInterrupt fun u n b =>
    raise_ahead { u with interrupts := u.interrupts.accept } n b .externalInterrupt u.pc

theorem cycles (h : Twins S x y c d) (budget : Nat) :
    ∃ c' d' o, c.cycles budget = (c', o) ∧ d.cycles budget = (d', o) ∧ Twins S x y c' d' := by
  induction budget generalizing c d with
  | zero => exact ⟨_, _, _, rfl, rfl, h⟩
  | succ n ih =>
    obtain ⟨c', d', stop, hc, hd, htwins⟩ := h.cycle hS
    unfold Cpu.cycles
    rw [hc, hd]
    cases stop with
    | none => exact ih htwins
    | some o => exact ⟨_, _, _, rfl, rfl, htwins⟩

/-- A run of twins ends alike and leaves twins, whose statistics have caught up. -/
theorem run (h : Twins S x y c d) (budget : Nat) :
    ∃ c' d' o, c.run budget = (c', o) ∧ d.run budget = (d', o) ∧
      Twins S (x ∘ Counter.source) (y ∘ Counter.source) c' d' := by
  obtain ⟨hdue, hsample⟩ := h.sampleInterrupts hS
  unfold Cpu.run
  simp only [hdue]
  split
  · exact ⟨_, _, _, rfl, rfl, hsample.takeInterrupt.settle _⟩
  · obtain ⟨c', d', o, hc, hd, htwins⟩ := hsample.cycles hS budget
    rw [hc, hd]
    exact ⟨_, _, _, rfl, rfl, htwins.settle o⟩

omit hS in
theorem answer (hS : Bus.Bisimulation S) (h : Twins S x y c d) (k : Call) :
    ∃ r c' d', c.answer k = (r, c') ∧ d.answer k = (r, d') ∧ Twins S x y c' d' := by
  have huart := hS.uart h.bus
  cases k with
  | load op a =>
    obtain ⟨r, c', d', hc, hd, htwins⟩ := h.load hS.toGuestBisimulation op a
    simp only [Cpu.answer, hc, hd]
    exact ⟨_, _, _, rfl, rfl, htwins⟩
  | store op a v =>
    obtain ⟨r, c', d', hc, hd, htwins⟩ := h.store hS.toGuestBisimulation op a v
    simp only [Cpu.answer, hc, hd]
    exact ⟨_, _, _, rfl, rfl, htwins⟩
  | setSpr a v => exact ⟨_, _, _, rfl, rfl, h.setSpr a v⟩
  | raise e a => exact ⟨_, _, _, rfl, rfl, h.raise e a⟩
  | readSpr a =>
    have hspr : d.spr a = c.spr a := h.observe_eq (·.spr a) fun u n b => u.spr_ahead n b a
    simp only [Cpu.answer, hspr]
    exact ⟨_, _, _, rfl, rfl, h⟩
  | press | take | drain =>
    simp only [Cpu.answer, hosted, Simulator.receive, Simulator.read?, Simulator.drain,
      Simulator.setUart, Simulator.uart, huart]
    exact ⟨_, _, _, rfl, rfl, h.withBus (hS.setUart h.bus _)⟩
  | peek w a =>
    have hload := hS.load h.bus w a
    simp only [Cpu.answer]
    generalize c.bus.load w a = r at hload ⊢
    generalize d.bus.load w a = r' at hload ⊢
    cases hload with
    | error e => exact ⟨_, _, _, rfl, rfl, h⟩
    | ok hdatum =>
      obtain ⟨v, hbus⟩ := hdatum
      exact ⟨_, _, _, rfl, rfl, h.withBus hbus⟩
  | poke w a v =>
    have hstore := hS.store h.bus w a v
    simp only [Cpu.answer]
    generalize c.bus.store w a v = r at hstore ⊢
    generalize d.bus.store w a v = r' at hstore ⊢
    cases hstore with
    | ok hbus => exact ⟨_, _, _, rfl, rfl, h.withBus hbus⟩
    | error e => exact ⟨_, _, _, rfl, rfl, h⟩
  | place image offset =>
    have himage := hS.loadImage h.bus image offset
    simp only [Cpu.answer]
    generalize c.bus.loadImage image offset = r at himage ⊢
    generalize d.bus.loadImage image offset = r' at himage ⊢
    cases himage with
    | ok hbus => exact ⟨_, _, _, rfl, rfl, h.withBus hbus⟩
    | error e => exact ⟨_, _, _, rfl, rfl, h⟩
  | loadImage image pc =>
    have hreset : Twins S x y { c.reset with pc := pc } { d.reset with pc := pc } :=
      h.of_ahead (fun c => { c.reset with pc := pc }) fun _ _ _ => rfl
    have himage := hS.loadImage hreset.bus image 0
    simp only [Cpu.answer, hosted, Simulator.loadImage]
    generalize Bus.loadImage _ image 0 = r at himage ⊢
    generalize d.reset.bus.loadImage image 0 = r' at himage ⊢
    cases himage with
    | ok hbus => exact ⟨_, _, _, rfl, rfl, hreset.withBus hbus⟩
    | error e => exact ⟨_, _, _, rfl, rfl, hreset⟩
  | reset => exact ⟨_, _, _, rfl, rfl, h.of_ahead Cpu.reset fun _ _ _ => rfl⟩
  | setReg r v => exact ⟨_, _, _, rfl, rfl, h.of_ahead (·.setReg r v) fun _ _ _ => rfl⟩
  | setPc v =>
    exact ⟨_, _, _, rfl, rfl, h.of_ahead (fun c => { c with pc := v }) fun _ _ _ => rfl⟩
  | setSr v => exact ⟨_, _, _, rfl, rfl, h.of_ahead (·.setSr v) fun _ _ _ => rfl⟩
  | returnFromException =>
    exact ⟨_, _, _, rfl, rfl, h.of_ahead Cpu.returnFromException fun _ _ _ => rfl⟩

end Twins

end Cpu

end Orbis
