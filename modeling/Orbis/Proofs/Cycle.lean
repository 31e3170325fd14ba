import Orbis.Cpu.Run
import Orbis.Proofs.Translation

/-!
# What a cycle can do

A cycle that does not begin with a timer interrupt or a failed fetch issues an instruction, and
fetching it has touched the timer, the memos and the counters only. `Effect` then lists what
instructions do, with the whole state that each of them leaves behind, so that later proofs split
by kinds of effects and not by instructions.
-/

namespace Orbis

theorem ok_of_bind_eq_ok {α β : Type} {x : Except Exception α} {f : α → Except Exception β} {b : β}
    (h : x.bind f = .ok b) : ∃ a, x = .ok a ∧ f a = .ok b := by
  cases x with
  | error e => cases h
  | ok a => exact ⟨a, rfl, h⟩

namespace Mmu

variable {side : Side} {m n : Mmu side} {b b' : Bus} {w : Width} {a v : Word} {p : Privilege}

theorem exists_load (h : m.load b w a p = (.ok (v, b'), n)) :
    ∃ physical, (m.locate w a p).1 = .ok physical ∧ b.load w physical = .ok (v, b') := by
  have hfst : (m.load b w a p).1 = _ := load_fst_of_locate rfl b
  rw [h] at hfst
  split at hfst
  · exact ok_of_bind_eq_ok hfst.symm
  · cases hfst

theorem exists_store (h : m.store b w a p v = (.ok b', n)) :
    ∃ physical, m.resolve a p .write = .ok physical ∧ b.store w physical v = .ok b' := by
  have hfst := m.store_fst b w a p v
  rw [h] at hfst
  split at hfst
  · exact ok_of_bind_eq_ok hfst.symm
  · cases hfst

end Mmu

namespace Bus

variable {b b' : Bus} {w : Width} {a v : Word}

theorem load_of_isRam (h : isRam a = true) : b.load w a = (b.ram.load w a).map (·, b) := by
  unfold load route?
  rw [if_pos h]

theorem store_of_isRam (h : isRam a = true) :
    b.store w a v = (b.ram.store w a v).map fun r => { b with ram := r } := by
  unfold store route?
  rw [if_pos h]

/-- A load reaches memory, or a register of the serial line with a byte. -/
theorem load_cases (h : b.load w a = .ok (v, b')) :
    (isRam a = true ∧ b' = b ∧ b.ram.load w a = .ok v) ∨
      (w = .byte ∧ v = (b.uart.load (.ofOffset (a - uartBase))).1.setWidth 32 ∧
        b' = { b with uart := (b.uart.load (.ofOffset (a - uartBase))).2 }) := by
  unfold load route? at h
  by_cases hram : isRam a = true
  · simp only [if_pos hram] at h
    cases hl : b.ram.load w a with
    | error e =>
      rw [hl] at h
      cases h
    | ok u =>
      rw [hl] at h
      cases h
      exact .inl ⟨hram, rfl, rfl⟩
  · simp only [if_neg hram] at h
    by_cases huart : uartBase ≤ a ∧ a ≤ uartEnd
    · simp only [if_pos huart] at h
      cases w with
      | byte =>
        cases h
        exact .inr ⟨rfl, rfl, rfl⟩
      | half | word => cases h
    · simp only [if_neg huart] at h
      cases h

theorem store_cases (h : b.store w a v = .ok b') :
    (isRam a = true ∧ ∃ r, b' = { b with ram := r } ∧ b.ram.store w a v = .ok r) ∨
      (w = .byte ∧
        b' = { b with uart := b.uart.store (.ofOffset (a - uartBase)) (v.extractLsb' 0 8) }) := by
  unfold store route? at h
  by_cases hram : isRam a = true
  · simp only [if_pos hram] at h
    cases hs : b.ram.store w a v with
    | error e =>
      rw [hs] at h
      cases h
    | ok r =>
      rw [hs] at h
      cases h
      exact .inl ⟨hram, r, rfl, rfl⟩
  · simp only [if_neg hram] at h
    by_cases huart : uartBase ≤ a ∧ a ≤ uartEnd
    · simp only [if_pos huart] at h
      cases w with
      | byte =>
        cases h
        exact .inr ⟨rfl, rfl⟩
      | half | word => cases h
    · simp only [if_neg huart] at h
      cases h

/-- Words are loaded from memory only, which leaves the bus alone. -/
theorem load_word (h : b.load .word a = .ok (v, b')) :
    b' = b ∧ Bus.isRam a = true ∧ b.ram.load .word a = .ok v := by
  rcases load_cases h with ⟨hram, hbus, hload⟩ | ⟨hword, -⟩
  · exact ⟨hbus, hram, hload⟩
  · cases hword

end Bus

namespace Instruction

/-- The register that a computation leaves its result in. -/
def result? : Instruction → Option Reg
  | movhi d _ | addi d _ _ | andi d _ _ | ori d _ _ | xori d _ _ | mfspr d _ _ |
    shiftImm _ d _ _ | alu _ d _ _ => some d
  | _ => none

def compares : Instruction → Bool
  | setFlagImm _ _ _ | setFlag _ _ _ => true
  | _ => false

/-- Whether an instruction may do nothing but move on. -/
def skips : Instruction → Bool
  | nop _ | bnf _ | bf _ => true
  | _ => false

/-- Whether an instruction leaves a return address. -/
def links : Instruction → Bool
  | jal _ | jalr _ => true
  | _ => false

end Instruction

namespace Cpu

/-- To write a special register leaves the registers, the place of the machine, the bus and the
statistics alone. -/
theorem writeSpr_frame (c : Cpu) (r : Spr) (v : Word) :
    ∃ sr context interrupts timer memo immu dmmu, c.writeSpr r v =
      { c with
        sr := sr
        context := context
        interrupts := interrupts
        timer := timer
        fetchMemo := memo
        immu := immu
        dmmu := dmmu } := by
  cases r with
  | mmu side i => cases side <;> exact ⟨_, _, _, _, _, _, _, rfl⟩
  | _ => exact ⟨_, _, _, _, _, _, _, rfl⟩

/-- The target of an instruction, if it is a jump or a branch that is taken. -/
def transfer? (c : Cpu) : Instruction → Option Word
  | .j n | .jal n => some (c.relative n)
  | .bnf n => if c.flag then none else some (c.relative n)
  | .bf n => if c.flag then some (c.relative n) else none
  | .jr b | .jalr b => some (c.reg b)
  | _ => none

/-- Whether an instruction stops the machine where it is. -/
def stops (c : Cpu) (i : Instruction) : Prop :=
  i = .nop haltImmediate ∧ c.privilege = .supervisor

instance (c : Cpu) (i : Instruction) : Decidable (c.stops i) :=
  inferInstanceAs (Decidable (_ ∧ _))

/-- The effects of instructions: what each leaves behind, and how the machine goes on. -/
inductive Effect (c : Cpu) : Instruction → Cpu → Flow → Prop
  | compute {i : Instruction} {d : Reg} (v : Word) (h : i.result? = some d) :
      Effect c i (c.setReg d v).advance .next
  | compare {i : Instruction} (on : Bool) (h : i.compares = true) :
      Effect c i (c.setFlag on).advance .next
  | transfer {i : Instruction} {t : Word} (h : c.transfer? i = some t) :
      Effect c i ((if i.links then c.link else c).jump t) .next
  | skip {i : Instruction} (h : c.transfer? i = none) (hi : i.skips = true) (hs : ¬c.stops i) :
      Effect c i c.advance .next
  | stop {i : Instruction} (h : c.stops i) : Effect c i c .halt
  | trap (k : Half) : Effect c (.trap k) c.advance .halt
  | sys (k : Half) : Effect c (.sys k) { c with pc := c.pc + 4 } (.fault .systemCall 0)
  | rfe : Effect c .rfe c.returnFromException .next
  | load {op : LoadOp} {d a : Reg} {i : Half} {v : Word} {b : Bus} {m : Mmu .data}
      (h : c.dmmu.load c.bus op.width (c.displaced a i) c.privilege = (.ok (v, b), m)) :
      Effect c (.load op d a i) (({ c with dmmu := m, bus := b }.setReg d (op.extend v)).advance)
        .next
  | loadFault {op : LoadOp} {d a : Reg} {i : Half} {e : Exception} {m : Mmu .data}
      (h : c.dmmu.load c.bus op.width (c.displaced a i) c.privilege = (.error e, m)) :
      Effect c (.load op d a i) { c with dmmu := m } (.fault e (c.displaced a i))
  | store {op : StoreOp} {a b : Reg} {i : Half} {bus : Bus} {m : Mmu .data}
      (h : c.dmmu.store c.bus op.width (c.displaced a i) c.privilege (c.reg b) = (.ok bus, m)) :
      Effect c (.store op a b i) ({ c with dmmu := m, bus := bus }.advance) .next
  | storeFault {op : StoreOp} {a b : Reg} {i : Half} {e : Exception} {m : Mmu .data}
      (h : c.dmmu.store c.bus op.width (c.displaced a i) c.privilege (c.reg b) = (.error e, m)) :
      Effect c (.store op a b i) { c with dmmu := m } (.fault e (c.displaced a i))
  | mtspr {a b : Reg} {k : Half}
      (h : (c.setSpr (c.sprAddress a k) (c.reg b)).tickDue = false) :
      Effect c (.mtspr a b k) (c.setSpr (c.sprAddress a k) (c.reg b)).advance .next
  | mtsprTick {a b : Reg} {k : Half}
      (h : (c.setSpr (c.sprAddress a k) (c.reg b)).tickDue = true) :
      Effect c (.mtspr a b k) (c.setSpr (c.sprAddress a k) (c.reg b)) (.fault .tickTimer 0)
  | illegal (w : Word) : Effect c (.illegal w) c (.fault .illegalInstruction c.pc)

theorem execute_effect (c : Cpu) (i : Instruction) :
    c.Effect i (c.execute i).1 (c.execute i).2 := by
  cases i with
  | j n => exact .transfer (t := c.relative n) rfl
  | jal n => exact .transfer (t := c.relative n) rfl
  | jr b => exact .transfer (t := c.reg b) rfl
  | jalr b => exact .transfer (t := c.reg b) rfl
  | bnf n =>
    cases hf : c.flag with
    | true =>
      rw [show c.execute (.bnf n) = (c.advance, .next) by simp [execute, hf]]
      exact .skip (by simp [transfer?, hf]) rfl nofun
    | false =>
      rw [show c.execute (.bnf n) = (c.jump (c.relative n), .next) by simp [execute, hf]]
      exact .transfer (by simp [transfer?, hf])
  | bf n =>
    cases hf : c.flag with
    | true =>
      rw [show c.execute (.bf n) = (c.jump (c.relative n), .next) by simp [execute, hf]]
      exact .transfer (by simp [transfer?, hf])
    | false =>
      rw [show c.execute (.bf n) = (c.advance, .next) by simp [execute, hf]]
      exact .skip (by simp [transfer?, hf]) rfl nofun
  | nop k =>
    by_cases hk : k = haltImmediate ∧ c.privilege = .supervisor
    · rw [show c.execute (.nop k) = (c, .halt) from if_pos hk]
      exact .stop ⟨congrArg _ hk.1, hk.2⟩
    · rw [show c.execute (.nop k) = (c.advance, .next) from if_neg hk]
      exact .skip rfl rfl fun hs => hk ⟨Instruction.nop.inj hs.1, hs.2⟩
  | sys k => exact .sys k
  | trap k => exact .trap k
  | rfe => exact .rfe
  | load op d a i =>
    cases h : c.dmmu.load c.bus op.width (c.displaced a i) c.privilege with
    | mk result m =>
      cases result with
      | ok r =>
        obtain ⟨v, b⟩ := r
        have he : c.execute (.load op d a i) =
            (({ c with dmmu := m, bus := b }.setReg d (op.extend v)).advance, .next) := by
          simp only [execute, Cpu.load, h, complete]
        rw [he]
        exact .load h
      | error e =>
        have he : c.execute (.load op d a i) =
            ({ c with dmmu := m }, .fault e (c.displaced a i)) := by
          simp only [execute, Cpu.load, h]
        rw [he]
        exact .loadFault h
  | store op a b i =>
    cases h : c.dmmu.store c.bus op.width (c.displaced a i) c.privilege (c.reg b) with
    | mk result m =>
      cases result with
      | ok bus =>
        have he : c.execute (.store op a b i) =
            ({ c with dmmu := m, bus := bus }.advance, .next) := by
          simp only [execute, Cpu.store, h]
        rw [he]
        exact .store h
      | error e =>
        have he : c.execute (.store op a b i) =
            ({ c with dmmu := m }, .fault e (c.displaced a i)) := by
          simp only [execute, Cpu.store, h]
        rw [he]
        exact .storeFault h
  | mtspr a b k =>
    cases h : (c.setSpr (c.sprAddress a k) (c.reg b)).tickDue with
    | true =>
      rw [show c.execute (.mtspr a b k) = (c.setSpr (c.sprAddress a k) (c.reg b),
        .fault .tickTimer 0) by simp [execute, h]]
      exact .mtsprTick h
    | false =>
      rw [show c.execute (.mtspr a b k) = ((c.setSpr (c.sprAddress a k) (c.reg b)).advance,
        .next) by simp [execute, h]]
      exact .mtspr h
  | setFlagImm cond a i => exact .compare _ rfl
  | setFlag cond a b => exact .compare _ rfl
  | illegal w => exact .illegal w
  | movhi | addi | andi | ori | xori | mfspr | shiftImm | alu => exact .compute _ rfl

/-! ### Issuing an instruction -/

/-- The instruction that a cycle issues, unless the timer interrupts or the fetch fails. -/
def issued? (c : Cpu) : Option Instruction := c.issue.1.toOption.map .decode

theorem issued?_eq_some_iff {c : Cpu} {i : Instruction} :
    c.issued? = some i ↔ ∃ word, c.issue.1 = .ok word ∧ .decode word = i := by
  unfold issued?
  cases c.issue.1 with
  | error e => simp [Except.toOption]
  | ok word => simp [Except.toOption]

/-- The state in which a cycle carries out its instruction. -/
def fetched (c : Cpu) : Cpu := c.issue.2.countInstruction

theorem locateFetch_frame (c : Cpu) :
    ∃ memo last s, c.locateFetch.2 =
      { c with fetchMemo := memo, immu := { c.immu with memo := last }, statistics := s } := by
  unfold locateFetch
  split
  · exact ⟨c.fetchMemo, c.immu.memo, _, rfl⟩
  · have himmu := c.immu.translate_snd c.pc c.privilege .fetch
    generalize c.immu.translate c.pc c.privilege .fetch = t at himmu
    obtain ⟨located, immu⟩ := t
    simp only at himmu
    cases located with
    | error e => exact ⟨c.fetchMemo, immu.memo, _, by rw [← himmu]⟩
    | ok physical =>
      simp only
      split
      · exact ⟨_, immu.memo, _, by rw [← himmu]⟩
      · exact ⟨c.fetchMemo, immu.memo, _, by rw [← himmu]⟩

theorem fetch_frame (c : Cpu) :
    ∃ memo last s, c.fetch.2 =
      { c with fetchMemo := memo, immu := { c.immu with memo := last }, statistics := s } := by
  unfold fetch
  split
  · obtain ⟨memo, last, s, h⟩ := c.locateFetch_frame
    refine ⟨memo, last, s, ?_⟩
    rw [← h]
    generalize c.locateFetch = l
    obtain ⟨located, d⟩ := l
    simp only
    cases hf : located.bind (d.bus.load .word) with
    | error e => rfl
    | ok r =>
      obtain ⟨physical, -, hload⟩ := ok_of_bind_eq_ok hf
      obtain ⟨word, bus⟩ := r
      rw [(Bus.load_word hload).1]
  · exact ⟨c.fetchMemo, c.immu.memo, c.statistics, rfl⟩

/-- The state in which a cycle looks at the timer: one cycle later. -/
def ticked (c : Cpu) : Cpu :=
  { c with
    timer := c.timer.advance
    statistics := { c.statistics with cycles := c.statistics.cycles + 1 } }

theorem issue_eq (c : Cpu) :
    c.issue =
      if c.ticked.timer.expired && Supervision.has c.sr .tee then (.error .tickTimer, c.ticked)
      else c.ticked.fetch := rfl

theorem issue_frame (c : Cpu) :
    ∃ memo last s, c.issue.2 =
      { c with
        timer := c.timer.advance
        fetchMemo := memo
        immu := { c.immu with memo := last }
        statistics := s } := by
  rw [issue_eq]
  split
  · exact ⟨c.fetchMemo, c.immu.memo, _, rfl⟩
  · exact c.ticked.fetch_frame

theorem fetched_frame (c : Cpu) :
    ∃ memo last s, c.fetched =
      { c with
        timer := c.timer.advance
        fetchMemo := memo
        immu := { c.immu with memo := last }
        statistics := s } := by
  obtain ⟨memo, last, s, h⟩ := c.issue_frame
  refine ⟨memo, last, { s with instructions := s.instructions + 1 }, ?_⟩
  rw [fetched, h]
  rfl

theorem attempt_of_issued {c : Cpu} {i : Instruction} (h : c.issued? = some i) :
    c.attempt = c.fetched.execute i := by
  unfold issued? at h
  unfold attempt fetched
  generalize c.issue = r at h ⊢
  obtain ⟨result, d⟩ := r
  cases result with
  | error e => cases h
  | ok word =>
    cases h
    rfl

theorem attempt_of_not_issued {c : Cpu} (h : c.issued? = none) :
    ∃ e, c.issue.1 = .error e ∧ c.attempt = (c.issue.2, .fault e c.pc) := by
  obtain ⟨memo, last, s, hframe⟩ := c.issue_frame
  have hpc : c.issue.2.pc = c.pc := by rw [hframe]
  unfold issued? at h
  unfold attempt
  generalize c.issue = r at h hpc ⊢
  obtain ⟨result, d⟩ := r
  cases result with
  | error e => exact ⟨e, rfl, by rw [← hpc]⟩
  | ok word => cases h

end Cpu

end Orbis
