import Orbis.Proofs.Coherence

/-!
# The machine without memos

A reference machine that looks every access up in full: its fetches, loads and stores go through
the table, the permissions and the bus and consult no remembered page. On coherent states the
machine itself does the same, up to `Cpu.bare`, which drops the remembered pages and the counters
that tell of them.
-/

namespace Orbis

/-- The machine without its memos and the counters that tell of them. -/
def Cpu.bare (c : Cpu) : Cpu :=
  { c with
    fetchMemo := none
    immu := c.immu.forget
    dmmu := c.dmmu.bare
    statistics :=
      { c.statistics with fetchFast := 0, fetchSlow := 0, dataHits := 0, dataMisses := 0 } }

namespace Reference

/-- Fetches by a full translation. -/
def fetch (c : Cpu) : Except Exception Word × Cpu :=
  if Mmu.aligned .word c.pc then
    match (c.immu.resolve c.pc c.privilege .fetch).bind (c.bus.load .word) with
    | .ok (word, bus) => (.ok word, { c with bus := bus })
    | .error e => (.error e, c)
  else (.error .alignment, c)

theorem fetch_fst (c : Cpu) :
    (fetch c).1 =
      if Mmu.aligned .word c.pc then
        (c.immu.resolve c.pc c.privilege .fetch).bind fun a => (c.bus.load .word a).map Prod.fst
      else .error .alignment := by
  unfold fetch
  split
  · cases c.immu.resolve c.pc c.privilege .fetch with
    | error e => rfl
    | ok a =>
      simp only [Except.bind]
      cases c.bus.load .word a <;> rfl
  · rfl

def load (c : Cpu) (op : LoadOp) (a : Word) : Except Exception Word × Cpu :=
  if Mmu.aligned op.width a then
    match (c.dmmu.resolve a c.privilege .read).bind (c.bus.load op.width) with
    | .ok (v, bus) => (.ok (op.extend v), { c with bus := bus })
    | .error e => (.error e, c)
  else (.error .alignment, c)

def store (c : Cpu) (op : StoreOp) (a v : Word) : Except Exception Unit × Cpu :=
  if Mmu.aligned op.width a then
    match (c.dmmu.resolve a c.privilege .write).bind (c.bus.store op.width · v) with
    | .ok bus => (.ok (), { c with bus := bus })
    | .error e => (.error e, c)
  else (.error .alignment, c)

def execute (c : Cpu) : Instruction → Cpu × Flow
  | .load op d a i =>
    let address := c.displaced a i
    match load c op address with
    | (.ok v, c) => c.complete d v
    | (.error e, c) => (c, .fault e address)
  | .store op a b i =>
    let address := c.displaced a i
    match store c op address (c.reg b) with
    | (.ok _, c) => (c.advance, .next)
    | (.error e, c) => (c, .fault e address)
  | i => c.execute i

def issue (c : Cpu) : Except Exception Word × Cpu :=
  if c.ticked.timer.expired && Supervision.has c.sr .tee then (.error .tickTimer, c.ticked)
  else fetch c.ticked

/-- A cycle up to the exception that may end it. -/
def attempt (c : Cpu) : Cpu × Flow :=
  match issue c with
  | (.ok word, c) => execute c.countInstruction (.decode word)
  | (.error e, c) => (c, .fault e c.pc)

def cycle (c : Cpu) : Cpu × Option Outcome :=
  let (c, flow) := attempt c
  c.follow flow

def answer (c : Cpu) : Call → Response × Cpu
  | .load op a => let (r, c) := load c op a; (.loaded r, c)
  | .store op a v => let (r, c) := store c op a v; (.stored r, c)
  | k => c.answer k

end Reference

/-- The machine without memos. -/
def Machine.reference : Machine := ⟨Reference.cycle, Reference.answer⟩

/-! ### The two machines agree on coherent states -/

namespace Cpu

theorem bare_writeAt {side : Side} (m : Mmu side) (index : Nat) (v : Word) :
    (m.writeAt index v).bare = m.bare.writeAt index v := by
  unfold Mmu.writeAt
  cases Mmu.register? index with
  | none => rfl
  | some r => cases r <;> rfl

theorem forget_writeAt {side : Side} (m : Mmu side) (index : Nat) (v : Word) :
    (m.writeAt index v).forget = m.forget.writeAt index v := by
  unfold Mmu.writeAt
  cases Mmu.register? index with
  | none => rfl
  | some r => cases r <;> rfl

theorem bare_setSpr (c : Cpu) (a v : Word) : (c.setSpr a v).bare = c.bare.setSpr a v := by
  unfold setSpr
  cases Spr.ofAddress a with
  | mmu side i =>
    cases side with
    | data => simp only [writeSpr, bare, bare_writeAt]
    | instruction => simp only [writeSpr, bare, forget_writeAt]
  | _ => rfl

theorem spr_bare (c : Cpu) (a : Word) : c.bare.spr a = c.spr a := by
  unfold spr
  cases Spr.ofAddress a with
  | mmu side i => cases side <;> rfl
  | _ => rfl

theorem bare_withDmmu {c : Cpu} {m : Mmu .data} (h : m.bare = c.dmmu.bare) (b : Bus) :
    ({ c with dmmu := m, bus := b }).bare = { c.bare with bus := b } := by
  simp only [bare, h]

theorem load_bare {c : Cpu} (h : c.Coherent) (op : LoadOp) (a : Word) :
    Reference.load c.bare op a = ((c.load op a).1, (c.load op a).2.bare) := by
  have hfst := Mmu.load_fst h.load_sound c.bus op.width a
  have hbare := c.dmmu.load_bare c.bus op.width a c.privilege
  unfold Reference.load Cpu.load
  generalize c.dmmu.load c.bus op.width a c.privilege = l at hfst hbare
  obtain ⟨r, m⟩ := l
  by_cases ha : Mmu.aligned op.width a = true
  · simp only [ha, if_true] at hfst ⊢
    rw [show (c.bare.dmmu.resolve a c.bare.privilege .read).bind (c.bare.bus.load op.width) = r
      from hfst.symm]
    cases r with
    | ok r => exact congrArg (Prod.mk _) (bare_withDmmu hbare r.2).symm
    | error e => exact congrArg (Prod.mk _) (bare_withDmmu hbare c.bus).symm
  · simp only [ha] at hfst ⊢
    rw [show r = .error .alignment from hfst]
    exact congrArg (Prod.mk _) (bare_withDmmu hbare c.bus).symm

theorem store_bare (c : Cpu) (op : StoreOp) (a v : Word) :
    Reference.store c.bare op a v = ((c.store op a v).1, (c.store op a v).2.bare) := by
  have hfst := c.dmmu.store_fst c.bus op.width a c.privilege v
  have hbare := c.dmmu.store_bare c.bus op.width a c.privilege v
  unfold Reference.store Cpu.store
  generalize c.dmmu.store c.bus op.width a c.privilege v = l at hfst hbare
  obtain ⟨r, m⟩ := l
  by_cases ha : Mmu.aligned op.width a = true
  · simp only [ha, if_true] at hfst ⊢
    rw [show (c.bare.dmmu.resolve a c.bare.privilege .write).bind
      (c.bare.bus.store op.width · v) = r from hfst.symm]
    cases r with
    | ok bus => exact congrArg (Prod.mk _) (bare_withDmmu hbare bus).symm
    | error e => exact congrArg (Prod.mk _) (bare_withDmmu hbare c.bus).symm
  · simp only [ha] at hfst ⊢
    rw [show r = .error .alignment from hfst]
    exact congrArg (Prod.mk _) (bare_withDmmu hbare c.bus).symm

theorem execute_bare {c : Cpu} (h : c.Coherent) (i : Instruction) :
    Reference.execute c.bare i = ((c.execute i).1.bare, (c.execute i).2) := by
  cases i with
  | load op d a i =>
    have hl := load_bare h op (c.displaced a i)
    simp only [Reference.execute, execute]
    rw [show c.bare.displaced a i = c.displaced a i from rfl, hl]
    cases c.load op (c.displaced a i) with
    | mk r d => cases r <;> rfl
  | store op a b i =>
    have hs := c.store_bare op (c.displaced a i) (c.reg b)
    simp only [Reference.execute, execute]
    rw [show c.bare.displaced a i = c.displaced a i from rfl,
      show c.bare.reg b = c.reg b from rfl, hs]
    cases c.store op (c.displaced a i) (c.reg b) with
    | mk r d => cases r <;> rfl
  | mfspr d a k =>
    simp only [Reference.execute, execute]
    rw [spr_bare]
    rfl
  | mtspr a b k =>
    simp only [Reference.execute, execute]
    rw [show c.bare.setSpr (c.bare.sprAddress a k) (c.bare.reg b) =
      (c.setSpr (c.sprAddress a k) (c.reg b)).bare from (bare_setSpr _ _ _).symm]
    generalize c.setSpr (c.sprAddress a k) (c.reg b) = d
    rw [show d.bare.tickDue = d.tickDue from rfl]
    cases d.tickDue <;> rfl
  | bnf n =>
    simp only [Reference.execute, execute]
    rw [show c.bare.flag = c.flag from rfl]
    cases c.flag <;> rfl
  | bf n =>
    simp only [Reference.execute, execute]
    rw [show c.bare.flag = c.flag from rfl]
    cases c.flag <;> rfl
  | nop k =>
    simp only [Reference.execute, execute]
    rw [show c.bare.privilege = c.privilege from rfl]
    split <;> rfl
  | _ => rfl

theorem locateFetch_fst {c : Cpu} (h : c.Coherent) :
    c.locateFetch.1 = c.immu.resolve c.pc c.privilege .fetch := by
  unfold locateFetch
  split
  · next hmemo => exact (h.fetch_sound.of_address? hmemo).1.symm
  · rw [← c.immu.translate_fst c.pc c.privilege .fetch]
    generalize c.immu.translate c.pc c.privilege .fetch = t
    obtain ⟨located, immu⟩ := t
    cases located <;> rfl

theorem bare_locateFetch (c : Cpu) : c.locateFetch.2.bare = c.bare := by
  unfold locateFetch
  split
  · rfl
  · have himmu : (c.immu.translate c.pc c.privilege .fetch).2.forget = c.immu.forget := by
      rw [c.immu.translate_snd]
      rfl
    generalize c.immu.translate c.pc c.privilege .fetch = t at himmu
    obtain ⟨located, immu⟩ := t
    simp only at himmu
    cases located with
    | error e => simp only [bare, himmu]
    | ok physical =>
      simp only
      split <;> simp only [bare, himmu]

theorem fetch_bare {c : Cpu} (h : c.Coherent) :
    Reference.fetch c.bare = (c.fetch.1, c.fetch.2.bare) := by
  have hfst : c.bare.immu.resolve c.bare.pc c.bare.privilege .fetch = c.locateFetch.1 :=
    (locateFetch_fst h).symm
  have hbare := c.bare_locateFetch
  unfold Reference.fetch Cpu.fetch
  by_cases ha : Mmu.aligned .word c.pc = true
  · rw [if_pos ha, if_pos (show Mmu.aligned .word c.bare.pc = true from ha), hfst, ← hbare]
    generalize c.locateFetch = l
    obtain ⟨located, d⟩ := l
    dsimp only
    rw [show d.bare.bus = d.bus from rfl]
    cases located.bind (d.bus.load .word) <;> rfl
  · rw [if_neg ha, if_neg (show ¬Mmu.aligned .word c.bare.pc = true from ha)]

theorem issue_bare {c : Cpu} (h : c.Coherent) :
    Reference.issue c.bare = (c.issue.1, c.issue.2.bare) := by
  unfold Reference.issue
  rw [issue_eq, show c.bare.ticked = c.ticked.bare from rfl, fetch_bare h.ticked]
  rw [show (c.ticked.bare.timer.expired && Supervision.has c.bare.sr .tee) =
    (c.ticked.timer.expired && Supervision.has c.sr .tee) from rfl]
  split <;> rfl

/-- A coherent machine issues the word that its tables and its bus give for the program counter. -/
theorem issue_fst {c : Cpu} (h : c.Coherent) :
    c.issue.1 =
      if c.ticked.timer.expired && Supervision.has c.sr .tee then .error .tickTimer
      else if Mmu.aligned .word c.pc then
        (c.immu.resolve c.pc c.privilege .fetch).bind fun a => (c.bus.load .word a).map Prod.fst
      else .error .alignment := by
  rw [show c.issue.1 = (Reference.issue c.bare).1 from (congrArg Prod.fst (issue_bare h)).symm,
    Reference.issue, apply_ite Prod.fst, Reference.fetch_fst]
  rfl

theorem cycle_bare {c : Cpu} (h : c.Coherent) :
    Reference.cycle c.bare = (c.cycle.1.bare, c.cycle.2) := by
  have hattempt : Reference.attempt c.bare = (c.attempt.1.bare, c.attempt.2) := by
    unfold Reference.attempt
    rw [issue_bare h]
    cases hi : c.issued? with
    | none =>
      obtain ⟨e, hissue, he⟩ := attempt_of_not_issued hi
      obtain ⟨memo, last, s, hframe⟩ := c.issue_frame
      have hpc : c.issue.2.pc = c.pc := by rw [hframe]
      rw [he, hissue, ← hpc]
      rfl
    | some i =>
      rw [attempt_of_issued hi]
      obtain ⟨word, hword, rfl⟩ := issued?_eq_some_iff.mp hi
      rw [hword]
      exact execute_bare h.fetched _
  unfold Reference.cycle cycle
  rw [hattempt]
  generalize c.attempt = r
  obtain ⟨d, flow⟩ := r
  cases flow <;> rfl

theorem answer_bare {c : Cpu} (h : c.Coherent) (k : Call) :
    Reference.answer c.bare k = ((c.answer k).1, (c.answer k).2.bare) := by
  cases k with
  | load op a =>
    simp only [Reference.answer, answer, load_bare h]
  | store op a v =>
    simp only [Reference.answer, answer, store_bare]
  | setSpr a v => exact congrArg (Prod.mk _) (bare_setSpr c a v).symm
  | readSpr a => exact congrArg (fun v => (Response.word v, c.bare)) (c.spr_bare a)
  | loadImage image pc =>
    simp only [Reference.answer, answer, hosted, Simulator.loadImage]
    rw [show c.bare.reset.bus = c.reset.bus from rfl]
    cases c.reset.bus.loadImage image 0 <;> rfl
  | peek w a =>
    simp only [Reference.answer, answer]
    rw [show c.bare.bus = c.bus from rfl]
    cases c.bus.load w a <;> rfl
  | poke w a v =>
    simp only [Reference.answer, answer]
    rw [show c.bare.bus = c.bus from rfl]
    cases c.bus.store w a v <;> rfl
  | place image offset =>
    simp only [Reference.answer, answer]
    rw [show c.bare.bus = c.bus from rfl]
    cases c.bus.loadImage image offset <;> rfl
  | _ => rfl

end Cpu

namespace Session

/-- A session as it looks without memos: the same steps, answers and outcomes from bare states. -/
def bare (s : Session) : Session := ⟨s.past.map fun (c, step) => (c.bare, step), s.now.bare⟩

theorem cycles_bare {s : Session} (h : s.now.Coherent) (budget : Nat) :
    s.bare.cycles .reference budget = (s.cycles .real budget).bare := by
  induction budget generalizing s with
  | zero => rfl
  | succ n ih =>
    have hc := h.cycle
    simp only [cycles, Machine.reference, Machine.real]
    rw [show s.bare.now = s.now.bare from rfl, Cpu.cycle_bare h]
    generalize s.now.cycle = r at hc
    obtain ⟨c, stop⟩ := r
    cases stop with
    | none => exact ih (s := s.push .cycle c) hc
    | some o => rfl

theorem perform_bare {s : Session} (h : s.now.Coherent) (a : Action) :
    s.bare.perform .reference a = (s.perform .real a).bare := by
  cases a with
  | run budget =>
    by_cases hdue : s.now.sampleInterrupts.interruptDue = true
    · have hdue' : s.bare.now.sampleInterrupts.interruptDue = true := hdue
      simp only [perform, run, push, hdue, hdue', if_true]
      rfl
    · have hdue' : ¬s.bare.now.sampleInterrupts.interruptDue = true := hdue
      simp only [perform, run, push, hdue, hdue']
      exact cycles_bare (s := s.push .sample s.now.sampleInterrupts) h.sampleInterrupts budget
  | call k =>
    simp only [perform, Machine.reference, Machine.real]
    rw [show s.bare.now = s.now.bare from rfl, Cpu.answer_bare h]
    rfl

theorem performAll_bare {s : Session} {start : Cpu} (hstart : start.Coherent)
    (h : Recorded (fun _ => True) start s.past s.now) (as : List Action) :
    s.bare.performAll .reference as = (s.performAll .real as).bare := by
  induction as generalizing s with
  | nil => rfl
  | cons a as ih =>
    have hnext := h.perform (a := a) fun _ _ => trivial
    change (s.bare.perform .reference a).performAll .reference as = _
    rw [perform_bare (h.coherent hstart)]
    exact ih hnext

/-- Remembered pages cannot be observed. Whatever a host does with a machine from its start, the
machine without memos makes the same steps with the same answers and outcomes, and goes through
the same states but for the memos and the counters that tell of them. -/
theorem reference_performAll (as : List Action) :
    (start .initial).performAll .reference as = ((start .initial).performAll .real as).bare :=
  performAll_bare (s := start .initial) (.reset _) .start as

end Session

end Orbis
