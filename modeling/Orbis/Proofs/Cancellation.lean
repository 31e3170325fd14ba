import Orbis.Proofs.Reference

/-!
# Exceptions that are returned from

Outside of a delay slot, dispatching an exception and returning from it cancel. What stays of the
two is the saved context and a count of the exception, and remembered pages are dropped. The
accesses that follow cannot tell: a coherent machine answers them as the machine without memos
does, and that machine reads neither the context nor the counters.
-/

namespace Orbis

namespace Cpu

/-- The machine with other records of its exceptions. -/
def withRecords (c : Cpu) (x : ExceptionContext) (s : Statistics) : Cpu :=
  { c with context := x, statistics := s }

end Cpu

/-! ### Accesses read no records -/

namespace Reference

variable (c : Cpu) (x : ExceptionContext) (s : Statistics)

theorem fetch_withRecords :
    fetch (c.withRecords x s) = ((fetch c).1, (fetch c).2.withRecords x s) := by
  by_cases ha : Mmu.aligned .word c.pc = true
  · simp only [fetch, Cpu.withRecords, Cpu.privilege, ha, if_true]
    cases (c.immu.resolve c.pc (Supervision.privilege c.sr) .fetch).bind (c.bus.load .word) <;> rfl
  · simp only [fetch, Cpu.withRecords, ha]
    rfl

theorem load_withRecords (op : LoadOp) (a : Word) :
    load (c.withRecords x s) op a = ((load c op a).1, (load c op a).2.withRecords x s) := by
  by_cases ha : Mmu.aligned op.width a = true
  · simp only [load, Cpu.withRecords, Cpu.privilege, ha, if_true]
    cases (c.dmmu.resolve a (Supervision.privilege c.sr) .read).bind (c.bus.load op.width) <;> rfl
  · simp only [load, Cpu.withRecords, ha]
    rfl

theorem store_withRecords (op : StoreOp) (a v : Word) :
    store (c.withRecords x s) op a v =
      ((store c op a v).1, (store c op a v).2.withRecords x s) := by
  by_cases ha : Mmu.aligned op.width a = true
  · simp only [store, Cpu.withRecords, Cpu.privilege, ha, if_true]
    cases (c.dmmu.resolve a (Supervision.privilege c.sr) .write).bind
      (c.bus.store op.width · v) <;> rfl
  · simp only [store, Cpu.withRecords, ha]
    rfl

end Reference

namespace Cpu

/-- Coherent machines that differ in memos and records at most. -/
structure AccessTwins (c d : Cpu) : Prop where
  left : c.Coherent
  right : d.Coherent
  bare : ∃ x s, d.bare = c.bare.withRecords x s

namespace AccessTwins

variable {c d : Cpu}

theorem bus (h : c.AccessTwins d) : d.bus = c.bus := by
  obtain ⟨x, s, hbare⟩ := h.bare
  change d.bare.bus = c.bare.bus
  rw [hbare]
  rfl

/-- Answers that are equal without memos are equal, and leave twins again. -/
theorem of_bare {α : Type} {r r' : α} {x : ExceptionContext} {s : Statistics} (hc : c.Coherent)
    (hd : d.Coherent) (h : (r, c.bare.withRecords x s) = (r', d.bare)) :
    r' = r ∧ c.AccessTwins d := by
  obtain ⟨hresult, hstate⟩ := Prod.mk.inj h
  exact ⟨hresult.symm, hc, hd, x, s, hstate.symm⟩

theorem fetch (h : c.AccessTwins d) : d.fetch.1 = c.fetch.1 ∧ c.fetch.2.AccessTwins d.fetch.2 := by
  obtain ⟨x, s, hbare⟩ := h.bare
  have hfetch := fetch_bare h.right
  rw [hbare, Reference.fetch_withRecords, fetch_bare h.left] at hfetch
  exact of_bare h.left.fetch h.right.fetch hfetch

theorem load (h : c.AccessTwins d) (op : LoadOp) (a : Word) :
    (d.load op a).1 = (c.load op a).1 ∧ (c.load op a).2.AccessTwins (d.load op a).2 := by
  obtain ⟨x, s, hbare⟩ := h.bare
  have hload := load_bare h.right op a
  rw [hbare, Reference.load_withRecords, load_bare h.left] at hload
  exact of_bare (h.left.answer (.load op a)) (h.right.answer (.load op a)) hload

theorem store (h : c.AccessTwins d) (op : StoreOp) (a v : Word) :
    (d.store op a v).1 = (c.store op a v).1 ∧
      (c.store op a v).2.AccessTwins (d.store op a v).2 := by
  obtain ⟨x, s, hbare⟩ := h.bare
  have hstore := store_bare d op a v
  rw [hbare, Reference.store_withRecords, store_bare c] at hstore
  exact of_bare (h.left.answer (.store op a v)) (h.right.answer (.store op a v)) hstore

end AccessTwins

/-! ### Dispatch and return -/

theorem raise_returnFromException {c : Cpu} (h : c.Coherent) (hslot : c.inDelaySlot = false)
    (e : Exception) (a : Word) :
    (c.raise e a).returnFromException =
      { c with
        context := ⟨c.pc, if e.hasAddress then a else c.context.address, c.sr⟩
        fetchMemo := none
        immu := c.immu.forget
        dmmu := c.dmmu.forget
        statistics := c.statistics.record e 1 } := by
  have hnone : c.delaySlot = none := by simpa [inDelaySlot] using hslot
  have hpc : c.resumption = c.pc := by simp [resumption, hslot]
  have hsr : c.savedSr = c.sr := by simp [savedSr, hslot]
  -- The return sets the enables by the saved word; by coherence the units had them so before.
  have himmu : (c.raise e a).immu.setEnabled (Supervision.has c.sr .ime) = c.immu.forget := by
    rw [← h.immu_enabled]
    rfl
  have hdmmu : (c.raise e a).dmmu.setEnabled (Supervision.has c.sr .dme) = c.dmmu.forget := by
    rw [← h.dmmu_enabled]
    rfl
  have hcontext : (c.raise e a).context =
      ⟨c.pc, if e.hasAddress then a else c.context.address, c.sr⟩ := by
    rw [← hpc, ← hsr]
    rfl
  simp only [returnFromException, setSr, hcontext, himmu, hdmmu, ← hnone]
  rfl

/-- What a machine has in common with one that was interrupted and has been returned to. -/
structure Undone (c : Cpu) (e : Exception) (a : Word) (d : Cpu) : Prop where
  pc : d.pc = c.pc
  sr : d.sr = c.sr
  privilege : d.privilege = c.privilege
  enabled : d.immu.enabled = c.immu.enabled ∧ d.dmmu.enabled = c.dmmu.enabled
  inDelaySlot : d.inDelaySlot = false
  registers : d.registers = c.registers
  interrupts : d.interrupts = c.interrupts
  timer : d.timer = c.timer
  tables : d.immu.tlb = c.immu.tlb ∧ d.dmmu.tlb = c.dmmu.tlb
  controls : d.immu.control = c.immu.control ∧ d.dmmu.control = c.dmmu.control
  bus : d.bus = c.bus
  address : d.context.address = if e.hasAddress then a else c.context.address
  fetch : d.fetch.1 = c.fetch.1 ∧ d.fetch.2.bus = c.fetch.2.bus
  load (op : LoadOp) (b : Word) :
    (d.load op b).1 = (c.load op b).1 ∧ (d.load op b).2.bus = (c.load op b).2.bus
  store (op : StoreOp) (b v : Word) :
    (d.store op b v).1 = (c.store op b v).1 ∧ (d.store op b v).2.bus = (c.store op b v).2.bus

theorem Coherent.twins_of_return {c : Cpu} (h : c.Coherent) (hslot : c.inDelaySlot = false)
    (e : Exception) (a : Word) : c.AccessTwins (c.raise e a).returnFromException := by
  refine ⟨h, .returnFromException _, (c.raise e a).returnFromException.context,
    (c.raise e a).returnFromException.bare.statistics, ?_⟩
  rw [raise_returnFromException h hslot e a]
  rfl

theorem Coherent.undone {c : Cpu} (h : c.Coherent) (hslot : c.inDelaySlot = false) (e : Exception)
    (a : Word) : c.Undone e a (c.raise e a).returnFromException := by
  have hreturn := raise_returnFromException h hslot e a
  have htwins := h.twins_of_return hslot e a
  constructor
  case fetch => exact ⟨htwins.fetch.1, htwins.fetch.2.bus⟩
  case load => exact fun op b => ⟨(htwins.load op b).1, (htwins.load op b).2.bus⟩
  case store => exact fun op b v => ⟨(htwins.store op b v).1, (htwins.store op b v).2.bus⟩
  case inDelaySlot =>
    rw [hreturn]
    exact hslot
  case privilege =>
    rw [hreturn]
    rfl
  case enabled | tables | controls =>
    rw [hreturn]
    exact ⟨rfl, rfl⟩
  all_goals rw [hreturn]

end Cpu

/-- Outside of a delay slot, an exception that is dispatched and returned from leaves every state of
a session as it was: the program with its place, its privilege and its registers, paging with its
tables, the timer and the interrupts, memory and the serial line. The effective address is that of
the exception if it has one. The next access gives the same and does the same as without. -/
theorem Recorded.return_undoes_raise {past : History} {c : Cpu}
    (h : Recorded (fun _ => True) .initial past c) (hslot : c.inDelaySlot = false) (e : Exception)
    (a : Word) : c.Undone e a (c.raise e a).returnFromException :=
  (h.coherent (.reset _)).undone hslot e a

/-- Maps a page for a user, and reads from it as one. -/
def reading : List Action :=
  [.call (.poke .word 0x6008 0xcafe), .call (.setSpr 0x0a01 0x2001), .call (.setSpr 0x0a81 0x6040),
    .call (.setSr 0x8020), .call (.load .lwz 0x2004)]

/-- A user reads on from a remembered page after an exception that dropped it. -/
theorem Recorded.return_undoes_raise_reading :
    let c := ((Session.start .initial).performAll .real reading).now
    let d := (c.raise .dataTlbMiss 0x2008).returnFromException
    Memo.address? c.dmmu.memo 0x2008 = some 0x6008 ∧ d.dmmu.memo = none ∧
      d.privilege = .user ∧ d.context.address = 0x2008 ∧
      (d.load .lwz 0x2008).1.toOption = some 0xcafe := by
  intro c d
  have hrecorded : Recorded (fun _ => True) .initial _ c :=
    Recorded.performAll (s := Session.start .initial) .start fun _ _ => trivial
  have hundone : c.Undone .dataTlbMiss 0x2008 d :=
    hrecorded.return_undoes_raise (by decide +kernel) _ _
  have hfacts : Memo.address? c.dmmu.memo 0x2008 = some 0x6008 ∧ c.privilege = .user ∧
      (c.load .lwz 0x2008).1.toOption = some 0xcafe := by
    decide +kernel
  exact ⟨hfacts.1, rfl, hundone.privilege.trans hfacts.2.1, hundone.address,
    (congrArg Except.toOption (hundone.load _ _).1).trans hfacts.2.2⟩

end Orbis
