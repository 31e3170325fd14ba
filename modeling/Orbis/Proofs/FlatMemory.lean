import Orbis.Proofs.ConsoleBytes
import Orbis.Proofs.Reference

/-!
# Memory as one array of bytes

Whatever the pages, the widths and the paths of accesses, memory is one array of bytes: each byte
is the one that was stored there last, read off the history, and a load or a fetch makes its datum
of the bytes at its physical address, the first of which is the highest.
-/

namespace Orbis

/-- What a load makes of the bytes of its datum. -/
def LoadOp.compose (op : LoadOp) (bs : List Byte) : Word :=
  if op.isSigned then (BitVec.ofNat (8 * bs.length) (bigEndian bs)).signExtend 32
  else .ofNat 32 (bigEndian bs)

theorem Ram.extend_read {size : Nat} (r : Ram size) (op : LoadOp) (i : Nat) :
    op.extend (r.read op.width i) = op.compose (bytesFrom r.byte i op.width.size) := by
  have hlength : (bytesFrom r.byte i op.width.size).length = op.width.size := by
    simp [bytesFrom]
  unfold LoadOp.compose
  rw [hlength, ← toNat_read]
  cases op <;> simp [LoadOp.extend, LoadOp.isSigned, LoadOp.width, Width.size]

namespace Bus

variable {b b' : Bus} {w : Width} {a v : Word}

theorem load_bytes {u : Word} (h : isRam a = true) (hl : b.load w a = .ok (u, b')) :
    a.toNat + w.size ≤ ramSize ∧ u = b.ram.read w a.toNat := by
  rw [load_of_isRam h, Ram.load] at hl
  split at hl
  · next hin =>
    cases hl
    exact ⟨hin, rfl⟩
  · cases hl

theorem ram_load {u : Word} (h : b.load w a = .ok (u, b')) : b'.ram = b.ram := by
  rcases load_cases h with ⟨-, rfl, -⟩ | ⟨-, -, rfl⟩
  · rfl
  · rfl

theorem byte_store_eq (h : b.store w a v = .ok b') {j : Nat} (hj : j < ramSize) :
    b'.ram.byte j =
      if isRam a = true ∧ a.toNat ≤ j ∧ j < a.toNat + w.size then
        v.extractLsb' (8 * (a.toNat + w.size - 1 - j)) 8
      else b.ram.byte j := by
  by_cases hram : isRam a = true
  · rw [store_of_isRam hram, Ram.store] at h
    split at h
    · next hin =>
      cases h
      simp only [hram, true_and]
      exact b.ram.byte_write w v hin hj
    · cases h
  · rw [if_neg fun hin => hram hin.1]
    rcases store_cases h with ⟨hin, -⟩ | ⟨-, rfl⟩
    · exact absurd hin hram
    · rfl

end Bus

/-! ### The byte stored last -/

/-- What traffic leaves at an address of memory, if it stores there. -/
def Traffic.written? (j : Nat) : Traffic → Option Byte
  | store w a v =>
    if Bus.isRam a = true ∧ a.toNat ≤ j ∧ j < a.toNat + w.size then
      some (v.extractLsb' (8 * (a.toNat + w.size - 1 - j)) 8)
    else .none
  | _ => .none

/-- The byte that a history has stored at an address last, or what was there at its beginning. -/
def History.latest (initial : Nat → Byte) : History → Nat → Byte
  | [], j => initial j
  | (c, step) :: past, j => ((step.traffic c).written? j).getD (History.latest initial past j)

theorem Traffic.Moves.byte {t : Traffic} {b b' : Bus} (h : t.Moves b b') {j : Nat}
    (hj : j < Bus.ramSize) : b'.ram.byte j = (t.written? j).getD (b.ram.byte j) := by
  cases h with
  | load h hv =>
    rw [Bus.ram_load h]
    rfl
  | store h =>
    rw [Bus.byte_store_eq h hj, written?]
    split <;> rfl
  | none | press | read | drain => rfl

theorem Step.byte_after {allowed : Call → Prop} (himage : ∀ k, allowed k → ¬k.Places) {c : Cpu}
    {step : Step} (hc : c.Coherent) (hs : step.Possible allowed c) {j : Nat}
    (hj : j < Bus.ramSize) :
    (step.after c).bus.ram.byte j = ((step.traffic c).written? j).getD (c.bus.ram.byte j) := by
  cases step with
  | call k r =>
    rw [hs.2]
    exact (Cpu.call_moves hc (himage k hs.1)).byte hj
  | cycle => exact (Cpu.cycle_moves hc).byte hj
  | sample | interrupt | settle => rfl

/-- Memory holds what was stored last. -/
theorem Recorded.byte_eq_latest {allowed : Call → Prop} (himage : ∀ k, allowed k → ¬k.Places)
    {start c : Cpu} {past : History} (hstart : start.Coherent)
    (h : Recorded allowed start past c) {j : Nat} (hj : j < Bus.ramSize) :
    c.bus.ram.byte j = past.latest start.bus.ram.byte j := by
  induction h with
  | start => rfl
  | push h hs ih => rw [Step.byte_after himage (h.coherent hstart) hs hj, ih, History.latest]

/-! ### Loads and fetches -/

/-- The words that a step fetches. -/
inductive Step.Fetches (c : Cpu) : Step → Word → Prop
  | cycle {word : Word} (h : c.issue.1 = .ok word) : Fetches c .cycle word

namespace Step

variable {c : Cpu} {step : Step} {a v word : Word} {memory : Nat → Byte}

theorem Fetches.resolves (hc : c.Coherent) (h : step.Fetches c word) :
    ∃ physical b, c.immu.resolve c.pc c.privilege .fetch = .ok physical ∧
      c.bus.load .word physical = .ok (word, b) := by
  obtain ⟨hissue⟩ := h
  rw [Cpu.issue_fst hc] at hissue
  split at hissue
  · cases hissue
  · split at hissue
    · obtain ⟨physical, hresolve, hload⟩ := ok_of_bind_eq_ok hissue
      cases hbus : c.bus.load .word physical with
      | error e =>
        rw [hbus] at hload
        cases hload
      | ok r =>
        rw [hbus] at hload
        cases hload
        exact ⟨physical, r.2, hresolve, hbus⟩
    · cases hissue

theorem bytes_eq (hmemory : ∀ j, j < Bus.ramSize → c.bus.ram.byte j = memory j) {i count : Nat}
    (hi : i + count ≤ Bus.ramSize) :
    bytesFrom c.bus.ram.byte i count = bytesFrom memory i count :=
  bytesFrom_congr fun j _ hj => hmemory j (Nat.lt_of_lt_of_le hj hi)

theorem Loads.composes {allowed : Call → Prop} {op : LoadOp} (hc : c.Coherent)
    (hs : step.Possible allowed c)
    (hmemory : ∀ j, j < Bus.ramSize → c.bus.ram.byte j = memory j) (h : step.Loads c op a v) :
    ∃ physical, c.dmmu.resolve a c.privilege .read = .ok physical ∧
      (Bus.isRam physical = true →
        v = op.compose (bytesFrom memory physical.toNat op.width.size)) := by
  obtain ⟨physical, u, hresolve, hbus, rfl⟩ := h.resolves hc hs
  refine ⟨physical, hresolve, fun hram => ?_⟩
  obtain ⟨hin, rfl⟩ := Bus.load_bytes hram hbus
  rw [Ram.extend_read, bytes_eq hmemory hin]

theorem Fetches.composes (hc : c.Coherent)
    (hmemory : ∀ j, j < Bus.ramSize → c.bus.ram.byte j = memory j) (h : step.Fetches c word) :
    ∃ physical, c.immu.resolve c.pc c.privilege .fetch = .ok physical ∧
      (Bus.isRam physical = true →
        word = .ofNat 32 (bigEndian (bytesFrom memory physical.toNat 4))) := by
  obtain ⟨physical, b, hresolve, hbus⟩ := h.resolves hc
  refine ⟨physical, hresolve, fun hram => ?_⟩
  obtain ⟨hin, rfl⟩ := Bus.load_bytes hram hbus
  rw [show (4 : Nat) = Width.word.size from rfl, ← bytes_eq hmemory hin, ← Ram.toNat_read,
    BitVec.ofNat_toNat, BitVec.setWidth_eq]

end Step

/-- Memory is one flat array of bytes. From any state that a host can bring a machine to, and as
long as no image is loaded, each byte of memory is the one stored there last, whatever the pages and
the widths of the accesses. Loads and fetches that lead to memory give the bytes at their physical
address, composed with the highest one first and extended as the load says; stores put the low bytes
of their value there and leave all others alone. -/
theorem Session.memory_flat (before as : List Action) :
    let start := ((Session.start .initial).performAll .real before).now
    let s := (Session.start start).performAll .real as
    (∀ k, Action.call k ∈ as → ¬k.Places) →
    ∀ (c : Cpu) (step : Step) (older : History), (c, step) :: older <:+ s.past →
      let memory := History.latest start.bus.ram.byte older
      (∀ j, j < Bus.ramSize → c.bus.ram.byte j = memory j) ∧
      (∀ op a v, step.Loads c op a v →
        ∃ physical, c.dmmu.resolve a c.privilege .read = .ok physical ∧
          (Bus.isRam physical = true →
            v = op.compose (bytesFrom memory physical.toNat op.width.size))) ∧
      (∀ word, step.Fetches c word →
        ∃ physical, c.immu.resolve c.pc c.privilege .fetch = .ok physical ∧
          (Bus.isRam physical = true →
            word = .ofNat 32 (bigEndian (bytesFrom memory physical.toNat 4)))) ∧
      (∀ op a v, step.Stores c op a v →
        ∃ physical, c.dmmu.resolve a c.privilege .write = .ok physical ∧
          (Bus.isRam physical = true → ∀ j, j < Bus.ramSize →
            (step.after c).bus.ram.byte j =
              if physical.toNat ≤ j ∧ j < physical.toNat + op.width.size then
                v.extractLsb' (8 * (physical.toNat + op.width.size - 1 - j)) 8
              else c.bus.ram.byte j)) := by
  intro start s himage c step older hmoment memory
  have hstart : start.Coherent :=
    (Recorded.performAll (s := Session.start .initial) .start fun _ _ => trivial).coherent
      (.reset _)
  have hrecorded : Recorded (fun k => ¬k.Places) start s.past s.now :=
    Recorded.performAll (s := Session.start start) .start himage
  obtain ⟨hc, hpossible⟩ := hrecorded.of_suffix hmoment
  have hcoherent := hc.coherent hstart
  have hmemory (j : Nat) (hj : j < Bus.ramSize) : c.bus.ram.byte j = memory j :=
    hc.byte_eq_latest (fun _ hk => hk) hstart hj
  refine ⟨hmemory, ?_, ?_, ?_⟩
  · intro op a v hl
    exact hl.composes hcoherent hpossible hmemory
  · intro word hf
    exact hf.composes hcoherent hmemory
  · intro op a v hw
    obtain ⟨physical, hresolve, hstore⟩ := hw.resolves hpossible
    refine ⟨physical, hresolve, fun hram j hj => ?_⟩
    simpa only [hram, true_and] using Bus.byte_store_eq hstore hj

/-- Maps two pages of a user to one page of memory. The program stores a word through the first,
reads it through the second, replaces its low half through the first, and reads again. -/
def aliased : List Action :=
  [(0, .store .sw 0 5 0x2000), (4, .load .lwz 6 0 0x4000), (8, .store .sh 0 7 0x2002),
      (12, .load .lwz 8 0 0x4000)].map
      (fun (a, i) => .call (.poke .word a (Instruction.encode i))) ++
    [.call (.setSpr 0x0a01 0x2001), .call (.setSpr 0x0a81 0x60c0), .call (.setSpr 0x0a02 0x4001),
      .call (.setSpr 0x0a82 0x60c0), .call (.setSr 0x8020)]

def aliasing : List Action :=
  [.call (.setReg 5 0x11223344), .call (.setReg 7 0xdeadbeef), .run 4]

/-- The second load finds its page remembered, and gives the bytes that the two stores through the
other page have left. -/
theorem Session.memory_flat_aliased :
    let start := ((Session.start .initial).performAll .real aliased).now
    let s := (Session.start start).performAll .real aliasing
    ∃ (c : Cpu) (older : History), (c, .cycle) :: older <:+ s.past ∧
      Memo.address? c.dmmu.memo 0x4000 = some 0x6000 ∧
      Step.cycle.Loads c .lwz 0x4000 0x1122beef ∧
      bytesFrom (History.latest start.bus.ram.byte older) 0x6000 4 = [0x11, 0x22, 0xbe, 0xef] ∧
      ∃ physical, c.dmmu.resolve 0x4000 c.privilege .read = .ok physical ∧
        (Bus.isRam physical = true → 0x1122beef = LoadOp.lwz.compose
          (bytesFrom (History.latest start.bus.ram.byte older) physical.toNat 4)) := by
  intro start s
  have himage (k : Call) (hk : Action.call k ∈ aliasing) : ¬k.Places := by
    simp only [aliasing, List.mem_cons, Action.call.injEq, reduceCtorEq, List.not_mem_nil,
      or_false] at hk
    rcases hk with rfl | rfl <;> exact id
  obtain ⟨c, older, hmoment, hfacts⟩ := History.exists_cycle s.past 1
    (fun c older => c.issued? = some (.load .lwz 8 0 0x4000) ∧ c.cycle.2 = none ∧
      c.displaced 0 0x4000 = 0x4000 ∧ c.cycle.1.reg 8 = 0x1122beef ∧
      Memo.address? c.dmmu.memo 0x4000 = some 0x6000 ∧
      bytesFrom (History.latest start.bus.ram.byte older) 0x6000 4 = [0x11, 0x22, 0xbe, 0xef])
    (by decide +kernel)
  obtain ⟨hi, hnext, haddress, hvalue, hmemo, hbytes⟩ := of_decide_eq_true hfacts
  have hloads : Step.cycle.Loads c .lwz 0x4000 0x1122beef := by
    rw [← haddress, ← hvalue]
    exact .cycle hi hnext
  obtain ⟨-, hload, -, -⟩ := Session.memory_flat aliased aliasing himage c .cycle older hmoment
  exact ⟨c, older, hmoment, hmemo, hloads, hbytes, hload .lwz 0x4000 0x1122beef hloads⟩

end Orbis
