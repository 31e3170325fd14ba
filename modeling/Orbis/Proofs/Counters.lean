import Orbis.Proofs.PreciseFaults

/-!
# Counters

Nothing that a machine does depends on its counters. A machine with counters ahead by some amounts
does the same and stays ahead by them, except that the end of a run sets two of the counters by two
others. What does not go through the bus commutes with a change of the bus as well.
-/

namespace Orbis

/-- The counters of a machine. -/
inductive Counter where
  | cycles
  | instructions
  | exceptions
  /-- Dispatches of the exception with an index. -/
  | dispatches (i : Fin 14)
  | halts
  | fetchFast
  | fetchSlow
  /-- What the statistics tell of the hits of the data unit. -/
  | dataHits
  /-- What the statistics tell of the misses of the data unit. -/
  | dataMisses
  | hits (side : Side)
  | misses (side : Side)

/-- The counter that decides on a counter at the end of a run. -/
def Counter.source : Counter → Counter
  | dataHits => hits .data
  | dataMisses => misses .data
  | q => q

theorem Counter.source_source (q : Counter) : q.source.source = q.source := by
  cases q <;> rfl

namespace Statistics

/-- Statistics ahead by given numbers. -/
def ahead (s : Statistics) (n : Counter → Nat) : Statistics where
  -- The numbers stand on the left, so counting commutes with this by definition.
  cycles := n .cycles + s.cycles
  instructions := n .instructions + s.instructions
  exceptions := n .exceptions + s.exceptions
  byException := .ofFn fun i => n (.dispatches i) + s.byException[i]
  halts := n .halts + s.halts
  fetchFast := n .fetchFast + s.fetchFast
  fetchSlow := n .fetchSlow + s.fetchSlow
  dataHits := n .dataHits + s.dataHits
  dataMisses := n .dataMisses + s.dataMisses

theorem record_ahead (s : Statistics) (n : Counter → Nat) (e : Exception) :
    (s.ahead n).record e 1 = (s.record e 1).ahead n := by
  have hvector : (s.ahead n).byException.set e.index ((s.ahead n).exceptionsOf e + 1) =
      ((s.record e 1).ahead n).byException := by
    apply Vector.ext
    intro i hi
    simp only [ahead, record, exceptionsOf, Vector.getElem_set, Vector.getElem_ofFn,
      Fin.getElem_fin]
    split
    · next heq =>
      subst heq
      rfl
    · rfl
  simp only [record, hvector]
  rfl

end Statistics

namespace Mmu

variable {side : Side}

def ahead (m : Mmu side) (n : Counter → Nat) : Mmu side :=
  { m with hits := n (.hits side) + m.hits, misses := n (.misses side) + m.misses }

theorem remember_ahead (m : Mmu side) (n : Counter → Nat) (a physical : Word) (x : Access) :
    (m.ahead n).remember a physical x = (m.remember a physical x).ahead n := by
  unfold remember
  split
  · rfl
  · split <;> rfl

theorem translate_ahead (m : Mmu side) (n : Counter → Nat) (a : Word) (p : Privilege)
    (x : Access) :
    (m.ahead n).translate a p x = ((m.translate a p x).1, (m.translate a p x).2.ahead n) := by
  unfold translate
  rw [show (m.ahead n).resolve a p x = m.resolve a p x from rfl]
  cases m.resolve a p x with
  | error e => rfl
  | ok physical => exact congrArg (Prod.mk _) (m.remember_ahead n a physical x)

theorem locate_ahead (m : Mmu side) (n : Counter → Nat) (w : Width) (a : Word) (p : Privilege) :
    (m.ahead n).locate w a p = ((m.locate w a p).1, (m.locate w a p).2.ahead n) := by
  unfold locate
  rw [show (m.ahead n).memo = m.memo from rfl]
  split
  · cases Memo.address? m.memo a with
    | some physical => rfl
    | none => exact { m with misses := m.misses + 1 }.translate_ahead n a p side.readAccess
  · exact m.translate_ahead n a p side.readAccess

theorem writeAt_ahead (m : Mmu side) (n : Counter → Nat) (index : Nat) (v : Word) :
    (m.ahead n).writeAt index v = (m.writeAt index v).ahead n := by
  unfold writeAt
  cases register? index with
  | none => rfl
  | some r => cases r <;> rfl

theorem load_ahead (m : Mmu side) (n : Counter → Nat) (b : Bus) (w : Width) (a : Word)
    (p : Privilege) :
    (m.ahead n).load b w a p = ((m.load b w a p).1, (m.load b w a p).2.ahead n) := by
  unfold load
  rw [locate_ahead]
  split <;> rfl

theorem store_ahead (m : Mmu side) (n : Counter → Nat) (b : Bus) (w : Width) (a : Word)
    (p : Privilege) (v : Word) :
    (m.ahead n).store b w a p v = ((m.store b w a p v).1, (m.store b w a p v).2.ahead n) := by
  unfold store
  rw [translate_ahead]
  split <;> rfl

end Mmu

namespace Cpu

/-- The machine with counters ahead by given numbers, on another bus. -/
def ahead (c : Cpu) (n : Counter → Nat) (b : Bus) : Cpu :=
  { c with
    immu := c.immu.ahead n
    dmmu := c.dmmu.ahead n
    bus := b
    statistics := c.statistics.ahead n }

def count (c : Cpu) : Counter → Nat
  | .cycles => c.statistics.cycles
  | .instructions => c.statistics.instructions
  | .exceptions => c.statistics.exceptions
  | .dispatches i => c.statistics.byException[i]
  | .halts => c.statistics.halts
  | .fetchFast => c.statistics.fetchFast
  | .fetchSlow => c.statistics.fetchSlow
  | .dataHits => c.statistics.dataHits
  | .dataMisses => c.statistics.dataMisses
  | .hits .instruction => c.immu.hits
  | .hits .data => c.dmmu.hits
  | .misses .instruction => c.immu.misses
  | .misses .data => c.dmmu.misses

/-- The machine with all counters at zero. -/
def uncounted (c : Cpu) : Cpu :=
  { c with
    immu := { c.immu with hits := 0, misses := 0 }
    dmmu := { c.dmmu with hits := 0, misses := 0 }
    statistics := .zero }

theorem ahead_uncounted (c : Cpu) : c.uncounted.ahead c.count c.bus = c := by
  have hvector : .ofFn (fun i => c.statistics.byException[i] + (Vector.replicate 14 0)[i]) =
      c.statistics.byException := by
    apply Vector.ext
    simp
  exact congrArg (fun v => { c with statistics := { c.statistics with byException := v } }) hvector

theorem count_ahead (c : Cpu) (n : Counter → Nat) (b : Bus) (q : Counter) :
    (c.ahead n b).count q = n q + c.count q := by
  cases q with
  | dispatches i => simp [ahead, Statistics.ahead, count]
  | hits side | misses side => cases side <;> rfl
  | _ => rfl

variable (c : Cpu) (n : Counter → Nat) (b : Bus)

theorem setSpr_ahead (a v : Word) : (c.ahead n b).setSpr a v = (c.setSpr a v).ahead n b := by
  unfold setSpr writeSpr
  cases Spr.ofAddress a with
  | mmu side i =>
    cases side with
    | data => simp only [ahead, Mmu.writeAt_ahead]
    | instruction => simp only [ahead, Mmu.writeAt_ahead]
  | _ => rfl

theorem spr_ahead (a : Word) : (c.ahead n b).spr a = c.spr a := by
  unfold spr readSpr
  cases Spr.ofAddress a with
  | mmu side i => cases side <;> rfl
  | _ => rfl

theorem raise_ahead (e : Exception) (a : Word) :
    (c.ahead n b).raise e a = (c.raise e a).ahead n b := by
  unfold raise
  rw [show (c.ahead n b).statistics = c.statistics.ahead n from rfl, Statistics.record_ahead]
  rfl

theorem locateFetch_ahead :
    (c.ahead n b).locateFetch = (c.locateFetch.1, c.locateFetch.2.ahead n b) := by
  have himmu := c.immu.translate_ahead n c.pc c.privilege .fetch
  unfold locateFetch
  rw [show Memo.address? (c.ahead n b).fetchMemo (c.ahead n b).pc =
      Memo.address? c.fetchMemo c.pc from rfl,
    show (c.ahead n b).immu.translate (c.ahead n b).pc (c.ahead n b).privilege .fetch = _ from
      himmu]
  cases Memo.address? c.fetchMemo c.pc with
  | some physical => rfl
  | none =>
    generalize c.immu.translate c.pc c.privilege .fetch = t
    obtain ⟨located, immu⟩ := t
    cases located with
    | error e => rfl
    | ok physical =>
      simp only
      split <;> rfl

theorem load_ahead (op : LoadOp) (a : Word) :
    (c.ahead n b).load op a =
      match c.dmmu.load b op.width a c.privilege with
      | (.ok (v, b'), m) => (.ok (op.extend v), { c with dmmu := m }.ahead n b')
      | (.error e, m) => (.error e, { c with dmmu := m }.ahead n b) := by
  have hload := c.dmmu.load_ahead n b op.width a c.privilege
  unfold load
  rw [show (c.ahead n b).dmmu.load (c.ahead n b).bus op.width a (c.ahead n b).privilege = _ from
    hload]
  generalize c.dmmu.load b op.width a c.privilege = l
  obtain ⟨r, m⟩ := l
  cases r <;> rfl

theorem store_ahead (op : StoreOp) (a v : Word) :
    (c.ahead n b).store op a v =
      match c.dmmu.store b op.width a c.privilege v with
      | (.ok b', m) => (.ok (), { c with dmmu := m }.ahead n b')
      | (.error e, m) => (.error e, { c with dmmu := m }.ahead n b) := by
  have hstore := c.dmmu.store_ahead n b op.width a c.privilege v
  unfold store
  rw [show (c.ahead n b).dmmu.store (c.ahead n b).bus op.width a (c.ahead n b).privilege v = _ from
    hstore]
  generalize c.dmmu.store b op.width a c.privilege v = l
  obtain ⟨r, m⟩ := l
  cases r <;> rfl

/-- Instructions without an access do not need the bus. -/
theorem execute_ahead {i : Instruction} (hi : c.accessAddress? i = none) :
    (c.ahead n b).execute i = ((c.execute i).1.ahead n b, (c.execute i).2) := by
  cases i with
  | load | store => cases hi
  | bnf k | bf k =>
    simp only [execute, show (c.ahead n b).flag = c.flag from rfl]
    cases c.flag <;> rfl
  | nop k =>
    simp only [execute, show (c.ahead n b).privilege = c.privilege from rfl]
    split <;> rfl
  | mfspr d a k =>
    simp only [execute, spr_ahead]
    rfl
  | mtspr a r k =>
    have hwrite := c.setSpr_ahead n b (c.sprAddress a k) (c.reg r)
    simp only [execute, show (c.ahead n b).sprAddress a k = c.sprAddress a k from rfl,
      show (c.ahead n b).reg r = c.reg r from rfl, hwrite]
    generalize c.setSpr (c.sprAddress a k) (c.reg r) = d
    rw [show (d.ahead n b).tickDue = d.tickDue from rfl]
    cases d.tickDue <;> rfl
  | _ => rfl

/-- The end of a run brings the counters ahead by as much as those that decide on them. -/
theorem settle_ahead (o : Outcome) :
    (c.ahead n b).settle o = (c.settle o).ahead (n ∘ Counter.source) b := by
  cases o <;> rfl

end Cpu

end Orbis
