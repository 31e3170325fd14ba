import Orbis.Proofs.Session
import Orbis.Supervision

/-!
# Coherence of the memos

A machine is coherent when both units follow the enables of the supervision register and every
remembered page answers as a full translation would at the present privilege. Whatever may change
the privilege, the enables or the tables drops the pages that it could make wrong, so coherence
survives every cycle and every run.
-/

namespace Orbis

namespace Cpu

/-- The units follow the supervision register, and remembered pages are sound. -/
structure Coherent (c : Cpu) : Prop where
  immu_enabled : c.immu.enabled = Supervision.has c.sr .ime
  dmmu_enabled : c.dmmu.enabled = Supervision.has c.sr .dme
  fetch_sound : Memo.Sound c.fetchMemo (c.immu.resolve · c.privilege .fetch)
  load_sound : c.dmmu.Coherent c.privilege

namespace Coherent

variable {c : Cpu}

theorem setSr (c : Cpu) (v : Word) : (c.setSr v).Coherent where
  immu_enabled := rfl
  dmmu_enabled := rfl
  fetch_sound := Memo.Sound.none _
  load_sound := .of_memo_none rfl _

theorem setReg (h : c.Coherent) (r : Reg) (v : Word) : (c.setReg r v).Coherent :=
  ⟨h.immu_enabled, h.dmmu_enabled, h.fetch_sound, h.load_sound⟩

theorem advance (h : c.Coherent) : c.advance.Coherent :=
  ⟨h.immu_enabled, h.dmmu_enabled, h.fetch_sound, h.load_sound⟩

theorem jump (h : c.Coherent) (t : Word) : (c.jump t).Coherent :=
  ⟨h.immu_enabled, h.dmmu_enabled, h.fetch_sound, h.load_sound⟩

theorem setFlag (h : c.Coherent) (on : Bool) : (c.setFlag on).Coherent := by
  have hp : (c.setFlag on).privilege = c.privilege := by
    unfold privilege Supervision.privilege
    rw [show Supervision.has (c.setFlag on).sr .sm = Supervision.has c.sr .sm from
      Supervision.has_put_of_ne c.sr on (by decide)]
  constructor
  · rw [show Supervision.has (c.setFlag on).sr .ime = Supervision.has c.sr .ime from
      Supervision.has_put_of_ne c.sr on (by decide)]
    exact h.immu_enabled
  · rw [show Supervision.has (c.setFlag on).sr .dme = Supervision.has c.sr .dme from
      Supervision.has_put_of_ne c.sr on (by decide)]
    exact h.dmmu_enabled
  · rw [hp]
    exact h.fetch_sound
  · rw [hp]
    exact h.load_sound

/-- A data unit of the same table may take the place of the present one. -/
theorem withDmmu (h : c.Coherent) {m : Mmu .data}
    (hm : m.bare = c.dmmu.bare ∧ m.Coherent c.privilege) (b : Bus) :
    ({ c with dmmu := m, bus := b }).Coherent where
  immu_enabled := h.immu_enabled
  dmmu_enabled := (Mmu.enabled_eq_of_bare hm.1).trans h.dmmu_enabled
  fetch_sound := h.fetch_sound
  load_sound := hm.2

theorem writeAt_enabled {side : Side} (m : Mmu side) (index : Nat) (v : Word) :
    (m.writeAt index v).enabled = m.enabled := by
  unfold Mmu.writeAt
  cases Mmu.register? index with
  | none => rfl
  | some r => cases r <;> rfl

theorem writeAt_memo {side : Side} (m : Mmu side) (index : Nat) (v : Word) :
    (m.writeAt index v).memo = none := by
  unfold Mmu.writeAt
  cases Mmu.register? index with
  | none => rfl
  | some r => cases r <;> rfl

theorem writeSpr (h : c.Coherent) (r : Spr) (v : Word) : (c.writeSpr r v).Coherent := by
  cases r with
  | supervision => exact .setSr c v
  | mmu side i =>
    cases side with
    | data =>
      exact ⟨h.immu_enabled, (writeAt_enabled _ i v).trans h.dmmu_enabled, Memo.Sound.none _,
        .of_memo_none (writeAt_memo _ i v) _⟩
    | instruction =>
      exact ⟨(writeAt_enabled _ i v).trans h.immu_enabled, h.dmmu_enabled, Memo.Sound.none _,
        h.load_sound⟩
  | _ => exact ⟨h.immu_enabled, h.dmmu_enabled, h.fetch_sound, h.load_sound⟩

theorem setSpr (h : c.Coherent) (a v : Word) : (c.setSpr a v).Coherent := h.writeSpr _ v

theorem raise (c : Cpu) (e : Exception) (a : Word) : (c.raise e a).Coherent := .setSr _ _

theorem returnFromException (c : Cpu) : c.returnFromException.Coherent := .setSr _ _

theorem reset (c : Cpu) : c.reset.Coherent := .setSr _ _

theorem effect (h : c.Coherent) {i : Instruction} {d : Cpu} {f : Flow} (he : c.Effect i d f) :
    d.Coherent := by
  cases he with
  | compute v _ => exact (h.setReg _ v).advance
  | compare on _ => exact (h.setFlag on).advance
  | transfer _ =>
    split
    · exact Coherent.jump (h.setReg _ _) _
    · exact h.jump _
  | skip _ _ _ => exact h.advance
  | stop _ => exact h
  | trap k => exact h.advance
  | sys k => exact ⟨h.immu_enabled, h.dmmu_enabled, h.fetch_sound, h.load_sound⟩
  | rfe => exact .returnFromException c
  | load hl => exact ((h.withDmmu (h.load_sound.of_load_eq hl) _).setReg _ _).advance
  | loadFault hl => exact h.withDmmu (h.load_sound.of_load_eq hl) c.bus
  | store hs => exact (h.withDmmu (h.load_sound.of_store_eq hs) _).advance
  | storeFault hs => exact h.withDmmu (h.load_sound.of_store_eq hs) c.bus
  | mtspr _ => exact (h.setSpr _ _).advance
  | mtsprTick _ => exact h.setSpr _ _
  | illegal w => exact h

/-! ### Cycles and runs -/

theorem locateFetch (h : c.Coherent) : c.locateFetch.2.Coherent := by
  unfold Cpu.locateFetch
  split
  · exact ⟨h.immu_enabled, h.dmmu_enabled, h.fetch_sound, h.load_sound⟩
  · have himmu := c.immu.translate_snd c.pc c.privilege .fetch
    have hres := c.immu.translate_fst c.pc c.privilege .fetch
    generalize c.immu.translate c.pc c.privilege .fetch = t at himmu hres
    obtain ⟨located, immu⟩ := t
    simp only at himmu hres
    have hen : immu.enabled = Supervision.has c.sr .ime := by
      rw [himmu]
      exact h.immu_enabled
    have htable : immu.resolve = c.immu.resolve := by
      rw [himmu]
      rfl
    have hkept : Memo.Sound c.fetchMemo (immu.resolve · c.privilege .fetch) := by
      rw [htable]
      exact h.fetch_sound
    cases located with
    | error e => exact ⟨hen, h.dmmu_enabled, hkept, h.load_sound⟩
    | ok physical =>
      simp only
      split
      · next hram =>
        have hnew := c.immu.sound_of_resolve hres.symm hram
        rw [← htable] at hnew
        exact ⟨hen, h.dmmu_enabled, hnew, h.load_sound⟩
      · exact ⟨hen, h.dmmu_enabled, hkept, h.load_sound⟩

theorem fetch (h : c.Coherent) : c.fetch.2.Coherent := by
  unfold Cpu.fetch
  split
  · have hl := h.locateFetch
    generalize c.locateFetch = l at hl ⊢
    obtain ⟨located, d⟩ := l
    simp only
    cases located.bind (d.bus.load .word) with
    | error e => exact hl
    | ok r => exact ⟨hl.immu_enabled, hl.dmmu_enabled, hl.fetch_sound, hl.load_sound⟩
  · exact h

theorem ticked (h : c.Coherent) : c.ticked.Coherent :=
  ⟨h.immu_enabled, h.dmmu_enabled, h.fetch_sound, h.load_sound⟩

theorem issue (h : c.Coherent) : c.issue.2.Coherent := by
  rw [issue_eq]
  split
  · exact h.ticked
  · exact h.ticked.fetch

theorem fetched (h : c.Coherent) : c.fetched.Coherent :=
  ⟨h.issue.immu_enabled, h.issue.dmmu_enabled, h.issue.fetch_sound, h.issue.load_sound⟩

theorem attempt (h : c.Coherent) : c.attempt.1.Coherent := by
  cases hi : c.issued? with
  | none =>
    obtain ⟨e, -, he⟩ := attempt_of_not_issued hi
    rw [he]
    exact h.issue
  | some i =>
    rw [attempt_of_issued hi]
    exact h.fetched.effect (c.fetched.execute_effect i)

theorem follow (h : c.Coherent) (f : Flow) : (c.follow f).1.Coherent := by
  cases f with
  | next => exact h
  | halt => exact h
  | fault e a => exact .raise c e a

theorem cycle (h : c.Coherent) : c.cycle.1.Coherent := h.attempt.follow _

theorem sampleInterrupts (h : c.Coherent) : c.sampleInterrupts.Coherent :=
  ⟨h.immu_enabled, h.dmmu_enabled, h.fetch_sound, h.load_sound⟩

theorem settle (h : c.Coherent) (o : Outcome) : (c.settle o).Coherent :=
  ⟨h.immu_enabled, h.dmmu_enabled, h.fetch_sound, h.load_sound⟩

theorem answer (h : c.Coherent) (k : Call) : (c.answer k).2.Coherent := by
  cases k with
  | reset => exact .reset c
  | loadImage image pc =>
    have hreset := Coherent.reset c
    simp only [Cpu.answer, hosted, Simulator.loadImage]
    split
    · exact ⟨hreset.immu_enabled, hreset.dmmu_enabled, hreset.fetch_sound, hreset.load_sound⟩
    · exact ⟨hreset.immu_enabled, hreset.dmmu_enabled, hreset.fetch_sound, hreset.load_sound⟩
  | setReg r v => exact h.setReg r v
  | setSr v => exact .setSr c v
  | setSpr a v => exact h.setSpr a v
  | load op a =>
    simp only [Cpu.answer, Cpu.load]
    cases hl : c.dmmu.load c.bus op.width a c.privilege with
    | mk r m =>
      have hm := h.load_sound.of_load_eq hl
      cases r with
      | ok r => exact h.withDmmu hm r.2
      | error e => exact h.withDmmu hm c.bus
  | store op a v =>
    simp only [Cpu.answer, Cpu.store]
    cases hs : c.dmmu.store c.bus op.width a c.privilege v with
    | mk r m =>
      have hm := h.load_sound.of_store_eq hs
      cases r with
      | ok bus => exact h.withDmmu hm bus
      | error e => exact h.withDmmu hm c.bus
  | raise e a => exact .raise c e a
  | returnFromException => exact .returnFromException c
  | peek w a =>
    simp only [Cpu.answer]
    split
    · exact ⟨h.immu_enabled, h.dmmu_enabled, h.fetch_sound, h.load_sound⟩
    · exact h
  | poke w a v =>
    simp only [Cpu.answer]
    split
    · exact ⟨h.immu_enabled, h.dmmu_enabled, h.fetch_sound, h.load_sound⟩
    · exact h
  | place image offset =>
    simp only [Cpu.answer]
    split
    · exact ⟨h.immu_enabled, h.dmmu_enabled, h.fetch_sound, h.load_sound⟩
    · exact h
  | setPc | readSpr | press | take | drain =>
    exact ⟨h.immu_enabled, h.dmmu_enabled, h.fetch_sound, h.load_sound⟩

theorem after (h : c.Coherent) (s : Step) : (s.after c).Coherent := by
  cases s with
  | call k r => exact h.answer k
  | sample => exact h.sampleInterrupts
  | interrupt => exact .raise _ _ _
  | cycle => exact h.cycle
  | settle o => exact h.settle o

end Coherent

end Cpu

/-- Every state of a session that begins in a coherent state is coherent. -/
theorem Recorded.coherent {allowed : Call → Prop} {start : Cpu} {past : History} {c : Cpu}
    (hstart : start.Coherent) (h : Recorded allowed start past c) : c.Coherent := by
  induction h with
  | start => exact hstart
  | push _ _ ih => exact ih.after _

end Orbis
