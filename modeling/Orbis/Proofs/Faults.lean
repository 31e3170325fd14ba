import Orbis.Proofs.Cycle

/-!
# The exceptions of a cycle

Which exceptions an access can end in, and from there which ones a cycle can raise. External
interrupts are not among them: only the beginning of a run takes those.
-/

namespace Orbis

/-- The exceptions that the accesses of one side end in. -/
def Side.faults (side : Side) : List Exception :=
  [.alignment, .busError, side.miss, side.pageFault]

/-- The exceptions that a cycle may raise. -/
def Exception.ofCycle : List Exception :=
  [.tickTimer, .systemCall, .illegalInstruction] ++ Side.instruction.faults ++ Side.data.faults

theorem error_of_bind {α β : Type} {x : Except Exception α} {f : α → Except Exception β}
    {e : Exception} (h : x.bind f = .error e) :
    x = .error e ∨ ∃ a, x = .ok a ∧ f a = .error e := by
  cases x with
  | error e' =>
    cases h
    exact .inl rfl
  | ok a => exact .inr ⟨a, rfl, h⟩

namespace Bus

theorem load_error {b : Bus} {w : Width} {a : Word} {e : Exception} (h : b.load w a = .error e) :
    e = .busError := by
  unfold load at h
  split at h
  · next offset _ =>
    unfold Ram.load at h
    split at h <;> cases h
    rfl
  · cases w <;> cases h <;> rfl
  · cases h
    rfl

theorem store_error {b : Bus} {w : Width} {a v : Word} {e : Exception}
    (h : b.store w a v = .error e) : e = .busError := by
  unfold store at h
  split at h
  · next offset _ =>
    unfold Ram.store at h
    split at h <;> cases h
    rfl
  · cases w <;> cases h <;> rfl
  · cases h
    rfl

end Bus

namespace Mmu

variable {side : Side} {m : Mmu side} {b : Bus} {w : Width} {a v : Word} {p : Privilege}
  {x : Access} {e : Exception}

theorem resolve_error (h : m.resolve a p x = .error e) : e ∈ side.faults := by
  unfold resolve at h
  split at h
  · split at h
    · cases h
      simp [Side.faults]
    · split at h <;> cases h
      simp [Side.faults]
  · cases h

theorem locate_error (h : (m.locate w a p).1 = .error e) : e ∈ side.faults := by
  unfold locate at h
  split at h
  · split at h
    · cases h
    · rw [translate_fst] at h
      exact resolve_error h
  · rw [translate_fst] at h
    exact resolve_error h

theorem load_error (h : (m.load b w a p).1 = .error e) : e ∈ side.faults := by
  unfold load at h
  split at h
  · rcases error_of_bind h with hl | ⟨physical, -, hb⟩
    · exact locate_error hl
    · simp [Side.faults, Bus.load_error hb]
  · cases h
    simp [Side.faults]

theorem store_error (h : (m.store b w a p v).1 = .error e) : e ∈ side.faults := by
  unfold store at h
  split at h
  · rcases error_of_bind h with hl | ⟨physical, -, hb⟩
    · rw [translate_fst] at hl
      exact resolve_error hl
    · simp [Side.faults, Bus.store_error hb]
  · cases h
    simp [Side.faults]

end Mmu

namespace Cpu

variable {c : Cpu} {e : Exception} {a : Word}

theorem locateFetch_error (h : c.locateFetch.1 = .error e) :
    c.immu.resolve c.pc c.privilege .fetch = .error e := by
  unfold locateFetch at h
  split at h
  · cases h
  · rw [← c.immu.translate_fst c.pc c.privilege .fetch]
    generalize c.immu.translate c.pc c.privilege .fetch = t at h
    obtain ⟨located, immu⟩ := t
    cases located with
    | error e' => exact h
    | ok physical => cases h

theorem fetch_error (h : c.fetch.1 = .error e) : e ∈ Side.instruction.faults := by
  unfold fetch at h
  split at h
  · have hlocate := locateFetch_error (c := c) (e := e)
    generalize c.locateFetch = l at h hlocate
    obtain ⟨located, d⟩ := l
    dsimp only at h hlocate
    cases hb : located.bind (d.bus.load .word) with
    | ok r =>
      rw [hb] at h
      cases h
    | error e' =>
      rw [hb] at h
      cases h
      rcases error_of_bind hb with hl | ⟨physical, -, hload⟩
      · exact Mmu.resolve_error (hlocate hl)
      · simp [Side.faults, Bus.load_error hload]
  · cases h
    simp [Side.faults]

theorem Effect.fault {i : Instruction} {d : Cpu} (h : c.Effect i d (.fault e a)) :
    e ∈ [.tickTimer, .systemCall, .illegalInstruction] ∨ e ∈ Side.data.faults := by
  cases h with
  | sys | mtsprTick | illegal => exact .inl (by simp)
  | loadFault h => exact .inr (Mmu.load_error (congrArg Prod.fst h))
  | storeFault h => exact .inr (Mmu.store_error (congrArg Prod.fst h))

theorem issue_error (h : c.issue.1 = .error e) : e = .tickTimer ∨ e ∈ Side.instruction.faults := by
  rw [issue_eq] at h
  split at h
  · cases h
    exact .inl rfl
  · exact .inr (fetch_error h)

/-- A cycle raises nothing but timer interrupts, system calls and the faults of its fetch and of
its instruction. -/
theorem attempt_fault (h : c.attempt.2 = .fault e a) : e ∈ Exception.ofCycle := by
  unfold Exception.ofCycle
  cases hi : c.issued? with
  | none =>
    obtain ⟨e', hissue, hattempt⟩ := attempt_of_not_issued hi
    rw [hattempt] at h
    cases h
    rcases issue_error hissue with rfl | he
    · simp
    · simp [he]
  | some i =>
    have heffect := c.fetched.execute_effect i
    rw [attempt_of_issued hi] at h
    rw [h] at heffect
    rcases heffect.fault with he | he
    · simp only [List.append_assoc, List.mem_append]
      exact .inl he
    · simp [he]

theorem cycle_of_exception (h : c.cycle.2 = some (.exception e)) :
    ∃ a, c.attempt.2 = .fault e a ∧ c.cycle.1 = c.attempt.1.raise e a := by
  unfold cycle at h ⊢
  generalize c.attempt = r at h ⊢
  obtain ⟨d, flow⟩ := r
  cases flow with
  | next => cases h
  | halt => cases h
  | fault e' a =>
    cases h
    exact ⟨a, rfl, rfl⟩

theorem cycle_exception (h : c.cycle.2 = some (.exception e)) : e ∈ Exception.ofCycle := by
  obtain ⟨a, hfault, -⟩ := cycle_of_exception h
  exact attempt_fault hfault

/-- The cycles of a run never end it with an external interrupt. -/
theorem cycles_ne_externalInterrupt (c : Cpu) (budget : Nat) :
    (c.cycles budget).2 ≠ .exception .externalInterrupt := by
  induction budget generalizing c with
  | zero => exact nofun
  | succ n ih =>
    have hc := cycle_exception (c := c) (e := .externalInterrupt)
    unfold cycles
    generalize c.cycle = r at hc
    obtain ⟨d, stop⟩ := r
    cases stop with
    | none => exact ih d
    | some o =>
      rintro rfl
      exact absurd (hc rfl) (by decide)

end Cpu

end Orbis
