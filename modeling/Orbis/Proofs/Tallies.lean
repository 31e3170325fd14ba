import Orbis.Proofs.Cycle

/-!
# What a cycle counts

Until its exception is dispatched, a cycle has counted itself, the fetch that it made and the
instruction that it issued. Dispatching then counts the exception, in total and by its kind.
-/

namespace Orbis

theorem Exception.index_inj {e e' : Exception} (h : e.index = e'.index) : e = e' := by
  rw [← e.all_getElem_index, ← e'.all_getElem_index]
  simp only [h]

theorem Statistics.exceptionsOf_record (s : Statistics) (e e' : Exception) (n : Nat) :
    (s.record e n).exceptionsOf e' = s.exceptionsOf e' + if e = e' then n else 0 := by
  simp only [record, exceptionsOf, Fin.getElem_fin, Vector.getElem_set]
  by_cases h : e = e'
  · subst h
    rw [if_pos rfl, if_pos rfl]
  · have hindex : ¬e.index.val = e'.index.val := by
      intro hval
      exact h (Exception.index_inj (Fin.ext hval))
    rw [if_neg hindex, if_neg h, Nat.add_zero]

namespace Cpu

variable {c d : Cpu}

theorem statistics_writeSpr (c : Cpu) (r : Spr) (v : Word) :
    (c.writeSpr r v).statistics = c.statistics := by
  obtain ⟨_, _, _, _, _, _, _, hframe⟩ := c.writeSpr_frame r v
  rw [hframe]

theorem Effect.statistics_eq {i : Instruction} {f : Flow} (h : c.Effect i d f) :
    d.statistics = c.statistics := by
  cases h with
  | transfer => split <;> rfl
  | mtspr | mtsprTick => exact c.statistics_writeSpr _ _
  | _ => rfl

theorem statistics_locateFetch (c : Cpu) :
    ∃ fast slow, c.locateFetch.2.statistics =
      { c.statistics with fetchFast := fast, fetchSlow := slow } := by
  unfold locateFetch
  split
  · exact ⟨_, _, rfl⟩
  · simp only
    split
    · split <;> exact ⟨_, _, rfl⟩
    · exact ⟨_, _, rfl⟩

theorem statistics_fetch (c : Cpu) :
    ∃ fast slow, c.fetch.2.statistics =
      { c.statistics with fetchFast := fast, fetchSlow := slow } := by
  have hlocate := c.statistics_locateFetch
  unfold fetch
  split
  · simp only
    split <;> exact hlocate
  · exact ⟨_, _, rfl⟩

theorem statistics_issue (c : Cpu) :
    ∃ fast slow, c.issue.2.statistics =
      { c.statistics with
        cycles := c.statistics.cycles + 1
        fetchFast := fast
        fetchSlow := slow } := by
  rw [issue_eq]
  split
  · exact ⟨_, _, rfl⟩
  · exact c.ticked.statistics_fetch

theorem statistics_fetched (c : Cpu) :
    ∃ fast slow, c.fetched.statistics =
      { c.statistics with
        cycles := c.statistics.cycles + 1
        instructions := c.statistics.instructions + 1
        fetchFast := fast
        fetchSlow := slow } := by
  obtain ⟨fast, slow, hissue⟩ := c.statistics_issue
  refine ⟨fast, slow, ?_⟩
  rw [fetched, countInstruction, hissue]

/-- What a cycle has counted when it is followed up. -/
theorem statistics_attempt (c : Cpu) :
    ∃ instructions fast slow, c.attempt.1.statistics =
      { c.statistics with
        cycles := c.statistics.cycles + 1
        instructions := instructions
        fetchFast := fast
        fetchSlow := slow } := by
  cases hi : c.issued? with
  | none =>
    obtain ⟨e, -, hattempt⟩ := attempt_of_not_issued hi
    obtain ⟨fast, slow, hissue⟩ := c.statistics_issue
    rw [hattempt]
    exact ⟨c.statistics.instructions, fast, slow, hissue⟩
  | some i =>
    obtain ⟨fast, slow, hfetched⟩ := c.statistics_fetched
    rw [attempt_of_issued hi, (c.fetched.execute_effect i).statistics_eq]
    exact ⟨_, fast, slow, hfetched⟩

theorem statistics_follow (c : Cpu) (f : Flow) :
    (c.follow f).1.statistics =
      match (c.follow f).2 with
      | some (.exception e) => c.statistics.record e 1
      | _ => c.statistics := by
  cases f <;> rfl

theorem cycles_cycle (c : Cpu) : c.cycle.1.statistics.cycles = c.statistics.cycles + 1 := by
  obtain ⟨instructions, fast, slow, hattempt⟩ := c.statistics_attempt
  rw [cycle, statistics_follow]
  split <;> rw [hattempt]
  rfl

end Cpu

end Orbis
