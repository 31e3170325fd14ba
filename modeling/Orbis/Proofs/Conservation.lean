import Mathlib.Algebra.BigOperators.Group.List.Basic
import Mathlib.Algebra.GroupWithZero.Nat
import Orbis.Proofs.Outcomes

/-!
# Conservation of the statistics

How the counters of a session hang together. Every cycle either issues an instruction or dispatches
an exception in its place, an instruction is fetched before it is issued, and a halt ends a cycle
that issued one. So the counters balance after every action, and they agree with the record.
-/

namespace Orbis

namespace Statistics

/-- The number of fetches, from the remembered page and translated ones. -/
def fetches (s : Statistics) : Nat := s.fetchFast + s.fetchSlow

/-- The counters balance when a number of cycles have dispatched an exception before they issued an
instruction. -/
structure Balanced (s : Statistics) (stalls : Nat) : Prop where
  exceptions_eq : s.exceptions = (Exception.all.map s.exceptionsOf).sum
  cycles_eq : s.cycles = s.instructions + stalls
  instructions_le : s.instructions ≤ s.fetches
  fetches_le : s.fetches ≤ s.cycles
  stalls_le : stalls ≤ s.exceptions
  halts_le : s.halts ≤ s.instructions

theorem sum_outcome (o : Outcome) :
    (Exception.all.map fun e => if o = .exception e then 1 else 0).sum =
      if o.isException then 1 else 0 := by
  cases o with
  | exception e => cases e <;> rfl
  | completed | halted => rfl

/-- Counting keeps the balance: each cycle counted is an instruction, which was fetched, or a stall
that an exception ended; and a halt comes with an instruction. -/
theorem Balanced.counts {s t : Statistics} {stalls cycles instructions fetches stalled : Nat}
    {o : Outcome} (h : s.Balanced stalls) (hcounts : s.Counts t cycles o)
    (hinstructions : t.instructions = s.instructions + instructions)
    (hfetches : t.fetches = s.fetches + fetches) (hcycles : cycles = instructions + stalled)
    (hle : instructions ≤ fetches) (hle' : fetches ≤ cycles)
    (hstalled : stalled ≤ if o.isException then 1 else 0)
    (hhalted : (if o = .halted then 1 else 0) ≤ instructions) :
    t.Balanced (stalls + stalled) := by
  obtain ⟨hexceptions, hbalance, hfetched, hfetched', hstalls, hhalts⟩ := h
  refine ⟨?_, ?_, ?_, ?_, ?_, ?_⟩
  · rw [hcounts.exceptions_eq, hexceptions, ← sum_outcome, ← List.sum_map_add]
    exact congrArg _ (List.map_congr_left fun e _ => (hcounts.exceptionsOf_eq e).symm)
  · rw [hcounts.cycles_eq, hinstructions, hbalance, hcycles]
    omega
  · rw [hinstructions, hfetches]
    exact Nat.add_le_add hfetched hle
  · rw [hcounts.cycles_eq, hfetches]
    exact Nat.add_le_add hfetched' hle'
  · rw [hcounts.exceptions_eq]
    exact Nat.add_le_add hstalls hstalled
  · rw [hcounts.halts_eq, hinstructions]
    exact Nat.add_le_add hhalts hhalted

end Statistics

/-! ### Fetches and instructions -/

namespace Cpu

variable {c : Cpu}

theorem fetches_locateFetch (c : Cpu) :
    c.locateFetch.2.statistics.fetches = c.statistics.fetches + 1 := by
  unfold locateFetch
  split
  · exact Nat.add_right_comm _ 1 _
  · simp only
    split
    · split <;> rfl
    · rfl

theorem fetches_fetch (c : Cpu) :
    c.fetch.2.statistics.fetches =
      c.statistics.fetches + if Mmu.aligned .word c.pc then 1 else 0 := by
  have hlocate := c.fetches_locateFetch
  unfold fetch
  split
  · simp only
    split <;> exact hlocate
  · rfl

theorem aligned_of_fetch {word : Word} (h : c.fetch.1 = .ok word) :
    Mmu.aligned .word c.pc = true := by
  unfold fetch at h
  split at h
  · assumption
  · cases h

/-- A cycle fetches at most once, and an instruction is fetched before it is issued. -/
theorem fetches_issue (c : Cpu) :
    ∃ fetches, fetches ≤ 1 ∧ (c.issued?.isSome = true → fetches = 1) ∧
      c.issue.2.statistics.fetches = c.statistics.fetches + fetches := by
  rw [issued?, issue_eq]
  split
  · exact ⟨0, Nat.zero_le 1, nofun, rfl⟩
  · refine ⟨_, ?_, ?_, c.ticked.fetches_fetch⟩
    · split <;> decide
    · intro hissued
      cases hfetch : c.ticked.fetch.1 with
      | error e =>
        rw [hfetch] at hissued
        cases hissued
      | ok word => exact if_pos (aligned_of_fetch hfetch)

theorem instructions_issue (c : Cpu) :
    c.issue.2.statistics.instructions = c.statistics.instructions := by
  obtain ⟨fast, slow, hissue⟩ := c.statistics_issue
  rw [hissue]

theorem counts_follow (c : Cpu) (f : Flow) :
    (c.follow f).1.statistics.instructions = c.statistics.instructions ∧
      (c.follow f).1.statistics.fetches = c.statistics.fetches := by
  cases f <;> exact ⟨rfl, rfl⟩

theorem counts_settle (c : Cpu) (o : Outcome) :
    (c.settle o).statistics.instructions = c.statistics.instructions ∧
      (c.settle o).statistics.fetches = c.statistics.fetches :=
  ⟨rfl, rfl⟩

theorem counts_attempt (c : Cpu) :
    c.attempt.1.statistics.instructions =
        c.statistics.instructions + (if c.issued?.isSome then 1 else 0) ∧
      c.attempt.1.statistics.fetches = c.issue.2.statistics.fetches := by
  cases hi : c.issued? with
  | none =>
    obtain ⟨e, -, hattempt⟩ := attempt_of_not_issued hi
    rw [hattempt]
    exact ⟨c.instructions_issue, rfl⟩
  | some i =>
    rw [attempt_of_issued hi, (c.fetched.execute_effect i).statistics_eq]
    exact ⟨congrArg (· + 1) c.instructions_issue, rfl⟩

theorem counts_cycle (c : Cpu) :
    c.cycle.1.statistics.instructions =
        c.statistics.instructions + (if c.issued?.isSome then 1 else 0) ∧
      ∃ fetches, (if c.issued?.isSome then 1 else 0) ≤ fetches ∧ fetches ≤ 1 ∧
        c.cycle.1.statistics.fetches = c.statistics.fetches + fetches := by
  obtain ⟨fetches, hle, hissued, hfetches⟩ := c.fetches_issue
  obtain ⟨hinstructions, hfetches'⟩ := c.counts_attempt
  obtain ⟨hfollow, hfollow'⟩ := c.attempt.1.counts_follow c.attempt.2
  refine ⟨hfollow.trans hinstructions, fetches, ?_, hle, ?_⟩
  · split
    · next h => exact Nat.le_of_eq (hissued h).symm
    · exact Nat.zero_le _
  · exact hfollow'.trans (hfetches'.trans hfetches)

/-- Whether a cycle dispatches an exception when the timer has expired or its fetch has failed. -/
def stalls (c : Cpu) : Bool :=
  (Step.cycle.exception? c).isSome &&
    (c.timer.advance.expired && Supervision.has c.sr .tee || !c.ticked.fetch.1.isOk)

theorem stalls_eq (c : Cpu) : c.stalls = c.issued?.isNone := by
  cases hi : c.issued? with
  | none =>
    obtain ⟨e, hissue, hattempt⟩ := attempt_of_not_issued hi
    have hexception : Step.cycle.exception? c = some e := by
      rw [Step.exception?, cycle, hattempt]
      rfl
    rw [stalls, hexception, Option.isSome_some, Bool.true_and, Option.isNone_none]
    rw [issue_eq, show c.ticked.timer = c.timer.advance from rfl] at hissue
    split at hissue
    · next htick => rw [htick, Bool.true_or]
    · rw [hissue]
      exact Bool.or_true _
  | some i =>
    obtain ⟨word, hissue, -⟩ := issued?_eq_some_iff.mp hi
    rw [issue_eq, show c.ticked.timer = c.timer.advance from rfl] at hissue
    split at hissue
    · cases hissue
    · next htick =>
      rw [stalls, eq_false_of_ne_true htick, hissue]
      exact Bool.and_false _

theorem exception_of_stalls (h : c.stalls = true) : ∃ e, c.cycle.2 = some (.exception e) := by
  obtain ⟨e, he⟩ := Option.isSome_iff_exists.mp (Bool.and_eq_true_iff.mp h).1
  simp only [Step.exception?] at he
  split at he
  · next e' he' => exact ⟨e', he'⟩
  · cases he

theorem statistics_raise (c : Cpu) (e : Exception) (a : Word) :
    (c.raise e a).statistics = c.statistics.record e 1 := rfl

theorem statistics_takeInterrupt (c : Cpu) :
    c.takeInterrupt.statistics = c.statistics.record .externalInterrupt 1 :=
  statistics_raise _ _ _

end Cpu

/-! ### Word loads of the data side -/

namespace Mmu

variable {side : Side}

/-- The number of word loads that a unit was asked for, served from the memo or translated. -/
def wordLoads (m : Mmu side) : Nat := m.hits + m.misses

theorem wordLoads_translate (m : Mmu side) (a : Word) (p : Privilege) (x : Access) :
    (m.translate a p x).2.wordLoads = m.wordLoads := by
  rw [translate_snd]
  rfl

theorem wordLoads_locate (m : Mmu side) (w : Width) (a : Word) (p : Privilege) :
    (m.locate w a p).2.wordLoads = m.wordLoads + if w = .word then 1 else 0 := by
  unfold locate
  split
  · split
    · exact Nat.add_right_comm _ 1 _
    · exact wordLoads_translate { m with misses := m.misses + 1 } a p side.readAccess
  · exact m.wordLoads_translate a p side.readAccess

/-- A load counts if it is one of an aligned word, whether or not it succeeds. -/
theorem wordLoads_load (m : Mmu side) (b : Bus) (w : Width) (a : Word) (p : Privilege) :
    (m.load b w a p).2.wordLoads =
      m.wordLoads + if w = .word && aligned .word a then 1 else 0 := by
  have hlocate := m.wordLoads_locate w a p
  unfold load
  by_cases hw : w = .word
  · subst hw
    rw [decide_eq_true rfl, Bool.true_and]
    split
    · exact hlocate
    · rfl
  · rw [decide_eq_false hw, Bool.false_and, if_neg Bool.false_ne_true]
    rw [if_neg hw] at hlocate
    split
    · exact hlocate
    · rfl

theorem wordLoads_store (m : Mmu side) (b : Bus) (w : Width) (a : Word) (p : Privilege) (v : Word) :
    (m.store b w a p v).2.wordLoads = m.wordLoads := by
  unfold store
  split
  · exact m.wordLoads_translate a p .write
  · rfl

theorem wordLoads_writeAt (m : Mmu side) (index : Nat) (v : Word) :
    (m.writeAt index v).wordLoads = m.wordLoads := by
  unfold writeAt
  cases register? index with
  | none => rfl
  | some r => cases r <;> rfl

end Mmu

namespace Cpu

/-- Whether an instruction loads a word at an aligned address. -/
def loadsWord (c : Cpu) : Instruction → Bool
  | .load op _ a k => op.width = .word && Mmu.aligned .word (c.displaced a k)
  | _ => false

theorem wordLoads_writeSpr (c : Cpu) (r : Spr) (v : Word) :
    (c.writeSpr r v).dmmu.wordLoads = c.dmmu.wordLoads := by
  cases r with
  | mmu side i =>
    cases side with
    | instruction => rfl
    | data => exact c.dmmu.wordLoads_writeAt i v
  | _ => rfl

theorem wordLoads_load (c : Cpu) (op : LoadOp) (a : Word) :
    (c.load op a).2.dmmu.wordLoads =
      c.dmmu.wordLoads + if op.width = .word && Mmu.aligned .word a then 1 else 0 := by
  have hload := c.dmmu.wordLoads_load c.bus op.width a c.privilege
  unfold load
  split
  all_goals
    next h =>
      rw [h] at hload
      exact hload

theorem wordLoads_store (c : Cpu) (op : StoreOp) (a v : Word) :
    (c.store op a v).2.dmmu.wordLoads = c.dmmu.wordLoads := by
  have hstore := c.dmmu.wordLoads_store c.bus op.width a c.privilege v
  unfold store
  split
  all_goals
    next h =>
      rw [h] at hstore
      exact hstore

theorem wordLoads_execute (c : Cpu) (i : Instruction) :
    (c.execute i).1.dmmu.wordLoads = c.dmmu.wordLoads + if c.loadsWord i then 1 else 0 := by
  cases i with
  | load op d a k =>
    have hload := c.wordLoads_load op (c.displaced a k)
    simp only [execute]
    split
    all_goals
      next h =>
        rw [h] at hload
        exact hload
  | store op a b k =>
    have hstore := c.wordLoads_store op (c.displaced a k) (c.reg b)
    simp only [execute]
    split
    all_goals
      next h =>
        rw [h] at hstore
        exact hstore
  | mtspr a b k =>
    simp only [execute]
    split <;> exact c.wordLoads_writeSpr _ _
  | bnf | bf | nop =>
    simp only [execute]
    split <;> rfl
  | _ => rfl

theorem wordLoads_cycle (c : Cpu) :
    c.cycle.1.dmmu.wordLoads =
      c.dmmu.wordLoads + if c.issued?.any c.loadsWord then 1 else 0 := by
  have hfollow (d : Cpu) (f : Flow) : (d.follow f).1.dmmu.wordLoads = d.dmmu.wordLoads := by
    cases f <;> rfl
  refine (hfollow c.attempt.1 c.attempt.2).trans ?_
  cases hi : c.issued? with
  | none =>
    obtain ⟨e, -, hattempt⟩ := attempt_of_not_issued hi
    obtain ⟨memo, last, s, hframe⟩ := c.issue_frame
    rw [hattempt, hframe]
    rfl
  | some i =>
    obtain ⟨memo, last, s, hframe⟩ := c.fetched_frame
    rw [attempt_of_issued hi, wordLoads_execute, hframe]
    rfl

end Cpu

namespace Step

/-- Whether a step is a cycle that dispatches an exception before it issues an instruction. -/
def stalls (c : Cpu) : Step → Bool
  | .cycle => c.stalls
  | _ => false

/-- Whether a step loads a word through the data side, at an aligned address. -/
def loadsWord (c : Cpu) : Step → Bool
  | .cycle => c.issued?.any c.loadsWord
  | .call (.load op a) _ => op.width = .word && Mmu.aligned .word a
  | _ => false

theorem wordLoads_after (c : Cpu) (step : Step) :
    (step.after c).dmmu.wordLoads = c.dmmu.wordLoads + if step.loadsWord c then 1 else 0 := by
  cases step with
  | cycle => exact c.wordLoads_cycle
  | call k r =>
    cases k with
    | load op a => exact c.wordLoads_load op a
    | store op a v => exact c.wordLoads_store op a v
    | setSpr a v => exact c.wordLoads_writeSpr (.ofAddress a) v
    | loadImage | peek | poke | place =>
      simp only [after, Cpu.answer, Cpu.hosted, Simulator.loadImage]
      split <;> rfl
    | _ => rfl
  | _ => rfl

end Step

theorem Recorded.wordLoads_eq {allowed : Call → Prop} {start c : Cpu} {past : History}
    (h : Recorded allowed start past c) :
    c.dmmu.wordLoads =
      start.dmmu.wordLoads + past.countP fun (c, step) => step.loadsWord c := by
  induction h with
  | start => rfl
  | push _ _ ih => rw [Step.wordLoads_after, ih, List.countP_cons, Nat.add_assoc]

/-! ### Sessions -/

namespace Cpu

theorem statistics_answer (c : Cpu) {k : Call} (hk : ∀ e a, k ≠ .raise e a) :
    (c.answer k).2.statistics = c.statistics := by
  cases k with
  | raise e a => exact absurd rfl (hk e a)
  | setSpr a v => exact c.statistics_writeSpr (.ofAddress a) v
  | load op a =>
    simp only [answer, load]
    split <;> rfl
  | store op a v =>
    simp only [answer, store]
    split <;> rfl
  | loadImage | peek | poke | place =>
    simp only [answer, hosted, Simulator.loadImage]
    split <;> rfl
  | _ => rfl

theorem counts_answer (c : Cpu) (k : Call) :
    ∃ o, o ≠ .halted ∧ c.statistics.Counts (c.answer k).2.statistics 0 o ∧
      (c.answer k).2.statistics.instructions = c.statistics.instructions ∧
      (c.answer k).2.statistics.fetches = c.statistics.fetches := by
  by_cases hk : ∃ e a, k = .raise e a
  · obtain ⟨e, a, rfl⟩ := hk
    exact ⟨.exception e, nofun, .record c.statistics e, rfl, rfl⟩
  · rw [c.statistics_answer fun e a h => hk ⟨e, a, h⟩]
    exact ⟨.completed, nofun, .refl _, rfl, rfl⟩

end Cpu

namespace Statistics.Balanced

variable {c d : Cpu} {stalls : Nat} {o : Outcome}

theorem idle (h : c.statistics.Balanced stalls) (hcounts : c.statistics.Counts d.statistics 0 o)
    (hinstructions : d.statistics.instructions = c.statistics.instructions)
    (hfetches : d.statistics.fetches = c.statistics.fetches) (ho : o ≠ .halted) :
    d.statistics.Balanced stalls := by
  have hinstructions' : d.statistics.instructions = c.statistics.instructions + 0 := hinstructions
  have hfetches' : d.statistics.fetches = c.statistics.fetches + 0 := hfetches
  have hhalted : (if o = .halted then 1 else 0) ≤ 0 := Nat.le_of_eq (if_neg ho)
  have hbalanced : d.statistics.Balanced (stalls + 0) :=
    h.counts hcounts hinstructions' hfetches' (Nat.zero_add 0).symm (Nat.le_refl 0) (Nat.le_refl 0)
      (Nat.zero_le _) hhalted
  exact hbalanced

/-- A cycle is an instruction or a stall, whether it goes on or ends a run. -/
theorem cycle (h : c.statistics.Balanced stalls) (hcounts : c.statistics.Counts d.statistics 1 o)
    (hinstructions : d.statistics.instructions = c.cycle.1.statistics.instructions)
    (hfetches : d.statistics.fetches = c.cycle.1.statistics.fetches)
    (hstalls : c.stalls = true → o.isException = true)
    (hhalted : o = .halted → c.issued?.isSome = true) :
    d.statistics.Balanced (stalls + if c.stalls then 1 else 0) := by
  obtain ⟨hinstructions', fetches, hle, hle', hfetches'⟩ := c.counts_cycle
  refine h.counts hcounts (hinstructions.trans hinstructions') (hfetches.trans hfetches') ?_ hle
    hle' ?_ ?_
  · rw [c.stalls_eq]
    cases c.issued? <;> rfl
  · cases hstall : c.stalls with
    | true => exact Nat.le_of_eq (if_pos (hstalls hstall)).symm
    | false => exact Nat.zero_le _
  · split
    · next ho => exact Nat.le_of_eq (if_pos (hhalted ho)).symm
    · exact Nat.zero_le _

end Statistics.Balanced

theorem RunByRun.balanced {start c : Cpu} {past : History} (h : RunByRun (.start start) past c)
    (hstart : start.statistics.Balanced 0) :
    c.statistics.Balanced (past.countP fun (c, step) => step.stalls c) := by
  induction h with
  | start => exact hstart
  | @call past c _ k ih =>
    obtain ⟨o, ho, hcounts, hinstructions, hfetches⟩ := c.counts_answer k
    exact ih.idle hcounts hinstructions hfetches ho
  | sample _ ih => exact ih
  | @interrupt past c _ _ ih =>
    have hstatistics := c.sampleInterrupts.statistics_takeInterrupt
    obtain ⟨hinstructions, hfetches⟩ := c.sampleInterrupts.takeInterrupt.counts_settle
      (.exception .externalInterrupt)
    rw [hstatistics] at hinstructions hfetches
    exact ih.idle c.sampleInterrupts.counts_takeInterrupt hinstructions hfetches nofun
  | @cycle past c d _ hcycle ih =>
    rw [List.countP_cons]
    refine ih.cycle (Cpu.counts_of_next hcycle) (by rw [hcycle]) (by rw [hcycle]) ?_ nofun
    intro hstalls
    obtain ⟨e, he⟩ := c.exception_of_stalls hstalls
    rw [hcycle] at he
    cases he
  | @stop past c d o _ hcycle ih =>
    rw [List.countP_cons, List.countP_cons]
    obtain ⟨hinstructions, hfetches⟩ := d.counts_settle o
    refine ih.cycle (Cpu.counts_of_stop hcycle) ?_ ?_ ?_ ?_
    · rw [hinstructions, hcycle]
    · rw [hfetches, hcycle]
    · intro hstalls
      obtain ⟨e, he⟩ := c.exception_of_stalls hstalls
      rw [hcycle] at he
      cases he
      rfl
    · rintro rfl
      obtain ⟨i, hi, -⟩ := Cpu.cycle_halted hcycle
      rw [hi]
      rfl
  | @complete past c _ ih => exact ih.idle c.counts_of_completed rfl rfl nofun

/-- The statistics of a simulator are conserved. After every session from a new one, the exceptions
are those of all kinds together; a cycle has issued an instruction, unless it has dispatched an
exception when the timer had expired or its fetch had failed; the instructions, the fetches and the
cycles come in this order, and the exceptions make up for the difference; each halt has come from an
instruction; and the data side has counted every word load at an aligned address as a hit or a
miss. -/
theorem Session.statistics_conserved (k : Configuration) (as : List Action) :
    let s := (Session.start (Simulator.ofConfiguration k).cpu).performAll .real as
    let t := s.now.statistics
    t.exceptions = (Exception.all.map t.exceptionsOf).sum ∧
    t.cycles = t.instructions + (s.past.countP fun (c, step) => step.stalls c) ∧
    t.instructions ≤ t.fetchFast + t.fetchSlow ∧
    t.fetchFast + t.fetchSlow ≤ t.cycles ∧
    t.cycles ≤ t.instructions + t.exceptions ∧
    t.halts ≤ t.instructions ∧
    s.now.dmmu.hits + s.now.dmmu.misses = s.past.countP fun (c, step) => step.loadsWord c := by
  intro s t
  have hbalanced : t.Balanced _ :=
    (RunByRun.performAll (t := Session.start Cpu.initial) .start as).balanced
      ⟨rfl, rfl, Nat.le_refl 0, Nat.le_refl 0, Nat.le_refl 0, Nat.le_refl 0⟩
  have hrecorded : Recorded (fun _ => True) Cpu.initial s.past s.now :=
    Recorded.performAll (s := Session.start Cpu.initial) .start fun _ _ => trivial
  refine ⟨hbalanced.exceptions_eq, hbalanced.cycles_eq, hbalanced.instructions_le,
    hbalanced.fetches_le, ?_, hbalanced.halts_le, ?_⟩
  · rw [hbalanced.cycles_eq]
    exact Nat.add_le_add_left hbalanced.stalls_le _
  · exact hrecorded.wordLoads_eq.trans (Nat.zero_add _)

end Orbis
