import Mathlib.Logic.Function.Iterate
import Orbis.Proofs.PendingTick

/-!
# Keeping time

As long as nothing sets the timer, it has advanced once for every cycle, whatever else the machine
has done in between. So its count, its pending mark and the cycles in which it interrupts can be
told ahead, from the state in which a stretch of a session began and the number of its cycles.
-/

namespace Orbis

/-! ### Advancing a number of times -/

namespace TickTimer

/-- Whether the timer expires at all: it is enabled and in the supported mode. -/
def Running (t : TickTimer) : Prop := t.kind = continuous ∧ t.enabled = true

/-- Whether the count shows the period a number of ticks ahead. -/
def Meets (t : TickTimer) (ticks : Nat) : Prop :=
  (t.count.toNat + ticks) % 0x10000000 = t.period.toNat

instance (t : TickTimer) : Decidable t.Running := inferInstanceAs (Decidable (_ ∧ _))

instance (t : TickTimer) (ticks : Nat) : Decidable (t.Meets ticks) :=
  inferInstanceAs (Decidable (_ = _))

theorem advance_eq (t : TickTimer) :
    t.advance =
      if TickTimer.expired { t with count := t.count + 1 } then
        { mode := t.mode ||| pendingMask, count := t.count + 1 }
      else { t with count := t.count + 1 } := rfl

theorem settings_advance (t : TickTimer) : t.advance.settings = t.settings := by
  rw [advance_eq]
  split
  · exact settings_mark _
  · rfl

theorem count_advance (t : TickTimer) : t.advance.count = t.count + 1 := by
  rw [advance_eq]
  split <;> rfl

theorem pending_advance_iff (t : TickTimer) :
    t.advance.pending = true ↔ t.pending = true ∨ t.advance.expired = true := by
  cases hexpired : t.advance.expired with
  | false => simp [pending_advance hexpired]
  | true =>
    refine iff_of_true ?_ (.inr rfl)
    rw [advance_eq] at hexpired ⊢
    split
    · have hmask : pendingMask.getLsbD 28 = true := by decide
      simp only [pending, BitVec.getLsbD_or, hmask, Bool.or_true]
    · next hnot =>
      rw [if_neg hnot] at hexpired
      exact absurd hexpired hnot

theorem settings_iterate (t : TickTimer) (n : Nat) : (advance^[n] t).settings = t.settings := by
  induction n with
  | zero => rfl
  | succ n ih => rw [Function.iterate_succ_apply', settings_advance, ih]

theorem count_iterate (t : TickTimer) (n : Nat) :
    (advance^[n] t).count.toNat = (t.count.toNat + n) % 0x100000000 := by
  induction n with
  | zero => exact (Nat.mod_eq_of_lt t.count.isLt).symm
  | succ n ih =>
    rw [Function.iterate_succ_apply', count_advance, BitVec.toNat_add, ih]
    exact Nat.mod_add_mod _ _ _

theorem expired_iff (t : TickTimer) :
    t.expired = true ↔ t.Running ∧ t.count.toNat % 0x10000000 = t.period.toNat := by
  have hlow : (t.count.extractLsb' 0 28).toNat = t.count.toNat % 0x10000000 := by
    rw [BitVec.extractLsb'_toNat, Nat.shiftRight_zero]
  simp only [expired, Running, Bool.and_eq_true, beq_iff_eq, ← hlow, BitVec.toNat_inj]
  exact and_right_comm

theorem expired_iterate_iff (t : TickTimer) (n : Nat) :
    (advance^[n] t).expired = true ↔ t.Running ∧ t.Meets n := by
  obtain ⟨hkind, hrest⟩ := Prod.mk.inj (t.settings_iterate n)
  obtain ⟨henabled, hperiod⟩ := Prod.mk.inj hrest
  rw [expired_iff, Running, hkind, henabled, hperiod, count_iterate, Running, Meets]
  -- The count wraps at a multiple of what the period counts to.
  rw [Nat.mod_mod_of_dvd _ (by decide)]

theorem pending_iterate_iff (t : TickTimer) (n : Nat) :
    (advance^[n] t).pending = true ↔
      t.pending = true ∨ ∃ j, 1 ≤ j ∧ j ≤ n ∧ (advance^[j] t).expired = true := by
  induction n with
  | zero =>
    constructor
    · exact .inl
    · rintro (hpending | ⟨j, hpos, hle, -⟩)
      · exact hpending
      · omega
  | succ n ih =>
    rw [Function.iterate_succ_apply', pending_advance_iff, ih, or_assoc,
      ← Function.iterate_succ_apply' advance n t]
    refine or_congr_right ?_
    constructor
    · rintro (⟨j, hpos, hle, hj⟩ | hn)
      · exact ⟨j, hpos, Nat.le_succ_of_le hle, hj⟩
      · exact ⟨n + 1, Nat.succ_pos n, Nat.le_refl _, hn⟩
    · rintro ⟨j, hpos, hle, hj⟩
      rcases Nat.le_succ_iff.mp hle with hle | rfl
      · exact .inl ⟨j, hpos, hle, hj⟩
      · exact .inr hj

end TickTimer

/-! ### The timer along a history -/

namespace Cpu

variable {c : Cpu}

theorem timer_writeSpr (c : Cpu) {r : Spr} (hmode : r ≠ .timerMode) (hcount : r ≠ .timerCount)
    (v : Word) : (c.writeSpr r v).timer = c.timer := by
  cases r with
  | timerMode => exact absurd rfl hmode
  | timerCount => exact absurd rfl hcount
  | mmu side i => cases side <;> rfl
  | _ => rfl

/-- Whether a write, if there is one, is made to the timer. -/
def setsTimer (w : Option (Spr × Word)) : Bool :=
  w.any fun (r, _) => r = .timerMode || r = .timerCount

theorem timer_written {w : Option (Spr × Word)} (h : setsTimer w = false) :
    (c.written w).timer = c.timer := by
  cases w with
  | none => rfl
  | some w =>
    simp only [setsTimer, Option.any_some, Bool.or_eq_false_iff, decide_eq_false_iff_not] at h
    exact c.timer_writeSpr h.1 h.2 w.2

theorem timer_attempt (h : setsTimer (c.issued?.bind c.sprWrite?) = false) :
    c.attempt.1.timer = c.timer.advance := by
  by_cases hrfe : c.issued? = some .rfe
  · obtain ⟨memo, last, s, hframe⟩ := c.fetched_frame
    rw [attempt_of_rfe hrfe, hframe]
    rfl
  · rw [(SameModes.attempt hrfe).timer, timer_written h]
    rfl

theorem timer_raise (c : Cpu) (e : Exception) (a : Word) : (c.raise e a).timer = c.timer := rfl

theorem timer_follow (c : Cpu) (f : Flow) : (c.follow f).1.timer = c.timer := by
  cases f <;> rfl

/-- A timer interrupt is taken before the fetch in the cycles in which the timer expires with its
interrupt enabled. -/
theorem issue_tickTimer_iff (c : Cpu) :
    c.issue.1 = .error .tickTimer ↔
      c.timer.advance.expired = true ∧ Supervision.has c.sr .tee = true := by
  have hfetch : c.ticked.fetch.1 ≠ .error .tickTimer := by
    intro h
    exact absurd (fetch_error h) (by decide)
  rw [issue_eq, ← Bool.and_eq_true_iff, show c.ticked.timer = c.timer.advance from rfl]
  split
  · next htick => exact iff_of_true rfl htick
  · next htick => exact iff_of_false hfetch htick

/-- Such a cycle executes nothing: behind its tick comes the dispatch. -/
theorem cycle_of_tick (h : c.issue.1 = .error .tickTimer) :
    c.issued? = none ∧
      c.cycle = (c.ticked.raise .tickTimer c.pc, some (.exception .tickTimer)) := by
  have htick : (c.ticked.timer.expired && Supervision.has c.sr .tee) = true :=
    Bool.and_eq_true_iff.mpr (c.issue_tickTimer_iff.mp h)
  constructor
  · rw [issued?, h]
    rfl
  · rw [cycle, attempt_of_expired htick]
    rfl

end Cpu

namespace Step

/-- Whether a step sets the timer, other than by a tick. -/
def setsTimer (c : Cpu) (step : Step) : Bool :=
  step.turn c = .reset || Cpu.setsTimer (step.sprWrite? c)

theorem timer_after {c : Cpu} {step : Step} (h : step.setsTimer c = false) :
    (step.after c).timer = if step.isCycle then c.timer.advance else c.timer := by
  obtain ⟨hturn, hwrite⟩ := Bool.or_eq_false_iff.mp h
  cases step with
  | cycle => exact (c.attempt.1.timer_follow c.attempt.2).trans (Cpu.timer_attempt hwrite)
  | call k r =>
    cases k with
    | reset | loadImage => cases hturn
    | setSpr a v => exact Cpu.timer_written hwrite
    | load op a => exact (Cpu.SameModes.load c op a).timer
    | store op a v => exact (Cpu.SameModes.store c op a v).timer
    | peek | poke | place =>
      simp only [after, Cpu.answer]
      split <;> rfl
    | _ => rfl
  | sample | settle => rfl
  | interrupt =>
    rw [show Step.interrupt.isCycle = false from rfl, if_neg Bool.false_ne_true, after]
    exact Cpu.timer_raise _ _ _

end Step

namespace History

/-- The number of cycles in a history. -/
def cycles (past : History) : Nat := past.countP fun (_, step) => step.isCycle

theorem cycles_cons (c : Cpu) (step : Step) (past : History) :
    cycles ((c, step) :: past) = past.cycles + if step.isCycle then 1 else 0 :=
  List.countP_cons ..

/-- The state in which a history began, from the state behind it. -/
def origin (now : Cpu) : History → Cpu
  | [] => now
  | (c, _) :: past => origin c past

theorem origin_append (now : Cpu) (newer older : History) :
    History.origin now (newer ++ older) = older.origin (newer.origin now) := by
  induction newer generalizing now with
  | nil => rfl
  | cons m newer ih => exact ih m.1

end History

namespace Recorded

variable {allowed : Call → Prop} {start c d : Cpu} {newer stretch earlier older : History}

theorem origin (h : Recorded allowed start (newer ++ older) d) :
    Recorded allowed start older (newer.origin d) := by
  induction newer generalizing d with
  | nil => exact h
  | cons m newer ih => exact ih h.inv.1

/-- Along a stretch in which nothing sets the timer, it advances once for every cycle. -/
theorem timer_eq (h : Recorded allowed start (stretch ++ older) d)
    (hset : ∀ m ∈ stretch, m.2.setsTimer m.1 = false) :
    d.timer = TickTimer.advance^[stretch.cycles] (stretch.origin d).timer := by
  induction stretch generalizing d with
  | nil => rfl
  | cons m stretch ih =>
    obtain ⟨c, step⟩ := m
    obtain ⟨hc, -, rfl⟩ := h.inv
    have hrest := ih hc fun m hm => hset m (List.mem_cons_of_mem _ hm)
    rw [Step.timer_after (hset (c, step) List.mem_cons_self), History.cycles_cons, History.origin,
      hrest]
    cases step.isCycle with
    | true =>
      rw [if_pos rfl, if_pos rfl, Function.iterate_succ_apply']
    | false => rfl

theorem timer_advance_eq (h : Recorded allowed start (stretch ++ older) d)
    (hset : ∀ m ∈ stretch, m.2.setsTimer m.1 = false)
    (hc : (c, .cycle) :: earlier <:+ stretch) :
    c.timer.advance = TickTimer.advance^[earlier.cycles + 1] (stretch.origin d).timer := by
  obtain ⟨later, rfl⟩ := hc
  rw [List.append_assoc] at h
  have hearlier := h.origin.inv.1.timer_eq fun m hm => hset m (by simp [hm])
  rw [hearlier, Function.iterate_succ_apply', History.origin_append]
  rfl

end Recorded

theorem History.suffix_of_ne {c d : Cpu} {step step' : Step} {past older : History}
    (h : (c, step) :: older <:+ (d, step') :: past) (hne : step ≠ step') :
    (c, step) :: older <:+ past := by
  rcases List.suffix_cons_iff.mp h with heq | h
  · cases heq
    exact absurd rfl hne
  · exact h

/-- A cycle that ends its run is followed by that end. -/
theorem RunByRun.exists_settle {start c d : Cpu} {past older : History} {o : Outcome}
    (h : RunByRun (.start start) past d) (hc : (c, .cycle) :: older <:+ past)
    (ho : c.cycle.2 = some o) :
    ∃ e, (e, .settle o) :: (c, .cycle) :: older <:+ past := by
  induction h with
  | start => cases List.eq_nil_of_suffix_nil hc
  | call _ _ ih | sample _ ih | complete _ ih =>
    obtain ⟨e, he⟩ := ih (History.suffix_of_ne hc nofun)
    exact ⟨e, he.trans (List.suffix_cons _ _)⟩
  | interrupt _ _ ih =>
    have hc := History.suffix_of_ne (History.suffix_of_ne hc nofun) nofun
    obtain ⟨e, he⟩ := ih (History.suffix_of_ne hc nofun)
    exact ⟨e, he.trans (List.suffix_append [_, _, _] _)⟩
  | cycle _ hcycle ih =>
    rcases List.suffix_cons_iff.mp hc with heq | hc
    · cases heq
      rw [hcycle] at ho
      cases ho
    · obtain ⟨e, he⟩ := ih hc
      exact ⟨e, he.trans (List.suffix_cons _ _)⟩
  | @stop past b d o' _ hcycle ih =>
    rcases List.suffix_cons_iff.mp (History.suffix_of_ne hc nofun) with heq | hc
    · cases heq
      rw [hcycle] at ho
      cases ho
      exact ⟨d, List.suffix_refl _⟩
    · obtain ⟨e, he⟩ := ih hc
      exact ⟨e, he.trans (List.suffix_append [_, _] _)⟩

/-- The timer keeps time. Over a stretch of a session in which nothing sets it, its count grows by
the number of cycles. While it is running, it becomes pending exactly in the cycles whose count
shows the period, and those of them that begin with its interrupt enabled execute nothing and end
their run with that interrupt. Otherwise it stays as pending as it was and never interrupts. -/
theorem Session.timer_keeps_time (start : Cpu) (as : List Action)
    (newer stretch older : History) :
    let s := (Session.start start).performAll .real as
    let now := newer.origin s.now
    let t := (stretch.origin now).timer
    s.past = newer ++ (stretch ++ older) →
    (∀ m ∈ stretch, m.2.setsTimer m.1 = false) →
    now.timer.count.toNat = (t.count.toNat + stretch.cycles) % 0x100000000 ∧
    (t.Running →
      (now.timer.pending = true ↔
        t.pending = true ∨ ∃ j, 1 ≤ j ∧ j ≤ stretch.cycles ∧ t.Meets j) ∧
      ∀ (c : Cpu) (earlier : History), (c, .cycle) :: earlier <:+ stretch →
        t.Meets (earlier.cycles + 1) → Supervision.has c.sr .tee = true →
        c.issued? = none ∧
        c.cycle = (c.ticked.raise .tickTimer c.pc, some (.exception .tickTimer)) ∧
        ∃ d, (d, .settle (.exception .tickTimer)) :: (c, .cycle) :: (earlier ++ older) <:+ s.past) ∧
    (¬t.Running →
      now.timer.pending = t.pending ∧
      ∀ c, (c, .cycle) ∈ stretch → c.issue.1 ≠ .error .tickTimer) := by
  intro s now t hpast hset
  have hruns : RunByRun (.start start) s.past s.now :=
    RunByRun.performAll (t := Session.start start) .start as
  have hrecorded : Recorded (fun _ => True) start s.past s.now :=
    Recorded.performAll (s := Session.start start) .start fun _ _ => trivial
  rw [hpast] at hrecorded
  have hstretch := hrecorded.origin
  have hnow : now.timer = TickTimer.advance^[stretch.cycles] t := hstretch.timer_eq hset
  refine ⟨by rw [hnow, TickTimer.count_iterate], ?_, ?_⟩
  · intro hrunning
    constructor
    · rw [hnow, TickTimer.pending_iterate_iff]
      simp only [TickTimer.expired_iterate_iff, hrunning, true_and]
    · intro c earlier hc hmeets htee
      have hexpired : c.timer.advance.expired = true := by
        rw [hstretch.timer_advance_eq hset hc, TickTimer.expired_iterate_iff]
        exact ⟨hrunning, hmeets⟩
      obtain ⟨hissued, hdispatch⟩ := Cpu.cycle_of_tick (c.issue_tickTimer_iff.mpr ⟨hexpired, htee⟩)
      refine ⟨hissued, hdispatch, hruns.exists_settle ?_ (congrArg Prod.snd hdispatch)⟩
      obtain ⟨later, rfl⟩ := hc
      rw [hpast]
      exact ⟨newer ++ later, by simp⟩
  · intro hstopped
    have hnever (n : Nat) : (TickTimer.advance^[n] t).expired ≠ true := by
      rw [ne_eq, TickTimer.expired_iterate_iff]
      exact fun h => hstopped h.1
    constructor
    · apply Bool.eq_iff_iff.mpr
      rw [hnow, TickTimer.pending_iterate_iff, or_iff_left]
      rintro ⟨j, -, -, hj⟩
      exact hnever j hj
    · intro c hc htick
      obtain ⟨later, earlier, hsplit⟩ := List.append_of_mem hc
      apply hnever (History.cycles earlier + 1)
      rw [← hstretch.timer_advance_eq hset ⟨later, hsplit.symm⟩]
      exact (c.issue_tickTimer_iff.mp htick).1

/-- A machine whose timer expires in three cycles, one behind the wrap of its count. -/
def overflowing : Cpu :=
  { Cpu.holding [(0x000, .nop 0), (0x004, .nop 0), (0x500, .nop 0), (0x504, .nop 0)] with
    sr := Supervision.resetValue ||| Supervision.Bit.tee.mask
    timer := { mode := 0xe0000001, count := 0xfffffffe } }

/-- The third of five cycles interrupts, and the other two of the two runs go by in its handler. -/
theorem Session.timer_keeps_time_overflowing :
    let s := (Session.start overflowing).performAll .real [.run 5, .run 2]
    s.past.cycles = 5 ∧ s.now.timer.count.toNat = 3 ∧ s.now.timer.pending = true ∧
    ∃ (c d : Cpu) (earlier : History), earlier.cycles = 2 ∧ c.issued? = none ∧
      (d, .settle (.exception .tickTimer)) :: (c, .cycle) :: earlier <:+ s.past := by
  intro s
  have hcycles : s.past.cycles = 5 := by decide +kernel
  have hset : ∀ m ∈ s.past, m.2.setsTimer m.1 = false := by decide +kernel
  have htimer : (s.past.origin s.now).timer = { mode := 0xe0000001, count := 0xfffffffe } := by
    decide +kernel
  obtain ⟨hcount, hrunning, -⟩ :=
    timer_keeps_time overflowing [.run 5, .run 2] [] s.past [] (by simp [s]) hset
  simp only [History.origin] at hcount hrunning
  obtain ⟨hpending, htaken⟩ := hrunning (by rw [htimer]; decide)
  obtain ⟨c, earlier, hmoment, hfacts⟩ := History.exists_cycle s.past 5
    (fun c older => older.cycles = 2 ∧ Supervision.has c.sr .tee = true) (by decide +kernel)
  obtain ⟨hearlier, htee⟩ := of_decide_eq_true hfacts
  obtain ⟨hissued, -, d, hend⟩ :=
    htaken c earlier hmoment (by rw [htimer, hearlier]; decide) htee
  rw [List.append_nil] at hend
  rw [htimer, hcycles] at hcount hpending
  have hpast : s.now.timer.pending = true := hpending.mpr (.inr ⟨3, by decide⟩)
  exact ⟨hcycles, hcount, hpast, c, d, earlier, hearlier, hissued, hend⟩

end Orbis
