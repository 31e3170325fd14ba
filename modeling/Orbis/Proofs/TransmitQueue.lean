import Mathlib.Algebra.Group.Nat.Defs
import Orbis.Isa.Assembly
import Orbis.Proofs.RunLoops

/-!
# Bytes that the host has taken

A guest cannot read back what it has sent, so it does the same whether or not the host has taken
the bytes. The console takes them behind each run. It still makes the runs of the loops that do not,
and what it prints is what they leave in the queue.
-/

namespace Orbis

namespace Uart

variable (u : Uart) (p : Array Byte)

/-- The line as it were if the host had not taken some bytes. -/
def owing : Uart := { u with sent := p ++ u.sent }

theorem load_owing (r : Register) : (u.owing p).load r = ((u.load r).1, (u.load r).2.owing p) := by
  cases r with
  | data =>
    simp only [load]
    rw [show (u.owing p).divisorOpen = u.divisorOpen from rfl]
    cases u.divisorOpen <;> rfl
  | _ => rfl

theorem store_owing (r : Register) (b : Byte) :
    (u.owing p).store r b = (u.store r b).owing p := by
  cases r with
  | data =>
    simp only [store]
    rw [show (u.owing p).divisorOpen = u.divisorOpen from rfl]
    cases u.divisorOpen with
    | true => rfl
    | false => simp [owing, Array.push_append]
  | interruptEnable =>
    simp only [store]
    rw [show (u.owing p).divisorOpen = u.divisorOpen from rfl]
    cases u.divisorOpen <;> rfl
  | _ => rfl

theorem loadAt_owing (w : Width) (offset : Word) :
    (u.owing p).loadAt w offset = (u.loadAt w offset).map fun (v, u) => (v, u.owing p) := by
  cases w with
  | byte =>
    simp only [loadAt, load_owing]
    rfl
  | half | word => rfl

theorem storeAt_owing (w : Width) (offset v : Word) :
    (u.owing p).storeAt w offset v = (u.storeAt w offset v).map (·.owing p) := by
  cases w with
  | byte =>
    simp only [storeAt, store_owing]
    rfl
  | half | word => rfl

end Uart

namespace Bus

variable (b : Bus) (p : Array Byte)

def owing : Bus := { b with uart := b.uart.owing p }

theorem guestBisimulation_owing : GuestBisimulation fun b b' => b' = b.owing p where
  interrupts h := h ▸ rfl
  load {b b'} h w a := by
    subst h
    unfold Bus.load
    cases route? a with
    | none => exact .error _
    | some r =>
      obtain ⟨target, offset⟩ := r
      cases target with
      | ram =>
        simp only [owing]
        cases b.ram.load w offset with
        | error e => exact .error e
        | ok v => exact .ok (.mk v rfl)
      | uart =>
        simp only [owing, Uart.loadAt_owing]
        cases b.uart.loadAt w offset with
        | error e => exact .error e
        | ok r => exact .ok (.mk r.1 rfl)
  store {b b'} h w a v := by
    subst h
    unfold Bus.store
    cases route? a with
    | none => exact .error _
    | some r =>
      obtain ⟨target, offset⟩ := r
      cases target with
      | ram =>
        simp only [owing]
        cases b.ram.store w offset v with
        | error e => exact .error e
        | ok r => exact .ok rfl
      | uart =>
        simp only [owing, Uart.storeAt_owing]
        cases b.uart.storeAt w offset v with
        | error e => exact .error e
        | ok u => exact .ok rfl

end Bus

namespace Simulator

variable (s : Simulator) (p : Array Byte)

def owing : Simulator := s.setUart (s.uart.owing p)

/-- A machine runs alike whether or not the host has taken what it sent. -/
theorem run_owing (n : Nat) : (s.owing p).run n = ((s.run n).1.owing p, (s.run n).2) := by
  have htwins : Cpu.Twins (fun b b' => b' = b.owing p) s.cpu.count s.cpu.count s.cpu
      (s.owing p).cpu := .of_uncounted rfl rfl
  obtain ⟨c, d, o, hc, hd, u, b, b', rfl, rfl, rfl⟩ := htwins.run (Bus.guestBisimulation_owing p) n
  unfold run
  rw [hc, hd]
  rfl

@[simp] theorem owing_empty : s.owing #[] = s := by
  simp [owing, setUart, uart, Uart.owing]

end Simulator

namespace Loop

variable {s : Simulator} {runs : List Run} {printed : Array Byte} {r : Simulator × Bool}
  {limit : Nat} {keys : List (List Byte)}

theorem owing_leave (limit : Nat) (t : Simulator) (p : Array Byte) :
    ((limited limit taking).leave t).owing (p ++ t.uart.sent) = t.owing p := by
  simp [leave, limited, taking, Simulator.owing, Simulator.setUart, Simulator.uart, Uart.owing,
    Uart.receive, Uart.drain]

theorem advance?_of_stop (h : (limited limit taking).turn s = .stop) :
    Console.advance? s (some limit) = none := by
  rw [Console.advance?, Configuration.sliceBudget, budget?_eq, if_neg (not_lt_of_stop h)]
  rfl

theorem advance?_of_run {t : Simulator} {n : Nat} {o : Outcome}
    (h : (limited limit taking).turn s = .run n) (hrun : s.run n = (t, o)) :
    Console.advance? s (some limit) = some (t, decide (o = .halted)) := by
  obtain ⟨hlt, rfl⟩ := of_turn_limited h
  rw [Console.advance?, Configuration.sliceBudget, budget?_eq, if_pos hlt, Option.map_some, hrun]

theorem keys_waiting (h : keys.flatten = []) : keys.headD [] = [] ∧ keys.tail.flatten = [] := by
  cases keys with
  | nil => exact ⟨rfl, rfl⟩
  | cons k ks =>
    rw [List.flatten_cons, List.append_eq_nil_iff] at h
    exact h

namespace Drives

/-- Taking the bytes behind each run does not change the runs. -/
theorem owing (h : (limited limit taking).Drives s runs printed r) (p : Array Byte) :
    ∃ runs', (limited limit (#[], ·)).Drives (s.owing p) runs' #[] (r.1.owing (p ++ printed), r.2) ∧
      runs'.map Run.call = runs.map Run.call := by
  induction h generalizing p with
  | stop h =>
    rw [Array.append_empty]
    exact ⟨[], .stop h, rfl⟩
  | @halt s t n h hrun =>
    have hturn : (limited limit (#[], ·)).turn (s.owing p) = .run n := h
    have hrun' : (s.owing p).run n = (t.owing p, .halted) := by rw [s.run_owing, hrun]
    have hdrives : (limited limit (#[], ·)).Drives (s.owing p) [⟨s.owing p, n, .halted⟩] #[]
        (t.owing p, true) := .halt hturn hrun'
    rw [← owing_leave limit t] at hdrives
    exact ⟨_, hdrives, rfl⟩
  | @next s t n o runs printed r h hrun ho _ ih =>
    have hturn : (limited limit (#[], ·)).turn (s.owing p) = .run n := h
    have hrun' : (s.owing p).run n = (t.owing p, o) := by rw [s.run_owing, hrun]
    obtain ⟨runs', hrest, hcalls⟩ := ih (p ++ t.uart.sent)
    rw [owing_leave, Array.append_assoc] at hrest
    have hdrives : (limited limit (#[], ·)).Drives (s.owing p) (⟨s.owing p, n, o⟩ :: runs')
        (#[] ++ #[]) (r.1.owing (p ++ (t.uart.sent ++ printed)), r.2) :=
      .next hturn hrun' ho hrest
    exact ⟨_, hdrives, congrArg (List.cons (n, o)) hcalls⟩

theorem sent_empty (h : (limited limit taking).Drives s runs printed r)
    (hs : s.cycles < limit ∨ s.uart.sent = #[]) : r.1.uart.sent = #[] := by
  induction h with
  | stop h => exact hs.resolve_left (not_lt_of_stop h)
  | halt => rfl
  | next _ _ _ _ ih => exact ih (.inr rfl)

theorem takeTurns_eq (h : (limited limit taking).Drives s runs printed r)
    (hkeys : keys.flatten = []) {n : Nat} (hn : runs.length ≤ n) (before : Array Byte) :
    Console.takeTurns s (some limit) keys before n = (r.1, before ++ printed) := by
  induction h generalizing keys n before with
  | @stop s h =>
    rw [Array.append_empty]
    cases n with
    | zero => rfl
    | succ n =>
      unfold Console.takeTurns
      rw [advance?_of_stop h]
  | @halt s t n h hrun =>
    obtain ⟨hhead, -⟩ := keys_waiting hkeys
    cases n with
    | zero => cases hn
    | succ n =>
      unfold Console.takeTurns
      rw [advance?_of_run h hrun, hhead]
      rfl
  | @next s t n o runs printed r h hrun ho _ ih =>
    obtain ⟨hhead, htail⟩ := keys_waiting hkeys
    cases n with
    | zero => cases hn
    | succ n =>
      have hrest := ih htail (Nat.le_of_succ_le_succ hn) (before ++ t.uart.sent)
      rw [Array.append_assoc] at hrest
      unfold Console.takeTurns
      rw [advance?_of_run h hrun, hhead, decide_eq_false ho]
      exact hrest

end Drives

end Loop

theorem Scripting.count_natural {n : Nat} (h : n < 2 ^ 64) : count (.natural n) = .ok n := by
  have hfits : (BitVec.ofNat 64 n).toNat = n := Nat.mod_eq_of_lt h
  have hbits : bits? 64 n = some (.ofNat 64 n) := bits?_eq_some_iff.mpr hfits
  rw [count, integer, fit, hbits]
  exact congrArg Except.ok hfits

namespace Simulator

/-- A machine that was just made and loaded has made no cycles and sent nothing. -/
theorem loadImage_ofConfiguration (k : Configuration) (image : ByteArray) (pc : Word) :
    let s := ((ofConfiguration k).loadImage image pc).2
    s.cycles = 0 ∧ s.uart.sent = #[] := by
  simp only [loadImage, Bus.loadImage]
  generalize Ram.loadImage _ image 0 = loaded
  cases loaded <;> exact ⟨rfl, rfl⟩

/-- The three loops make the same runs. The script's answers as the machine's does and leaves the
same state. From a machine that has made no cycles, the console's ends in that state too, but for
the bytes that it has taken from the transmit queue, and prints what the queue would hold. With a
limit of zero it makes no run, and so takes nothing of what was in the queue before. -/
theorem loops_agree (s : Simulator) (maxCycles : Nat) :
    let r := s.runUntilHalt maxCycles
    let slice := s.configuration.sliceCycles
    ∃ runs,
      (Loop.clamped s.cycles maxCycles).Drives s runs #[] r ∧
      (Loop.scripted slice s.cycles maxCycles).Drives s runs #[] r ∧
      (∀ d, Scripting.count d = .ok maxCycles →
        Scripting.runUntilHalt s d (fun _ => false) = (.ok r.2, r.1)) ∧
      (s.cycles = 0 → ∃ seen t printed,
        (Loop.console slice maxCycles).Drives s seen printed (t, r.2) ∧
        seen.map Loop.Run.call = runs.map Loop.Run.call ∧
        (∀ keys turns, keys.flatten = [] → 2 * maxCycles ≤ turns →
          Console.takeTurns s (some maxCycles) keys #[] turns = (t, printed)) ∧
        r.1 = t.owing printed ∧
        (0 < maxCycles ∨ s.uart.sent = #[] → t.uart.sent = #[] ∧ printed = r.1.uart.sent)) := by
  intro r slice
  obtain ⟨runs, h, hlength⟩ := Loop.exists_drives_runUntilHalt s maxCycles
  refine ⟨runs, (Loop.drives_clamped_iff s maxCycles).mpr h,
    (Loop.drives_scripted_iff s maxCycles).mpr h, fun d hd => ?_, fun hzero => ?_⟩
  · simp only [Scripting.runUntilHalt, hd]
    exact Loop.script_runBefore s _ _
  · obtain ⟨seen, printed, u, hseen, hturns⟩ := Loop.exists_drives maxCycles Loop.taking s
    obtain ⟨runs', hruns', hcalls⟩ := hseen.owing #[]
    rw [hzero, Nat.zero_add] at h
    rw [owing_empty, Array.empty_append] at hruns'
    obtain ⟨rfl, -, hr⟩ := h.unique hruns'
    obtain ⟨hfirst, hsecond⟩ : u.1.owing printed = r.1 ∧ u.2 = r.2 := Prod.ext_iff.mp hr
    have hlimit : seen.length ≤ 2 * maxCycles := by
      unfold runsLeft at hturns
      omega
    refine ⟨seen, u.1, printed, ?_, hcalls.symm, ?_, hfirst.symm, fun hempty => ?_⟩
    · rw [← hsecond]
      exact (Loop.drives_console_iff s maxCycles).mpr hseen
    · intro keys turns hkeys hn
      have hprints := hseen.takeTurns_eq hkeys (Nat.le_trans hlimit hn) #[]
      rwa [Array.empty_append] at hprints
    · have hsent := hseen.sent_empty (hzero ▸ hempty)
      refine ⟨hsent, ?_⟩
      rw [← hfirst]
      change printed = printed ++ u.1.uart.sent
      rw [hsent, Array.append_empty]

/-- A machine with slices of no cycles that was just loaded with a program that prints two bytes
and stops. -/
def printing : Simulator :=
  let program := [.movhi 1 0x9000, .addi 2 0 0x48, .store .sb 1 2 0, .addi 2 0 0x69,
    .store .sb 1 2 0, .nop 1].foldl Program.emit .empty
  ((ofConfiguration { Configuration.initial with sliceCycles := 0 }).loadImage program.image 0).2

/-- Slices of one cycle: the bytes are taken in two different turns, and a script finds them in the
queue. -/
theorem loops_agree_printing :
    Scripting.runUntilHalt printing (.natural 9) (fun _ => false) =
        (.ok true, (printing.runUntilHalt 9).1) ∧
      ∃ t, Console.takeTurns printing (some 9) [] #[] 18 = (t, #[0x48, 0x69]) ∧
        t.uart.sent = #[] ∧ (printing.runUntilHalt 9).1.uart.sent = #[0x48, 0x69] := by
  have hleft : (printing.runUntilHalt 9).1.uart.sent = #[0x48, 0x69] := by decide +kernel
  have hhalts : (printing.runUntilHalt 9).2 = true := by decide +kernel
  have hcycles : printing.cycles = 0 := (loadImage_ofConfiguration ..).1
  obtain ⟨runs, -, -, hscript, hconsole⟩ := printing.loops_agree 9
  have hcall := hscript (.natural 9) (Scripting.count_natural (by decide))
  obtain ⟨seen, t, printed, -, -, hturns, -, hqueue⟩ := hconsole hcycles
  obtain ⟨hsent, hprinted⟩ := hqueue (.inl (by decide))
  rw [hprinted, hleft] at hturns
  rw [hhalts] at hcall
  exact ⟨hcall, t, hturns [] 18 rfl (Nat.le_refl _), hsent, hleft⟩

end Simulator

end Orbis
