import Orbis.Proofs.Coherence

/-!
# Remembered pages under all operations

A processor is run, asked whatever a host can ask, and finds its bus and its counters changed by
others. Through all of this, and inside of runs too, paging follows the supervision register, and a
page is remembered only while a full translation at the present privilege leads to the same place.
-/

namespace Orbis

/-- What can be done with a processor, calls to its memory management units apart. -/
inductive Operation where
  | act (a : Action)
  /-- Changes the bus and the counters, over which others have power as well. -/
  | change (b : Bus) (s : Statistics)

namespace Cpu

/-- The record of an operation and the state behind it. -/
def operate (c : Cpu) : Operation → Session
  | .act a => (Session.start c).perform .real a
  | .change b s => .start { c with bus := b, statistics := s }

def operateAll (c : Cpu) (os : List Operation) : Cpu := os.foldl (fun c o => (c.operate o).now) c

namespace Coherent

variable {c : Cpu}

theorem change (h : c.Coherent) (b : Bus) (s : Statistics) :
    ({ c with bus := b, statistics := s }).Coherent :=
  ⟨h.immu_enabled, h.dmmu_enabled, h.fetch_sound, h.load_sound⟩

/-- An operation ends in a coherent state and goes through coherent states only. -/
theorem operate (h : c.Coherent) (o : Operation) :
    (c.operate o).now.Coherent ∧ ∀ d step, (d, step) ∈ (c.operate o).past → d.Coherent := by
  cases o with
  | change b s => exact ⟨h.change b s, fun _ _ hmoment => absurd hmoment List.not_mem_nil⟩
  | act a =>
    have hrecorded :
        Recorded (fun _ => True) c (c.operate (.act a)).past (c.operate (.act a)).now :=
      Recorded.perform (s := Session.start c) .start fun _ _ => trivial
    refine ⟨hrecorded.coherent h, fun d step hmoment => ?_⟩
    obtain ⟨later, older, hpast⟩ := List.append_of_mem hmoment
    have hsuffix : (d, step) :: older <:+ (c.operate (.act a)).past := ⟨later, hpast.symm⟩
    exact (hrecorded.of_suffix hsuffix).1.coherent h

theorem operateAll (h : c.Coherent) (os : List Operation) : (c.operateAll os).Coherent := by
  induction os generalizing c with
  | nil => exact h
  | cons o os ih => exact ih (h.operate o).1

end Coherent

/-- Whatever was done with a processor since it was switched on, then before and behind a further
operation, and at every moment in between, paging is on for each side exactly if the supervision
register says so. An address on the page that is remembered for fetches is translated to the
remembered page of memory, with the rights of a fetch at the present privilege, and one on the page
that is remembered for loads likewise, with the rights of a read. -/
theorem remembered_pages_translate (os : List Operation) (o : Operation) (d : Cpu) :
    let c := Cpu.initial.operateAll os
    d = c ∨ d = (c.operate o).now ∨ (∃ step, (d, step) ∈ (c.operate o).past) →
      d.immu.enabled = Supervision.has d.sr .ime ∧ d.dmmu.enabled = Supervision.has d.sr .dme ∧
      (∀ m, d.fetchMemo = some m → ∀ a : Word, a.page = m.page →
        (d.immu.translate a d.privilege .fetch).1 = .ok (m.frame.address a.pageOffset) ∧
          Bus.isRam (m.frame.address a.pageOffset) = true) ∧
      (∀ m, d.dmmu.memo = some m → ∀ a : Word, a.page = m.page →
        (d.dmmu.translate a d.privilege .read).1 = .ok (m.frame.address a.pageOffset) ∧
          Bus.isRam (m.frame.address a.pageOffset) = true) := by
  intro c hd
  have hc : c.Coherent := Coherent.operateAll (.reset _) os
  have hcoherent : d.Coherent := by
    rcases hd with rfl | rfl | ⟨step, hmoment⟩
    · exact hc
    · exact (hc.operate o).1
    · exact (hc.operate o).2 d step hmoment
  refine ⟨hcoherent.immu_enabled, hcoherent.dmmu_enabled, fun m hm a ha => ?_, fun m hm a ha => ?_⟩
  · rw [Mmu.translate_fst]
    exact hcoherent.fetch_sound m hm a ha
  · rw [Mmu.translate_fst]
    exact hcoherent.load_sound m hm a ha

/-- Two instructions at the beginning of memory, that page mapped for fetches to itself, a page of
data to another one, and a user to whom both sides are translated. -/
def translated : List Operation :=
  [.poke .word 0 (Instruction.encode (.load .lwz 3 0 0x2004)),
    .poke .word 4 (Instruction.encode (.setFlag .eq 3 0)), .setSpr 0x1200 1, .setSpr 0x1280 0xc0,
    .setSpr 0x0a01 0x2001, .setSpr 0x0a81 0x60c0, .setSr 0x8060].map fun k => .act (.call k)

/-- The user has loaded a word and compared it, which sets the flag and nothing else of the
supervision register. Both pages are remembered, and their last words are translated alike. -/
theorem remembered_pages_translate_comparing :
    let d := ((Cpu.initial.operateAll translated).operate (.act (.run 2))).now
    d.flag = true ∧ d.privilege = .user ∧ d.immu.enabled = true ∧ d.dmmu.enabled = true ∧
      d.fetchMemo = some ⟨0, 0⟩ ∧ d.dmmu.memo = some ⟨1, 3⟩ ∧
      (d.immu.translate 0x1ffc d.privilege .fetch).1 = .ok 0x1ffc ∧
      (d.dmmu.translate 0x3ffc d.privilege .read).1 = .ok 0x7ffc := by
  intro d
  obtain ⟨-, -, hfetch, hload⟩ :=
    remembered_pages_translate translated (.act (.run 2)) d (.inr (.inl rfl))
  have hstate : d.flag = true ∧ d.privilege = .user ∧ d.immu.enabled = true ∧
      d.dmmu.enabled = true ∧ d.fetchMemo = some ⟨0, 0⟩ ∧ d.dmmu.memo = some ⟨1, 3⟩ := by
    decide +kernel
  obtain ⟨hflag, hprivilege, himmu, hdmmu, hfetchMemo, hloadMemo⟩ := hstate
  have hfetched := (hfetch _ hfetchMemo 0x1ffc (by decide)).1
  have hloaded := (hload _ hloadMemo 0x3ffc (by decide)).1
  exact ⟨hflag, hprivilege, himmu, hdmmu, hfetchMemo, hloadMemo, hfetched, hloaded⟩

end Cpu

end Orbis
