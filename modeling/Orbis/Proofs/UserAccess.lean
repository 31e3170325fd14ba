import Orbis.Proofs.Coherence
import Orbis.Proofs.RamBytes

/-!
# Memory of users

What a user may read and write is up to the table alone. A load or a store that completes in user
mode with paging on has found a valid entry with the permission of a user, and it went to the
address that this entry gives, whether or not a remembered page stood in for the entry: remembered
pages answer as the table does at the present privilege.
-/

namespace Orbis

namespace Word

theorem ushiftRight_eq_page (a : Word) : a >>> 13 = a.page.setWidth 32 := by
  apply BitVec.eq_of_toNat_eq
  have := a.isLt
  simp [page, BitVec.toNat_ushiftRight, BitVec.extractLsb'_toNat, Nat.shiftRight_eq_div_pow]
  omega

theorem and_pageMask (a : Word) : a &&& 0xffffe000 = a.page ++ 0#13 := by
  have hmask : (0xffffe000 : Word) = BitVec.allOnes 19 ++ 0#13 := by decide
  have ha : a.page ++ a.pageOffset = a := address_pageOffset a
  rw [hmask]
  conv => lhs; rw [← ha, BitVec.and_append, BitVec.and_allOnes, BitVec.and_zero]

theorem and_offsetMask (a : Word) : a &&& 0x1fff = 0#19 ++ a.pageOffset := by
  have hmask : (0x1fff : Word) = 0#19 ++ BitVec.allOnes 13 := by decide
  have ha : a.page ++ a.pageOffset = a := address_pageOffset a
  rw [hmask]
  conv => lhs; rw [← ha, BitVec.and_append, BitVec.and_allOnes, BitVec.and_zero]

theorem masks_eq_address (t a : Word) :
    (t &&& 0xffffe000) ||| (a &&& 0x1fff) = t.page.address a.pageOffset := by
  rw [and_pageMask, and_offsetMask, BitVec.or_append, BitVec.or_zero, BitVec.zero_or]
  rfl

end Word

/-- A store on the bus changes no byte of memory but those that it addresses. -/
theorem Bus.byte_store {b b' : Bus} {w : Width} {a v : Word} (h : b.store w a v = .ok b') {j : Nat}
    (hj : j < Bus.ramSize) (hout : j < a.toNat ∨ a.toNat + w.size ≤ j) :
    b'.ram.byte j = b.ram.byte j := by
  rcases store_cases h with ⟨-, r, rfl, hstore⟩ | ⟨-, rfl⟩
  · exact Ram.byte_store hstore hj hout
  · rfl

namespace Tlb

/-- The set that the page number of an address picks. -/
def setAt (a : Word) : Fin 128 :=
  ⟨(a >>> 13).toNat % 64, Nat.lt_trans (Nat.mod_lt _ (by decide)) (by decide)⟩

/-- Whether the table grants a right at an address: its set is valid and carries the page number of
the address, its translate register has the right, and it leads to the physical address. -/
structure Grants (t : Tlb) (right a physical : Word) : Prop where
  valid : t.tags[setAt a] &&& 1 ≠ 0
  tag_eq : t.tags[setAt a] >>> 13 = a >>> 13
  granted : t.frames[setAt a] &&& right ≠ 0
  physical_eq : physical = (t.frames[setAt a] &&& 0xffffe000) ||| (a &&& 0x1fff)

theorem setOf_page (a : Word) : setOf a.page = setAt a := by
  apply Fin.ext
  have hlt : a.page.toNat < 4294967296 := Nat.lt_trans a.page.isLt (by decide)
  simp only [setOf, setAt, usedSets, Word.ushiftRight_eq_page, BitVec.toNat_setWidth]
  rw [Nat.mod_eq_of_lt hlt]

theorem and_one_ne_zero {tag : Word} (h : tag.getLsbD 0 = true) : tag &&& 1 ≠ 0 := by
  intro hzero
  have hbit : (tag &&& 1).getLsbD 0 = true := by
    rw [BitVec.getLsbD_and, h]
    rfl
  rw [hzero] at hbit
  cases hbit

theorem lookup_eq_some {t : Tlb} {a frame : Word} (h : t.lookup a = some frame) :
    t.tags[setAt a].getLsbD 0 = true ∧ t.tags[setAt a].page = a.page ∧
      frame = t.frames[setAt a] := by
  simp only [lookup, setOf_page, read, Option.ite_none_right_eq_some, Option.some.injEq] at h
  obtain ⟨⟨hvalid, hpage⟩, hframe⟩ := h
  exact ⟨hvalid, hpage, hframe.symm⟩

end Tlb

theorem Mmu.grants_of_resolve {m : Mmu .data} {a physical : Word} {x : Access}
    (hon : m.enabled = true) (h : m.resolve a .user x = .ok physical) :
    m.tlb.Grants (Side.permission .data .user x) a physical := by
  unfold resolve at h
  rw [if_pos hon] at h
  split at h
  · cases h
  · next frame hlookup =>
    obtain ⟨hvalid, hpage, rfl⟩ := Tlb.lookup_eq_some hlookup
    split at h
    · cases h
    · next hright =>
      cases h
      refine ⟨Tlb.and_one_ne_zero hvalid, ?_, hright, (Word.masks_eq_address _ a).symm⟩
      rw [Word.ushiftRight_eq_page, Word.ushiftRight_eq_page, hpage]

namespace Cpu

variable {c d : Cpu}

theorem privilege_of_user (h : Supervision.has c.sr .sm = false) : c.privilege = .user := by
  rw [privilege, Supervision.privilege, h]
  rfl

/-- A load that completes goes to the bus at the address that the table gives. -/
theorem load_resolves (h : c.Coherent) {op : LoadOp} {a v : Word} (hl : c.load op a = (.ok v, d)) :
    ∃ physical u, c.dmmu.resolve a c.privilege .read = .ok physical ∧
      c.bus.load op.width physical = .ok (u, d.bus) ∧ v = op.extend u := by
  unfold load at hl
  cases hm : c.dmmu.load c.bus op.width a c.privilege with
  | mk r m =>
    rw [hm] at hl
    cases r with
    | error e => cases hl
    | ok r =>
      obtain ⟨u, bus⟩ := r
      cases hl
      obtain ⟨physical, hlocate, hbus⟩ := Mmu.exists_load hm
      rw [Mmu.locate_fst h.load_sound] at hlocate
      exact ⟨physical, u, hlocate, hbus, rfl⟩

theorem store_resolves {op : StoreOp} {a v : Word} (hs : c.store op a v = (.ok (), d)) :
    ∃ physical, c.dmmu.resolve a c.privilege .write = .ok physical ∧
      c.bus.store op.width physical v = .ok d.bus := by
  unfold store at hs
  cases hm : c.dmmu.store c.bus op.width a c.privilege v with
  | mk r m =>
    rw [hm] at hs
    cases r with
    | error e => cases hs
    | ok bus =>
      cases hs
      exact Mmu.exists_store hm

theorem load_of_cycle {op : LoadOp} {r x : Reg} {i : Half} (hi : c.issued? = some (.load op r x i))
    (hc : c.cycle.2 = none) :
    ∃ f, c.fetched.load op (c.displaced x i) = (.ok (c.cycle.1.reg r), f) ∧
      c.cycle.1.bus = f.bus := by
  have haddress : c.fetched.displaced x i = c.displaced x i := by
    obtain ⟨memo, last, s, hframe⟩ := c.fetched_frame
    rw [hframe]
    rfl
  cases hl : c.fetched.load op (c.displaced x i) with
  | mk result f =>
    cases result with
    | error e =>
      have hattempt : c.attempt = (f, .fault e (c.displaced x i)) := by
        rw [attempt_of_issued hi]
        simp only [execute, haddress, hl]
      rw [cycle, hattempt] at hc
      cases hc
    | ok v =>
      have hattempt : c.attempt = f.complete r v := by
        rw [attempt_of_issued hi]
        simp only [execute, haddress, hl]
      have hr : (f.complete r v).1.reg r = v := by
        change (f.registers.write r v).read r = v
        rw [Registers.read_write, if_pos rfl]
      rw [cycle, hattempt]
      exact ⟨f, congrArg (fun u => (Except.ok u, f)) hr.symm, rfl⟩

theorem store_of_cycle {op : StoreOp} {x y : Reg} {i : Half}
    (hi : c.issued? = some (.store op x y i)) (hc : c.cycle.2 = none) :
    ∃ f, c.fetched.store op (c.displaced x i) (c.reg y) = (.ok (), f) ∧
      c.cycle.1.bus = f.bus := by
  have hoperands : c.fetched.displaced x i = c.displaced x i ∧ c.fetched.reg y = c.reg y := by
    obtain ⟨memo, last, s, hframe⟩ := c.fetched_frame
    rw [hframe]
    exact ⟨rfl, rfl⟩
  cases hw : c.fetched.store op (c.displaced x i) (c.reg y) with
  | mk result f =>
    cases result with
    | error e =>
      have hattempt : c.attempt = (f, .fault e (c.displaced x i)) := by
        rw [attempt_of_issued hi]
        simp only [execute, hoperands, hw]
      rw [cycle, hattempt] at hc
      cases hc
    | ok u =>
      have hattempt : c.attempt = (f.advance, .next) := by
        rw [attempt_of_issued hi]
        simp only [execute, hoperands, hw]
      rw [cycle, hattempt]
      exact ⟨f, rfl, rfl⟩

end Cpu

/-- The loads that a step completes, with address and value. -/
inductive Step.Loads (c : Cpu) : Step → LoadOp → Word → Word → Prop
  | call (op : LoadOp) (a v : Word) : Loads c (.call (.load op a) (.loaded (.ok v))) op a v
  | cycle {op : LoadOp} {r x : Reg} {i : Half} (hi : c.issued? = some (.load op r x i))
      (hc : c.cycle.2 = none) : Loads c .cycle op (c.displaced x i) (c.cycle.1.reg r)

/-- The stores that a step completes, with address and value. -/
inductive Step.Stores (c : Cpu) : Step → StoreOp → Word → Word → Prop
  | call (op : StoreOp) (a v : Word) : Stores c (.call (.store op a v) (.stored (.ok ()))) op a v
  | cycle {op : StoreOp} {x y : Reg} {i : Half} (hi : c.issued? = some (.store op x y i))
      (hc : c.cycle.2 = none) : Stores c .cycle op (c.displaced x i) (c.reg y)

namespace Step

variable {c : Cpu} {step : Step} {a v : Word}

theorem Loads.resolves {allowed : Call → Prop} {op : LoadOp} (hc : c.Coherent)
    (hs : step.Possible allowed c) (h : step.Loads c op a v) :
    ∃ physical u, c.dmmu.resolve a c.privilege .read = .ok physical ∧
      c.bus.load op.width physical = .ok (u, (step.after c).bus) ∧ v = op.extend u := by
  cases h with
  | call =>
    have hv : (c.load op a).1 = .ok v := (Response.loaded.inj hs.2).symm
    exact Cpu.load_resolves hc (Prod.ext hv rfl)
  | cycle hi hn =>
    obtain ⟨f, hl, hbus⟩ := Cpu.load_of_cycle hi hn
    obtain ⟨memo, last, s, hframe⟩ := c.fetched_frame
    have hfetched := hc.fetched
    rw [hframe] at hfetched hl
    rw [show (Step.cycle.after c).bus = f.bus from hbus]
    exact Cpu.load_resolves hfetched hl

theorem Stores.resolves {allowed : Call → Prop} {op : StoreOp} (hs : step.Possible allowed c)
    (h : step.Stores c op a v) :
    ∃ physical, c.dmmu.resolve a c.privilege .write = .ok physical ∧
      c.bus.store op.width physical v = .ok (step.after c).bus := by
  cases h with
  | call =>
    have hv : (c.store op a v).1 = .ok () := (Response.stored.inj hs.2).symm
    exact Cpu.store_resolves (Prod.ext hv rfl)
  | cycle hi hn =>
    obtain ⟨f, hw, hbus⟩ := Cpu.store_of_cycle hi hn
    obtain ⟨memo, last, s, hframe⟩ := c.fetched_frame
    rw [hframe] at hw
    have hstore := Cpu.store_resolves hw
    rw [show (Step.cycle.after c).bus = f.bus from hbus]
    exact hstore

theorem Loads.granted {op : LoadOp} (hc : c.Coherent) (hs : step.Possible (fun _ => True) c)
    (hsm : Supervision.has c.sr .sm = false) (hdme : Supervision.has c.sr .dme = true)
    (h : step.Loads c op a v) :
    ∃ physical u, c.dmmu.tlb.Grants 0x040 a physical ∧
      c.bus.load op.width physical = .ok (u, (step.after c).bus) ∧ v = op.extend u := by
  obtain ⟨physical, u, hresolve, hbus, hv⟩ := h.resolves hc hs
  rw [Cpu.privilege_of_user hsm] at hresolve
  exact ⟨physical, u, Mmu.grants_of_resolve (hc.dmmu_enabled.trans hdme) hresolve, hbus, hv⟩

theorem Stores.granted {op : StoreOp} (hc : c.Coherent) (hs : step.Possible (fun _ => True) c)
    (hsm : Supervision.has c.sr .sm = false) (hdme : Supervision.has c.sr .dme = true)
    (h : step.Stores c op a v) :
    ∃ physical, c.dmmu.tlb.Grants 0x080 a physical ∧
      c.bus.store op.width physical v = .ok (step.after c).bus := by
  obtain ⟨physical, hresolve, hbus⟩ := h.resolves hs
  rw [Cpu.privilege_of_user hsm] at hresolve
  exact ⟨physical, Mmu.grants_of_resolve (hc.dmmu_enabled.trans hdme) hresolve, hbus⟩

end Step

/-- Users are confined to what the table grants them. In every state of a session that is in user
mode with paging on, a load or a store completes only with a valid entry for its page and the right
of a user in it; it goes to exactly the address that the entry gives, and a store changes no byte of
memory but those that it addresses there. -/
theorem Session.user_confined (as : List Action) (c : Cpu) (step : Step) (older : History) :
    let s := (Session.start .initial).performAll .real as
    (c, step) :: older <:+ s.past →
    Supervision.has c.sr .sm = false →
    Supervision.has c.sr .dme = true →
    (∀ op a v, step.Loads c op a v → ∃ physical u,
      c.dmmu.tlb.Grants 0x040 a physical ∧
      c.bus.load op.width physical = .ok (u, (step.after c).bus) ∧ v = op.extend u) ∧
    (∀ op a v, step.Stores c op a v → ∃ physical,
      c.dmmu.tlb.Grants 0x080 a physical ∧
      c.bus.store op.width physical v = .ok (step.after c).bus ∧
      ∀ j, j < Bus.ramSize → (j < physical.toNat ∨ physical.toNat + op.width.size ≤ j) →
        (step.after c).bus.ram.byte j = c.bus.ram.byte j) := by
  intro s hmoment hsm hdme
  have hrecorded : Recorded (fun _ => True) .initial s.past s.now :=
    Recorded.performAll (s := Session.start .initial) .start fun _ _ => trivial
  obtain ⟨hc, hpossible⟩ := hrecorded.of_suffix hmoment
  have hcoherent := hc.coherent (.reset _)
  constructor
  · intro op a v hl
    exact hl.granted hcoherent hpossible hsm hdme
  · intro op a v hw
    obtain ⟨physical, hgrants, hstore⟩ := hw.granted hcoherent hpossible hsm hdme
    refine ⟨physical, hgrants, hstore, ?_⟩
    intro j hj hout
    exact Bus.byte_store hstore hj hout

/-- Maps the second page for a user, and runs a program that reads two words of it and writes one
back. -/
def confining : List Action :=
  [(0, .load .lwz 5 0 0x2004), (4, .load .lwz 6 0 0x2008), (8, .store .sw 0 5 0x200c)].map
      (fun (a, i) => .call (.poke .word a (Instruction.encode i))) ++
    [.call (.poke .word 0x6008 0xcafe), .call (.setSpr 0x0a01 0x2001),
      .call (.setSpr 0x0a81 0x60c0), .call (.setSr 0x8020), .run 3]

/-- The second load finds its page remembered, and it goes where the entry of that page leads. -/
theorem Session.user_confined_remembered :
    let s := (Session.start .initial).performAll .real confining
    ∃ (c : Cpu) (older : History), (c, .cycle) :: older <:+ s.past ∧
      Memo.address? c.dmmu.memo 0x2008 = some 0x6008 ∧
      Step.cycle.Loads c .lwz 0x2008 0xcafe ∧
      ∃ physical u, c.dmmu.tlb.Grants 0x040 0x2008 physical ∧
        c.bus.load .word physical = .ok (u, c.cycle.1.bus) ∧ 0xcafe = LoadOp.lwz.extend u := by
  intro s
  obtain ⟨c, older, hmoment, hfacts⟩ := History.exists_cycle s.past 2
    (fun c _ => c.issued? = some (.load .lwz 6 0 0x2008) ∧ c.cycle.2 = none ∧
      c.displaced 0 0x2008 = 0x2008 ∧ c.cycle.1.reg 6 = 0xcafe ∧
      Memo.address? c.dmmu.memo 0x2008 = some 0x6008 ∧
      Supervision.has c.sr .sm = false ∧ Supervision.has c.sr .dme = true)
    (by decide +kernel)
  obtain ⟨hi, hnext, haddress, hvalue, hmemo, hsm, hdme⟩ := of_decide_eq_true hfacts
  have hloads : Step.cycle.Loads c .lwz 0x2008 0xcafe := by
    rw [← haddress, ← hvalue]
    exact .cycle hi hnext
  exact ⟨c, older, hmoment, hmemo, hloads,
    (Session.user_confined confining c .cycle older hmoment hsm hdme).1 .lwz 0x2008 0xcafe hloads⟩

end Orbis
