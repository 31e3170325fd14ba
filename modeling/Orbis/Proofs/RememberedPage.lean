import Orbis.Proofs.Faults
import Orbis.Proofs.Reference

/-!
# Privileges and the remembered page

A unit remembers the page that it read from last, but not the privilege of that read. Whoever owns
the unit makes it forget when the privilege changes. Without that, the remembered page gives a user
what the table grants to a supervisor, and this is the only way in which it can be told from the
table.
-/

namespace Orbis

namespace Mmu

variable {side : Side}

inductive Call where
  | setEnabled (on : Bool)
  | forget
  | reset
  | write (index : Nat) (v : Word)
  | translate (a : Word) (p : Privilege) (x : Access)
  | load (w : Width) (a : Word) (p : Privilege)
  | store (w : Width) (a : Word) (p : Privilege) (v : Word)
  /-- The bus as others leave it. -/
  | others (b : Bus)

inductive Answer where
  | done
  /-- A physical address, and whether it leads to memory. -/
  | mapped (r : Except Exception (Word × Bool))
  | loaded (r : Except Exception Word)
  | stored (r : Except Exception Unit)

def answer (m : Mmu side) (b : Bus) : Call → Answer × Mmu side × Bus
  | .setEnabled on => (.done, m.setEnabled on, b)
  | .forget => (.done, m.forget, b)
  | .reset => (.done, m.reset, b)
  | .write i v => (.done, m.writeAt i v, b)
  | .translate a p x =>
    let (r, m) := m.translate a p x
    (.mapped (r.map fun physical => (physical, Bus.isRam physical)), m, b)
  | .load w a p =>
    let (r, m) := m.load b w a p
    (.loaded (r.map Prod.fst), m, (r.toOption.map Prod.snd).getD b)
  | .store w a p v =>
    let (r, m) := m.store b w a p v
    (.stored (r.map fun _ => ()), m, r.toOption.getD b)
  | .others b => (.done, m, b)

/-- The answer of a unit that forgets before it loads a word. -/
def answerForgetting (m : Mmu side) (b : Bus) : Call → Answer × Mmu side × Bus
  | .load .word a p => m.forget.answer b (.load .word a p)
  | k => m.answer b k

def answerAll (answer : Mmu side → Bus → Call → Answer × Mmu side × Bus) (u : Mmu side × Bus)
    (ks : List Call) : Mmu side × Bus :=
  ks.foldl (fun u k => (answer u.1 u.2 k).2) u

namespace Call

/-- The page that a call may read, and the privilege of the read. -/
def reads? : Call → Option (Page × Privilege)
  | translate _ _ .write => none
  | translate a p _ | load _ a p => some (a.page, p)
  | _ => none

def forgets : Call → Bool
  | setEnabled _ | forget | reset | write _ _ => true
  | _ => false

/-- A page was read at a privilege, and the unit was not made to forget since. -/
def ReadAt (ks : List Call) (page : Page) (p : Privilege) : Prop :=
  ∃ before k after, ks = before ++ k :: after ∧ k.reads? = some (page, p) ∧
    ∀ k ∈ after, k.forgets = false

end Call

/-! ### Permissions of the two privileges -/

variable {m n : Mmu side} {a physical : Word} {p : Privilege} {x : Access} {b : Bus}

theorem permission_of_ne_write (side : Side) (p : Privilege) (hx : x ≠ .write) :
    side.permission p x = side.permission p side.readAccess := by
  cases side with
  | instruction => rfl
  | data =>
    cases x with
    | write => exact absurd rfl hx
    | fetch | read => cases p <;> rfl

theorem resolve_of_ne_write (m : Mmu side) (a : Word) (p : Privilege) (hx : x ≠ .write) :
    m.resolve a p x = m.resolve a p side.readAccess := by
  unfold resolve
  rw [permission_of_ne_write side p hx]

theorem permission_supervisor (t : Word) (p : Privilege)
    (h : t &&& side.permission p side.readAccess ≠ 0) :
    t &&& side.permission .supervisor side.readAccess ≠ 0 := by
  cases side with
  | instruction => exact h
  | data =>
    cases p with
    | supervisor => exact h
    | user =>
      intro hnone
      apply h
      have hpart : (0x040 : Word) = 0x140 &&& 0x040 := by decide
      change t &&& 0x040 = 0
      rw [hpart, ← BitVec.and_assoc, show t &&& 0x140 = 0 from hnone]
      exact BitVec.zero_and

theorem resolve_supervisor (h : m.resolve a p side.readAccess = .ok physical) :
    m.resolve a .supervisor side.readAccess = .ok physical := by
  unfold resolve at h ⊢
  split at h
  · next hon =>
    rw [if_pos hon]
    split at h
    · cases h
    · next t _ =>
      split at h
      · cases h
      · next hgranted =>
        cases h
        exact if_neg (permission_supervisor t p hgranted)
  · next hoff =>
    cases h
    exact if_neg hoff

/-- A user whose read leads nowhere else than that of a supervisor is refused it for want of
permission. -/
theorem resolve_user (h : m.resolve a .supervisor side.readAccess = .ok physical) :
    m.resolve a .user side.readAccess = .ok physical ∨
      (side = .data ∧ m.resolve a .user side.readAccess = .error .dataPageFault) := by
  unfold resolve at h ⊢
  split at h
  · next hon =>
    rw [if_pos hon]
    split at h
    · cases h
    · next t _ =>
      split at h
      · cases h
      · next hgranted =>
        cases h
        cases side with
        | instruction => exact .inl (if_neg hgranted)
        | data =>
          by_cases hu : t &&& Side.permission .data .user (Side.readAccess .data) = 0
          · exact .inr ⟨rfl, if_pos hu⟩
          · exact .inl (if_neg hu)
  · next hoff =>
    cases h
    exact .inl (if_neg hoff)

/-! ### What is remembered -/

namespace Call.ReadAt

variable {ks : List Call} {k : Call} {page : Page} {p : Privilege}

theorem last (ks : List Call) (hk : k.reads? = some (page, p)) : ReadAt (ks ++ [k]) page p :=
  ⟨ks, k, [], rfl, hk, nofun⟩

theorem append (h : ReadAt ks page p) (hk : k.forgets = false) : ReadAt (ks ++ [k]) page p := by
  obtain ⟨before, read, after, rfl, hread, hafter⟩ := h
  refine ⟨before, read, after ++ [k], by simp, hread, ?_⟩
  intro l hl
  rcases List.mem_append.mp hl with hl | hl
  · exact hafter l hl
  · rwa [List.mem_singleton.mp hl]

end Call.ReadAt

/-- What a unit remembers answers as the table does at the privilege of a read of that page, since
which the unit was not made to forget. -/
def Tracks (ks : List Call) (m : Mmu side) : Prop :=
  ∀ memo, m.memo = some memo → ∃ p, Call.ReadAt ks memo.page p ∧
    Memo.Sound (some memo) (m.resolve · p side.readAccess)

namespace Tracks

variable {ks : List Call} {k : Call} {w : Width}

theorem of_memo_none (h : m.memo = none) : Tracks ks m := by
  intro memo hmemo
  cases h.symm.trans hmemo

theorem keep (h : Tracks ks m) (hk : k.forgets = false) (hmemo : n.memo = m.memo)
    (htable : n.resolve = m.resolve) : Tracks (ks ++ [k]) n := by
  intro memo hn
  obtain ⟨p, hread, hsound⟩ := h memo (hmemo.symm.trans hn)
  refine ⟨p, hread.append hk, ?_⟩
  rwa [htable]

theorem translate (h : Tracks ks m) (hk : k.forgets = false)
    (hread : x ≠ .write → k.reads? = some (a.page, p)) :
    Tracks (ks ++ [k]) (m.translate a p x).2 := by
  unfold Mmu.translate
  cases hr : m.resolve a p x with
  | error e => exact h.keep hk rfl rfl
  | ok physical =>
    simp only [remember]
    split
    · exact of_memo_none rfl
    · next hram =>
      split
      · exact h.keep hk rfl rfl
      · next hx =>
        rw [Bool.not_eq_true, Bool.not_eq_false'] at hram
        have hsound := m.sound_of_resolve hr hram
        simp only [resolve_of_ne_write m _ p hx] at hsound
        intro memo hmemo
        cases hmemo
        exact ⟨p, .last ks (hread hx), hsound⟩

theorem locate (h : Tracks ks m) (w : Width) (a : Word) (p : Privilege) :
    Tracks (ks ++ [.load w a p]) (m.locate w a p).2 := by
  unfold Mmu.locate
  split
  · split
    · exact h.keep rfl rfl rfl
    · have hmisses : Tracks ks { m with misses := m.misses + 1 } := h
      exact hmisses.translate rfl fun _ => rfl
  · exact h.translate rfl fun _ => rfl

theorem load (h : Tracks ks m) (b : Bus) (w : Width) (a : Word) (p : Privilege) :
    Tracks (ks ++ [.load w a p]) (m.load b w a p).2 := by
  unfold Mmu.load
  split
  · exact h.locate w a p
  · exact h.keep rfl rfl rfl

theorem store (h : Tracks ks m) (b : Bus) (w : Width) (a : Word) (p : Privilege) (v : Word) :
    Tracks (ks ++ [.store w a p v]) (m.store b w a p v).2 := by
  unfold Mmu.store
  split
  · exact h.translate rfl fun hx => absurd rfl hx
  · exact h.keep rfl rfl rfl

theorem answer (h : Tracks ks m) (b : Bus) (k : Call) :
    Tracks (ks ++ [k]) (m.answer b k).2.1 := by
  cases k with
  | setEnabled | forget | reset => exact of_memo_none rfl
  | write i v => exact of_memo_none (Cpu.Coherent.writeAt_memo m i v)
  | translate a p x =>
    refine h.translate rfl fun hx => ?_
    cases x with
    | write => exact absurd rfl hx
    | fetch | read => rfl
  | load w a p => exact h.load b w a p
  | store w a p v => exact h.store b w a p v
  | others b => exact h.keep rfl rfl rfl

theorem coherent (h : Tracks ks m) : m.Coherent .supervisor := by
  intro memo hmemo a ha
  obtain ⟨p, -, hsound⟩ := h memo hmemo
  obtain ⟨hresolve, hram⟩ := hsound memo rfl a ha
  exact ⟨resolve_supervisor hresolve, hram⟩

end Tracks

/-- A user may load a word from a remembered page although the table refuses it. -/
structure Exposed (m : Mmu side) (a : Word) : Prop where
  aligned : Mmu.aligned .word a = true
  remembered : (Memo.address? m.memo a).isSome = true
  refused : m.resolve a .user side.readAccess = .error .dataPageFault

namespace Exposed

variable {ks : List Call}

theorem supervisor (hx : m.Exposed a) (h : Tracks ks m) :
    ∃ physical, Memo.address? m.memo a = some physical ∧
      m.resolve a .supervisor side.readAccess = .ok physical := by
  obtain ⟨physical, hmemo⟩ := Option.isSome_iff_exists.mp hx.remembered
  exact ⟨physical, hmemo, (h.coherent.of_address? hmemo).1⟩

theorem side_eq (hx : m.Exposed a) (h : Tracks ks m) : side = .data := by
  obtain ⟨physical, -, hresolve⟩ := hx.supervisor h
  rcases resolve_user hresolve with huser | ⟨hside, -⟩
  · cases huser.symm.trans hx.refused
  · exact hside

theorem readAt (hx : m.Exposed a) (h : Tracks ks m) : Call.ReadAt ks a.page .supervisor := by
  obtain ⟨physical, hmemo⟩ := Option.isSome_iff_exists.mp hx.remembered
  obtain ⟨memo, hm, hpage⟩ := Option.bind_eq_some_iff.mp hmemo
  split at hpage
  · next ha =>
    obtain ⟨p, hread, hsound⟩ := h memo hm
    rw [ha]
    cases p with
    | supervisor => exact hread
    | user => cases (hsound memo rfl a ha).1.symm.trans hx.refused
  · cases hpage

end Exposed

/-! ### Answers with and without the memo -/

section

variable {ks : List Call} {k : Call} {w : Width}

theorem resolve_eq_of_bare (h : n.bare = m.bare) : n.resolve = m.resolve :=
  resolve_eq_of_table (enabled_eq_of_bare h) (tlb_eq_of_bare h)

theorem load_forget_fst (m : Mmu side) (b : Bus) (w : Width) (a : Word) (p : Privilege) :
    (m.forget.load b w a p).1 =
      if aligned w a then (m.resolve a p side.readAccess).bind (b.load w)
      else .error .alignment :=
  load_fst (.of_memo_none rfl p) b w a

theorem locate_word_fst (h : Tracks ks m) (ha : aligned .word a = true)
    (hx : p = .user → ¬m.Exposed a) :
    (m.locate .word a p).1 = m.resolve a p side.readAccess := by
  cases p with
  | supervisor => exact locate_fst h.coherent .word a
  | user =>
    simp only [locate, if_true]
    cases hmemo : Memo.address? m.memo a with
    | none => exact translate_fst _ _ _ _
    | some physical =>
      rcases resolve_user (h.coherent.of_address? hmemo).1 with huser | ⟨-, hrefused⟩
      · exact huser.symm
      · exact absurd ⟨ha, by rw [hmemo]; rfl, hrefused⟩ (hx rfl)

theorem load_word_fst (h : Tracks ks m) (b : Bus) (hx : p = .user → ¬m.Exposed a) :
    (m.load b .word a p).1 = (m.forget.load b .word a p).1 := by
  rw [load_forget_fst]
  by_cases ha : aligned .word a = true
  · exact load_fst_of_locate (locate_word_fst h ha hx) b
  · rw [if_neg ha]
    exact congrArg Prod.fst (if_neg ha)

theorem load_word_exposed (h : Tracks ks m) (b : Bus) (hx : m.Exposed a) :
    (m.load b .word a .user).1 = (m.forget.load b .word a .supervisor).1 := by
  obtain ⟨physical, hmemo, hresolve⟩ := hx.supervisor h
  have hlocate : (m.locate .word a .user).1 = m.resolve a .supervisor side.readAccess := by
    simp only [locate, if_true, hmemo, hresolve]
  rw [load_forget_fst]
  exact load_fst_of_locate hlocate b

theorem load_forget_exposed (b : Bus) (hx : m.Exposed a) :
    (m.forget.load b .word a .user).1 = .error .dataPageFault := by
  rw [load_forget_fst, if_pos hx.aligned, hx.refused]
  rfl

theorem bus_load_word (m : Mmu side) (b : Bus) (a : Word) (p : Privilege) :
    ((m.load b .word a p).1.toOption.map Prod.snd).getD b = b := by
  cases hl : m.load b .word a p with
  | mk r n =>
    cases r with
    | error e => rfl
    | ok r =>
      obtain ⟨v, b'⟩ := r
      obtain ⟨physical, -, hload⟩ := exists_load hl
      exact (Bus.load_word hload).1

end

/-! ### Two units under the same calls -/

/-- Two units that were asked the same, of which the second forgets before it loads a word. -/
structure Alike (ks : List Call) (u v : Mmu side × Bus) : Prop where
  tracks : Tracks ks u.1
  bare : v.1.bare = u.1.bare
  bus : v.2 = u.2

section

variable {ks : List Call} {u v : Mmu side × Bus}

theorem Alike.start (b : Bus) : Alike [] ((.initial, b) : Mmu side × Bus) (.initial, b) :=
  ⟨.of_memo_none rfl, rfl, rfl⟩

theorem answer_of_bare (h : n.bare = m.bare) (b : Bus) (k : Call)
    (hk : ¬∃ a p, k = .load .word a p) :
    (n.answer b k).1 = (m.answer b k).1 ∧ (n.answer b k).2.1.bare = (m.answer b k).2.1.bare ∧
      (n.answer b k).2.2 = (m.answer b k).2.2 := by
  cases k with
  | setEnabled on => exact ⟨rfl, congrArg (setEnabled · on) h, rfl⟩
  | forget => exact ⟨rfl, h, rfl⟩
  | reset => exact ⟨rfl, congrArg reset h, rfl⟩
  | write i v =>
    have hwrite : (n.writeAt i v).bare = (m.writeAt i v).bare := by
      rw [Cpu.bare_writeAt, Cpu.bare_writeAt, h]
    exact ⟨rfl, hwrite, rfl⟩
  | translate a p x =>
    simp only [answer, translate_fst, translate_bare, resolve_eq_of_bare h, h, and_self]
  | load w a p =>
    have hw : w ≠ .word := fun hw => hk ⟨a, p, by rw [hw]⟩
    have hfst : (n.load b w a p).1 = (m.load b w a p).1 := by
      rw [load_fst_of_locate (n.locate_fst_of_ne_word hw a p),
        load_fst_of_locate (m.locate_fst_of_ne_word hw a p), resolve_eq_of_bare h]
    simp only [answer, hfst, load_bare, h, and_self]
  | store w a p v =>
    have hfst : (n.store b w a p v).1 = (m.store b w a p v).1 := by
      rw [store_fst, store_fst, resolve_eq_of_bare h]
    simp only [answer, hfst, store_bare, h, and_self]
  | others c => exact ⟨rfl, h, rfl⟩

theorem answer_load {c : Bus} {q : Privilege} {w : Width}
    (h : (m.load b w a p).1 = (n.load c w a q).1) :
    (m.answer b (.load w a p)).1 = (n.answer c (.load w a q)).1 :=
  congrArg (fun r : Except Exception (Word × Bus) => Answer.loaded (r.map Prod.fst)) h

theorem answerForgetting_of_ne {b : Bus} {k : Call} (hk : ¬∃ a p, k = .load .word a p) :
    n.answerForgetting b k = n.answer b k := by
  unfold answerForgetting
  split
  · next a p => exact absurd ⟨a, p, rfl⟩ hk
  · rfl

theorem Alike.answer (h : Alike ks u v) (k : Call) :
    Alike (ks ++ [k]) (u.1.answer u.2 k).2 (v.1.answerForgetting v.2 k).2 := by
  have htracks := h.tracks.answer u.2 k
  by_cases hk : ∃ a p, k = .load .word a p
  · obtain ⟨a, p, rfl⟩ := hk
    refine ⟨htracks, ?_, ?_⟩
    · change (v.1.forget.load v.2 .word a p).2.bare = (u.1.load u.2 .word a p).2.bare
      rw [load_bare, load_bare]
      exact h.bare
    · change ((v.1.forget.load v.2 .word a p).1.toOption.map Prod.snd).getD v.2 =
        ((u.1.load u.2 .word a p).1.toOption.map Prod.snd).getD u.2
      rw [bus_load_word, bus_load_word]
      exact h.bus
  · rw [answerForgetting_of_ne hk, h.bus]
    obtain ⟨-, hbare, hbus⟩ := answer_of_bare h.bare u.2 k hk
    exact ⟨htracks, hbare, hbus⟩

theorem Alike.answerAll (h : Alike ks u v) (ls : List Call) :
    Alike (ks ++ ls) (Mmu.answerAll Mmu.answer u ls) (Mmu.answerAll answerForgetting v ls) := by
  induction ls generalizing ks u v with
  | nil => rwa [List.append_nil]
  | cons l ls ih =>
    have hrest := ih (h.answer l)
    rwa [List.append_assoc] at hrest

theorem Alike.load_forget (h : Alike ks u v) (a : Word) (p : Privilege) :
    (v.1.forget.load v.2 .word a p).1 = (u.1.forget.load u.2 .word a p).1 := by
  rw [load_forget_fst, load_forget_fst, resolve_eq_of_bare h.bare, h.bus]

theorem Alike.answer_exposed {a : Word} (h : Alike ks u v) (hx : u.1.Exposed a) :
    (u.1.answer u.2 (.load .word a .user)).1 =
      (v.1.answerForgetting v.2 (.load .word a .supervisor)).1 := by
  have hloads := load_word_exposed h.tracks u.2 hx
  rw [← h.load_forget] at hloads
  exact answer_load hloads

theorem Alike.answerForgetting_exposed {a : Word} (h : Alike ks u v) (hx : u.1.Exposed a) :
    (v.1.answerForgetting v.2 (.load .word a .user)).1 = .loaded (.error .dataPageFault) := by
  have hloads := (h.load_forget a .user).trans (load_forget_exposed u.2 hx)
  exact congrArg (fun r => Answer.loaded (r.map Prod.fst)) hloads

/-- No supervisor is refused what is remembered for want of permission. -/
theorem Alike.supervisor_ne {a : Word} (h : Alike ks u v) (hx : u.1.Exposed a) :
    (v.1.answerForgetting v.2 (.load .word a .supervisor)).1 ≠ .loaded (.error .dataPageFault) := by
  obtain ⟨physical, -, hresolve⟩ := hx.supervisor h.tracks
  have hload : (v.1.forget.load v.2 .word a .supervisor).1 = u.2.load .word physical := by
    rw [h.load_forget, load_forget_fst, if_pos hx.aligned, hresolve]
    rfl
  intro heq
  have hfault : (u.2.load .word physical).map Prod.fst = .error .dataPageFault := by
    rw [← hload]
    exact Answer.loaded.inj heq
  cases hbus : u.2.load .word physical with
  | error e =>
    rw [hbus, Bus.load_error hbus] at hfault
    cases hfault
  | ok r =>
    rw [hbus] at hfault
    cases hfault

/-- Both answer every call alike but those that expose a user. -/
theorem Alike.answer_eq_iff (h : Alike ks u v) (k : Call) :
    (u.1.answer u.2 k).1 = (v.1.answerForgetting v.2 k).1 ↔
      ∀ a, k = .load .word a .user → ¬u.1.Exposed a := by
  constructor
  · rintro heq a rfl hx
    rw [h.answerForgetting_exposed hx, h.answer_exposed hx] at heq
    exact h.supervisor_ne hx heq
  · intro hx
    by_cases hk : ∃ a p, k = .load .word a p
    · obtain ⟨a, p, rfl⟩ := hk
      have hloads := load_word_fst h.tracks u.2 (p := p) fun hp => hx a (by rw [hp])
      rw [← h.load_forget] at hloads
      exact answer_load hloads
    · rw [answerForgetting_of_ne hk, h.bus]
      exact (answer_of_bare h.bare u.2 k hk).1.symm

end

/-- Whatever a unit is asked, it answers as one that forgets before it loads a word, unless a user
loads an aligned word of a remembered page that the table refuses to users. This happens to data
only, and only after a supervisor read the page and the unit was not made to forget since: the user
gets what a supervisor would, in place of the fault. -/
theorem answer_eq_iff_not_exposed (side : Side) (b : Bus) (ks : List Call) (k : Call) :
    let u := answerAll answer ((.initial, b) : Mmu side × Bus) ks
    let v := answerAll answerForgetting ((.initial, b) : Mmu side × Bus) ks
    ((u.1.answer u.2 k).1 = (v.1.answerForgetting v.2 k).1 ↔
      ∀ a, k = .load .word a .user → ¬u.1.Exposed a) ∧
    ∀ a, u.1.Exposed a →
      side = .data ∧ Call.ReadAt ks a.page .supervisor ∧
      (v.1.answerForgetting v.2 (.load .word a .user)).1 = .loaded (.error .dataPageFault) ∧
      (u.1.answer u.2 (.load .word a .user)).1 =
        (v.1.answerForgetting v.2 (.load .word a .supervisor)).1 := by
  intro u v
  have h : Alike ks u v := (Alike.start b).answerAll ks
  refine ⟨h.answer_eq_iff k, fun a hx => ?_⟩
  exact ⟨hx.side_eq h.tracks, hx.readAt h.tracks, h.answerForgetting_exposed hx,
    h.answer_exposed hx⟩

/-- A word is stored, its page is mapped for supervisors alone, and a supervisor reads a byte. -/
def supervisorReads : List Call :=
  [.store .word 0x4000 .supervisor 0x11111111, .write 513 0x2001, .write 641 0x4100,
    .setEnabled true, .load .byte 0x2000 .supervisor]

theorem exposed_supervisorReads :
    (answerAll answer ((.initial, .initial) : Mmu .data × Bus) supervisorReads).1.Exposed
      0x2000 where
  aligned := rfl
  remembered := rfl
  refused := by
    unfold resolve
    rfl

theorem user_reads_after_supervisor :
    let u := answerAll answer ((.initial, .initial) : Mmu .data × Bus) supervisorReads
    let v := answerAll answerForgetting ((.initial, .initial) : Mmu .data × Bus) supervisorReads
    u.1.Exposed 0x2000 ∧
      (u.1.answer u.2 (.load .word 0x2000 .user)).1 ≠
        (v.1.answerForgetting v.2 (.load .word 0x2000 .user)).1 := by
  refine ⟨exposed_supervisorReads, fun heq => ?_⟩
  exact (answer_eq_iff_not_exposed .data .initial supervisorReads
    (.load .word 0x2000 .user)).1.mp heq 0x2000 rfl exposed_supervisorReads

/-- The memo skips the check of the privilege. -/
theorem answer_depends_on_memo :
    ¬∀ (side : Side) (b : Bus) (ks : List Call) (k : Call),
      let u := answerAll answer ((.initial, b) : Mmu side × Bus) ks
      let v := answerAll answerForgetting ((.initial, b) : Mmu side × Bus) ks
      (u.1.answer u.2 k).1 = (v.1.answerForgetting v.2 k).1 := by
  intro h
  have hanswers := h .data .initial supervisorReads (.load .word 0x2000 .user)
  have hserved : Answer.loaded (.ok 0x11111111) = Answer.loaded (.error .dataPageFault) := hanswers
  cases hserved

end Mmu

end Orbis
