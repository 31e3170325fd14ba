import Orbis.Word
/-!
# The supervision register

One word that holds the privilege, the enables of exceptions and of paging, and the flag that
comparisons set. Some bits are kept without having an effect.
-/
namespace Orbis

/-- The privilege in which an access is made. -/
inductive Privilege where
  | user | supervisor
  deriving DecidableEq

namespace Privilege

def name : Privilege → String
  | user => "User"
  | supervisor => "Supervisor"

end Privilege

namespace Supervision

/-- The named bits of the supervision register, from the least significant one up. -/
inductive Bit where
  /-- Supervisor mode. -/
  | sm
  /-- Enables the tick timer exception. -/
  | tee
  /-- Enables external interrupts. -/
  | iee
  /-- Data cache enable, without effect. -/
  | dce
  /-- Instruction cache enable, without effect. -/
  | ice
  /-- Enables paging of data accesses. -/
  | dme
  /-- Enables paging of fetches. -/
  | ime
  /-- Little-endian mode, without effect. -/
  | lee
  /-- Context enable, without effect. -/
  | ce
  /-- The flag of comparisons. -/
  | f
  /-- Carry, without effect. -/
  | cy
  /-- Overflow, without effect. -/
  | ov
  /-- Overflow exception enable, without effect. -/
  | ove
  /-- Tells that an exception came from a delay slot. -/
  | dsx
  /-- High exception vectors, without effect. -/
  | eph
  /-- Always set by the machine itself. -/
  | fo
  /-- User access to special registers, without effect. -/
  | sumra
  deriving DecidableEq

namespace Bit

def all : List Bit :=
  [sm, tee, iee, dce, ice, dme, ime, lee, ce, f, cy, ov, ove, dsx, eph, fo, sumra]

def position : Bit → Nat
  | sm => 0
  | tee => 1
  | iee => 2
  | dce => 3
  | ice => 4
  | dme => 5
  | ime => 6
  | lee => 7
  | ce => 8
  | f => 9
  | cy => 10
  | ov => 11
  | ove => 12
  | dsx => 13
  | eph => 14
  | fo => 15
  | sumra => 16

/-- The word in which only this bit is set. -/
def mask (b : Bit) : Word := BitVec.twoPow 32 b.position

end Bit

def has (sr : Word) (b : Bit) : Bool := sr.getLsbD b.position

def put (sr : Word) (b : Bit) (on : Bool) : Word :=
  if on then sr ||| b.mask else sr &&& ~~~b.mask

/-- The supervision word on reset and on entry to an exception. -/
def resetValue : Word := Bit.fo.mask ||| Bit.sm.mask

/-- The mode bits whose effect the machine does not have. -/
def unsupported : Word := Bit.lee.mask ||| Bit.ce.mask ||| Bit.eph.mask ||| Bit.sumra.mask

/-- The privilege that a supervision word grants. -/
def privilege (sr : Word) : Privilege := if has sr .sm then .supervisor else .user

/-! ### Setting and clearing bits -/

theorem Bit.position_lt (b : Bit) : b.position < 32 := by cases b <;> decide

theorem Bit.position_eq_iff (b b' : Bit) : b.position = b'.position ↔ b = b' := by
  constructor
  · cases b <;> cases b' <;> first | exact fun _ => rfl | exact nofun
  · exact congrArg Bit.position

theorem has_mask (b b' : Bit) : has b.mask b' = decide (b = b') := by
  unfold has Bit.mask
  rw [BitVec.getLsbD_twoPow, decide_eq_true b.position_lt, Bool.true_and, decide_eq_decide,
    Bit.position_eq_iff]

theorem has_or (v w : Word) (b : Bit) : has (v ||| w) b = (has v b || has w b) :=
  BitVec.getLsbD_or

theorem has_put (sr : Word) (b b' : Bit) (on : Bool) :
    has (put sr b on) b' = if b = b' then on else has sr b' := by
  cases on with
  | true =>
    change has (sr ||| b.mask) b' = _
    rw [has_or, has_mask]
    by_cases h : b = b' <;> simp [h]
  | false =>
    have hnot : (~~~b.mask).getLsbD b'.position = !decide (b = b') := by
      rw [BitVec.getLsbD_not, decide_eq_true b'.position_lt, Bool.true_and]
      exact congrArg _ (has_mask b b')
    change (sr &&& ~~~b.mask).getLsbD b'.position = _
    rw [BitVec.getLsbD_and, hnot]
    by_cases h : b = b' <;> simp [h, has]

theorem has_put_of_ne (sr : Word) {b b' : Bit} (on : Bool) (h : b ≠ b') :
    has (put sr b on) b' = has sr b' := by
  rw [has_put, if_neg h]

end Supervision

end Orbis
