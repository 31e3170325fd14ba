import Orbis.Cpu.State
/-!
# Special registers

A special register is addressed by a group of five bits and an index of eleven; the higher bits of
an address do not count. `Spr.ofAddress` says which register an address selects, and reading and
writing are defined on the registers.
-/
namespace Orbis

inductive Spr where
  /-- A constant that describes the machine, with its index. -/
  | identification (index : Nat) (value : Word)
  | supervision
  | savedPc
  | savedAddress
  | savedSupervision
  | mmu (side : Side) (index : Nat)
  /-- Invalidates a block of the instruction cache, of which there is none. -/
  | cacheInvalidate
  | interruptMask
  | interruptStatus
  | timerMode
  | timerCount
  | unknown
  deriving DecidableEq

namespace Spr

def group (a : Word) : Nat := (a.extractLsb' 11 5).toNat

def index (a : Word) : Nat := (a.extractLsb' 0 11).toNat

def address (group index : Word) : Word := 0#16 ++ group.extractLsb' 0 5 ++ index.extractLsb' 0 11

/-- The constants of the system group: version, units present, configuration of the core, of the two
memory management units and of the two caches, second version, version of the architecture. -/
def constant? : Nat → Option Word
  | 0 => some 0x10000040
  | 1 => some 0x00000619
  | 2 => some 0x00000820
  | 3 => some 0x00000018
  | 4 => some 0x00000018
  | 5 => some 0
  | 6 => some 0
  | 9 => some 0
  | 10 => some 0x01000000
  | _ => none

def ofSystem (index : Nat) : Spr :=
  match index with
  | 17 => supervision
  | 32 => savedPc
  | 48 => savedAddress
  | 64 => savedSupervision
  | i => (constant? i).elim unknown (identification i)

def ofAddress (a : Word) : Spr :=
  match group a, index a with
  | 0, i => ofSystem i
  | 1, i => mmu .data i
  | 2, i => mmu .instruction i
  | 4, 2 => cacheInvalidate
  | 9, 0 => interruptMask
  | 9, 2 => interruptStatus
  | 10, 0 => timerMode
  | 10, 1 => timerCount
  | _, _ => unknown

end Spr

namespace Cpu

/-- The content of a special register, which is zero where there is none. -/
def readSpr (c : Cpu) : Spr → Word
  | .identification _ v => v
  | .supervision => c.sr
  | .savedPc => c.context.pc
  | .savedAddress => c.context.address
  | .savedSupervision => c.context.supervision
  | .mmu .data i => c.dmmu.readAt i
  | .mmu .instruction i => c.immu.readAt i
  | .interruptMask => c.interrupts.mask
  | .interruptStatus => c.interrupts.status
  | .timerMode => c.timer.mode
  | .timerCount => c.timer.count
  | .cacheInvalidate | .unknown => 0

/-- Writes a special register. Constants keep their value, and new page table entries make the
processor forget the page that it fetches from. -/
def writeSpr (c : Cpu) (r : Spr) (v : Word) : Cpu :=
  match r with
  | .supervision => c.setSr v
  | .savedPc => { c with context := { c.context with pc := v } }
  | .savedAddress => { c with context := { c.context with address := v } }
  | .savedSupervision => { c with context := { c.context with supervision := v } }
  | .mmu .data i => { c with dmmu := c.dmmu.writeAt i v, fetchMemo := none }
  | .mmu .instruction i => { c with immu := c.immu.writeAt i v, fetchMemo := none }
  | .interruptMask => { c with interrupts := { c.interrupts with mask := v } }
  | .interruptStatus => { c with interrupts := { c.interrupts with status := v } }
  | .timerMode => { c with timer := { c.timer with mode := v } }
  | .timerCount => { c with timer := { c.timer with count := v } }
  | .identification _ _ | .cacheInvalidate | .unknown => c

def spr (c : Cpu) (a : Word) : Word := c.readSpr (.ofAddress a)

def setSpr (c : Cpu) (a v : Word) : Cpu := c.writeSpr (.ofAddress a) v

end Cpu

end Orbis
