import Orbis.Bus
import Orbis.Supervision
/-!
# Address translation

The table of one side of the core, and the unit around it.
-/
namespace Orbis

/-!
## Page table entries

A direct-mapped table that software fills. Each of its sets is a match register with the tag and a
valid bit, and a translate register with the physical page and the permissions. Paging uses the
first 64 of the 128 sets, and picks one by the low bits of the page number.
-/

/-- The registers of the table of one side. -/
structure Tlb where
  tags : Vector Word 128
  frames : Vector Word 128
  deriving DecidableEq

namespace Tlb

def sets : Nat := 128

def usedSets : Nat := 64

def tagBase : Nat := 512

def frameBase : Nat := 640

def empty : Tlb := ⟨.replicate 128 0, .replicate 128 0⟩

/-- A register of the table. -/
inductive Slot where
  | tag (set : Fin 128)
  | frame (set : Fin 128)
  deriving DecidableEq

def slot? (index : Nat) : Option Slot :=
  if h : tagBase ≤ index ∧ index - tagBase < 128 then some (.tag ⟨index - tagBase, h.2⟩)
  else if h : frameBase ≤ index ∧ index - frameBase < 128 then
    some (.frame ⟨index - frameBase, h.2⟩)
  else none

def read (t : Tlb) : Slot → Word
  | .tag i => t.tags[i]
  | .frame i => t.frames[i]

def write (t : Tlb) (s : Slot) (v : Word) : Tlb :=
  match s with
  | .tag i => { t with tags := t.tags.set i v }
  | .frame i => { t with frames := t.frames.set i v }

/-- Makes every entry invalid and keeps the translate registers. -/
def clear (t : Tlb) : Tlb := { t with tags := .replicate 128 0 }

def setOf (p : Page) : Fin 128 :=
  ⟨p.toNat % usedSets, Nat.lt_trans (Nat.mod_lt _ (by decide)) (by decide)⟩

/-- The translate register for the page of an address, if its set is valid and holds that page. -/
def lookup (t : Tlb) (a : Word) : Option Word :=
  let tag := t.read (.tag (setOf a.page))
  if tag.getLsbD 0 ∧ tag.page = a.page then some (t.read (.frame (setOf a.page))) else none

end Tlb

/-!
## Memory management

Each side of the core, fetches and data, has a unit that translates addresses and makes its
accesses. `resolve` maps one address: it reads the table and checks permissions. Around it
the unit remembers the last page that it read from, which serves further word loads from that page
without a look at the table, and counts how often this succeeds.
-/

/-- The sides of the core. -/
inductive Side where
  | instruction | data
  deriving DecidableEq

/-- What an access does. -/
inductive Access where
  | fetch | read | write
  deriving DecidableEq

namespace Side

def name : Side → String
  | instruction => "Instruction"
  | data => "Data"

/-- The exception for a page without a valid entry. -/
def miss : Side → Exception
  | instruction => .instructionTlbMiss
  | data => .dataTlbMiss

/-- The exception for an access without permission. -/
def pageFault : Side → Exception
  | instruction => .instructionPageFault
  | data => .dataPageFault

def readAccess : Side → Access
  | instruction => .fetch
  | data => .read

/-- The permission bits of which one must be set. Fetches are granted to both privileges alike, and
what a user may do with data, a supervisor may do too. -/
def permission : Side → Privilege → Access → Word
  | instruction, _, _ => 0x0c0
  | data, .supervisor, .write => 0x280
  | data, .supervisor, _ => 0x140
  | data, .user, .write => 0x080
  | data, .user, _ => 0x040

end Side

/-- A virtual page with the physical page that it was translated to. -/
structure Memo where
  page : Page
  frame : Page
  deriving DecidableEq

namespace Memo

/-- The physical address of an address on the remembered page. -/
def address? (memo : Option Memo) (a : Word) : Option Word :=
  memo.bind fun m => if a.page = m.page then some (m.frame.address a.pageOffset) else none

end Memo

/-- The memory management unit of one side. -/
structure Mmu (side : Side) where
  enabled : Bool
  /-- The control word, which is kept without having an effect. -/
  control : Word
  tlb : Tlb
  /-- The page last read from, if it can be read from again. -/
  memo : Option Memo
  hits : Nat
  misses : Nat
  deriving DecidableEq

namespace Mmu

variable {side : Side}

def initial : Mmu side where
  enabled := false
  control := 0
  tlb := .empty
  memo := none
  hits := 0
  misses := 0

def forget (m : Mmu side) : Mmu side := { m with memo := none }

def setEnabled (m : Mmu side) (on : Bool) : Mmu side := { m with enabled := on, memo := none }

def reset (m : Mmu side) : Mmu side := { m with tlb := m.tlb.clear, memo := none }

/-- The registers of a unit. -/
inductive Register where
  | control
  | entry (slot : Tlb.Slot)
  deriving DecidableEq

def register? (index : Nat) : Option Register :=
  if index = 0 then some .control else (Tlb.slot? index).map .entry

def read (m : Mmu side) : Register → Word
  | .control => m.control
  | .entry s => m.tlb.read s

def write (m : Mmu side) (r : Register) (v : Word) : Mmu side :=
  match r with
  | .control => { m with control := v }
  | .entry s => { m with tlb := m.tlb.write s v }

/-- The content at an index, which is zero where there is no register. -/
def readAt (m : Mmu side) (index : Nat) : Word := (register? index).elim 0 m.read

/-- Writes at an index, to no effect where there is no register, and forgets in any case. -/
def writeAt (m : Mmu side) (index : Nat) (v : Word) : Mmu side :=
  (register? index).elim m.forget fun r => m.forget.write r v

/-- The physical address of an access, from the entries and the permissions alone. -/
def resolve (m : Mmu side) (a : Word) (p : Privilege) (x : Access) : Except Exception Word :=
  if m.enabled then
    match m.tlb.lookup a with
    | none => .error side.miss
    | some t =>
      if t &&& side.permission p x = 0 then .error side.pageFault
      else .ok (t.page.address a.pageOffset)
  else .ok a

/-- Remembers the page of a read from memory, and forgets after any access elsewhere. -/
def remember (m : Mmu side) (a physical : Word) (x : Access) : Mmu side :=
  if !Bus.isRam physical then m.forget
  else if x = .write then m
  else { m with memo := some ⟨a.page, physical.page⟩ }

def translate (m : Mmu side) (a : Word) (p : Privilege) (x : Access) :
    Except Exception Word × Mmu side :=
  match m.resolve a p x with
  | .error e => (.error e, m)
  | .ok physical => (.ok physical, m.remember a physical x)

/-- The physical address of a load. Only word loads consult the memo. -/
def locate (m : Mmu side) (w : Width) (a : Word) (p : Privilege) :
    Except Exception Word × Mmu side :=
  if w = .word then
    match Memo.address? m.memo a with
    | some physical => (.ok physical, { m with hits := m.hits + 1 })
    | none => { m with misses := m.misses + 1 }.translate a p side.readAccess
  else m.translate a p side.readAccess

def aligned (w : Width) (a : Word) : Bool := a.toNat % w.size == 0

/-- A load, extended by zeros. A fault leaves the bus as it was. -/
def load (m : Mmu side) (b : Bus) (w : Width) (a : Word) (p : Privilege) :
    Except Exception (Word × Bus) × Mmu side :=
  if aligned w a then
    let (located, m) := m.locate w a p
    (located.bind (b.load w), m)
  else (.error .alignment, m)

/-- A store of the low bytes of a word. A fault leaves the bus as it was. -/
def store (m : Mmu side) (b : Bus) (w : Width) (a : Word) (p : Privilege) (v : Word) :
    Except Exception Bus × Mmu side :=
  if aligned w a then
    let (located, m) := m.translate a p .write
    (located.bind (b.store w · v), m)
  else (.error .alignment, m)

end Mmu

end Orbis
