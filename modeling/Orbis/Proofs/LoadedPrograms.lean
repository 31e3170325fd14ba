import Orbis.Isa.Assembly
import Orbis.Proofs.RamBytes
import Orbis.Proofs.Reference
import Orbis.Proofs.RoundTrip

/-!
# Programs in memory

A program is put together by directives, and each of its words keeps the place and the meaning that
one of them gave it. Loading copies the words to memory, where they are fetched as they were placed.
-/

namespace Orbis

/-! ### Words as bytes -/

namespace Word

theorem ofBytes_bytes (w : Word) :
    ofBytes (w.extractLsb' 24 8) (w.extractLsb' 16 8) (w.extractLsb' 8 8) (w.extractLsb' 0 8) =
      w := by
  rw [ofBytes, BitVec.extractLsb'_append_extractLsb'_eq_extractLsb' (by rfl),
    BitVec.extractLsb'_append_extractLsb'_eq_extractLsb' (by rfl)]
  exact BitVec.extractLsb'_append_extractLsb'

@[simp] theorem length_bytes (w : Word) : w.bytes.length = 4 := rfl

theorem length_flatMap_bytes (ws : List Word) : (ws.flatMap bytes).length = 4 * ws.length := by
  induction ws with
  | nil => rfl
  | cons w ws ih =>
    rw [List.flatMap_cons, List.length_append, ih, length_bytes, List.length_cons]
    omega

theorem getElem?_flatMap_bytes (ws : List Word) (k j : Nat) (hj : j < 4) :
    (ws.flatMap bytes)[4 * k + j]? = ws[k]?.bind (·.bytes[j]?) := by
  induction ws generalizing k with
  | nil => rfl
  | cons w ws ih =>
    rw [List.flatMap_cons]
    cases k with
    | zero =>
      rw [Nat.mul_zero, Nat.zero_add, List.getElem?_append_left hj]
      rfl
    | succ k =>
      have hindex : 4 * (k + 1) + j - 4 = 4 * k + j := by omega
      rw [List.getElem?_append_right (by rw [length_bytes]; omega), length_bytes, hindex, ih]
      rfl

end Word

namespace Program

variable {p : Program} {size k j : Nat}

theorem size_image (p : Program) : p.image.size = 4 * p.size := by
  change (Array.map _ _).size = _
  rw [Array.size_map, List.size_toArray, Word.length_flatMap_bytes, Array.length_toList]
  rfl

theorem bytes_image (hk : k < p.words.size) (hj : j < 4) (h : 4 * k + j < p.image.size) :
    p.words[k].bytes[j]? = some p.image[4 * k + j].toBitVec := by
  have hlength : 4 * k + j < (p.words.toList.flatMap Word.bytes).length := by
    rw [Word.length_flatMap_bytes, Array.length_toList]
    omega
  have hlist : k < p.words.toList.length := hk
  have hbyte := Word.getElem?_flatMap_bytes p.words.toList k j hj
  rw [List.getElem?_eq_getElem hlist, Option.bind_some, List.getElem?_eq_getElem hlength] at hbyte
  have himage : p.image[4 * k + j] =
      UInt8.ofBitVec (p.words.toList.flatMap Word.bytes)[4 * k + j] :=
    Array.getElem_map ..
  rw [himage]
  exact hbyte.symm

theorem read_copy_image (r : Ram size) (hroom : 4 * p.size ≤ size) (hk : k < p.words.size) :
    (r.copy p.image 0).read .word (4 * k) = p.words[k] := by
  have hsize := p.size_image
  have hk' : k < p.size := hk
  have hbyte (j : Nat) (hj : j < 4) :
      p.words[k].bytes[j]? = some ((r.copy p.image 0).byte (4 * k + j)) := by
    rw [r.byte_copy p.image (by omega) (by omega), dif_pos (by omega)]
    simp only [Nat.sub_zero]
    exact bytes_image hk hj (by omega)
  rw [← p.words[k].ofBytes_bytes, Option.some.inj (hbyte 0 (by decide)),
    Option.some.inj (hbyte 1 (by decide)), Option.some.inj (hbyte 2 (by decide)),
    Option.some.inj (hbyte 3 (by decide))]
  rfl

end Program

/-! ### Directives -/

/-- What a program is put together by: an instruction, a datum, or padding up to an address. -/
inductive Directive where
  | emit (i : Instruction)
  | data (w : Word)
  | padTo (address : Word)

namespace Directive

def words : Directive → (size : Nat) → Array Word
  | emit i, _ => #[i.encode]
  | data w, _ => #[w]
  | padTo a, size => .replicate (Program.wordsBelow a - size) (Instruction.nop 0).encode

/-- The words that directives place one behind the other, behind a number of others. -/
def wordsFrom (size : Nat) : List Directive → Array Word
  | [] => #[]
  | d :: ds => d.words size ++ wordsFrom (size + (d.words size).size) ds

/-- What the words that a directive places mean. An instruction is read back where its operands fit
their fields. -/
def Means : Directive → Word → Prop
  | emit i, w => w = i.encode ∧ (i.Fits → .decode w = i)
  | data v, w => w = v
  | padTo _, w => w = (Instruction.nop 0).encode ∧ .decode w = Instruction.nop 0

theorem means_of_mem {d : Directive} {size : Nat} {w : Word} (h : w ∈ d.words size) :
    d.Means w := by
  cases d with
  | emit i =>
    obtain rfl := Array.mem_singleton.mp h
    refine ⟨rfl, fun hfits => ?_⟩
    rw [Instruction.decode_encode_eq_reduced]
    exact i.reduced_eq_self_iff.mpr hfits
  | data v => exact Array.mem_singleton.mp h
  | padTo a =>
    obtain rfl := (Array.mem_replicate.mp h).2
    exact ⟨rfl, Instruction.decode_encode_eq_reduced (.nop 0)⟩

end Directive

namespace Program

variable {ds : List Directive} {d : Directive} {p : Program} {k : Nat}

def apply (p : Program) : Directive → Program
  | .emit i => p.emit i
  | .data w => p.data w
  | .padTo a => p.padTo a

def build (ds : List Directive) : Program := ds.foldl apply .empty

/-- A directive has placed the word with an index: it found no more words than that. -/
def PlacedBy (ds : List Directive) (k : Nat) (d : Directive) : Prop :=
  ∃ before after, ds = before ++ d :: after ∧ (build before).size ≤ k ∧
    k < ((build before).apply d).size

theorem words_apply (p : Program) (d : Directive) :
    (p.apply d).words = p.words ++ d.words p.size := by
  cases d <;> rfl

theorem build_append (before after : List Directive) :
    build (before ++ after) = after.foldl apply (build before) := List.foldl_append

theorem size_apply (p : Program) (d : Directive) :
    (p.apply d).size = p.size + (d.words p.size).size := by
  rw [size, words_apply, Array.size_append]
  rfl

/-- Directives never move or change a word that was placed. -/
theorem words_foldl (p : Program) (ds : List Directive) :
    (ds.foldl apply p).words = p.words ++ Directive.wordsFrom p.size ds := by
  induction ds generalizing p with
  | nil => exact Array.append_empty.symm
  | cons d ds ih =>
    rw [List.foldl_cons, ih, words_apply, size_apply, Array.append_assoc, Directive.wordsFrom]

theorem words_build (ds : List Directive) : (build ds).words = Directive.wordsFrom 0 ds :=
  (words_foldl .empty ds).trans Array.empty_append

theorem PlacedBy.means (h : PlacedBy ds k d) (hk : k < (build ds).words.size) :
    d.Means (build ds).words[k] := by
  obtain ⟨before, after, rfl, hle, hlt⟩ := h
  have hbuild : (build (before ++ d :: after)).words =
      (build before).words ++ d.words (build before).size ++
        Directive.wordsFrom ((build before).apply d).size after := by
    rw [build_append, List.foldl_cons, words_foldl, words_apply]
  rw [size, words_apply] at hlt
  simp only [hbuild]
  rw [Array.getElem_append_left hlt, Array.getElem_append_right hle]
  exact Directive.means_of_mem (Array.getElem_mem _)

theorem exists_directive (hle : p.size ≤ k) (hk : k < (ds.foldl apply p).size) :
    ∃ before d after, ds = before ++ d :: after ∧ (before.foldl apply p).size ≤ k ∧
      k < ((before.foldl apply p).apply d).size := by
  induction ds generalizing p with
  | nil => exact absurd hk (Nat.not_lt.mpr hle)
  | cons d ds ih =>
    by_cases hd : k < (p.apply d).size
    · exact ⟨[], d, ds, rfl, hle, hd⟩
    · obtain ⟨before, d', after, rfl, hplaced⟩ := ih (Nat.le_of_not_lt hd) hk
      exact ⟨d :: before, d', after, rfl, hplaced⟩

theorem exists_placedBy (hk : k < (build ds).size) : ∃ d, PlacedBy ds k d := by
  obtain ⟨before, d, after, hplaced⟩ := exists_directive (p := .empty) (Nat.zero_le k) hk
  exact ⟨d, before, after, hplaced⟩

end Program

/-! ### Loading and fetching -/

theorem Bus.load_word_of_le (b : Bus) {a : Word} (h : a.toNat + 4 ≤ ramSize) :
    b.load .word a = .ok (b.ram.read .word a.toNat, b) := by
  have hsize : ramSize = 33554432 := rfl
  have hram : isRam a = true := by
    refine decide_eq_true (show a.toNat ≤ 33554431 from ?_)
    omega
  have hload : b.ram.load .word a = .ok (b.ram.read .word a.toNat) := if_pos h
  rw [load_of_isRam hram, hload]
  rfl

theorem Cpu.fetch_of_disabled {c : Cpu} (hc : c.Coherent) (hoff : c.immu.enabled = false) {k : Nat}
    (hk : 4 * k + 4 ≤ Bus.ramSize) (hpc : c.pc = .ofNat 32 (4 * k)) :
    c.fetch.1 = .ok (c.bus.ram.read .word (4 * k)) := by
  have hsize : Bus.ramSize = 33554432 := rfl
  have hnat : c.pc.toNat = 4 * k := by
    rw [hpc, BitVec.toNat_ofNat]
    omega
  have haligned : Mmu.aligned .word c.pc = true := by
    rw [Mmu.aligned, hnat]
    simp [Width.size]
  have hresolve : c.bare.immu.resolve c.pc c.privilege .fetch = .ok c.pc := by
    rw [Mmu.resolve, show c.bare.immu.enabled = false from hoff]
    rfl
  have hload := c.bus.load_word_of_le (a := c.pc) (by omega)
  rw [show c.fetch.1 = (Reference.fetch c.bare).1 from (congrArg Prod.fst (fetch_bare hc)).symm,
    Reference.fetch_fst]
  change (if Mmu.aligned .word c.pc = true then
    (c.bare.immu.resolve c.pc c.privilege .fetch).bind
      fun a => (c.bus.load .word a).map Prod.fst else _) = _
  rw [if_pos haligned, hresolve, Except.bind, hload, hnat]
  rfl

namespace Simulator

theorem cpu_loadImage (s : Simulator) (image : ByteArray) (pc : Word) :
    ∃ bus, (s.loadImage image pc).2.cpu = { s.cpu.reset with pc := pc, bus := bus } := by
  unfold loadImage
  simp only
  split
  · exact ⟨_, rfl⟩
  · exact ⟨_, rfl⟩

theorem coherent_loadImage (s : Simulator) (image : ByteArray) (pc : Word) :
    (s.loadImage image pc).2.cpu.Coherent := by
  obtain ⟨bus, hcpu⟩ := s.cpu_loadImage image pc
  have hreset : s.cpu.reset.Coherent := .reset s.cpu
  rw [hcpu]
  exact ⟨hreset.1, hreset.2, hreset.3, hreset.4⟩

theorem immu_enabled_loadImage (s : Simulator) (image : ByteArray) (pc : Word) :
    (s.loadImage image pc).2.cpu.immu.enabled = false := by
  obtain ⟨bus, hcpu⟩ := s.cpu_loadImage image pc
  rw [hcpu]
  rfl

theorem loadImage_image (s : Simulator) {p : Program} (pc : Word)
    (hroom : 4 * p.size ≤ Bus.ramSize) :
    (s.loadImage p.image pc).1 = .ok (4 * p.size) ∧
      (s.loadImage p.image pc).2.cpu.bus.ram = s.cpu.bus.ram.copy p.image 0 := by
  have hsize := p.size_image
  have hram : s.cpu.bus.ram.loadImage p.image 0 = .ok (s.cpu.bus.ram.copy p.image 0) := by
    have hroom' : ¬Bus.ramSize < (0 : Word).toNat + p.image.size := by
      change ¬Bus.ramSize < 0 + p.image.size
      omega
    rw [Ram.loadImage, if_neg (by omega), if_neg hroom']
    rfl
  have hbus : ({ s.cpu.reset with pc := pc } : Cpu).bus.loadImage p.image 0 =
      .ok { s.cpu.bus with ram := s.cpu.bus.ram.copy p.image 0 } := by
    change s.cpu.bus.loadImage p.image 0 = _
    rw [Bus.loadImage, hram]
    rfl
  simp only [loadImage, hbus, hsize, and_self]

end Simulator

namespace Program

theorem fetch_of_bytes {p : Program} {k : Nat} {c : Cpu} {r : Ram Bus.ramSize}
    (hroom : 4 * p.size ≤ Bus.ramSize) (hk : k < p.words.size) (hc : c.Coherent)
    (hoff : c.immu.enabled = false) (hpc : c.pc = .ofNat 32 (4 * k))
    (hbytes : ∀ j < 4 * p.size, c.bus.ram.byte j = (r.copy p.image 0).byte j) :
    c.fetch.1 = .ok p.words[k] := by
  have hk' : k < p.size := hk
  have hread : c.bus.ram.read .word (4 * k) = (r.copy p.image 0).read .word (4 * k) := by
    apply Ram.read_congr
    intro j _ hj
    have hj' : j < 4 * k + 4 := hj
    exact hbytes j (by omega)
  rw [Cpu.fetch_of_disabled hc hoff (by omega) hpc, hread, read_copy_image r hroom hk]

/-- What a program is built of is what a machine fetches after loading its image. Its words are
those of its directives, one behind the other. The image is accepted, each of its words is fetched
from its place with the meaning that its directive gave it, later directives leave the words of
earlier ones alone, and memory behind the image stays. -/
theorem load_build (ds : List Directive) (s : Simulator) (pc : Word)
    (hroom : 4 * (build ds).size ≤ Bus.ramSize) :
    let p := build ds
    let c := (s.loadImage p.image pc).2.cpu
    p.words = Directive.wordsFrom 0 ds ∧
      (s.loadImage p.image pc).1 = .ok (4 * p.size) ∧
      (∀ (k : Nat) (hk : k < p.words.size),
        ({ c with pc := .ofNat 32 (4 * k) } : Cpu).fetch.1 = .ok p.words[k] ∧
        (∀ d : Cpu, d.Coherent → d.immu.enabled = false → d.pc = .ofNat 32 (4 * k) →
          (∀ j < 4 * p.size, d.bus.ram.byte j = c.bus.ram.byte j) → d.fetch.1 = .ok p.words[k]) ∧
        (∃ d, PlacedBy ds k d) ∧ ∀ d, PlacedBy ds k d → d.Means p.words[k]) ∧
      (∀ before after, ds = before ++ after →
        ∃ ws, p.words = (build before).words ++ ws) ∧
      ∀ j, 4 * p.size ≤ j → j < Bus.ramSize → c.bus.ram.byte j = s.cpu.bus.ram.byte j := by
  intro p c
  obtain ⟨haccepted, hram⟩ := s.loadImage_image pc hroom
  have hcoherent : c.Coherent := s.coherent_loadImage p.image pc
  have hoff : c.immu.enabled = false := s.immu_enabled_loadImage p.image pc
  refine ⟨words_build ds, haccepted, ?_, ?_, ?_⟩
  · intro k hk
    refine ⟨?_, ?_, exists_placedBy hk, fun d hd => hd.means hk⟩
    · have hmoved : ({ c with pc := .ofNat 32 (4 * k) } : Cpu).Coherent :=
        ⟨hcoherent.1, hcoherent.2, hcoherent.3, hcoherent.4⟩
      apply fetch_of_bytes hroom hk hmoved hoff rfl
      intro j _
      exact congrArg (·.byte j) hram
    · intro d hd hd_off hpc hbytes
      apply fetch_of_bytes hroom hk hd hd_off hpc
      intro j hj
      rw [hbytes j hj, ← hram]
  · rintro before after rfl
    rw [show p = after.foldl apply (build before) from build_append before after]
    exact ⟨_, (build before).words_foldl after⟩
  · intro j hle hlt
    have hsize : (build ds).image.size = 4 * (build ds).size := (build ds).size_image
    have hle' : 4 * (build ds).size ≤ j := hle
    rw [show c.bus.ram = _ from hram, Ram.byte_copy _ _ (by omega) hlt, dif_neg (by omega)]

def padded : List Directive :=
  [.emit (.addi 3 0 5), .padTo 10, .data 0xdeadbeef, .padTo 4, .emit (.j (-1))]

/-- A jump backwards is the fifth word, and is read back where it is fetched. -/
theorem load_build_padded :
    ∃ w, ({ (Cpu.initial.hosted.loadImage (build padded).image 0).2.cpu with
        pc := .ofNat 32 (4 * 4) } : Cpu).fetch.1 = .ok w ∧ .decode w = Instruction.j (-1) := by
  have hroom : 4 * (build padded).size ≤ Bus.ramSize := by decide
  have hk : 4 < (build padded).words.size := by decide
  have hplaced : PlacedBy padded 4 (.emit (.j (-1))) :=
    ⟨[.emit (.addi 3 0 5), .padTo 10, .data 0xdeadbeef, .padTo 4], [], rfl, by decide, by decide⟩
  obtain ⟨-, -, hwords, -, -⟩ := load_build padded Cpu.initial.hosted 0 hroom
  obtain ⟨hfetch, -, -, hmeans⟩ := hwords 4 hk
  exact ⟨_, hfetch, (hmeans _ hplaced).2 ⟨by decide, by decide⟩⟩

end Program

end Orbis
