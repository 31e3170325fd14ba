import Orbis.Numeral
/-!
# Documents

The values of the JSON data format. Numbers keep what decides whether they can be read as a count:
the integers by their digits and their sign, all others without a value. A string without content is
one that cannot be represented as text, because it escapes half of a surrogate pair.
-/
namespace Orbis

inductive Document where
  | null
  | bool (b : Bool)
  | natural (n : Nat)
  | negative (n : Nat)
  | decimal
  | string (content : Option String)
  | array (items : List Document)
  | object (members : List (Option String × Document))

namespace Document

def bool? : Document → Option Bool
  | bool b => some b
  | _ => none

/-- The integer of `width` bits that a document is. A sign excludes even zero. -/
def bits? (width : Nat) : Document → Option (BitVec width)
  | natural n => Orbis.bits? width n
  | _ => none

def member? (key : String) : Document → Option Document
  | object members => (members.find? (·.1 == some key)).map (·.2)
  | _ => none

/-- The values of the named fields of a record, where given. A record is an object, in which other
members are ignored and no field comes twice, or an array of its first fields in order. -/
def record? (names : List String) : Document → Option (List (Option Document))
  | object members =>
    if members.all (·.1.isSome) ∧
        names.all (fun n => (members.filter (·.1 == some n)).length ≤ 1) then
      some (names.map fun n => (members.find? (·.1 == some n)).map (·.2))
    else none
  | array items =>
    if items.length ≤ names.length then
      some (items.map some ++ List.replicate (names.length - items.length) none)
    else none
  | _ => none

mutual

/-- A document as it is written again from a value of a host language: zero has no sign, and of
members with the same key the last one remains. -/
def canonical : Document → Document
  | negative 0 => natural 0
  | array items => array (canonicalItems items)
  | object members => object (canonicalMembers members)
  | d => d

def canonicalItems : List Document → List Document
  | [] => []
  | d :: ds => canonical d :: canonicalItems ds

def canonicalMembers : List (Option String × Document) → List (Option String × Document)
  | [] => []
  | (k, d) :: rest =>
    let rest := canonicalMembers rest
    if rest.any (·.1 == k) then rest else (k, canonical d) :: rest

end

end Document

/-!
## Tokens

The lexical layer of the data format: punctuation, and documents without parts. Blanks separate
tokens; a string ends at its quote, a number at the first character that does not continue it.
-/

inductive Token where
  | openArray | closeArray | openObject | closeObject | comma | colon
  | scalar (d : Document)

namespace Token

def isBlank (c : Char) : Bool := c = ' ' || c = '\n' || c = '\t' || c = '\r'

/-- The code unit that four hexadecimal digits escape. -/
def codeUnit? (a b c d : Char) : Option Nat := do
  let a ← Numeral.digit? 16 a
  let b ← Numeral.digit? 16 b
  let c ← Numeral.digit? 16 c
  let d ← Numeral.digit? 16 d
  return ((a * 16 + b) * 16 + c) * 16 + d

/-- The character that a one-letter escape stands for. -/
def escape? : Char → Option Char
  | '"' => some '"'
  | '\\' => some '\\'
  | '/' => some '/'
  | 'b' => some '\x08'
  | 'f' => some '\x0c'
  | 'n' => some '\n'
  | 'r' => some '\r'
  | 't' => some '\t'
  | _ => none

structure Content where
  /-- The characters in reverse order, unless half of a pair was met alone. -/
  characters : Option (List Char)
  /-- The first half of a surrogate pair that waits for its second. -/
  half : Option Nat

namespace Content

def empty : Content := ⟨some [], none⟩

def push (s : Content) (c : Char) : Content :=
  ⟨if s.half.isSome then none else s.characters.map (c :: ·), none⟩

/-- Appends a code unit, which may be half of a surrogate pair. -/
def pushUnit (s : Content) (u : Nat) : Content :=
  if 0xd800 ≤ u ∧ u < 0xdc00 then ⟨if s.half.isSome then none else s.characters, some u⟩
  else if 0xdc00 ≤ u ∧ u < 0xe000 then
    match s.half with
    | some high =>
      ⟨s.characters.map (.ofNat (0x10000 + (high - 0xd800) * 0x400 + (u - 0xdc00)) :: ·), none⟩
    | none => ⟨none, none⟩
  else s.push (.ofNat u)

/-- The content as text, if all surrogate pairs were whole. -/
def finish (s : Content) : Option String :=
  if s.half.isSome then none else s.characters.map fun cs => String.ofList cs.reverse

end Content

/-- Reads a string from behind its opening quote, and returns what follows its closing one. -/
def string? (s : Content) : List Char → Option (Option String × List Char)
  | '"' :: rest => some (s.finish, rest)
  | '\\' :: 'u' :: a :: b :: c :: d :: rest =>
    match codeUnit? a b c d with
    | some u => string? (s.pushUnit u) rest
    | none => none
  | '\\' :: e :: rest =>
    match escape? e with
    | some c => string? (s.push c) rest
    | none => none
  | c :: rest => if c.toNat < 0x20 then none else string? (s.push c) rest
  | [] => none

def value (digits : List Char) : Nat := digits.foldl (fun n c => n * 10 + (c.toNat - '0'.toNat)) 0

def digits? (cs : List Char) : Option (List Char × List Char) :=
  let ds := cs.takeWhile Char.isDigit
  if ds.isEmpty then none else some (ds, cs.drop ds.length)

/-- Skips a fraction, if there is one, and tells whether there was. -/
def fraction? : List Char → Option (Bool × List Char)
  | '.' :: rest => (digits? rest).map fun (_, rest) => (true, rest)
  | cs => some (false, cs)

/-- Skips an exponent, if there is one, and tells whether there was. -/
def exponent? : List Char → Option (Bool × List Char)
  | c :: rest =>
    if c = 'e' ∨ c = 'E' then
      let unsigned := match rest with
        | '+' :: rest | '-' :: rest => rest
        | rest => rest
      (digits? unsigned).map fun (_, rest) => (true, rest)
    else some (false, c :: rest)
  | [] => some (false, [])

/-- Reads a number from behind its sign. A leading zero stands alone. -/
def number? (isNegative : Bool) (cs : List Char) : Option (Document × List Char) := do
  let (ds, rest) ← digits? cs
  if ds.head? = some '0' ∧ ds.length ≠ 1 then none
  let (hasFraction, rest) ← fraction? rest
  let (hasExponent, rest) ← exponent? rest
  let d :=
    if hasFraction ∨ hasExponent then .decimal
    else if isNegative then .negative (value ds)
    else .natural (value ds)
  return (d, rest)

def next? : List Char → Option (Token × List Char)
  | '[' :: rest => some (openArray, rest)
  | ']' :: rest => some (closeArray, rest)
  | '\x7b' :: rest => some (openObject, rest)
  | '\x7d' :: rest => some (closeObject, rest)
  | ',' :: rest => some (comma, rest)
  | ':' :: rest => some (colon, rest)
  | '"' :: rest => (string? .empty rest).map fun (s, rest) => (scalar (.string s), rest)
  | 't' :: 'r' :: 'u' :: 'e' :: rest => some (scalar (.bool true), rest)
  | 'f' :: 'a' :: 'l' :: 's' :: 'e' :: rest => some (scalar (.bool false), rest)
  | 'n' :: 'u' :: 'l' :: 'l' :: rest => some (scalar .null, rest)
  | '-' :: rest => (number? true rest).map fun (d, rest) => (scalar d, rest)
  | cs => (number? false cs).map fun (d, rest) => (scalar d, rest)

/-- Reads tokens to the end, at most `fuel` of them, behind those already read. -/
def readAll? (found : List Token) : (fuel : Nat) → List Char → Option (List Token)
  | 0, _ => none
  | fuel + 1, cs =>
    match cs.dropWhile isBlank with
    | [] => some found.reverse
    | cs =>
      match next? cs with
      | some (t, rest) => readAll? (t :: found) fuel rest
      | none => none

/-- The tokens of a text. Each has a character at least, which bounds their number. -/
def ofText? (s : String) : Option (List Token) :=
  let cs := s.toList
  readAll? [] (cs.length + 1) cs

end Token

/-!
## Reading documents

A machine that takes one token after the other. Open arrays and objects wait on a stack of its own,
so documents may be nested to any depth.
-/

namespace Document

/-- An array or an object that waits for its next part, with its finished parts in reverse order. -/
inductive Frame where
  | array (items : List Document)
  | member (members : List (Option String × Document)) (key : Option String)

/-- What the machine has before it. -/
inductive Expectation where
  /-- A value, or the end of an array that has no items yet. -/
  | value (closable : Bool)
  /-- The key of a member, or the end of an object that has no members yet. -/
  | key (members : List (Option String × Document)) (closable : Bool)
  | colon (members : List (Option String × Document)) (key : Option String)
  | finished (d : Document)

/-- The machine after one more token, unless that token is out of place. -/
def accept? : Expectation × List Frame → Token → Option (Expectation × List Frame)
  | (.value _, frames), .scalar d => some (.finished d, frames)
  | (.value _, frames), .openArray => some (.value true, .array [] :: frames)
  | (.value _, frames), .openObject => some (.key [] true, frames)
  | (.value true, .array [] :: frames), .closeArray => some (.finished (.array []), frames)
  | (.key members _, frames), .scalar (.string k) => some (.colon members k, frames)
  | (.key [] true, frames), .closeObject => some (.finished (.object []), frames)
  | (.colon members k, frames), .colon => some (.value false, .member members k :: frames)
  | (.finished d, .array items :: frames), .comma =>
    some (.value false, .array (d :: items) :: frames)
  | (.finished d, .array items :: frames), .closeArray =>
    some (.finished (.array (d :: items).reverse), frames)
  | (.finished d, .member members k :: frames), .comma =>
    some (.key ((k, d) :: members) false, frames)
  | (.finished d, .member members k :: frames), .closeObject =>
    some (.finished (.object ((k, d) :: members).reverse), frames)
  | _, _ => none

/-- The document that a sequence of tokens writes, and nothing else. -/
def ofTokens? (ts : List Token) : Option Document :=
  match ts.foldlM accept? (.value false, []) with
  | some (.finished d, []) => some d
  | _ => none

def ofText? (s : String) : Option Document := (Token.ofText? s).bind ofTokens?

end Document

end Orbis
