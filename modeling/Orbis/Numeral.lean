import Orbis.Word
/-!
# Numerals

Texts of numbers: decimal with a minus sign where needed, and lower-case hexadecimal behind `0x`,
either as short as possible or filled with zeros to the eight digits of a word.
-/
namespace Orbis.Numeral

/-- Decimal digits of a natural number, without leading zeros. -/
def decimal (n : Nat) : String := String.ofList (Nat.toDigits 10 n)

/-- Decimal digits of an integer behind its minus sign, if it has one. -/
def signed : Int → String
  | .ofNat n => decimal n
  | .negSucc n => "-" ++ decimal (n + 1)

/-- Hexadecimal digits, filled with zeros on the left to at least `width` of them. -/
def hexDigits (width n : Nat) : String :=
  String.ofList ((Nat.toDigits 16 n).leftpad width '0')

def hex (n : Nat) : String := "0x" ++ hexDigits 1 n

/-- The hexadecimal numeral of eight digits that shows a whole word. -/
def hexWord (w : BitVec 32) : String := "0x" ++ hexDigits 8 w.toNat

/-!
## Fixed places

Decimal numerals with a fixed number of places, of finite non-negative numbers in double precision.
The exact value is rounded to the nearest numeral; of two that are equally near, the even one.
-/

/-- A quotient rounded to the nearest integer, with ties to the even one. -/
def roundDiv (n d : Nat) : Nat :=
  let q := n / d
  if 2 * (n % d) < d then q else if d < 2 * (n % d) then q + 1 else q + q % 2

/-- The integer significand and the power of two whose product a double-precision number is. The
first bit of the significand is written only where the exponent is the least one. -/
def decompose (x : Float) : Nat × Int :=
  let bits := x.toBits.toBitVec
  let fraction := bits.extractLsb' 0 52
  let exponent := bits.extractLsb' 52 11
  if exponent = 0 then (fraction.toNat, -1074)
  else ((1#1 ++ fraction).toNat, (exponent.toNat : Int) - 1075)

/-- A number times a power of ten, rounded to an integer. -/
def scaled (places : Nat) (x : Float) : Nat :=
  match decompose x with
  | (m, .ofNat e) => (m <<< e) * Nat.pow 10 places
  | (m, .negSucc e) => roundDiv (m * Nat.pow 10 places) (1 <<< (e + 1))

/-- The numeral with a number of places behind the point. -/
def fixed (places : Nat) (x : Float) : String :=
  let n := scaled places x
  let unit := Nat.pow 10 places
  let fraction := (Nat.toDigits 10 (n % unit)).leftpad places '0'
  decimal (n / unit) ++ "." ++ String.ofList fraction

/-!
## Reading numerals

Natural numbers of a width in bits from their digits, which a plus sign may precede. The first
character that makes the numeral unreadable decides how it is refused.
-/

/-- Reasons for which a numeral is refused. -/
inductive ParseError where
  | empty | invalidDigit | tooLarge
  deriving DecidableEq

def ParseError.text : ParseError → String
  | empty => "cannot parse integer from empty string"
  | invalidDigit => "invalid digit found in string"
  | tooLarge => "number too large to fit in target type"

/-- The value of a digit, of which there are as many as the radix says. -/
def digit? (radix : Nat) (c : Char) : Option Nat :=
  let n :=
    if '0' ≤ c ∧ c ≤ '9' then c.toNat - '0'.toNat
    else if 'a' ≤ c ∧ c ≤ 'z' then c.toNat - 'a'.toNat + 10
    else if 'A' ≤ c ∧ c ≤ 'Z' then c.toNat - 'A'.toNat + 10
    else radix
  if n < radix then some n else none

/-- Reads the remaining digits behind those that write a number. -/
def parseDigits {width : Nat} (radix : Nat) (v : BitVec width) :
    List Char → Except ParseError (BitVec width)
  | [] => .ok v
  | c :: cs =>
    match digit? radix c with
    | none => .error .invalidDigit
    | some d =>
      match bits? width (v.toNat * radix + d) with
      | none => .error .tooLarge
      | some v => parseDigits radix v cs

def parse {width : Nat} (radix : Nat) : List Char → Except ParseError (BitVec width)
  | [] => .error .empty
  | ['+'] => .error .invalidDigit
  | '+' :: cs => parseDigits radix 0 cs
  | cs => parseDigits radix 0 cs

/-- Reads an address: decimal, or hexadecimal behind `0x` or `0X`. -/
def parseAddress : List Char → Except ParseError Word
  | '0' :: 'x' :: cs | '0' :: 'X' :: cs => parse 16 cs
  | cs => parse 10 cs

end Orbis.Numeral
