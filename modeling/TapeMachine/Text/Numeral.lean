import TapeMachine.Fault
import TapeMachine.Text.Quoted

/-!
# Numerals

A whole number is written as decimal digits of any script, with single underscores between
them if wanted, after an optional sign; blanks around it are skipped.  Numerals of more than 4300
digits are neither read, whatever stands behind the digits, nor written.
-/
namespace TapeMachine.Text

/-- The characters with the Unicode property `White_Space`. -/
def isBlank (c : Char) : Bool :=
  let n := c.toNat
  (0x09 ≤ n && n ≤ 0x0D) || n == 0x20 || n == 0x85 || n == 0xA0 || n == 0x1680 ||
    (0x2000 ≤ n && n ≤ 0x200A) || n == 0x2028 || n == 0x2029 || n == 0x202F ||
    n == 0x205F || n == 0x3000

/-- The zeros of all scripts.  The digits of a script, which make up the Unicode category `Nd`, stand
in a row from its zero to its nine. -/
def zeros : List Nat :=
  [
    0x30, 0x660, 0x6F0, 0x7C0, 0x966, 0x9E6, 0xA66, 0xAE6,
    0xB66, 0xBE6, 0xC66, 0xCE6, 0xD66, 0xDE6, 0xE50, 0xED0,
    0xF20, 0x1040, 0x1090, 0x17E0, 0x1810, 0x1946, 0x19D0, 0x1A80,
    0x1A90, 0x1B50, 0x1BB0, 0x1C40, 0x1C50, 0xA620, 0xA8D0, 0xA900,
    0xA9D0, 0xA9F0, 0xAA50, 0xABF0, 0xFF10, 0x104A0, 0x10D30, 0x11066,
    0x110F0, 0x11136, 0x111D0, 0x112F0, 0x11450, 0x114D0, 0x11650, 0x116C0,
    0x11730, 0x118E0, 0x11950, 0x11C50, 0x11D50, 0x11DA0, 0x16A60, 0x16AC0,
    0x16B50, 0x1D7CE, 0x1D7D8, 0x1D7E2, 0x1D7EC, 0x1D7F6, 0x1E140, 0x1E2F0,
    0x1E950, 0x1FBF0
  ]

def digitValue? (c : Char) : Option Nat :=
  (zeros.find? fun z => z ≤ c.toNat && c.toNat < z + 10).map (c.toNat - ·)

def isDigit (c : Char) : Bool := (digitValue? c).isSome

/-- Digits with single underscores between them. -/
def isNumeral : List Char → Bool
  | [] => false
  | [c] => isDigit c
  | c :: '_' :: rest => isDigit c && isNumeral rest
  | c :: rest => isDigit c && isNumeral rest

def digits (numeral : List Char) : List Nat := numeral.filterMap digitValue?

def ofDigits (ds : List Nat) : Nat := ds.foldl (fun n d => 10 * n + d) 0

/-- More digits than these are neither read nor written. -/
def digitLimit : Nat := 4300

/-- A text without its sign, and whether the sign is a minus. -/
def splitSign : List Char → Bool × List Char
  | '-' :: rest => (true, rest)
  | '+' :: rest => (false, rest)
  | text => (false, text)

def isWritable (n : Int) : Bool := n.natAbs < Nat.pow 10 digitLimit

def cut (limit : Nat) (text : String) : String := String.ofList (text.toList.take limit)

/-- The refusal of a text that is no number; up to 200 characters of the quoted text are shown. -/
def badNumeral (text : String) : Fault := .badNumeral (cut 200 (quote text))

def integer (text : String) : Except Fault Int :=
  let (negative, body) := splitSign (text.toList.dropWhile isBlank)
  let (numeral, rest) := body.span fun c => isDigit c || c == '_'
  if !isNumeral numeral then .error (badNumeral text)
  else
    let ds := digits numeral
    if digitLimit < ds.length then .error (.numeralTooLong ds.length)
    else if !rest.all isBlank then .error (badNumeral text)
    else .ok (if negative then -(ofDigits ds : Int) else ofDigits ds)

end TapeMachine.Text
