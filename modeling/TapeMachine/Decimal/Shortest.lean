/-!
# Shortest decimals of binary numbers

A finite binary floating point number is `m · 2^q`.  All reals closer to it than to its
neighbours round to it, and of the decimals among them the ones with the fewest digits are its
shortest decimals; the nearest of those is taken.  Everything is decided in exact arithmetic.
-/
namespace TapeMachine.Decimal

/-- The number `± mantissa · 2^exponent`; `narrow` says that the numbers just below it lie only
half as far apart as those above. -/
structure Binary where
  negative : Bool
  mantissa : Nat
  exponent : Int
  narrow : Bool
  deriving DecidableEq, Repr, Inhabited

namespace Binary

def ofFloat? (x : Float) : Option Binary :=
  let bits : Nat := x.toBits.toNat
  let negative := Nat.pow 2 63 ≤ bits
  let biased : Nat := bits / Nat.pow 2 52 % Nat.pow 2 11
  let fraction : Nat := bits % Nat.pow 2 52
  if biased = 2047 then none
  else if biased = 0 then some ⟨negative, fraction, -1074, false⟩
  else some ⟨negative, fraction + Nat.pow 2 52, (biased : Int) - 1075, fraction = 0 && 1 < biased⟩

def truncate (b : Binary) : Int :=
  let size := if 0 ≤ b.exponent then b.mantissa * Nat.pow 2 b.exponent.toNat
    else b.mantissa / Nat.pow 2 (-b.exponent).toNat
  if b.negative then -(size : Int) else size

end Binary

/-- The number `coefficient · 10^scale`. -/
structure Digits where
  coefficient : Nat
  scale : Int
  deriving DecidableEq, Repr, Inhabited

/-- A positive quotient and the open or closed interval around it, all over one denominator. -/
structure Interval where
  value : Nat
  low : Nat
  high : Nat
  denominator : Nat
  closed : Bool
  deriving Repr, Inhabited

namespace Interval

/-- The reals that round to a number: up to half the distance to its neighbours, and with the
ends if the mantissa is even. -/
def around (b : Binary) : Interval :=
  let up := Nat.pow 2 (b.exponent - 2).toNat
  ⟨4 * b.mantissa * up, (4 * b.mantissa - if b.narrow then 1 else 2) * up, (4 * b.mantissa + 2) * up,
    Nat.pow 2 (2 - b.exponent).toNat, b.mantissa % 2 = 0⟩

/-- The least `n ≤ start + fuel` with `value < 10^n · denominator`, from `start` on. -/
def exponentAbove (value denominator : Nat) : (fuel start : Nat) → Nat
  | 0, start => start
  | fuel + 1, start =>
    if value < Nat.pow 10 start * denominator then start
    else exponentAbove value denominator fuel (start + 1)

/-- The greatest `n ≤ start + fuel` with `value · 10^n < denominator`, from `start` on. -/
def exponentBelow (value denominator : Nat) : (fuel start : Nat) → Nat
  | 0, start => start
  | fuel + 1, start =>
    if value * Nat.pow 10 (start + 1) < denominator then exponentBelow value denominator fuel (start + 1)
    else start

/-- The `e` with `10^(e-1) ≤ value < 10^e`. -/
def magnitude (i : Interval) : Int :=
  if i.denominator ≤ i.value then exponentAbove i.value i.denominator 310 0
  else -(exponentBelow i.value i.denominator 330 0 : Int)

def holds (i : Interval) (c : Nat) (scale : Int) : Bool :=
  let x := c * Nat.pow 10 scale.toNat * i.denominator
  let unit := Nat.pow 10 (-scale).toNat
  if i.closed then i.low * unit ≤ x && x ≤ i.high * unit
  else i.low * unit < x && x < i.high * unit

/-- The decimal with the given scale in the interval that is nearest to the value. -/
def nearest? (i : Interval) (scale : Int) : Option Nat :=
  let num := i.value * Nat.pow 10 (-scale).toNat
  let den := i.denominator * Nat.pow 10 scale.toNat
  let below := num / den
  match i.holds below scale, i.holds (below + 1) scale with
  | true, true =>
    let twice := 2 * (num % den)
    some (if twice < den || (twice = den && below % 2 = 0) then below else below + 1)
  | true, false => some below
  | false, true => some (below + 1)
  | false, false => none

/-- Tries coarser grids before finer ones.  A power of ten needs but one digit on any grid. -/
def firstHit (i : Interval) (magnitude : Int) : (fuel digits : Nat) → Digits
  | 0, digits => ⟨0, magnitude - digits⟩
  | fuel + 1, digits =>
    match i.nearest? (magnitude - digits) with
    | some c => if c = Nat.pow 10 digits then ⟨1, magnitude⟩ else ⟨c, magnitude - digits⟩
    | none => firstHit i magnitude fuel (digits + 1)

end Interval

/-- The shortest decimal of a number, its sign aside; seventeen digits always suffice. -/
def shortest (b : Binary) : Digits :=
  if b.mantissa = 0 then ⟨0, 0⟩
  else
    let i := Interval.around b
    i.firstHit i.magnitude 17 1

/-- How decimals are written: the exponents between which the point is set among the digits,
and the least number of digits of an exponent. -/
structure Style where
  leastPositional : Int
  greatestPositional : Int
  exponentDigits : Nat

def padZeros (width : Nat) (text : String) : String :=
  String.ofList (List.replicate (width - text.length) '0') ++ text

/-- A decimal without its sign.  A whole number written with a point has one zero behind it. -/
def Style.render (style : Style) (d : Digits) : String :=
  let digits := Nat.toDigits 10 d.coefficient
  let exponent := d.scale + digits.length - 1
  if d.coefficient = 0 then "0.0"
  else if exponent < style.leastPositional || style.greatestPositional < exponent then
    let fraction := digits.tail
    let sign := if exponent < 0 then "-" else "+"
    String.ofList (digits.take 1 ++ (if fraction.isEmpty then [] else '.' :: fraction)) ++
      "e" ++ sign ++ padZeros style.exponentDigits (toString exponent.natAbs)
  else if 0 ≤ d.scale then
    String.ofList (digits ++ List.replicate d.scale.toNat '0') ++ ".0"
  else if 0 ≤ exponent then
    String.ofList (digits.take (exponent.toNat + 1)) ++ "." ++
      String.ofList (digits.drop (exponent.toNat + 1))
  else
    "0." ++ padZeros (-d.scale).toNat (String.ofList digits)

end TapeMachine.Decimal
