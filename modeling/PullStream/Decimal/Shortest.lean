import PullStream.Decimal.Binary

/-!
# Shortest decimals

The text of a binary number has the fewest digits that read back to it. The reals that round to
`m · 2 ^ q` form an interval, whose ends belong to it exactly if `m` is even. For one digit, two
digits and so on the two neighbours of the number on that decimal grid are tried; the first grid
with a hit wins, and of two hits the nearer. Halfway between both the upper one is taken.
-/

set_option autoImplicit false

namespace PullStream

/-- `digits · 10 ^ exponent` -/
structure Decimal where
  digits : Nat
  exponent : Int
deriving DecidableEq, Repr

/-- Four times a number and the ends of its interval, over a common denominator. -/
structure Interval where
  low : Nat
  value : Nat
  high : Nat
  unit : Nat
  closed : Bool
deriving DecidableEq, Repr

namespace Interval

/-- Below a power of two the numbers lie twice as close, unless they are the smallest ones. -/
def ofMagnitude (f : BinaryFormat) (m : Nat) (q : Int) : Interval :=
  let gap := if m = Nat.pow 2 f.fractionBits && f.lowest < q then 1 else 2
  let scale := Nat.pow 2 q.toNat
  ⟨(4 * m - gap) * scale, 4 * m * scale, (4 * m + 2) * scale, 4 * Nat.pow 2 (-q).toNat, m % 2 = 0⟩

/-- The same interval in units of `10 ^ exponent`. -/
def scaled (i : Interval) (exponent : Int) : Interval :=
  let up := Nat.pow 10 (-exponent).toNat
  ⟨i.low * up, i.value * up, i.high * up, i.unit * Nat.pow 10 exponent.toNat, i.closed⟩

def holds (i : Interval) (d : Nat) : Bool :=
  let x := d * i.unit
  if i.closed then i.low ≤ x && x ≤ i.high else i.low < x && x < i.high

/-- The neighbour of the number among the multiples of the unit that reads back to it. -/
def neighbour? (i : Interval) : Option Nat :=
  let below := i.value / i.unit
  let above := below + 1
  match i.holds below, i.holds above with
  | true, true => some (if 2 * i.value < (below + above) * i.unit then below else above)
  | true, false => some below
  | false, true => some above
  | false, false => none

/-- How many digits the number has before its point; below a tenth the count is negative. -/
def places (i : Interval) : Int :=
  (Nat.toDigits 10 (i.value * Nat.pow 10 400 / i.unit)).length - 400

def shortest (i : Interval) : Decimal :=
  let places := i.places
  ((List.range 17).findSome? fun n =>
    let exponent := places - (n + 1 : Nat)
    (i.scaled exponent).neighbour?.map fun d => ⟨d, exponent⟩).getD ⟨0, 0⟩

end Interval

namespace Decimal

/-- Digits without a point if the exponent is not negative; a fraction has no zeros at its end. -/
def write (d : Decimal) : String :=
  let text := toString d.digits
  if 0 ≤ d.exponent then text ++ String.ofList (List.replicate d.exponent.toNat '0')
  else
    let places := (-d.exponent).toNat
    let padded := List.replicate (places + 1 - text.length) '0' ++ text.toList
    let whole := padded.take (padded.length - places)
    let part := (padded.drop (padded.length - places)).reverse.dropWhile (· = '0') |>.reverse
    String.ofList (if part.isEmpty then whole else whole ++ '.' :: part)

end Decimal

/-- Never in exponent form; a whole number has no point, and zero keeps its sign. -/
def BinaryFormat.write (f : BinaryFormat) (bits : Nat) : String :=
  let sign := if f.negative bits then "-" else ""
  match f.magnitude bits with
  | .notNumber => "NaN"
  | .infinite => sign ++ "inf"
  | .finite 0 _ => sign ++ "0"
  | .finite m q => sign ++ (Interval.ofMagnitude f m q).shortest.write

end PullStream
