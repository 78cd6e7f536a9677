/-!
# The shortest decimal of a double

A positive finite double is `m · 2 ^ q`, and the reals that round to it form an interval around
it. Its decimal text is the point of the coarsest grid `d · 10 ^ e` that lies in this interval, so
it reads back as the same double and no text with fewer digits does. All comparisons are made
on natural numbers: no rounding happens on the way.

Text is positional for every magnitude, an exponent never appears, and integral values have no
decimal point.
-/

namespace QueryPlanner.Decimal

/-- The leading bit of the significand of a normal double, `2 ^ 52`. -/
def leadingBit : Nat := 0x10000000000000

/-- The reals that round to a positive double, in units of `2 ^ scale`, a quarter of its last
place. The ends belong to it iff `closed`. -/
structure Interval where
  low : Nat
  centre : Nat
  high : Nat
  closed : Bool
  scale : Int
deriving DecidableEq, Repr

/-- The interval of `m · 2 ^ q`. Just above a power of two the neighbour below is half as far away
as the one above; the smallest exponent `-1074` has no finer neighbours. An end is a tie, which
goes to the even significand. -/
def Interval.around (m : Nat) (q : Int) : Interval where
  low := 4 * m - (if m = leadingBit ∧ -1074 < q then 1 else 2)
  centre := 4 * m
  high := 4 * m + 2
  closed := m % 2 = 0
  scale := q - 2

/-- Whether the grid point `d · 10 ^ e` lies in the interval. -/
def Interval.contains (i : Interval) (d : Nat) (e : Int) : Bool :=
  let point := d * (Nat.pow 10 e.toNat * Nat.pow 2 (-i.scale).toNat)
  let unit := Nat.pow 2 i.scale.toNat * Nat.pow 10 (-e).toNat
  if i.closed then i.low * unit ≤ point && point ≤ i.high * unit
  else i.low * unit < point && point < i.high * unit

/-- The point of the grid of step `10 ^ e` that lies in the interval and is nearest to its centre,
the upper one of two equally near. If any point of the grid lies in the interval, so does one of
the two around the centre. -/
def Interval.onGrid? (i : Interval) (e : Int) : Option Nat :=
  let step := Nat.pow 10 e.toNat * Nat.pow 2 (-i.scale).toNat
  let value := i.centre * (Nat.pow 2 i.scale.toNat * Nat.pow 10 (-e).toNat)
  let below := value / step
  match i.contains below e, i.contains (below + 1) e with
  | true, true => if 2 * (value % step) < step then some below else some (below + 1)
  | true, false => some below
  | false, true => some (below + 1)
  | false, false => none

/-- The centre itself, as a decimal. -/
def Interval.exact (i : Interval) : Nat × Int :=
  if i.scale < 0 then (i.centre * Nat.pow 5 (-i.scale).toNat, i.scale)
  else (i.centre * Nat.pow 2 i.scale.toNat, 0)

/-- The first hit among the grids of step `10 ^ e`, `10 ^ (e - 1)`, …, at most `n` of them. -/
def Interval.search (i : Interval) : Nat → Int → Nat × Int
  | 0, _ => i.exact
  | n + 1, e =>
    match i.onGrid? e with
    | some d => (d, e)
    | none => i.search n (e - 1)

/-- A grid too coarse to have a point below `2 ^ b` other than zero. -/
def coarse (b : Int) : Int :=
  if 0 ≤ b then b / 3 + 1 else -((-b) / 4) + 1

/-- Digits and exponent of the shortest decimal of `m · 2 ^ q`. -/
def shortest (m : Nat) (q : Int) : Nat × Int :=
  (Interval.around m q).search 400 (coarse (m.log2 + 1 + q))

/-- The decimal `d · 10 ^ e` written out without an exponent. -/
def positional (d : Nat) (e : Int) : String :=
  let digits := Nat.toDigits 10 d
  if 0 ≤ e then String.ofList (digits ++ List.replicate e.toNat '0')
  else
    let places := (-e).toNat
    let padded := List.replicate (places + 1 - digits.length) '0' ++ digits
    let whole := padded.length - places
    String.ofList (padded.take whole ++ '.' :: padded.drop whole)

/-- The text of a double: shortest digits, a sign also on a negative zero, and words for what is
not finite. -/
def text (x : Float) : String :=
  if x.isNaN then "NaN"
  else
    let bits := x.toBits.toNat
    let sign := if bits >>> 63 = 1 then "-" else ""
    let exponent : Nat := (bits >>> 52) % 0x800
    let fraction : Nat := bits % leadingBit
    if exponent = 0x7ff then sign ++ "inf"
    else if exponent = 0 ∧ fraction = 0 then sign ++ "0"
    else
      let (d, e) :=
        if exponent = 0 then shortest fraction (-1074)
        else shortest (leadingBit + fraction) ((exponent : Int) - 1075)
      sign ++ positional d e

end QueryPlanner.Decimal
