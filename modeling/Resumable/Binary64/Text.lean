/-
**The decimal text of a double.**

A double is written with the fewest decimal digits that read back as the same double, always in
positional notation.
-/

import Resumable.Binary64.Parts

set_option autoImplicit false

namespace Resumable.Binary64

/-! ### The decimals that read back -/

/-- The reals that round to one positive double, as fractions over one denominator: the double is
`value / unit` and the reals between `low / unit` and `high / unit` round to it, the ends included
when `closed`. -/
structure Span where
  low : Nat
  value : Nat
  high : Nat
  unit : Nat
  closed : Bool

/-- The span of `mantissa · 2 ^ exponent`.  Below a power of two the doubles are half as far apart,
so the span reaches only half as far down.  An even mantissa wins the ties at the ends. -/
def Span.ofParts (p : Parts) : Span :=
  let narrow := decide (p.mantissa = pow2 52 ∧ leastExponent < p.exponent)
  let scale := pow2 (p.exponent - 2).toNat
  { low := (4 * p.mantissa - (if narrow then 1 else 2)) * scale
    value := 4 * p.mantissa * scale
    high := (4 * p.mantissa + 2) * scale
    unit := pow2 (2 - p.exponent).toNat
    closed := decide (p.mantissa % 2 = 0) }

/-- The span measured in units of `10 ^ e`. -/
def Span.inTens (s : Span) (e : Int) : Span :=
  let up := pow10 (-e).toNat
  { low := s.low * up, value := s.value * up, high := s.high * up
    unit := s.unit * pow10 e.toNat, closed := s.closed }

/-- Whether the whole number `n` lies in the span. -/
def Span.holds (s : Span) (n : Nat) : Bool :=
  let at' := n * s.unit
  if s.closed then decide (s.low ≤ at' ∧ at' ≤ s.high) else decide (s.low < at' ∧ at' < s.high)

/-- The whole number in the span that is nearest to the double, if its neighbours reach into the
span; a tie goes up. -/
def Span.nearest? (s : Span) : Option Nat :=
  let below := s.value / s.unit
  let above := below + 1
  match s.holds below, s.holds above with
  | false, false => none
  | true, false => some below
  | false, true => some above
  | true, true => if 2 * s.value < (below + above) * s.unit then some below else some above

/-- Goes through ever finer decimal grids, from `10 ^ e` down, to the first one with a point in the
span: that point and the exponent of its grid. -/
def Span.refine (s : Span) : Nat → Int → Nat × Int
  | 0, e => (s.value / s.unit, e)
  | steps + 1, e =>
    match (s.inTens e).nearest? with
    | some n => (n, e)
    | none => s.refine steps (e - 1)

/-- An exponent `e` with the double below `10 ^ e`, at most two too large: `30103 / 100000` is just
above the decimal logarithm of two. -/
def Span.ceiling (s : Span) : Int :=
  (((Nat.log2 s.value : Int) - (Nat.log2 s.unit : Int) + 1) * 30103) / 100000 + 1

/-- The digits and the decimal exponent of the shortest decimal in the span.  Seventeen digits
always suffice, and the ceiling wastes at most a few grids. -/
def Span.shortest (s : Span) : Nat × Int := s.refine 24 s.ceiling

/-! ### Positional notation -/

/-- The number `digits · 10 ^ e` in positional notation. -/
def positional (digits : Nat) (e : Int) : String :=
  let ds := Nat.toDigits 10 digits
  if 0 ≤ e then String.ofList (ds ++ List.replicate e.toNat '0')
  else
    let places := (-e).toNat
    if places < ds.length then
      String.ofList (ds.take (ds.length - places) ++ ['.'] ++ ds.drop (ds.length - places))
    else
      String.ofList (['0', '.'] ++ List.replicate (places - ds.length) '0' ++ ds)

/-- **The text of a double**: the fewest digits that read back, positional, no point in a whole
number, the sign of a zero kept. -/
def text (x : Float) : String :=
  if x.isNaN then "NaN"
  else
    match parts? x with
    | none => if x < 0 then "-inf" else "inf"
    | some p =>
      let sign := if p.negative then "-" else ""
      if p.mantissa = 0 then sign ++ "0"
      else
        let (digits, e) := (Span.ofParts p).shortest
        sign ++ positional digits e

end Resumable.Binary64
