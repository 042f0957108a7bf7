/-
**The parts of a double.**

A finite double is `± mantissa · 2 ^ exponent` with a mantissa below `2 ^ 53`.  The remainder and
the decimal text of a double are computed on these parts with natural numbers, so nothing is rounded
on the way.
-/

set_option autoImplicit false

namespace Resumable.Binary64

/-- A finite double: `mantissa · 2 ^ exponent`, negated when `negative`. -/
structure Parts where
  negative : Bool
  mantissa : Nat
  exponent : Int
deriving DecidableEq

/-- A power of two. -/
def pow2 (n : Nat) : Nat := Nat.pow 2 n

/-- A power of ten. -/
def pow10 (n : Nat) : Nat := Nat.pow 10 n

/-- The exponent of the subnormal doubles, the least there is. -/
def leastExponent : Int := -1074

/-- The parts of a finite double; `none` for infinities and for what is not a number. -/
def parts? (x : Float) : Option Parts :=
  let bits := x.toBits.toNat
  let negative := decide (bits / pow2 63 = 1)
  let biased : Nat := bits / pow2 52 % pow2 11
  let fraction : Nat := bits % pow2 52
  if biased = pow2 11 - 1 then none
  else if biased = 0 then some ⟨negative, fraction, leastExponent⟩
  else some ⟨negative, pow2 52 + fraction, leastExponent + ((biased : Int) - 1)⟩

/-- The double with the given parts, when there is one: the mantissa is shifted to the left as far
as the format allows, or to the right if it is too long, which loses nothing when the value is a
double. -/
def assemble (p : Parts) : Float :=
  let sign := if p.negative then pow2 63 else 0
  if p.mantissa = 0 then Float.ofBits (UInt64.ofNat sign)
  else
    let top := Nat.log2 p.mantissa
    let room := (p.exponent - leastExponent).toNat
    let mantissa :=
      if top ≤ 52 then p.mantissa * pow2 (min (52 - top) room) else p.mantissa / pow2 (top - 52)
    let exponent : Int :=
      if top ≤ 52 then p.exponent - (min (52 - top) room : Nat) else p.exponent + (top - 52 : Nat)
    if mantissa < pow2 52 then Float.ofBits (UInt64.ofNat (sign + mantissa))
    else
      let biased := (exponent - leastExponent).toNat + 1
      Float.ofBits (UInt64.ofNat (sign + biased * pow2 52 + (mantissa - pow2 52)))

/-- The remainder of `x` divided by `y`, the quotient truncated towards zero.  It has the sign of
`x`; it is no number when `x` is infinite or `y` is zero, and `x` itself when `y` is infinite. -/
def remainder (x y : Float) : Float :=
  if x.isNaN || y.isNaN then 0.0 / 0.0
  else
    match parts? x, parts? y with
    | none, _ => 0.0 / 0.0
    | some _, none => x
    | some a, some b =>
      if b.mantissa = 0 then 0.0 / 0.0
      else
        let low := min a.exponent b.exponent
        let dividend := a.mantissa * pow2 (a.exponent - low).toNat
        let divisor := b.mantissa * pow2 (b.exponent - low).toNat
        assemble ⟨a.negative, dividend % divisor, low⟩

end Resumable.Binary64
