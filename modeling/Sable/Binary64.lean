/-! Binary64 numbers taken apart into sign, whole significand and power of two, and the operations
that are exact on those parts: rounding down, remainder, and reading off a whole number. -/
namespace Sable

/-- What a binary64 number denotes; a finite one is `± significand · 2 ^ exponent`. -/
inductive Binary64 where
  | nan
  | infinite (negative : Bool)
  | finite (negative : Bool) (significand : Nat) (exponent : Int)
deriving DecidableEq, Repr

namespace Binary64

/-- The exponent of the smallest positive number. -/
def leastExponent : Int := -1074

/-- Two to the power of fifty-two, the place of the leading bit of a significand. -/
def leadingBit : Nat := Nat.pow 2 52

/-- The parts of a number, read off its bits: eleven bits of exponent, fifty-two of fraction. -/
def ofFloat (x : Float) : Binary64 :=
  let bits := x.toBits.toNat
  let negative := bits / Nat.pow 2 63 == 1
  let field : Nat := bits / leadingBit % 2048
  let fraction := bits % leadingBit
  if field = 2047 then
    if fraction = 0 then .infinite negative else .nan
  else if field = 0 then .finite negative fraction leastExponent
  else .finite negative (leadingBit + fraction) (field - 1075)

private def signBit (negative : Bool) : Nat := if negative then Nat.pow 2 63 else 0

/-- The number with the given parts. A significand of more than fifty-three bits is cut off
toward zero, so the result is exact whenever the parts are those of a number. -/
def toFloat : Binary64 → Float
  | nan => Float.ofBits 0x7FF8000000000000
  | infinite negative => Float.ofBits (.ofNat (signBit negative + 2047 * leadingBit))
  | finite negative significand exponent =>
    if significand = 0 then Float.ofBits (.ofNat (signBit negative)) else
      let least := max leastExponent (exponent + significand.log2 - 52)
      let kept :=
        significand * Nat.pow 2 (exponent - least).toNat / Nat.pow 2 (least - exponent).toNat
      let magnitude :=
        if kept < leadingBit then kept
        else (least + 1075).toNat * leadingBit + (kept - leadingBit)
      Float.ofBits (.ofNat (signBit negative + magnitude))

/-- The greatest whole number not above `x`; infinities and NaN stay as they are. -/
def floor (x : Float) : Float :=
  match ofFloat x with
  | finite negative significand exponent =>
    if 0 ≤ exponent then x else
      let unit := Nat.pow 2 (-exponent).toNat
      let whole := significand / unit
      toFloat (finite negative (if negative ∧ significand % unit ≠ 0 then whole + 1 else whole) 0)
  | _ => x

/-- What is left of `x` after taking away as many whole `y` as fit; it has the sign of `x`. -/
def remainder (x y : Float) : Float :=
  match ofFloat x, ofFloat y with
  | finite negative a p, finite _ b q =>
    if b = 0 then toFloat nan else
      let least := min p q
      let scaled := a * Nat.pow 2 (p - least).toNat
      toFloat (finite negative (scaled % (b * Nat.pow 2 (q - least).toNat)) least)
  | finite .., infinite _ => x
  | _, _ => toFloat nan

/-- The whole number that `x` is, if it is one. -/
def toInt? (x : Float) : Option Int :=
  match ofFloat x with
  | finite negative significand exponent =>
    let unit := Nat.pow 2 (-exponent).toNat
    let magnitude : Nat := significand * Nat.pow 2 exponent.toNat / unit
    if significand % unit = 0 then some (if negative then -magnitude else magnitude) else none
  | _ => none

end Binary64

end Sable
