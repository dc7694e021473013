import Sable.Binary64

/-! Numbers in decimal: the fewest digits that read back to the same binary64 number, and the two
forms in which they are written.

A source text keeps the mark of a number (`1.0`) and turns to an exponent for large and small
ones; a value is written plainly (`1`), however long that gets. -/
namespace Sable

/-- The number `digits · 10 ^ exponent`. -/
structure Decimal where
  digits : Nat
  exponent : Int
deriving DecidableEq, Repr

namespace Decimal

/-! ## The shortest decimal -/

/-- The decimal grid of step `10 ^ k` laid over the number `significand · 2 ^ exponent`: in steps of
the grid the number is `significand · unit / step`. -/
structure Grid where
  significand : Nat
  unit : Nat
  step : Nat
  /-- The lower neighbour is half as far away as the upper one. -/
  narrow : Bool

def grid (significand : Nat) (exponent k : Int) : Grid where
  significand := significand
  unit := Nat.pow 2 exponent.toNat * Nat.pow 10 (-k).toNat
  step := Nat.pow 2 (-exponent).toNat * Nat.pow 10 k.toNat
  narrow := significand == Binary64.leadingBit && Binary64.leastExponent < exponent

/-- Whether the point `p` of the grid reads back to the number: it lies between the midpoints to the
two neighbouring numbers, on which an even significand wins. -/
def Grid.readsBack (g : Grid) (p : Nat) : Bool :=
  let low := (4 * g.significand - if g.narrow then 1 else 2) * g.unit
  let high := (4 * g.significand + 2) * g.unit
  let point := 4 * p * g.step
  if g.significand % 2 = 0 then low ≤ point && point ≤ high else low < point && point < high

/-- The point of the grid that reads back and is nearest to the number; halfway, the greater. -/
def Grid.nearest? (g : Grid) : Option Nat :=
  let scaled := g.significand * g.unit
  let below := scaled / g.step
  let rest := scaled % g.step
  match g.readsBack below, g.readsBack (below + 1) with
  | true, true => some (if 2 * rest < g.step then below else below + 1)
  | true, false => some below
  | false, true => some (below + 1)
  | false, false => none

/-- The number itself: every binary fraction is a decimal one. -/
def exact (significand : Nat) (exponent : Int) : Decimal :=
  if 0 ≤ exponent then ⟨significand * Nat.pow 2 exponent.toNat, 0⟩
  else ⟨significand * Nat.pow 5 (-exponent).toNat, exponent⟩

/-- The first hit on the grids `k`, `k - 1`, …, `k - count + 1`. -/
def search (significand : Nat) (exponent : Int) : Nat → Int → Decimal
  | 0, _ => exact significand exponent
  | count + 1, k =>
    match (grid significand exponent k).nearest? with
    | some digits => ⟨digits, k⟩
    | none => search significand exponent count (k - 1)

/-- The decimal with the fewest digits that reads back to `significand · 2 ^ exponent`, and among
those the nearest. The search begins at a power of ten above the number (`1233 / 4096` is a little
less than the logarithm of two) and ends on the grid that holds the number itself. -/
def shortest (significand : Nat) (exponent : Int) : Decimal :=
  if significand = 0 then ⟨0, 0⟩ else
    let bits := exponent + significand.log2 + 1
    let top := bits * 1233 / 4096 + 2
    search significand exponent (top - min exponent 0 + 1).toNat top

/-! ## Written forms -/

/-- How a number is written. -/
structure Layout where
  /-- The powers of ten of a leading digit for which the number is written without an exponent. -/
  plain : Int → Bool
  /-- Written after a whole number. -/
  wholeMark : String

/-- In a source text a whole number keeps `.0`, and an exponent is used from `1e16` up and
below `1e-4`. -/
def Layout.source : Layout := ⟨fun power => -4 ≤ power && power < 16, ".0"⟩

/-- A value never shows an exponent, and a whole one no fraction. -/
def Layout.value : Layout := ⟨fun _ => true, ""⟩

def zeros (count : Int) : String := String.ofList (List.replicate count.toNat '0')

/-- The decimal in the given layout. -/
def text (layout : Layout) (d : Decimal) : String :=
  let digits := Nat.toDigits 10 d.digits
  let power := d.exponent + digits.length - 1
  if layout.plain power then
    if 0 ≤ d.exponent then String.ofList digits ++ zeros d.exponent ++ layout.wholeMark
    else if 0 ≤ power then
      let whole := (power + 1).toNat
      String.ofList (digits.take whole) ++ "." ++ String.ofList (digits.drop whole)
    else "0." ++ zeros (-power - 1) ++ String.ofList digits
  else
    let fraction := digits.drop 1
    String.ofList (digits.take 1) ++ (if fraction.isEmpty then "" else "." ++ String.ofList fraction)
      ++ "e" ++ toString power

end Decimal

/-- The text of a number in the given layout. -/
def numberText (layout : Decimal.Layout) (x : Float) : String :=
  let signed (negative : Bool) (text : String) := if negative then "-" ++ text else text
  match Binary64.ofFloat x with
  | .nan => "NaN"
  | .infinite negative => signed negative "inf"
  | .finite negative significand exponent =>
    signed negative ((Decimal.shortest significand exponent).text layout)

end Sable
