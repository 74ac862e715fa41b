/-!
# `VectorIndex.Number.Decimal` — the shortest decimal that names a binary number

Messages print numbers by the fewest digits that still single the number out among its neighbours in the
format. A number is given here as `mantissa · 2^exponent`; everything is exact natural arithmetic.

## Contents
- **The rounding interval.** `Dyadic.Admits`: the decimals that round to the number, the ends included
  when the mantissa is even.
- **The shortest decimal.** `Dyadic.shortest` tries one digit, then two, and so on, testing on each decimal
  grid the two neighbours of the number; of two hits the nearer wins, and a tie goes up.
- **Positional text.** `Decimal.text` never uses an exponent.
-/

namespace VectorIndex

/-- The positive number `mantissa · 2^exponent` of a binary format. `narrowBelow` holds at a power of two
whose lower neighbour is half as far away as the upper one. -/
structure Dyadic where
  mantissa : Nat
  exponent : Int
  narrowBelow : Bool

/-- The number `digits · 10^exponent`. -/
structure Decimal where
  digits : Nat
  exponent : Int
deriving DecidableEq

namespace Dyadic

/-! ## Comparing a decimal with quarters of the last place -/

/-- `digits · 10^k`, scaled so that `scaledQuarters` is its counterpart. -/
def scaledDecimal (x : Dyadic) (digits : Nat) (k : Int) : Nat :=
  (digits * Nat.pow 10 k.toNat) <<< (2 - x.exponent).toNat

/-- `n` quarters of a unit in the last place of `x`, scaled like `scaledDecimal`. -/
def scaledQuarters (x : Dyadic) (n : Nat) (k : Int) : Nat :=
  (n * Nat.pow 10 (-k).toNat) <<< (x.exponent - 2).toNat

/-- The lower end of the interval that rounds to `x`, in quarters of a unit in the last place. -/
def lowerEnd (x : Dyadic) : Nat := if x.narrowBelow then 4 * x.mantissa - 1 else 4 * x.mantissa - 2

/-- The upper end of the interval that rounds to `x`, in quarters of a unit in the last place. -/
def upperEnd (x : Dyadic) : Nat := 4 * x.mantissa + 2

/-- Reading `digits · 10^k` gives `x`: it lies between the ends, and on an end only if ties go to `x`. -/
def admits (x : Dyadic) (digits : Nat) (k : Int) : Bool :=
  let point := x.scaledDecimal digits k
  let low := x.scaledQuarters x.lowerEnd k
  let high := x.scaledQuarters x.upperEnd k
  if x.mantissa % 2 = 0 then low ≤ point ∧ point ≤ high else low < point ∧ point < high

/-! ## The shortest decimal -/

/-- The largest multiple of `10^k` that is at most `x`, in units of `10^k`. -/
def floorOn (x : Dyadic) (k : Int) : Nat :=
  x.scaledQuarters (4 * x.mantissa) k / x.scaledDecimal 1 k

/-- The neighbour of `x` on the grid of `10^k` that reads back as `x`; the nearer of two, a tie going up. -/
def neighbourOn (x : Dyadic) (k : Int) : Option Decimal :=
  let below := x.floorOn k
  match x.admits below k, x.admits (below + 1) k with
  | true, true =>
      if 2 * x.scaledQuarters (4 * x.mantissa) k < x.scaledDecimal (2 * below + 1) k then some ⟨below, k⟩
      else some ⟨below + 1, k⟩
  | true, false => some ⟨below, k⟩
  | false, true => some ⟨below + 1, k⟩
  | false, false => none

/-- The decimal exponent of the leading digit of `x`, for numbers above `10^-400`. -/
def leadingExponent (x : Dyadic) : Int :=
  ((Nat.toDigits 10 (x.floorOn (-400))).length : Int) - 401

/-- The decimal with the fewest digits that reads back as `x`. -/
def shortest (x : Dyadic) : Decimal :=
  ((List.range 19).findSome? fun (n : Nat) => x.neighbourOn (x.leadingExponent + 1 - n)).getD ⟨0, 0⟩

end Dyadic

/-! ## Text -/

/-- Positional notation: no exponent, and no point when the value is an integer. -/
def Decimal.text (d : Decimal) : String :=
  let digits := Nat.toDigits 10 d.digits
  let places := (-d.exponent).toNat
  if places = 0 then String.ofList (digits ++ List.replicate d.exponent.toNat '0')
  else
    let padded := List.replicate (places + 1 - digits.length) '0' ++ digits
    let whole := padded.length - places
    String.ofList (padded.take whole ++ '.' :: padded.drop whole)

end VectorIndex
