/-!
# Shortest decimals

A binary floating-point number stands for all the reals that round to it, an interval around its
exact value. Of the decimals in that interval the ones with the fewest digits identify it, and the
nearest of those is the one to write.

## Main definitions

* `Binary`: the exact value of a finite positive number and its neighbourhood.
* `Binary.readsBack`: whether a decimal lies in the interval.
* `Binary.shortest`: the digits to write, with their power of ten.
-/

namespace AssetBridge

/-- The number `mantissa * 2 ^ exponent`. Where `narrow` holds, the neighbour below is half as far
away as the one above. -/
structure Binary where
  mantissa : Nat
  exponent : Int
  narrow : Bool
deriving DecidableEq, Repr

/-- The number `digits * 10 ^ exponent`. -/
structure Decimal where
  digits : Nat
  exponent : Int
deriving DecidableEq, Repr

namespace Binary

/-- The size of a finite number, its sign left out. -/
def ofFloat (x : Float) : Binary :=
  let bits : Nat := x.toBits.toNat
  let field : Nat := (bits >>> 52) % 2048
  let rest : Nat := bits % (1 <<< 52)
  if field = 0 then ⟨rest, -1074, false⟩
  else ⟨(1 <<< 52) + rest, Int.ofNat field - 1075, rest = 0 && 1 < field⟩

/-- The numerator of `n * b ^ e`. -/
def numerator (n b : Nat) (e : Int) : Nat := n * b.pow e.toNat

/-- The denominator of `n * b ^ e`. -/
def denominator (b : Nat) (e : Int) : Nat := b.pow (-e).toNat

/-- The quotient `x / 10 ^ scale`, as numerator and denominator, of four times the value less
`below` and plus `above`. -/
def scaled (b : Binary) (scale : Int) (below above : Nat) : Nat × Nat :=
  (numerator (4 * b.mantissa + above - below) 2 b.exponent * denominator 10 scale,
    4 * denominator 2 b.exponent * numerator 1 10 scale)

/-- Whether `n * 10 ^ scale` rounds to the number: it lies between the halfway points to the
neighbours, or on one of them when the mantissa is even. -/
def readsBack (b : Binary) (scale : Int) (n : Nat) : Bool :=
  let low := b.scaled scale (if b.narrow then 1 else 2) 0
  let high := b.scaled scale 0 2
  if b.mantissa % 2 = 0 then low.1 ≤ n * low.2 && n * high.2 ≤ high.1
  else low.1 < n * low.2 && n * high.2 < high.1

/-- The power of ten of the first digit. -/
def magnitude (b : Binary) : Int :=
  let num := numerator b.mantissa 2 b.exponent
  let den := denominator 2 b.exponent
  if den ≤ num then (Nat.toDigits 10 (num / den)).length - 1
  else
    match (List.range 400).find? fun i => den ≤ num * Nat.pow 10 i with
    | some i => -(i : Int)
    | none => 0

/-- The nearest decimal with a power of ten that reads back, if one of the two next to the value
does. Of two that are equally near the even one is taken. -/
def nearest? (b : Binary) (scale : Int) : Option Nat :=
  let exact := b.scaled scale 0 0
  let low := exact.1 / exact.2
  let twice := 2 * exact.1
  let middle := (2 * low + 1) * exact.2
  let preferred := if twice < middle || (twice = middle && low % 2 = 0) then [low, low + 1]
    else [low + 1, low]
  preferred.find? (b.readsBack scale)

/-- Moves the zeros that end a number into its power of ten, at most as many as given. -/
def dropZeros : Nat → Nat → Int → Decimal
  | 0, n, e => ⟨n, e⟩
  | k + 1, n, e => if n % 10 = 0 then dropZeros k (n / 10) (e + 1) else ⟨n, e⟩

/-- **Shortest decimal**: on grids of one, two and more digits, the first decimal that reads back.
Seventeen digits always suffice. -/
def shortest (b : Binary) : Decimal :=
  let top := b.magnitude
  match (List.range 17).findSome? fun (i : Nat) =>
      (b.nearest? (top - i)).map fun n => (n, top - i) with
  | some (n, scale) => dropZeros 17 n scale
  | none => ⟨b.mantissa, b.exponent⟩

end Binary

end AssetBridge
