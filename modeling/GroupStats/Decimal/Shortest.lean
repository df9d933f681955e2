/-!
# Shortest decimals of binary64 values

A finite binary64 value is `m · 2^q`. The reals that round to it form an interval around it
whose ends lie halfway to the two neighbouring values; the ends belong to it exactly when `m`
is even, because a tie rounds to the even mantissa. The shortest decimal of the value is the
point of the coarsest decimal grid `c · 10^k` inside that interval; of two such points the one
nearer the value wins, and of two equally near the one with the even `c`.

Everything here is exact arithmetic on `Nat` and `Int`; the only contact with `Float` is
`Float.toBits`.
-/

namespace GroupStats

namespace Decimal

/-- The parts of a binary64 value. -/
inductive Binary where
  | nan
  | infinite (negative : Bool)
  /-- The value `(-1)^negative · mantissa · 2^exponent`. -/
  | finite (negative : Bool) (mantissa : Nat) (exponent : Int)
  deriving DecidableEq, Repr

/-- Splits the bits of a binary64 value into sign, mantissa and binary exponent. -/
def Binary.ofBits (bits : UInt64) : Binary :=
  let negative := bits >>> 63 == 1
  let biased := ((bits >>> 52) &&& 0x7FF).toNat
  let fraction := (bits &&& 0xFFFFFFFFFFFFF).toNat
  if biased = 0x7FF then
    if fraction = 0 then .infinite negative else .nan
  else if biased = 0 then .finite negative fraction (-1074)
  else .finite negative (fraction + Nat.pow 2 52) ((biased : Int) - 1075)

/-- The parts of a `Float`. -/
def Binary.ofFloat (x : Float) : Binary := Binary.ofBits x.toBits

/-- A signed decimal `(-1)^negative · digits · 10^exponent`. -/
structure Digits where
  negative : Bool
  digits : Nat
  exponent : Int
  deriving DecidableEq, Repr

/-- Two to an integer power, as a numerator and a denominator. -/
def pow2 (e : Int) : Nat × Nat :=
  if 0 ≤ e then (Nat.pow 2 e.toNat, 1) else (1, Nat.pow 2 (-e).toNat)

/-- Ten to an integer power, as a numerator and a denominator. -/
def pow10 (e : Int) : Nat × Nat :=
  if 0 ≤ e then (Nat.pow 10 e.toNat, 1) else (1, Nat.pow 10 (-e).toNat)

/-- The number of decimal digits of a number; zero has one. -/
def digitCount (n : Nat) : Nat := (Nat.toDigits 10 n).length

/-- The exponent `x` with `10^x ≤ m · 2^q < 10^(x+1)`, for `m > 0`. -/
def decimalExponent (m : Nat) (q : Int) : Int :=
  let (num, den) := pow2 q
  let whole := m * num / den
  if 0 < whole then (digitCount whole : Int) - 1
  else
    -- below one: the least `j` with `m · num · 10^j ≥ den`
    let need := (den + m * num - 1) / (m * num)
    Int.neg (digitCount (need - 1))

/-- The interval of reals that round to `m · 2^q`, scaled by `4 / 2^q`: its ends are
`4m - gap` and `4m + 2`, where the gap below is halved at a power of two. -/
def lowerGap (m : Nat) (q : Int) : Nat :=
  if m = Nat.pow 2 52 ∧ q > -1074 then 1 else 2

/-- The point of the grid `10^k` chosen for `m · 2^q`, if the interval of the value holds
one of the value's two neighbours on that grid. -/
def gridHit (m : Nat) (q k : Int) : Option Nat :=
  -- every quantity is multiplied by `den2 · den10 · 4` so that all are whole numbers
  let (n2, d2) := pow2 q
  let (n10, d10) := pow10 k
  let scale := fun (t : Nat) => t * n2 * d10
  let value := scale (4 * m)
  let low := scale (4 * m - lowerGap m q)
  let high := scale (4 * m + 2)
  let unit := 4 * n10 * d2
  let inside := fun (c : Nat) =>
    let p := c * unit
    if m % 2 = 0 then decide (low ≤ p ∧ p ≤ high) else decide (low < p ∧ p < high)
  let below := value / unit
  let above := below + 1
  let distBelow := value - below * unit
  let distAbove := above * unit - value
  match inside below, inside above with
  | true, true =>
    if distBelow < distAbove then some below
    else if distAbove < distBelow then some above
    else if below % 2 = 0 then some below else some above
  | true, false => some below
  | false, true => some above
  | false, false => none

/-- The first grid, from `10^start` down through `count` finer grids, that holds a point of
the interval, with that point. -/
def firstHit (m : Nat) (q : Int) : Nat → Int → Option (Nat × Int)
  | 0, _ => none
  | count + 1, start =>
    match gridHit m q start with
    | some c => some (c, start)
    | none => firstHit m q count (start - 1)

/-- Removes the trailing zeros of a decimal's digits. -/
def trimZeros : Nat → Nat → Int → Nat × Int
  | 0, c, k => (c, k)
  | fuel + 1, c, k => if c ≠ 0 ∧ c % 10 = 0 then trimZeros fuel (c / 10) (k + 1) else (c, k)

/-- The shortest decimal `c · 10^k` inside the rounding interval of `m · 2^q`. Seventeen
significant digits always suffice; the exact value is the answer of last resort. -/
def shortest (m : Nat) (q : Int) : Nat × Int :=
  if m = 0 then (0, 0)
  else
    let top := decimalExponent m q
    match firstHit m q 17 top with
    | some (c, k) => trimZeros 20 c k
    | none =>
      let (n2, d2) := pow2 q
      if d2 = 1 then trimZeros 400 (m * n2) 0 else (m * Nat.pow 5 (-q).toNat, q)

/-- The shortest decimal of a finite value, or `none` for NaN and the infinities. -/
def Binary.digits? : Binary → Option Digits
  | .finite negative m q => let (c, k) := shortest m q; some ⟨negative, c, k⟩
  | _ => none

end Decimal

end GroupStats
