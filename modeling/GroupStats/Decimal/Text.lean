import GroupStats.Decimal.Shortest

/-!
# Decimal text of binary64 values

The shortest decimal of a value, written out under a `Style`: which positions of the decimal
point are written positionally, whether an integral value keeps `.0`, and the texts of NaN and
the infinities. Outside the positional range the text is scientific, `d.ddde-7`.
-/

namespace GroupStats

namespace Decimal

/-- How a decimal is written. -/
structure Style where
  /-- Most digits before the point that are written positionally; `none` for no limit. -/
  maxWhole : Option Nat
  /-- Most zeros between the point and the first digit; `none` for no limit. -/
  maxZeros : Option Nat
  /-- Whether an integral value ends in `.0`. -/
  pointZero : Bool
  nan : String
  infinity : String

/-- Human-readable numbers: always positional, an integral value without a point,
`NaN` and `inf`. -/
def Style.plain : Style := ⟨none, none, false, "NaN", "inf"⟩

/-- Numbers as JSON carries them: positional up to sixteen digits before the point or four
zeros after it, scientific beyond, and an integral value ending in `.0` so that it reads back
as a binary64 value rather than an integer. JSON has no NaN or infinities; they are `null`. -/
def Style.json : Style := ⟨some 16, some 4, true, "null", "null"⟩

/-- A run of zeros. -/
def zeros (n : Nat) : String := String.ofList (List.replicate n '0')

/-- Whether a bound admits a count; `none` admits every count. -/
def admits (bound : Option Nat) (n : Nat) : Bool :=
  match bound with
  | none => true
  | some b => decide (n ≤ b)

/-- Writes an unsigned decimal `digits · 10^exponent`, its digits without trailing zeros. -/
def Style.unsigned (s : Style) (digits : Nat) (exponent : Int) : String :=
  let text := String.ofList (Nat.toDigits 10 digits)
  let len := text.length
  -- the decimal point stands after `point` digits
  let point : Int := len + exponent
  if 0 ≤ exponent ∧ admits s.maxWhole point.toNat then
    text ++ zeros exponent.toNat ++ (if s.pointZero then ".0" else "")
  else if 0 < point ∧ admits s.maxWhole point.toNat then
    String.ofList (text.toList.take point.toNat) ++ "." ++
      String.ofList (text.toList.drop point.toNat)
  else if point ≤ 0 ∧ admits s.maxZeros (-point).toNat then
    "0." ++ zeros (-point).toNat ++ text
  else
    let mark := toString (point - 1)
    match text.toList with
    | [d] => String.ofList [d] ++ "e" ++ mark
    | d :: rest => String.ofList [d] ++ "." ++ String.ofList rest ++ "e" ++ mark
    | [] => "0e" ++ mark

/-- Writes a decimal with its sign. -/
def Style.digits (s : Style) (d : Digits) : String :=
  (if d.negative then "-" else "") ++ s.unsigned d.digits d.exponent

/-- Writes a binary64 value: its shortest decimal, or the text of NaN or an infinity. -/
def Style.render (s : Style) (x : Float) : String :=
  match Binary.ofFloat x with
  | .nan => s.nan
  | .infinite negative => (if negative then "-" else "") ++ s.infinity
  | .finite negative m q => let (c, k) := shortest m q; s.digits ⟨negative, c, k⟩

end Decimal

end GroupStats
