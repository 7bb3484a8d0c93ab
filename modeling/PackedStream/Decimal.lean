import PackedStream.Text.Numeral

namespace PackedStream

open Text

structure Decimal where
  digits : Nat
  exponent : Int
deriving DecidableEq

namespace Decimal

def stripZeros : Nat → Decimal → Decimal
  | 0, d => d
  | fuel + 1, d =>
    if d.digits ≠ 0 ∧ d.digits % 10 = 0 then stripZeros fuel ⟨d.digits / 10, d.exponent + 1⟩ else d

def plain (d : Decimal) : List Char :=
  let digits := natChars d.digits
  if 0 ≤ d.exponent then digits ++ List.replicate d.exponent.toNat '0'
  else
    let places := (-d.exponent).toNat
    let padded := List.replicate (places + 1 - digits.length) '0' ++ digits
    padded.take (padded.length - places) ++ '.' :: padded.drop (padded.length - places)

def spanDigits (cs : List Char) : List Char × List Char :=
  cs.span fun c => (digit? c).isSome

def readExponent? : List Char → Option Int
  | '-' :: cs => (readDigits? cs).map fun n => -(n : Int)
  | '+' :: cs => (readDigits? cs).map Int.ofNat
  | cs => (readDigits? cs).map Int.ofNat

def read? (cs : List Char) : Option Decimal := do
  let (whole, rest) := spanDigits cs
  let (fraction, rest) := match rest with
    | '.' :: rest => spanDigits rest
    | rest => ([], rest)
  let digits ← readDigits? (whole ++ fraction)
  let exponent ← match rest with
    | [] => some 0
    | c :: rest => if c = 'e' ∨ c = 'E' then readExponent? rest else none
  return ⟨digits, exponent - fraction.length⟩

end Decimal

end PackedStream
