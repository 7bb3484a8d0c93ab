import PackedStream.Power
import PackedStream.Text.Chars

namespace PackedStream.Text

def digit? (c : Char) : Option Nat :=
  if '0' ≤ c ∧ c ≤ '9' then some (c.toNat - '0'.toNat) else none

def readDigitsFrom (n : Nat) : List Char → Option Nat
  | [] => some n
  | c :: cs => (digit? c).bind fun d => readDigitsFrom (10 * n + d) cs

def readDigits? : List Char → Option Nat
  | [] => none
  | cs => readDigitsFrom 0 cs

def within? (limit : Nat) (n : Nat) : Option Nat :=
  if n < limit then some n else none

def readUnsigned? (bits : Nat) : List Char → Option Nat
  | '+' :: cs => (readDigits? cs).bind (within? (pow2 bits))
  | cs => (readDigits? cs).bind (within? (pow2 bits))

def readSigned? (bits : Nat) : List Char → Option Int
  | '-' :: cs => ((readDigits? cs).bind (within? (pow2 (bits - 1) + 1))).map fun n => -(n : Int)
  | '+' :: cs => ((readDigits? cs).bind (within? (pow2 (bits - 1)))).map Int.ofNat
  | cs => ((readDigits? cs).bind (within? (pow2 (bits - 1)))).map Int.ofNat

def natChars (n : Nat) : List Char := Nat.toDigits 10 n

def intChars (i : Int) : List Char :=
  if i < 0 then '-' :: natChars i.natAbs else natChars i.natAbs

end PackedStream.Text
