import PackedStream.Text.Hex
import PackedStream.Text.Numeral

/-! Hexadecimal text taken apart into its bytes in UTF-8, two of which spell a number. -/

namespace PackedStream.Text

def readHexDigitsFrom (n : Nat) : List Char → Option Nat
  | [] => some n
  | c :: cs => (hexDigit? c).bind fun d => readHexDigitsFrom (16 * n + d) cs

def readHexDigits? : List Char → Option Nat
  | [] => none
  | cs => readHexDigitsFrom 0 cs

def readHexNumber? (bits : Nat) : List Char → Option Nat
  | '+' :: cs => (readHexDigits? cs).bind (within? (pow2 bits))
  | cs => (readHexDigits? cs).bind (within? (pow2 bits))

def isBlankByte (b : UInt8) : Bool := b == 0x20 || b == 0x09 || b == 0x0A || b == 0x0C || b == 0x0D

def spelledByte? (b c : UInt8) : Option UInt8 := do
  let text ← String.fromUTF8? [b, c].toByteArray
  return UInt8.ofNat (← readHexNumber? 8 text.toList)

def spelledBytes? : List UInt8 → Option (List UInt8)
  | b :: c :: bytes => do return (← spelledByte? b c) :: (← spelledBytes? bytes)
  | _ => some []

def hexBody (cs : List Char) : List Char :=
  let body := trim cs
  ((after? ['0', 'x'] body).or (after? ['0', 'X'] body)).getD body

def readHexBytes (s : String) : Except HexError (Array UInt8) :=
  let digits := ((hexBody s.toList).flatMap String.utf8EncodeChar).filter (!isBlankByte ·)
  if digits.length % 2 ≠ 0 then .error .oddLength
  else match spelledBytes? digits with
    | some bytes => .ok bytes.toArray
    | none => .error .malformed

end PackedStream.Text
