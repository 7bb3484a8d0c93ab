import PackedStream.Text.Chars

namespace PackedStream.Text

def hexDigit? (c : Char) : Option Nat :=
  if '0' ≤ c ∧ c ≤ '9' then some (c.toNat - '0'.toNat)
  else if 'a' ≤ c ∧ c ≤ 'f' then some (c.toNat - 'a'.toNat + 10)
  else if 'A' ≤ c ∧ c ≤ 'F' then some (c.toNat - 'A'.toNat + 10)
  else none

def hexChars (bytes : Array UInt8) : List Char :=
  bytes.toList.flatMap fun b => [Nat.digitChar (b.toNat / 16), Nat.digitChar (b.toNat % 16)]

/-- A byte of two digits, or of a `+` and one digit. -/
def hexPair? (c d : Char) : Option UInt8 :=
  if c = '+' then (hexDigit? d).map UInt8.ofNat
  else do return UInt8.ofNat (16 * (← hexDigit? c) + (← hexDigit? d))

def hexPairs? : List Char → Option (List UInt8)
  | [] => some []
  | [_] => none
  | c :: d :: cs => do return (← hexPair? c d) :: (← hexPairs? cs)

inductive HexError where
  | oddLength
  | malformed
deriving DecidableEq

def hexDigits (cs : List Char) : List Char :=
  let body := trim cs
  (((after? ['0', 'x'] body).or (after? ['0', 'X'] body)).getD body).filter (!isAsciiBlank ·)

def utf8Length (cs : List Char) : Nat := cs.foldl (fun n c => n + c.utf8Size) 0

def readHex (s : String) : Except HexError (Array UInt8) :=
  let digits := hexDigits s.toList
  if utf8Length digits % 2 ≠ 0 then .error .oddLength
  else match hexPairs? digits with
    | some bytes => .ok bytes.toArray
    | none => .error .malformed

end PackedStream.Text
