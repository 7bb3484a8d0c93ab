import PackedStream.FieldFormat
import PackedStream.Text.Numeral

namespace PackedStream.FieldFormat

open Text

def text : FieldFormat → String
  | uint bits => s!"UINT{bits}"
  | int bits => s!"INT{bits}"
  | fixed bits intBits => s!"FIXED<{bits},{intBits}>"
  | float32 => "FLOAT32"
  | binary => "BINARY"
  | ternary => "TERNARY"
  | bipolar => "BIPOLAR"

def readFixed? (cs : List Char) : Option FieldFormat := do
  guard (cs.getLast? == some '>')
  let (bits, intBits) ← cut? ',' cs.dropLast
  return fixed (← readUnsigned? 32 (trim bits)) (← readUnsigned? 32 (trim intBits))

def readName? (cs : List Char) : Option FieldFormat :=
  if cs = "FLOAT32".toList then some float32
  else if cs = "BINARY".toList then some binary
  else if cs = "TERNARY".toList then some ternary
  else if cs = "BIPOLAR".toList then some bipolar
  else if let some ds := after? "UINT".toList cs then (readUnsigned? 32 ds).map uint
  else if let some ds := after? "INT".toList cs then (readUnsigned? 32 ds).map int
  else (after? "FIXED<".toList cs).bind readFixed?

def parse (s : String) : Except StreamError FieldFormat :=
  match readName? ((trim s.toList).map Char.toUpper) with
  | some f => f.checked
  | none => .error (.unknownFormat s)

end PackedStream.FieldFormat
