import PackedStream.Error
import PackedStream.Power

namespace PackedStream

abbrev Word := BitVec 64

inductive FieldFormat where
  | uint (bits : Nat)
  | int (bits : Nat)
  /-- A two's complement integer with a binary point behind its `intBits` highest bits. -/
  | fixed (bits intBits : Nat)
  | float32
  | binary
  | ternary
  | bipolar
deriving DecidableEq

namespace FieldFormat

def maxWidth : Nat := 64

def width : FieldFormat → Nat
  | uint bits | int bits | fixed bits _ => bits
  | float32 => 32
  | binary | bipolar => 1
  | ternary => 2

def signed : FieldFormat → Bool
  | uint _ | binary => false
  | _ => true

def isInteger : FieldFormat → Bool
  | fixed .. | float32 => false
  | _ => true

def isFixed : FieldFormat → Bool
  | fixed .. => true
  | _ => false

def fracBits : FieldFormat → Nat
  | fixed bits intBits => bits - intBits
  | _ => 0

def intBits : FieldFormat → Nat
  | fixed _ intBits => intBits
  | f => f.width

def mask (f : FieldFormat) : Word :=
  if 64 ≤ f.width then BitVec.allOnes 64 else BitVec.ofNat 64 (pow2 f.width - 1)

def checkWidth (bits : Nat) : Except StreamError Unit :=
  if bits = 0 ∨ maxWidth < bits then .error (.unsupportedWidth bits) else .ok ()

def validate : FieldFormat → Except StreamError Unit
  | uint bits | int bits => checkWidth bits
  | fixed bits intBits => do
    checkWidth bits
    if intBits = 0 ∨ bits < intBits then .error (.invalidFixedPoint bits intBits) else .ok ()
  | _ => .ok ()

def checked (f : FieldFormat) : Except StreamError FieldFormat :=
  f.validate.map fun _ => f

def packedLength (f : FieldFormat) (count : Nat) : Nat × Nat :=
  let bits := count * f.width
  let bytes := (bits + 7) / 8
  (bytes, bytes * 8 - bits)

def requiredUnits (f : FieldFormat) (unitBytes : Nat) : Nat :=
  let unitBits := max (unitBytes * 8) 1
  if f.width ≤ unitBits then 1 else (f.width + unitBits - 1) / unitBits

end FieldFormat

end PackedStream
