import PackedStream.PackOptions

namespace PackedStream

abbrev Shape := List Nat

namespace Shape

def volume : Shape → Nat
  | [] => 1
  | extent :: shape => extent * volume shape

def strides : Shape → List Nat
  | [] => []
  | _ :: shape => volume shape :: strides shape

def inner (shape : Shape) : Nat := shape.getLast?.getD 0

def times (total : Option Nat) (extent : Nat) : Option Nat :=
  total.bind fun n => if n * extent < sizeLimit then some (n * extent) else none

def check (shape : Shape) (elements : Nat) : Except StreamError Unit :=
  if shape = [] then .error .emptyShape
  else if 0 ∈ shape ∨ shape.foldl times (some 1) ≠ some elements then
    .error (.shapeMismatch shape elements)
  else .ok ()

def offset? : Shape → List Nat → Option Nat
  | [], [] => some 0
  | extent :: shape, i :: index =>
    if i < extent then (offset? shape index).map (i * volume shape + ·) else none
  | _, _ => none

end Shape

end PackedStream
