import PackedStream.Event
import PackedStream.Shape

namespace PackedStream

structure Tensor (α : Type) where
  data : Array α
  shape : Shape
deriving DecidableEq

namespace Tensor

variable {α : Type} (x : Tensor α)

def reshape (shape : Shape) : Except StreamError (Tensor α) :=
  (shape.check x.data.size).map fun _ => { x with shape }

def ofShape (data : Array α) (shape : Shape) : Except StreamError (Tensor α) :=
  reshape ⟨data, []⟩ shape

def strides : List Nat := x.shape.strides

def inner : Nat := x.shape.inner

def ranges : List (Nat × Nat) :=
  (List.range (x.data.size / x.inner)).map fun s => (s * x.inner, (s + 1) * x.inner)

def slices : List (Array α) := x.ranges.map fun r => x.data.extract r.1 r.2

def offset? (index : List Nat) : Option Nat := x.shape.offset? index

def get? (index : List Nat) : Option α := (x.offset? index).bind (x.data[·]?)

def events : List Event := [.shaped x.shape x.ranges.length x.inner]

end Tensor

end PackedStream
