import PackedStream.Fault
import PackedStream.Tensor

namespace PackedStream

namespace Shape

def stridesFromEnd : Shape → Except Fault (List Nat)
  | [] => .error .overflow
  | [_] => .ok [1]
  | _ :: extent :: shape => do
    match ← stridesFromEnd (extent :: shape) with
    | [] => .error .outOfBounds
    | stride :: strides => return (← asSize (stride * extent)) :: stride :: strides

def offsetFrom (offset : Nat) : List Nat → Shape → List Nat → Except Fault (Option Nat)
  | i :: index, extent :: shape, stride :: strides => do
    if extent ≤ i then return none
    let step ← asSize (i * stride)
    offsetFrom (← asSize (offset + step)) index shape strides
  | _, _, _ => .ok (some offset)

def rangesOf (shape : Shape) (elements : Nat) : Except Fault (List (Nat × Nat)) :=
  match shape.getLast? with
  | none => .error .outOfBounds
  | some 0 => .error .divisionByZero
  | some extent => (List.range (elements / extent)).mapM fun s => do
    return (← asSize (s * extent), ← asSize ((s + 1) * extent))

end Shape

structure TensorView (α : Type) where
  data : Array α
  shape : Shape
  strides : List Nat
  ranges : List (Nat × Nat)
deriving DecidableEq

namespace TensorView

variable {α : Type}

/-- Changes a view in place: what has been written before a fault stays. -/
abbrev Edit (α : Type) := ExceptT Fault (StateM (TensorView α))

def Edit.ofExcept {β : Type} (result : Except Fault β) : Edit α β := ExceptT.mk (pure result)

def setShape (shape : Shape) : Edit α Unit := do
  let v ← get
  .ofExcept ((shape.check v.data.size).mapError .refused)
  let strides ← .ofExcept shape.stridesFromEnd
  let ranges ← .ofExcept (shape.rangesOf v.data.size)
  modify fun v => { v with ranges }
  modify fun v => { v with shape }
  modify fun v => { v with strides }

def after (v : TensorView α) (edit : Edit α Unit) : TensorView α := (edit.run.run v).2

def ofShape (data : Array α) (shape : Shape) : Except Fault (TensorView α) :=
  match (setShape shape).run.run ⟨data, [], [], []⟩ with
  | (.ok (), v) => .ok v
  | (.error e, _) => .error e

variable (v : TensorView α)

def inner : Nat := v.shape.inner

def slices : Except Fault (List (Array α)) :=
  v.ranges.mapM fun r =>
    if r.1 ≤ r.2 ∧ r.2 ≤ v.data.size then .ok (v.data.extract r.1 r.2) else .error .outOfBounds

def offset? (index : List Nat) : Except Fault (Option Nat) :=
  if index.length = v.shape.length then Shape.offsetFrom 0 index v.shape v.strides else .ok none

def get? (index : List Nat) : Except Fault (Option α) := do
  match ← v.offset? index with
  | none => return none
  | some i => if h : i < v.data.size then return some v.data[i] else .error .outOfBounds

end TensorView

end PackedStream
