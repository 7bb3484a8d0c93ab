import PackedStream.Blocks
import PackedStream.Event
import PackedStream.PackOptions

namespace PackedStream

/-- A queue of equal parts in a circle of slots: `valid` parts from slot `head` on, oldest first. -/
structure PartRing (α : Type) where
  storage : Array α
  parts : Nat
  partSize : Nat
  head : Nat
  valid : Nat
deriving DecidableEq

namespace PartRing

def checkCapacity (parts partSize : Nat) : Except StreamError Unit :=
  if sizeLimit ≤ parts * partSize then .error (.capacityOverflow parts partSize)
  else if parts * partSize = 0 then .error .zeroCapacity
  else .ok ()

def makeEvents (parts partSize : Nat) : List Event :=
  match checkCapacity parts partSize with
  | .ok _ => [.ringMade parts partSize]
  | .error _ => []

variable {α : Type}

def make [Inhabited α] (parts partSize : Nat) : Except StreamError (PartRing α) :=
  (checkCapacity parts partSize).map fun _ =>
    ⟨Array.replicate (parts * partSize) default, parts, partSize, 0, 0⟩

variable (r : PartRing α)

def length : Nat := r.valid * r.partSize

def capacity : Nat := r.parts * r.partSize

def room : Nat := r.parts - r.valid

def isEmpty : Bool := r.valid == 0

def isFull : Bool := r.valid == r.parts

def slot (i : Nat) : List α :=
  (r.storage.extract (i * r.partSize) (i * r.partSize + r.partSize)).toList

def partCount (length : Nat) : Except StreamError Nat :=
  if length % r.partSize ≠ 0 then .error (.partSizeMismatch length r.partSize)
  else if r.capacity < length then .error (.capacityExceeded length r.capacity)
  else .ok (length / r.partSize)

def push (part : List α) : PartRing α :=
  let slot := (r.head + r.valid) % r.parts
  { r with storage := place r.storage (slot * r.partSize) part, valid := r.valid + 1 }

def pushAll (values : List α) : PartRing α := (pieces r.partSize values).foldl push r

def store (values : List α) : Except StreamError (Bool × PartRing α) := do
  if r.room < (← r.partCount values.length) then return (false, r)
  else return (true, r.pushAll values)

def storeEvents (values : List α) : List Event :=
  match r.partCount values.length with
  | .ok parts => if r.room < parts then [.storeRefused parts r.room] else []
  | .error _ => []

def read : Option (List α × PartRing α) :=
  if r.valid = 0 then none
  else some (r.slot r.head, { r with head := (r.head + 1) % r.parts, valid := r.valid - 1 })

def drain : Nat → PartRing α → List α × PartRing α
  | 0, r => ([], r)
  | n + 1, r =>
    match r.read with
    | none => ([], r)
    | some (part, rest) =>
      let (behind, rest) := drain n rest
      (part ++ behind, rest)

def readAll : Option (List α × PartRing α) :=
  if r.valid = 0 then none else some (drain r.valid r)

end PartRing

end PackedStream
