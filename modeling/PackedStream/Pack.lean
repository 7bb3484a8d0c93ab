import PackedStream.BitBuffer
import PackedStream.Blocks
import PackedStream.Field
import PackedStream.PackOptions

namespace PackedStream

inductive PackPlan where
  | copy (bytes : Array UInt8)
  | whole
  | chunks (size : Nat)
deriving DecidableEq

namespace FieldFormat

variable (f : FieldFormat) {t : HostType}

def encodeAll (values : List t.Value) : List Word := values.map fun v => f.encode (t.toScalar v)

def buffer (values : List t.Value) : BitBuffer :=
  (BitBuffer.zeros (values.length * f.width)).writeAll f.width 0 (f.encodeAll values)

def chunkBlocks (size : Nat) (values : List t.Value) : List (Nat × Array UInt8) :=
  (pieces size values).mapIdx fun i chunk => (i * (size / 8 * f.width), (f.buffer chunk).bytes)

def packPlan (values : List t.Value) (options : PackOptions) : Except StreamError PackPlan := do
  f.validate
  options.validate
  match if f.width = 8 ∧ f.isInteger then t.toBytes? values else none with
  | some bytes => return .copy bytes
  | none => return if options.cuts values.length then .chunks options.roundedChunk else .whole

def runPack (values : List t.Value) : PackPlan → Array UInt8
  | .copy bytes => bytes
  | .whole => (f.buffer values).bytes
  | .chunks size =>
    placeAll (Array.replicate (f.packedLength values.length).1 0) (f.chunkBlocks size values)

def pack (values : List t.Value) (options : PackOptions := {}) : Except StreamError (Array UInt8) :=
  (f.packPlan values options).map (f.runPack values)

def packIter {σ : Type} [Std.Iterator σ Id t.Value] (values : @Std.Iter σ t.Value) :
    Except StreamError (Array UInt8) := f.pack values.toList

end FieldFormat

end PackedStream
