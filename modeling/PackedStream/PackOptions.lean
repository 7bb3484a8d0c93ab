import PackedStream.Error
import PackedStream.Power

namespace PackedStream

def sizeLimit : Nat := pow2 64

structure PackOptions where
  threshold : Nat := 4096
  chunk : Nat := 8192
deriving DecidableEq

namespace PackOptions

def sequential : PackOptions := { threshold := sizeLimit - 1 }

variable (o : PackOptions)

def validate : Except StreamError Unit := if o.chunk = 0 then .error .zeroChunk else .ok ()

def roundedChunk : Nat := (max o.chunk 1 + 7) / 8 * 8

def cuts (count : Nat) : Bool := o.threshold ≤ count && o.roundedChunk < count

end PackOptions

end PackedStream
