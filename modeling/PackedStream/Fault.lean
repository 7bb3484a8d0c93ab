import PackedStream.PackOptions

namespace PackedStream

inductive Fault where
  | refused (cause : StreamError)
  | overflow
  | divisionByZero
  | outOfBounds
deriving DecidableEq

def asSize (n : Nat) : Except Fault Nat := if n < sizeLimit then .ok n else .error .overflow

theorem asSize_of_lt {n : Nat} (h : n < sizeLimit) : asSize n = .ok n := if_pos h

end PackedStream
