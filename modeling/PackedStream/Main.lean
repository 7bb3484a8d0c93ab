import PackedStream.Command.Arguments
import PackedStream.Command.Run

namespace PackedStream.Program

def systemError : IO.Error → SystemError
  | .noFileOrDirectory _ code text | .interrupted _ code text | .alreadyExists _ code text
  | .invalidArgument _ code text | .permissionDenied _ code text | .resourceExhausted _ code text
  | .inappropriateType _ code text | .noSuchThing _ code text | .otherError code text
  | .resourceBusy code text | .resourceVanished code text | .unsupportedOperation code text
  | .hardwareFault code text | .unsatisfiedConstraints code text | .illegalOperation code text
  | .protocolError code text | .timeExpired code text => ⟨text, code.toNat⟩
  | e => ⟨e.toString, 0⟩

def attempt {α : Type} (access : IO α) : IO (Except SystemError α) := do
  try return .ok (← access)
  catch e => return .error (systemError e)

def finish (outcome : Outcome) : IO UInt32 := do
  IO.print outcome.stdout
  IO.eprint outcome.stderr
  return UInt32.ofNat outcome.exit

def perform (command : Command) : IO UInt32 := do
  let input ← match command.input? with
    | some path => attempt (do return (← (← IO.FS.Handle.mk path .read).readBinToEnd).data)
    | none => pure (.ok #[])
  match command.action fun _ => input with
  | .error e => finish (.failure e)
  | .ok (.print text) => finish (.success text)
  | .ok (.save path bytes text) =>
    match ← attempt (IO.FS.writeBinFile path ⟨bytes⟩) with
    | .error cause => finish (.failure (.writeFailed path cause))
    | .ok _ => finish (.success text)

end PackedStream.Program

open PackedStream in
def main (words : List String) : IO UInt32 := do
  match Command.ofArguments? words with
  | some command => Program.perform command
  | none => Program.finish .usage
