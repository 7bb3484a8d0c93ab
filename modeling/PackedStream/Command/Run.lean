import PackedStream.Command
import PackedStream.FloatFormat.Read
import PackedStream.HostType.Text
import PackedStream.Text.Hex
import PackedStream.Unpack

namespace PackedStream

open Text
open FloatFormat (binary64)

def readValues (words : List String) : Except CommandError HostValues :=
  match words.mapM fun s => readSigned? 64 s.toList with
  | some values => .ok ⟨.i64, values.map (BitVec.ofInt 64)⟩
  | none =>
    match words.mapM fun s => readUnsigned? 64 s.toList with
    | some values => .ok ⟨.u64, values.map (BitVec.ofNat 64)⟩
    | none => do
      let values ← words.mapM fun s =>
        match binary64.read? s.toList with
        | some x => .ok x
        | none => .error (.unreadableValue s)
      return ⟨.f64, values⟩

def firstRefused? (f : FieldFormat) (vs : HostValues) : Option Word :=
  (vs.values.map fun v => (vs.type.toScalar v).toBinary64).find? fun x => !f.represents x

inductive Action where
  | print (text : String)
  | save (path : String) (bytes : Array UInt8) (text : String)
deriving DecidableEq

namespace Command

def fromStream {α : Type} (x : Except StreamError α) : Except CommandError α := x.mapError .stream

def packAction (f : FieldFormat) (output : Option String) (strict sequential : Bool)
    (words : List String) : Except CommandError Action := do
  let vs ← readValues words
  if strict then
    if let some x := firstRefused? f vs then throw (.notRepresentable x f)
  let bytes ← fromStream (f.pack vs.values (if sequential then .sequential else {}))
  let padding := s!"padding: {(f.packedLength vs.values.length).2}\n"
  match output with
  | some path => return .save path bytes padding
  | none => return .print (String.ofList (hexChars bytes) ++ "\n" ++ padding)

def hexBytes (text : String) : Except CommandError (Array UInt8) :=
  (readHex text).mapError fun
    | .oddLength => .oddHex text
    | .malformed => .malformedHex text

def unpackAction (f : FieldFormat) (padding : Nat) (bytes : Array UInt8) :
    Except CommandError Action := do
  let values ← fromStream (f.unpackHost bytes padding)
  return .print (values.text ++ "\n")

def infoAction (f : FieldFormat) : Except CommandError Action := do
  fromStream f.validate
  let point :=
    if f.isFixed then s!"int bits:  {f.intBits}\nfrac bits: {f.fracBits}\n" else ""
  return .print (
    s!"datatype:  {f.text}\nbitwidth:  {f.width}\n" ++
    s!"signed:    {f.signed}\ninteger:   {f.isInteger}\n" ++
    point ++
    s!"min:       {binary64.text f.least}\nmax:       {binary64.text f.greatest}\n" ++
    s!"native:    {f.hostType.name}\n")

def input? : Command → Option String
  | unpack _ _ (.file path) => some path
  | _ => none

def action (read : String → Except SystemError (Array UInt8)) :
    Command → Except CommandError Action
  | pack f output strict sequential words => packAction f output strict sequential words
  | unpack f padding (.file path) => do
    unpackAction f padding (← (read path).mapError (.readFailed path))
  | unpack f padding (.hex text) => do unpackAction f padding (← hexBytes text)
  | info f => infoAction f

end Command

structure Outcome where
  exit : Nat
  stdout : String
  stderr : String
deriving DecidableEq

namespace Outcome

def success (text : String) : Outcome := ⟨0, text, ""⟩

def failure (e : CommandError) : Outcome := ⟨1, "", s!"Fehler: {e.message}\n"⟩

def usage : Outcome := ⟨2, "", "usage: pack | unpack | info, each with --dtype FORMAT\n"⟩

end Outcome

end PackedStream
