import PackedStream.Command.Directory

namespace PackedStream

open Text
open FloatFormat (binary64)

structure Session where
  directory : Directory
  shown : String := ""

abbrev Act := ExceptT CommandError (StateM Session)

namespace Act

def ofExcept {α : Type} (result : Except CommandError α) : Act α := ExceptT.mk (pure result)

def load (path : String) : Act (Array UInt8) := do
  ofExcept (((← get).directory.read path).mapError (.readFailed path))

def save (path : String) (bytes : Array UInt8) : Act Unit := do
  match (← get).directory.write path bytes with
  | .error cause => throw (.writeFailed path cause)
  | .ok directory => modify fun s => { s with directory }

def showLine (line : String) : Act Unit :=
  modify fun s => { s with shown := s.shown ++ line ++ "\n" }

end Act

namespace Command

def refuse (f : FieldFormat) (strict : Bool) (vs : HostValues) : Except CommandError Unit := do
  if strict then
    if let some x := firstRefused? f vs then throw (.notRepresentable x f)

def deliver (output : Option String) (bytes : Array UInt8) (padding : Nat) : Act Unit := do
  match output with
  | some path => Act.save path bytes
  | none => Act.showLine (String.ofList (hexChars bytes))
  Act.showLine s!"padding: {padding}"

def actPack (f : FieldFormat) (output : Option String) (strict sequential : Bool)
    (words : List String) : Act Unit := do
  let vs ← Act.ofExcept (readValues words)
  Act.ofExcept (refuse f strict vs)
  let bytes ← Act.ofExcept (fromStream (f.pack vs.values (if sequential then .sequential else {})))
  deliver output bytes (f.packedLength vs.values.length).2

def actUnpack (f : FieldFormat) (padding : Nat) (source : Source) : Act Unit := do
  let bytes ← match source with
    | .file path => Act.load path
    | .hex text => Act.ofExcept (hexBytes text)
  let values ← Act.ofExcept (fromStream (f.unpackHost bytes padding))
  Act.showLine values.text

def actInfo (f : FieldFormat) : Act Unit := do
  Act.ofExcept (fromStream f.validate)
  Act.showLine s!"datatype:  {f.text}"
  Act.showLine s!"bitwidth:  {f.width}"
  Act.showLine s!"signed:    {f.signed}"
  Act.showLine s!"integer:   {f.isInteger}"
  if f.isFixed then
    Act.showLine s!"int bits:  {f.intBits}"
    Act.showLine s!"frac bits: {f.fracBits}"
  Act.showLine s!"min:       {binary64.text f.least}"
  Act.showLine s!"max:       {binary64.text f.greatest}"
  Act.showLine s!"native:    {f.hostType.name}"

def act : Command → Act Unit
  | pack f output strict sequential words => actPack f output strict sequential words
  | unpack f padding source => actUnpack f padding source
  | info f => actInfo f

end Command

def Session.outcome (s : Session) : Except CommandError Unit → Outcome
  | .ok () => ⟨0, s.shown, ""⟩
  | .error e => ⟨1, s.shown, s!"Fehler: {e.message}\n"⟩

structure Invocation where
  locate : List Place → Access → String → Except SystemError Place
  words : List String

namespace Directory

def during (d : Directory) (i : Invocation) : Directory := { d with locate := i.locate }

def runEach (parse : List String → Option Command) :
    Directory → List Invocation → Directory × List Outcome
  | d, [] => (d, [])
  | d, i :: rest =>
    let (d', outcome) := (d.during i).runWords parse i.words
    let (d'', outcomes) := runEach parse d' rest
    (d'', outcome :: outcomes)

end Directory

end PackedStream
