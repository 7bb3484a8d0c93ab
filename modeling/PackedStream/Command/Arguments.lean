import PackedStream.Command

namespace PackedStream

open Text

structure Switch where
  name : String
  letter : Option Char := none
  takesValue : Bool := true
deriving DecidableEq

structure Arguments where
  options : List (Switch × String) := []
  positionals : List String := []

namespace Arguments

def isNumber (cs : List Char) : Bool :=
  let mantissa := cs.takeWhile fun c => c != 'e' && c != 'E'
  let exponent := cs.drop mantissa.length
  mantissa.all (fun c => (digit? c).isSome || c == '.') && mantissa.count '.' ≤ 1 &&
    mantissa.head? != some '.' &&
    match exponent with
    | [] => true
    | _ :: digits => !mantissa.isEmpty && !digits.isEmpty && digits.all fun c => (digit? c).isSome

inductive WordKind where
  | positional
  | option (switch : Switch) (attached : Option String)
  | unknown

def longWord (switches : List Switch) (cs : List Char) : WordKind :=
  let name := cs.takeWhile (· != '=')
  let attached := match cs.drop name.length with
    | [] => none
    | _ :: value => some (String.ofList value)
  match switches.find? (·.name.toList == name) with
  | some switch => .option switch attached
  | none => .unknown

def shortWord (switches : List Switch) (letter : Char) (cs : List Char) : WordKind :=
  let attached := match cs with
    | [] => none
    | '=' :: value => some (String.ofList value)
    | value => some (String.ofList value)
  match switches.find? (·.letter == some letter) with
  | some switch => .option switch attached
  | none => .unknown

def classify (switches : List Switch) (numbers : Bool) (word : String) : WordKind :=
  match word.toList with
  | '-' :: '-' :: cs => longWord switches cs
  | '-' :: c :: cs =>
    if numbers && isNumber (c :: cs) then .positional else shortWord switches c cs
  | _ => .positional

variable (a : Arguments)

def withOption (switch : Switch) (value : String) : Option Arguments :=
  if a.options.any (·.1 == switch) then none
  else some { a with options := (switch, value) :: a.options }

def sort (switches : List Switch) (numbers : Bool) : List String → Option Arguments
  | [] => some {}
  | "--" :: words => some { positionals := words }
  | word :: words =>
    match classify switches numbers word with
    | .unknown => none
    | .positional => do
      let a ← sort switches numbers words
      return { a with positionals := word :: a.positionals }
    | .option switch (some value) =>
      if switch.takesValue then do (← sort switches numbers words).withOption switch value else none
    | .option switch none =>
      if !switch.takesValue then do (← sort switches numbers words).withOption switch ""
      else match words with
        | value :: words =>
          if value == "--" then none
          else match classify switches numbers value with
            | .positional => do (← sort switches numbers words).withOption switch value
            | _ => none
        | [] => none

def value? (name : String) : Option String :=
  (a.options.find? (·.1.name == name)).map (·.2)

def format? : Option FieldFormat := do
  match FieldFormat.parse (← a.value? "dtype") with
  | .ok f => some f
  | .error _ => none

def dtype : Switch := ⟨"dtype", some 'd', true⟩

def packSwitches : List Switch :=
  [dtype, ⟨"output", some 'o', true⟩, ⟨"strict", none, false⟩, ⟨"sequential", none, false⟩]

def unpackSwitches : List Switch := [dtype, ⟨"padding", some 'p', true⟩, ⟨"input", some 'i', true⟩]

def infoSwitches : List Switch := [dtype]

def toPack? : Option Command := do
  let f ← a.format?
  guard (!a.positionals.isEmpty)
  return .pack f (a.value? "output") (a.value? "strict").isSome (a.value? "sequential").isSome
    a.positionals

def toUnpack? : Option Command := do
  let f ← a.format?
  let padding ← match a.value? "padding" with
    | none => some 0
    | some text => readUnsigned? 64 text.toList
  match a.value? "input", a.positionals with
  | some path, [] => return .unpack f padding (.file path)
  | none, [text] => return .unpack f padding (.hex text)
  | _, _ => none

def toInfo? : Option Command := do
  let f ← a.format?
  guard a.positionals.isEmpty
  return .info f

end Arguments

open Arguments in
def Command.ofArguments? : List String → Option Command
  | "pack" :: words => do (← sort packSwitches true words).toPack?
  | "unpack" :: words => do (← sort unpackSwitches false words).toUnpack?
  | "info" :: words => do (← sort infoSwitches false words).toInfo?
  | _ => none

end PackedStream
