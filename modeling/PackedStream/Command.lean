import PackedStream.FieldFormat.Range
import PackedStream.FieldFormat.Text
import PackedStream.FloatFormat.Shortest

namespace PackedStream

inductive Source where
  | file (path : String)
  | hex (text : String)
deriving DecidableEq

inductive Command where
  | pack (format : FieldFormat) (output : Option String) (strict sequential : Bool)
    (values : List String)
  | unpack (format : FieldFormat) (padding : Nat) (source : Source)
  | info (format : FieldFormat)
deriving DecidableEq

structure SystemError where
  text : String
  code : Nat
deriving DecidableEq

namespace SystemError

def notFound : SystemError := ⟨"No such file or directory", 2⟩

def notDirectory : SystemError := ⟨"Not a directory", 20⟩

def isDirectory : SystemError := ⟨"Is a directory", 21⟩

def nameTooLong : SystemError := ⟨"File name too long", 36⟩

def message (e : SystemError) : String := s!"{e.text} (os error {e.code})"

end SystemError

inductive CommandError where
  | unreadableValue (text : String)
  | notRepresentable (value : Word) (format : FieldFormat)
  | oddHex (text : String)
  | malformedHex (text : String)
  | readFailed (path : String) (cause : SystemError)
  | writeFailed (path : String) (cause : SystemError)
  | stream (cause : StreamError)
deriving DecidableEq

def CommandError.message : CommandError → String
  | unreadableValue text => s!"Ungueltiger Wert '{text}'"
  | notRepresentable value format =>
    s!"Wert {FloatFormat.binary64.text value} ist in {format.text} nicht darstellbar"
  | oddHex text => s!"Hex-String hat ungerade Laenge: '{text}'"
  | malformedHex text => s!"Ungueltiges Hex: '{text}'"
  | readFailed path cause => s!"Lesefehler '{path}': {cause.message}"
  | writeFailed path cause => s!"Schreibfehler '{path}': {cause.message}"
  | stream cause => cause.message

end PackedStream
