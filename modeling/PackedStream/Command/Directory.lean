import PackedStream.Command.Place
import PackedStream.Command.Run

namespace PackedStream

structure Directory where
  files : List (Place × Array UInt8)
  locate : List Place → Access → String → Except SystemError Place

namespace Directory

def plain (files : List (String × Array UInt8)) : Directory :=
  ⟨files.map fun (name, bytes) => (Place.ofName name, bytes), Place.ofPath⟩

variable (d : Directory)

def place (access : Access) (path : String) : Except SystemError Place :=
  d.locate (d.files.map (·.1)) access path

def content? (place : Place) : Option (Array UInt8) := d.files.lookup place

def read (path : String) : Except SystemError (Array UInt8) := do
  match d.content? (← d.place .read path) with
  | some bytes => .ok bytes
  | none => .error .notFound

def write (path : String) (bytes : Array UInt8) : Except SystemError Directory := do
  let place ← d.place .write path
  return { d with files := (place, bytes) :: d.files.filter (·.1 != place) }

def run (command : Command) : Directory × Outcome :=
  match command.action d.read with
  | .error e => (d, .failure e)
  | .ok (.print text) => (d, .success text)
  | .ok (.save path bytes text) =>
    match d.write path bytes with
    | .error cause => (d, .failure (.writeFailed path cause))
    | .ok d' => (d', .success text)

def runWords (parse : List String → Option Command) (words : List String) : Directory × Outcome :=
  match parse words with
  | some command => d.run command
  | none => (d, .usage)

def runAll (parse : List String → Option Command) :
    Directory → List (List String) → Directory × List Outcome
  | d, [] => (d, [])
  | d, words :: rest =>
    let (d', outcome) := d.runWords parse words
    let (d'', outcomes) := runAll parse d' rest
    (d'', outcome :: outcomes)

end Directory

end PackedStream
