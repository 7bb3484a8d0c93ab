import PackedStream.Command

namespace PackedStream

/-- The names on the way from the working directory to a file or directory, the last one first.
The way starts with `..` for each directory that it leads up, or with `/` at the top of all. -/
abbrev Place := List String

inductive Access where
  | read
  | write
deriving DecidableEq

namespace Place

def ofName (name : String) : Place :=
  ((name.splitOn "/").filter fun part => part != "" && part != ".").reverse

def above : Place → Place
  | ["/"] => ["/"]
  | [] => [".."]
  | ".." :: place => ".." :: ".." :: place
  | _ :: place => place

def isDirectory (files : List Place) (place : Place) : Bool :=
  place == ["/"] || place.all (· == "..") || files.any fun file => place != file && place.isSuffixOf file

def named (place : Place) (name : String) : Except SystemError Place :=
  if 255 < name.utf8ByteSize then .error .nameTooLong else .ok (name :: place)

def enter (files : List Place) (place : Place) (name : String) : Except SystemError Place :=
  if name = "." then .ok place
  else if name = ".." then .ok place.above
  else do
    let next ← place.named name
    if isDirectory files next then .ok next
    else .error (if files.contains next then .notDirectory else .notFound)

/-- The place of a file that a path leads to, through directories alone. A path that ends in `/`
leads to a directory: it is entered to be read, and refused at once if it is to be written. -/
def ofPath (files : List Place) (access : Access) (path : String) : Except SystemError Place := do
  if path = "" then throw .notFound
  if 4096 ≤ path.utf8ByteSize then throw .nameTooLong
  let parts := path.splitOn "/"
  let last := parts.getLastD ""
  let names := parts.dropLast.filter (· != "")
  let entered := if last = "" ∧ access = .write then names.dropLast else names
  let place ← entered.foldlM (enter files) (if path.startsWith "/" then ["/"] else [])
  if last = "" ∨ last = "." ∨ last = ".." then throw .isDirectory
  let target ← place.named last
  if isDirectory files target then throw .isDirectory
  return target

end Place

end PackedStream
