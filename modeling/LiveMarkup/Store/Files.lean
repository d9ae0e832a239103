import LiveMarkup.Text.Blank

/-!
# Stores of files

The files that a template library reads and that a cache keeps, as a map from paths to contents.
The parts of a path are separated by slashes. Files are kept in the order of a walk: a directory
with all that is in it comes where its name comes.
-/

namespace LiveMarkup

/-- The content of a file: text, or bytes that are no text. -/
inductive FileContent where
  | text (s : String)
  | binary (bytes : List UInt8)
  deriving Repr, DecidableEq, Inhabited

namespace FileContent

/-- The content made of some bytes. -/
def ofBytes (bytes : List UInt8) : FileContent :=
  match String.fromUTF8? ⟨bytes.toArray⟩ with
  | some s => text s
  | none => binary bytes

/-- The text of a file, if it is one. -/
def text? : FileContent → Option String
  | text s => some s
  | binary _ => none

/-- The number of bytes of a file. -/
def size : FileContent → Nat
  | text s => s.utf8ByteSize
  | binary bytes => bytes.length

end FileContent

/-- A store of files, in the order of a walk. -/
abbrev Files := List (String × FileContent)

namespace Files

/-- The parts of a path. -/
def parts (path : String) : List String :=
  (Text.splitAt '/' path).filter fun part => part != ""

/-- Whether a path comes before another in a walk. -/
def comesBefore (path other : String) : Bool :=
  parts path < parts other

/-- The file of a path. -/
def get? (files : Files) (path : String) : Option FileContent :=
  (files.find? fun (other, _) => other == path).map (·.2)

/-- Takes away the file of a path. -/
def erase (files : Files) (path : String) : Files :=
  files.filter fun (other, _) => other != path

/-- Puts a file in its place; it replaces a file of the same path. -/
def put (files : Files) (path : String) (content : FileContent) : Files :=
  let others := files.erase path
  others.takeWhile (fun (other, _) => comesBefore other path) ++
    (path, content) :: others.dropWhile fun (other, _) => comesBefore other path

/-- The text of a file that is there and is text. -/
def readText? (files : Files) (path : String) : Option String :=
  (files.get? path).bind FileContent.text?

/-- What stands after some parts in front. -/
def partsBelow? : List String → List String → Option (List String)
  | [], rest => some rest
  | _ :: _, [] => none
  | d :: ds, p :: ps => if d == p then partsBelow? ds ps else none

/-- The files below a directory, each with its path and the parts of it below the directory. -/
def below (files : Files) (directory : String) : List (String × List String × FileContent) :=
  files.filterMap fun (path, content) =>
    match partsBelow? (parts directory) (parts path) with
    | some (part :: rest) => some (path, part :: rest, content)
    | _ => none

end Files

end LiveMarkup
