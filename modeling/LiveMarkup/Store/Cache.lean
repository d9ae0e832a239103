import LiveMarkup.Digest.Sha256
import LiveMarkup.Json.Printer
import LiveMarkup.Program.Codec
import LiveMarkup.Program.Compile
import LiveMarkup.Store.Files

/-!
# Caches of programs

A cache keeps compiled programs under a digest of the markup and the options. With a directory it
also keeps them as files, where another cache finds them. A file that cannot be read as an entry is
taken away; one with the entry of another key is left alone.

* `Cache.get?` looks a program up, in memory first;
* `Cache.getOrCompile` compiles what is not there and keeps it; what does not compile is not kept.
-/

namespace LiveMarkup

/-- A cache of programs. -/
structure Cache where
  programs : List (String × Program) := []
  directory : Option String := none
  hits : Nat := 0
  misses : Nat := 0

namespace Cache

/-- The text that stands for a markup text with options: the written options, a NUL and the
markup. -/
def keyText (markup : String) (options : Options) : String :=
  options.toValue.text ++ "\x00" ++ markup

/-- The key of a markup text with options. -/
def key (markup : String) (options : Options) : String :=
  Sha256.hex (keyText markup options)

/-- The path of the file for a key. -/
def path? (c : Cache) (key : String) : Option String :=
  c.directory.map fun directory => directory ++ "/" ++ key ++ ".json"

/-- The text of an entry. -/
def entryText (key : String) (program : Program) : String :=
  (Value.object [("hash", .string key), ("program", program.toValue)]).text

/-- Reads an entry: its key and its program. -/
def readEntry? (text : String) : Option (String × Program) := do
  match ← (← Json.read? text).record? ["hash", "program"] with
  | [some (.string key), some program] => pure (key, ← Program.ofValue? program)
  | _ => none

/-- Loads the program of a key from its file. -/
def load (c : Cache) (files : Files) (key : String) : Option Program × Files :=
  match c.path? key with
  | none => (none, files)
  | some path =>
    match files.readText? path with
    | none => (none, files)
    | some text =>
      match readEntry? text with
      | none => (none, files.erase path)
      | some (other, program) => (if other == key then some program else none, files)

/-- Keeps a program in the file of its key. -/
def store (c : Cache) (files : Files) (key : String) (program : Program) : Files :=
  match c.path? key with
  | none => files
  | some path => files.put path (.text (entryText key program))

/-- Keeps a program in memory. -/
def remember (c : Cache) (key : String) (program : Program) : Cache :=
  { c with programs := Fields.insert key program c.programs }

/-- The program for a markup text, if it is there. -/
def get? (c : Cache) (files : Files) (markup : String) (options : Options) :
    Option Program × Cache × Files :=
  let key := key markup options
  match Fields.get? key c.programs with
  | some program => (some program, c, files)
  | none =>
    match c.load files key with
    | (some program, files) => (some program, c.remember key program, files)
    | (none, files) => (none, c, files)

/-- The program for a markup text, compiled if it is not there. -/
def getOrCompile (c : Cache) (files : Files) (markup : String) (options : Options) :
    Except Diagnostic Program × Cache × Files :=
  match c.get? files markup options with
  | (some program, c, files) => (.ok program, { c with hits := c.hits + 1 }, files)
  | (none, c, files) =>
    let c := { c with misses := c.misses + 1 }
    match Program.compile markup options with
    | .error e => (.error e, c, files)
    | .ok program =>
      let key := key markup options
      (.ok program, c.remember key program, c.store files key program)

/-- The programs for many markup texts, in order. -/
def precompile (c : Cache) (files : Files) :
    List (String × Options) → List (Except Diagnostic Program) × Cache × Files
  | [] => ([], c, files)
  | (markup, options) :: rest =>
    let (first, c, files) := c.getOrCompile files markup options
    let (others, c, files) := precompile c files rest
    (first :: others, c, files)

/-- Forgets the programs in memory. -/
def clear (c : Cache) : Cache :=
  { c with programs := [] }

/-- The number of programs in memory. -/
def entries (c : Cache) : Nat :=
  c.programs.length

end Cache

end LiveMarkup
