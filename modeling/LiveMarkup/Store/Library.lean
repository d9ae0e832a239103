import LiveMarkup.Store.Cache

/-!
# Template libraries

A library holds the templates found below a directory. A template is named by its path below the
directory without its extension; of two with one name the later in the walk counts.

* `Library.discover` finds the templates;
* `Library.get` compiles one by name, through the cache;
* `Library.compileAll` compiles all of them.
-/

namespace LiveMarkup

/-- What is known of a template before it is read. -/
structure TemplateInfo where
  name : String
  path : String
  size : Nat
  deriving Repr, DecidableEq, Inhabited

/-- A library of templates with its cache. -/
structure Library where
  base : String
  templates : List (String × TemplateInfo) := []
  cache : Cache := {}

/-- Why a template cannot be had. -/
inductive LibraryError where
  | unreadable (path : String)
  | broken (diagnostic : Diagnostic)
  | notFound (name : String)

namespace Library

/-- The extensions of template files. -/
def extensions : List String :=
  ["html", "tpl"]

/-- The name of a file without its extension, and the extension: what follows the last dot that is
not the first character. -/
def splitExtension (file : String) : Option (String × String) :=
  let cs := file.toList
  let extension := (cs.reverse.takeWhile (· != '.')).reverse
  let stem := cs.take (cs.length - extension.length - 1)
  if extension.length < cs.length && !stem.isEmpty then
    some (String.ofList stem, String.ofList extension)
  else none

/-- The last part of the name of a template; a lone dot would stand for the directory. -/
def nameOfStem (stem : String) : String :=
  if stem == "." then ".." else stem

/-- The name of the template in a file, if it is one. -/
def templateName? : List String → Option String
  | [] => none
  | [file] =>
    match splitExtension file with
    | some (stem, extension) =>
      if extensions.contains extension then some (nameOfStem stem) else none
    | none => none
  | part :: rest => (templateName? rest).map fun name => part ++ "/" ++ name

/-- Finds the templates below a directory. -/
def discover (base : String) (files : Files) (cache : Cache) : Library where
  base := base
  templates :=
    (files.below base).foldl
      (fun found (path, parts, content) =>
        match templateName? parts with
        | some name => Fields.insert name ⟨name, path, content.size⟩ found
        | none => found)
      []
  cache := cache

/-- The names of the templates, in order. -/
def names (l : Library) : List String :=
  l.templates.map (·.1)

/-- What is known of a template. -/
def info? (l : Library) (name : String) : Option TemplateInfo :=
  Fields.get? name l.templates

/-- The markup of a template with the options it is compiled with. -/
def read (files : Files) (info : TemplateInfo) : Except LibraryError (String × Options) :=
  match files.readText? info.path with
  | some markup => .ok (markup, { file := info.path })
  | none => .error (.unreadable info.path)

/-- The program of a template. -/
def get (l : Library) (files : Files) (name : String) :
    Except LibraryError Program × Library × Files :=
  match l.info? name with
  | none => (.error (.notFound name), l, files)
  | some info =>
    match read files info with
    | .error e => (.error e, l, files)
    | .ok (markup, options) =>
      let (result, cache, files) := l.cache.getOrCompile files markup options
      (result.mapError .broken, { l with cache }, files)

/-- The programs of all templates, in order of name. All files are read before the first template
is compiled. -/
def compileAll (l : Library) (files : Files) :
    List (String × Except LibraryError Program) × Library × Files :=
  let read := l.templates.map fun (name, info) => (name, read files info)
  let sources := read.filterMap fun (_, source) => source.toOption
  let (results, cache, files) := l.cache.precompile files sources
  (answers read results, { l with cache }, files)
where
  /-- Gives each readable template its result. -/
  answers : List (String × Except LibraryError (String × Options)) →
      List (Except Diagnostic Program) → List (String × Except LibraryError Program)
    | [], _ => []
    | (name, .error e) :: rest, results => (name, .error e) :: answers rest results
    | (name, .ok _) :: rest, result :: results =>
      (name, result.mapError .broken) :: answers rest results
    | (_, .ok _) :: rest, [] => answers rest []

end Library

end LiveMarkup
