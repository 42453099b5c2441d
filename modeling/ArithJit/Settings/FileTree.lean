import ArithJit.Text.Quoted

/-!
# File trees and paths

A file tree is a set of files with their bytes and a set of directories. A path is the list of
its components from the root. A text names a path in two ways: by its letters alone, where `..`
takes the component before it away, or by walking the tree, where every component on the way
must be a directory.
-/

namespace ArithJit

/-- A path: the components from the root. -/
abbrev Path := List String

namespace Path

/-- The text of a path. -/
def text (p : Path) : String := "/" ++ "/".intercalate p

/-- Cuts a text at its slashes; there is one part more than there are slashes. -/
def cut : List Char → List (List Char)
  | [] => [[]]
  | c :: cs =>
      if c = '/' then [] :: cut cs
      else
        match cut cs with
        | [] => [[c]]
        | part :: parts => (c :: part) :: parts

/-- The components of a text, those between its slashes. -/
def components (s : String) : List String := (cut s.toList).map String.ofList

/-- Whether a text names a path from the root. -/
def isAbsolute (s : String) : Bool := s.toList.head? = some '/'

/-- What is kept before the text of the path that a text names. Two slashes at the start of a text
    are a root of their own, and one of them is kept here; any other number of them is one. -/
def extraSlash (s : String) : String :=
  match s.toList with
  | '/' :: '/' :: '/' :: _ => ""
  | '/' :: '/' :: _ => "/"
  | _ => ""

/-- Adds a component by its letters alone. -/
def push (p : Path) (component : String) : Path :=
  if component = "" || component = "." then p
  else if component = ".." then p.dropLast
  else p ++ [component]

/-- The path that a text names by its letters, from a working directory. -/
def ofText (cwd : Path) (s : String) : Path :=
  (components s).foldl push (if isAbsolute s then [] else cwd)

/-- A path and the directories above it, the nearest first. -/
def ancestors (p : Path) : List Path :=
  (List.range (p.length + 1)).reverse.map fun k => p.take k

end Path

/-- Files with their bytes, and directories beside those that the files stand in. -/
structure FileTree where
  files : List (Path × List UInt8)
  directories : List Path

/-- Why a file cannot be opened. -/
inductive OpenError where
  | missing
  | notDirectory
  | isDirectory
  deriving DecidableEq, Repr

/-- The wording of the reason, with the path as it was given. -/
def OpenError.message (path : String) : OpenError → String
  | .missing => "[Errno 2] No such file or directory: " ++ Text.quoted path
  | .notDirectory => "[Errno 20] Not a directory: " ++ Text.quoted path
  | .isDirectory => "[Errno 21] Is a directory: " ++ Text.quoted path

namespace FileTree

/-- The bytes of a file. -/
def file? (t : FileTree) (p : Path) : Option (List UInt8) := t.files.lookup p

/-- Whether a path is a directory: the root is one, and so is all that lies above a file, and
    every given directory with all above it. -/
def isDirectory (t : FileTree) (p : Path) : Bool :=
  p.isEmpty || t.files.any (fun f => p.isPrefixOf f.1 && p.length < f.1.length) ||
    t.directories.any (p.isPrefixOf ·)

/-- Goes on from a path by one component, which only a directory allows. -/
def enter (t : FileTree) (p : Path) (component : String) : Except OpenError Path :=
  if t.isDirectory p then .ok (p.push component)
  else if (t.file? p).isSome then .error .notDirectory
  else .error .missing

/-- Walks to the file that a text names, and gives its bytes. A slash at the end demands a
    directory. -/
def openFile (t : FileTree) (cwd : Path) (s : String) : Except OpenError (List UInt8) :=
  if s = "" then .error .missing
  else do
    let p ← (Path.components s).foldlM t.enter (if Path.isAbsolute s then [] else cwd)
    match t.file? p with
    | some bytes => return bytes
    | none => if t.isDirectory p then .error .isDirectory else .error .missing

end FileTree

end ArithJit
