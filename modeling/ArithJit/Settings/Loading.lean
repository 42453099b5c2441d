import ArithJit.Json.Reader
import ArithJit.Location
import ArithJit.Settings.Basic
import ArithJit.Settings.FileTree
import ArithJit.Text.Utf8

/-!
# Settings files

Settings are looked for in a directory and then in those above it, up to the root; in each
directory one name goes before the other. A file that cannot be opened, that is not JSON or
that holds something else than an object gives the standard settings after a warning. Bytes
that are not text, and integers too long to be read, are errors.
-/

namespace ArithJit

/-- The text of a malformed JSON text's error: what is wrong, and where. -/
def Json.Fault.report (fault : Json.Fault) (text : List Char) (position : Nat) : String :=
  let place := Location.start.after (text.take position)
  s!"{fault.message}: line {place.line} column {place.column} (char {position})"

/-- Makes every line end in a line feed: a carriage return ends a line, with or without a line
    feed after it. -/
def normalizeLines : List Char → List Char
  | [] => []
  | '\r' :: '\n' :: rest => '\n' :: normalizeLines rest
  | '\r' :: rest => '\n' :: normalizeLines rest
  | c :: rest => c :: normalizeLines rest

/-- Why settings cannot be loaded at all. -/
inductive LoadError where
  | nullInPath
  | undecodable (error : Text.Utf8Error)
  | longInteger (digits : Nat)
  | setting (error : SettingError)
  deriving DecidableEq, Repr

namespace LoadError

/-- The text of the bytes that spoil a file. -/
def spoiledText (e : Text.Utf8Error) : String :=
  match e.spoiled with
  | [b] => s!"byte 0x{String.ofList (Text.hex 2 b.toNat)} in position {e.position}"
  | bytes => s!"bytes in position {e.position}-{e.position + bytes.length - 1}"

/-- The wording of the reason. -/
def message : LoadError → String
  | .nullInPath => "embedded null byte"
  | .undecodable e => "'utf-8' codec can't decode " ++ spoiledText e ++ ": " ++ e.fault.message
  | .longInteger digits =>
      s!"Exceeds the limit ({Json.maxDigits} digits) for integer string conversion: " ++
        s!"value has {digits} digits; use sys.set_int_max_str_digits() to increase the limit"
  | .setting e => e.diagnostic.text

end LoadError

namespace Settings

/-- The names of settings files, the preferred one first. -/
def fileNames : List String := [".calcjitrc.json", "calcjit.config.json"]

/-- The settings file in a directory. -/
def fileIn? (t : FileTree) (directory : Path) : Option Path :=
  (fileNames.map fun name => directory ++ [name]).find? fun p => (t.file? p).isSome

/-- The nearest settings file, in a directory or above it. -/
def find? (t : FileTree) (cwd : Path) (startDir : String) : Option Path :=
  (Path.ofText cwd startDir).ancestors.findSome? (fileIn? t)

/-- The name of the nearest settings file. -/
def nearestFile? (t : FileTree) (cwd : Path) (startDir : String) : Option String :=
  (find? t cwd startDir).map fun p => Path.extraSlash startDir ++ p.text

/-- The settings in the text of a file. -/
def ofFileText (path : String) (text : List Char) : Logged LoadError Settings :=
  match Json.read text with
  | .error (.malformed fault position) =>
      ⟨[.unreadable path (fault.report text position)], .ok default⟩
  | .error (.longInteger digits) => ⟨[], .error (.longInteger digits)⟩
  | .ok (.obj members) => do
      Logged.tell (.loaded path)
      (ofMembers members).mapError .setting
  | .ok _ => ⟨[.notObject path], .ok default⟩

/-- The settings in a file. -/
def ofFile (t : FileTree) (cwd : Path) (path : String) : Logged LoadError Settings :=
  if path.toList.contains '\x00' then ⟨[], .error .nullInPath⟩
  else
    match t.openFile cwd path with
    | .error e => ⟨[.unreadable path (e.message path)], .ok default⟩
    | .ok bytes =>
        match Text.decodeUtf8 bytes with
        | .error e => ⟨[], .error (.undecodable e)⟩
        | .ok text => ofFileText path (normalizeLines text)

/-- The settings in a given file, or else in the nearest one, or else the standard ones. -/
def load (t : FileTree) (cwd : Path) (path : Option String) (startDir : String) :
    Logged LoadError Settings :=
  match path.or (nearestFile? t cwd startDir) with
  | none => .ok default
  | some path => ofFile t cwd path

end Settings

end ArithJit
