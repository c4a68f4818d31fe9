import Unnest.Command.Target

/-!
# File trees

A tree of files and directories, as a program finds it below the directory it runs in. A path is
looked up part by part: every part but the last must be a directory, `.` and nothing stand for the
directory itself, and `..` for the one around it.

The directories around a file are made as needed. First the paths that lead to them are looked at
from the inside out, until one is found to be a directory; one that is a file is an obstacle. Then
the missing ones are made from the outside in. A path through a missing directory and back out of it
by `..` can only be followed once that directory is made, so a file may still stand in the way then.

* `FileTree.read`: the content of a file;
* `checkWay`: whether directories can be made, as far as a look at them tells;
* `FileTree.write`: a file written, with the directories around it made as needed;
* `FileError.message`: what is reported when that is not possible.
-/

namespace Unnest

/-- What can go wrong with a file. -/
inductive FileError
  | isDirectory (path : Text)
  | cannotOpen (path : Text)
  | cannotCreate (dir reason : Text)
  | cannotWrite (path : Text)
deriving DecidableEq, Repr

def FileError.description : FileError → Text
  | isDirectory path => lit "is a directory: " ++ path
  | cannotOpen path => lit "failed to open file: " ++ path
  | cannotCreate dir reason => lit "failed to create directory " ++ dir ++ lit ": " ++ reason
  | cannotWrite path => lit "failed to open file for write: " ++ path

/-- The error in one line, up to the first NUL byte. -/
def FileError.message (e : FileError) : Text := Text.beforeNul e.description

/-- Why a path does not lead to a place, or why no directory can be made there. -/
inductive PathFault
  | missing
  | notDirectory
  | fileExists
  | tooLong
deriving DecidableEq, Repr

def PathFault.reason : PathFault → Text
  | missing => lit "No such file or directory"
  | notDirectory => lit "Not a directory"
  | fileExists => lit "File exists"
  | tooLong => lit "File name too long"

/-- The place of a file in a tree: the names from the starting directory down. Names `..` in front
lead out of the starting directory, and `/` in front stands for the root of all directories. -/
abbrev TreePath := List Text

/-- What stands at a place. -/
inductive Entry
  | directory
  | file (content : Text)
deriving DecidableEq, Repr

/-- The files and directories that were made. -/
structure FileTree where
  entries : List (TreePath × Entry) := []

/-! ### Paths as text -/

/-- The directory part of a path without slashes at its end, empty when the path is a mere name; the
root stays as it is. -/
def parentPath (path : Text) : Text :=
  let dir := directoryPart path
  match (dir.reverse.dropWhile (· == chr '/')).reverse with
  | [] => if dir.isEmpty then [] else lit "/"
  | trimmed => trimmed

/-- A path that leads to a directory, and the name it ends in. -/
structure Stage where
  name : Text
  path : Text

/-- Whether a stage names a directory that is there without being made. -/
def Stage.isDots (s : Stage) : Bool := s.name == lit "." || s.name == lit ".."

/-- The stages of a path given by its parts, from the outside in; each path keeps what is written
before its name. -/
def stagesFrom (before : Text) : List Text → List Stage
  | [] => []
  | part :: parts =>
    let below := stagesFrom (before ++ part ++ lit "/") parts
    if part.isEmpty then below else { name := part, path := before ++ part } :: below

/-- The stages of a path, from the outside in. -/
def stages (path : Text) : List Stage := stagesFrom [] (Text.splitOn (chr '/') path)

/-! ### Looking ahead -/

/-- What a look at a path shows. -/
inductive Sight
  | directory
  | file
  | missing
  /-- It cannot be told, for a reason. -/
  | unknown (reason : Text)
deriving DecidableEq, Repr

/-- Looks at stages from the inside out, up to the first directory. At most `budget` of them may
have to be made. -/
def checkStages {m : Type → Type} [Monad m] (look : Text → m Sight) :
    (budget : Nat) → List Stage → m (Except Text Unit)
  | _, [] => return .ok ()
  | budget, s :: outer => do
    match ← look s.path with
    | .directory => return .ok ()
    | .file => return .error PathFault.notDirectory.reason
    | .unknown reason => return .error reason
    | .missing =>
      if s.isDots then checkStages look budget outer
      else match budget with
        | 0 => return .error PathFault.tooLong.reason
        | budget + 1 => checkStages look budget outer

/-- Whether a directory can be made with the directories around it, as far as a look at them tells.
At most a thousand are made at a time. -/
def checkWay {m : Type → Type} [Monad m] (look : Text → m Sight) (dir : Text) :
    m (Except Text Unit) :=
  checkStages look 1000 (stages dir).reverse

namespace FileTree

/-! ### Looking up -/

/-- The most bytes of a name. -/
def nameLimit : Nat := 255

/-- The most bytes of a path. -/
def pathLimit : Nat := 4095

/-- What stands at a place. All directories around the starting directory are there. -/
def entry? (t : FileTree) (p : TreePath) : Option Entry :=
  if p.all (fun name => name == lit ".." || name == lit "/") then some .directory
  else (t.entries.find? (·.1 == p)).map (·.2)

/-- Whether a directory stands at a place. -/
def isDirectory (t : FileTree) (p : TreePath) : Bool := t.entry? p == some .directory

def outerPlace (p : TreePath) : TreePath :=
  match p.getLast? with
  | none => [lit ".."]
  | some name =>
    if name == lit "/" then p else if name == lit ".." then p ++ [lit ".."] else p.dropLast

/-- The place that a part of a path leads to. -/
def enter (p : TreePath) (part : Text) : TreePath :=
  if part.isEmpty || part == lit "." then p
  else if part == lit ".." then outerPlace p
  else p ++ [part]

/-- Follows the parts of a path; each of them must start from a directory. -/
def follow (t : FileTree) (p : TreePath) : List Text → Except PathFault TreePath
  | [] => .ok p
  | part :: parts =>
    match t.entry? p with
    | none => .error .missing
    | some (.file _) => .error .notDirectory
    | some .directory =>
      if part.length ≤ nameLimit then t.follow (enter p part) parts else .error .tooLong

def startOf (path : Text) : TreePath := if path.head? == some (chr '/') then [lit "/"] else []

/-- The place of a path, which ends at the first NUL byte. The empty path has none. -/
def place (t : FileTree) (path : Text) : Except PathFault TreePath :=
  let path := Text.beforeNul path
  if path.isEmpty then .error .missing
  else if path.length ≤ pathLimit then t.follow (startOf path) (Text.splitOn (chr '/') path)
  else .error .tooLong

def find? (t : FileTree) (path : Text) : Option Entry := (t.place path).toOption.bind t.entry?

/-- What a look at a path shows. -/
def look (t : FileTree) (path : Text) : Sight :=
  match t.place path with
  | .error .tooLong => .unknown PathFault.tooLong.reason
  | .error _ => .missing
  | .ok p => match t.entry? p with
    | some .directory => .directory
    | some (.file _) => .file
    | none => .missing

def read (t : FileTree) (path : Text) : Except FileError Text :=
  match t.find? path with
  | some .directory => .error (.isDirectory path)
  | some (.file content) => .ok content
  | none => .error (.cannotOpen path)

/-! ### Writing -/

/-- Puts an entry at a place. -/
def insert (t : FileTree) (p : TreePath) (e : Entry) : FileTree :=
  { entries := (p, e) :: t.entries.filter (·.1 != p) }

/-- Makes the directories that the parts of a path lead through. Those before a failure stay. -/
def makeAlong (t : FileTree) (p : TreePath) : List Text → FileTree × Except Text Unit
  | [] => (t, .ok ())
  | part :: parts =>
    if nameLimit < part.length then (t, .error PathFault.tooLong.reason)
    else
      let next := enter p part
      match t.entry? next with
      | some .directory => t.makeAlong next parts
      | some (.file _) => (t, .error PathFault.fileExists.reason)
      | none => (t.insert next .directory).makeAlong next parts

def makeDirectories (t : FileTree) (dir : Text) : FileTree × Except Text Unit :=
  match Id.run (checkWay (fun path => pure (t.look path)) dir) with
  | .error reason => (t, .error reason)
  | .ok () => t.makeAlong (startOf dir) (Text.splitOn (chr '/') dir)

/-- Puts a file at a path whose directories are there. -/
def put (t : FileTree) (path content : Text) : Except FileError FileTree :=
  match t.place path with
  | .error _ => .error (.cannotWrite path)
  | .ok p => if t.isDirectory p then .error (.cannotWrite path)
    else .ok (t.insert p (.file content))

/-- Writes a file. The directories around it stay even if the file cannot be written. -/
def write (t : FileTree) (path content : Text) : FileTree × Except FileError Unit :=
  match t.makeDirectories (parentPath path) with
  | (t, .error reason) => (t, .error (.cannotCreate (parentPath path) reason))
  | (t, .ok ()) =>
    match t.put path content with
    | .error e => (t, .error e)
    | .ok t => (t, .ok ())

end FileTree

end Unnest
