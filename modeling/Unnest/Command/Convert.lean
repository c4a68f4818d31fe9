import Unnest.Command.FileTree
import Unnest.Command.Usage
import Unnest.Decl.Outline
import Unnest.Grammar.File
import Unnest.Header.Text
import Unnest.Report.Diagnostic
import Unnest.Report.Metrics

/-!
# Conversions

A file is converted in steps: read, take apart, plan, write. What this needs from outside is a
`Host`: files to read and write, and a clock. What a conversion prints is collected in its outcome.

* `convertFile`: the conversion of one file;
* `convertAll`: the conversion of all files in order, up to the first failure unless told to go on.
-/

namespace Unnest

/-! ### The outside -/

/-- What the command needs from outside. -/
structure Host (m : Type → Type) where
  read : Text → m (Except FileError Text)
  write : (path content : Text) → m (Except FileError Unit)
  /-- The nanoseconds since some moment. -/
  clock : m Nat

/-- A file tree as the outside, with a clock that stands still. -/
def FileTree.host : Host (StateM FileTree) where
  read path := do return (← get).read path
  write path content := fun t => (t.write path content).swap
  clock := return 0

/-- A part of a run that counts what it does. -/
abbrev Counted (m : Type → Type) := StateT Metrics m

/-! ### Results -/

/-- How a conversion ended. -/
inductive Status
  | ok
  /-- The source has an error. -/
  | sourceError
  /-- A file could not be read or written, or the arguments are wrong. -/
  | unusable
deriving DecidableEq, Repr

/-- The exit status of the command. -/
def Status.code : Status → Nat
  | ok => 0
  | sourceError => 1
  | unusable => 2

/-- What a conversion prints and how it ended. -/
structure Outcome where
  status : Status := .ok
  out : Text := []
  err : Text := []
deriving DecidableEq, Repr

/-! ### One file -/

/-- A token with its place, one line per token. -/
def Token.logLine (t : Token) : Text :=
  t.file ++ lit ":" ++ Text.ofInt t.line ++ lit ":" ++ Text.ofInt t.col ++ lit " " ++
    lit t.kind.name ++ (if t.text.isEmpty then [] else lit " '" ++ t.text ++ lit "'") ++ lit "\n"

/-- The choices for the header of a source. -/
def Options.headerOptions (o : Options) (input : Text) : HeaderOptions :=
  { known := libraryTypes ++ o.knownTypes, sourceName := input }

section

variable {m : Type → Type} [Monad m]

/-- Carries out a step and counts the time it took. -/
def timed {α : Type} (host : Host m) (phase : Phase) (step : m α) : Counted m α := do
  let start ← host.clock
  let a ← step
  let stop ← host.clock
  modify (Metrics.addDuration phase (stop - start).toUInt64)
  return a

/-- A step that needs nothing from outside. -/
def compute {α : Type} (f : Unit → α) : m α := do return f ()

/-- The header of a source, and what is printed on the way. -/
def buildHeader (host : Host m) (o : Options) (input source : Text) :
    Counted m (Text × Except SourceError Text) := do
  let lexed ← timed host .lex (compute fun _ => lex { name := input, text := source })
  match lexed with
  | .error e => return ([], .error e)
  | .ok tokens =>
    modify (Metrics.addTokens tokens.length.toUInt64)
    let log := if o.logTokens then tokens.flatMap (·.logLine) else []
    let grouped ← timed host .group (compute fun _ => Group.ofTokens tokens)
    match grouped with
    | .error e => return (log, .error e)
    | .ok root =>
      let parsed ← timed host .parse (compute fun _ => File.ofGroup root)
      match parsed with
      | .error e => return (log, .error e)
      | .ok file =>
        modify (Metrics.addGeometry file.geometry.nodes.toUInt64 file.geometry.depth.toUInt64)
        let out := log ++ if o.dumpAst then file.outline else []
        return (out, ← timed host .emit (compute fun _ => file.header (o.headerOptions input)))

/-- Puts a header where it belongs. `out` is what was printed before. -/
def deliver (host : Host m) (target header out : Text) : Counted m Outcome := do
  if target = lit "-" then return { out := out ++ header }
  match ← timed host .write (host.write target header) with
  | .ok () => return { out }
  | .error e => return { status := .unusable, out, err := errorLine e.message false }

def convertFile (host : Host m) (o : Options) (color : Bool) (input : Text) :
    Counted m Outcome := do
  match ← timed host .read (host.read input) with
  | .error e => return { status := .unusable, err := errorLine e.message color }
  | .ok source =>
    match ← buildHeader host o input source with
    | (out, .error e) => return { status := .sourceError, out, err := e.diagnostic source color }
    | (out, .ok header) => deliver host (o.target input) header out

/-! ### All files -/

/-- Converts files in order. After a failure the rest is left out, unless told to go on. -/
def convertAll (host : Host m) (o : Options) (color : Bool) : List Text → Counted m (List Outcome)
  | [] => return []
  | input :: inputs => do
    let outcome ← convertFile host o color input
    modify (Metrics.addFile (outcome.status == .ok))
    if outcome.status ≠ .ok ∧ !o.keepGoing then return [outcome]
    return outcome :: (← convertAll host o color inputs)

end

end Unnest
