import Unnest.Decl.Geometry
import Unnest.Report.Milliseconds

/-!
# Metrics

What a run has done, counted while it runs: the time of each phase, the tokens, the nodes and the
greatest depth of the files, and how many files were converted. Counters are 64-bit words and wrap
around. Nothing is counted while the metrics are disabled.

* `Metrics.text`, `Metrics.json`: the two forms of the report.
-/

namespace Unnest

/-- The phases of a conversion in order. -/
inductive Phase
  | read
  | lex
  | group
  | parse
  | emit
  | write
deriving DecidableEq, Repr

def Phase.all : List Phase := [.read, .lex, .group, .parse, .emit, .write]

def Phase.name : Phase → String
  | .read => "ReadFile"
  | .lex => "Lex"
  | .group => "Group"
  | .parse => "Parse"
  | .emit => "Emit"
  | .write => "WriteFile"

/-- What has been counted so far. -/
structure Metrics where
  enabled : Bool := false
  /-- Each measured phase with its nanoseconds, in order. -/
  durations : List (Phase × UInt64) := []
  /-- The nodes of all files. -/
  nodes : UInt64 := 0
  /-- The depth of the deepest file. -/
  maxDepth : UInt64 := 0
  tokens : UInt64 := 0
  /-- The files converted. -/
  ok : UInt64 := 0
  /-- The files that could not be converted. -/
  failed : UInt64 := 0
deriving DecidableEq, Repr

namespace Metrics

/-! ### Counting -/

/-- Applies a change unless the metrics are disabled. -/
def count (change : Metrics → Metrics) (m : Metrics) : Metrics := if m.enabled then change m else m

/-- Forgets everything counted. -/
def reset (m : Metrics) : Metrics := { enabled := m.enabled }

def addDuration (phase : Phase) (nanoseconds : UInt64) : Metrics → Metrics :=
  count fun m => { m with durations := m.durations ++ [(phase, nanoseconds)] }

/-- Adds the size of a file. -/
def addGeometry (nodes depth : UInt64) : Metrics → Metrics :=
  count fun m => { m with nodes := m.nodes + nodes, maxDepth := max m.maxDepth depth }

def addTokens (n : UInt64) : Metrics → Metrics := count fun m => { m with tokens := m.tokens + n }

def addFile (ok : Bool) : Metrics → Metrics :=
  count fun m => if ok then { m with ok := m.ok + 1 } else { m with failed := m.failed + 1 }

/-! ### Reports -/

def counter (n : UInt64) : Text := Text.decimal n.toNat

def timesOf (m : Metrics) (phase : Phase) : List UInt64 :=
  (m.durations.filter (·.1 == phase)).map (·.2)

/-- The line for a phase; none for one that never ran. -/
def phaseLine (m : Metrics) (phase : Phase) : Text :=
  let times := m.timesOf phase
  let total := times.foldr (· + ·) 0
  if times.isEmpty then []
  else lit "  " ++ lit phase.name ++ lit ": " ++ milliseconds total.toNat ++ lit " ms (" ++
    Text.decimal times.length ++ lit ")\n"

def text (m : Metrics) : Text :=
  if !m.enabled then []
  else lit "== Metrics ==\n" ++ Phase.all.flatMap m.phaseLine ++
    lit "  Tokens: " ++ counter m.tokens ++
    lit "\n  AST: nodes=" ++ counter m.nodes ++ lit ", max_depth=" ++ counter m.maxDepth ++
    lit "\n  Files: ok=" ++ counter m.ok ++ lit ", failed=" ++ counter m.failed ++ lit "\n"

/-- One measured phase as an object. -/
def durationJson (d : Phase × UInt64) : Text :=
  lit "\n    \x7b\"phase\": \"" ++ lit d.1.name ++ lit "\", \"ns\": " ++ counter d.2 ++ lit "\x7d"

/-- The report as a JSON object. -/
def json (m : Metrics) : Text :=
  if !m.enabled then []
  else lit "\x7b\n  \"durations_ns\": [" ++
    Text.join (lit ",") (m.durations.map durationJson) ++
    lit "\n  ],\n  \"tokens\": " ++ counter m.tokens ++
    lit ",\n  \"ast\": \x7b \"nodes\": " ++ counter m.nodes ++
    lit ", \"max_depth\": " ++ counter m.maxDepth ++
    lit " \x7d,\n  \"files\": \x7b \"ok\": " ++ counter m.ok ++
    lit ", \"failed\": " ++ counter m.failed ++ lit " \x7d\n\x7d\n"

end Metrics

end Unnest
