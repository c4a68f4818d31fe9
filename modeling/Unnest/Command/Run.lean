import Unnest.Command.Pool

/-!
# The command

The command converts its input files, with as many workers as it was told. Everything the
conversions print is printed at the end, in the order of the inputs.

* `Result.ofOutcomes`: the results of files together;
* `runCommand`: the command with its arguments.
-/

namespace Unnest

/-- What the whole command prints and its exit status. -/
structure Result where
  exit : Nat
  out : Text := []
  err : Text := []
deriving DecidableEq, Repr

/-- The results of files together, with a report at the end: everything printed in order, and the
worst status. -/
def Result.ofOutcomes (outcomes : List Outcome) (report : Text) : Result :=
  { exit := (outcomes.map (·.status.code)).foldl max 0
    out := outcomes.flatMap (·.out) ++ report
    err := outcomes.flatMap (·.err) }

/-- The report on a run, if it was asked for. -/
def Options.report (o : Options) (metrics : Metrics) : Text :=
  if !o.metrics then []
  else match o.metricsFormat with
    | .text => metrics.text
    | .json => metrics.json

/-- Runs the command. `program` is the name it was called by, `env` the wish of the environment for
colours. -/
def runCommand {m : Type → Type} [Monad m] (host : Host m) (program env : Option Text)
    (args : List Text) :
    m Result := do
  match Options.ofArgs args with
  | (_, some e) =>
    return { exit := Status.code .unusable, err := errorLine e.message false ++ usage program }
  | (o, none) =>
    if o.help then return { exit := Status.code .ok, out := usage program }
    let color := o.color.isOn env
    let (outcomes, metrics) ← (if o.workers ≤ 1 then
        (convertAll host o color o.inputs).run { enabled := o.metrics }
      else convertTogether host o color)
    return .ofOutcomes outcomes (o.report metrics)

end Unnest
