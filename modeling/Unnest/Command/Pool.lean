import Unnest.Command.Convert

/-!
# Workers

Several workers can convert the files of one command at the same time. A worker takes the next file
that no one has taken, converts it, counts it and stores its outcome at the place of the file; then
it starts over. After a failure no file is taken any more, unless the command was told to go on. Any
worker may make the next of these steps, so a run is described by the sequence of workers that make
them.

* `Pool.step`: one step of one worker;
* `Pool.run`: the steps of a schedule;
* `convertTogether`: workers that take turns until they have finished.
-/

namespace Unnest

/-- Where a worker stands. -/
inductive Worker
  | idle
  | taken (index : Nat)
  | converted (index : Nat) (outcome : Outcome)
  | counted (index : Nat) (outcome : Outcome)
  | finished
deriving DecidableEq, Repr

/-- The workers with what they share. -/
structure Pool where
  workers : List Worker
  /-- The number of the next file to take. -/
  next : Nat := 0
  /-- Whether no file is taken any more. -/
  stopped : Bool := false
  /-- The outcomes at the places of their files. -/
  outcomes : List (Option Outcome)
  metrics : Metrics

/-- How many workers there are: as many as there may be jobs, but no more than there are files. -/
def Options.workers (o : Options) : Nat := min (max o.jobs 1) o.inputs.length

namespace Pool

/-- All workers idle. -/
def start (o : Options) : Pool :=
  { workers := List.replicate o.workers .idle
    outcomes := List.replicate o.inputs.length none
    metrics := { enabled := o.metrics } }

/-- Takes a file, or finishes if there is none left. -/
def take (o : Options) (p : Pool) : Worker × Pool :=
  if p.stopped then (.finished, p)
  else
    let taken := if p.next < o.inputs.length then Worker.taken p.next else .finished
    (taken, { p with next := p.next + 1 })

/-- Counts a converted file; a failure may stop the pool. -/
def count (o : Options) (index : Nat) (outcome : Outcome) (p : Pool) : Worker × Pool :=
  let ok := outcome.status == .ok
  (.counted index outcome,
    { p with metrics := p.metrics.addFile ok, stopped := p.stopped || (!ok && !o.keepGoing) })

def store (index : Nat) (outcome : Outcome) (p : Pool) : Worker × Pool :=
  (.idle, { p with outcomes := p.outcomes.set index (some outcome) })

def isDone (p : Pool) : Bool := p.workers.all (· == .finished)

/-- The outcomes of the files that were converted, in the order of the files. -/
def results (p : Pool) : List Outcome := p.outcomes.filterMap id

section

variable {m : Type → Type} [Monad m] (host : Host m) (o : Options) (color : Bool)

/-- Converts a taken file. -/
def convert (index : Nat) (p : Pool) : m (Worker × Pool) := do
  let (outcome, metrics) ← (convertFile host o color (o.inputs.getD index [])).run p.metrics
  return (.converted index outcome, { p with metrics })

/-- What a worker does next. -/
def act (p : Pool) : Worker → m (Worker × Pool)
  | .idle => return p.take o
  | .taken index => p.convert host o color index
  | .converted index outcome => return p.count o index outcome
  | .counted index outcome => return p.store index outcome
  | .finished => return (.finished, p)

def step (p : Pool) (w : Nat) : m Pool := do
  match p.workers[w]? with
  | none => return p
  | some worker =>
    let (after, p) ← p.act host o color worker
    return { p with workers := p.workers.set w after }

def run (p : Pool) (schedule : List Nat) : m Pool := schedule.foldlM (step host o color) p

/-- Lets the workers take turns, there and back again, until they have finished. -/
def takeTurns (p : Pool) (turn : List Nat) : (rounds : Nat) → m Pool
  | 0 => return p
  | rounds + 1 => do
    if p.isDone then return p
    (← p.run host o color turn).takeTurns turn.reverse rounds

end

end Pool

/-- The outcomes of files that several workers convert, and what was counted. -/
def convertTogether {m : Type → Type} [Monad m] (host : Host m) (o : Options) (color : Bool) :
    m (List Outcome × Metrics) := do
  let p ← (Pool.start o).takeTurns host o color (List.range o.workers) (4 * o.inputs.length + 1)
  return (p.results, p.metrics)

end Unnest
