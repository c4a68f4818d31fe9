import Unnest.Plan.Bases

/-!
# The order of definition

A class can only be defined behind its bases. Otherwise the classes inside a class come before it,
in declaration order, so that the class can use them. A class that is reached while one of its bases
is not defined yet waits for the first such base and is taken up again as soon as that base is
defined.

* `Plan.order`: the order of definition;
* `Plan.ofFile`: the plan of a file.
-/

namespace Unnest.Plan

/-- What is left to do with a class while the classes are put in order. -/
inductive OrderStep
  /-- Take up a class, unless that was done before. -/
  | place (cls : Nat)
  /-- Take up the bases of a class and then conclude it. -/
  | settle (cls : Nat)
  /-- Define a class if its bases are defined, and otherwise let it wait. -/
  | conclude (cls : Nat)

/-- How far the classes have been put in order. -/
structure Arrangement where
  /-- The classes not taken up yet. -/
  fresh : List Nat
  /-- The classes not defined yet, in declaration order. -/
  undefined : List Nat
  /-- The waiting classes, each behind the base it waits for, in the order of their arrival. -/
  waiting : List (Nat × Nat) := []
  /-- The defined classes in order. -/
  defined : List Nat := []

/-- The share of a step in the measure by which `arrange` ends. -/
def OrderStep.weight (p : Plan) : OrderStep → Nat
  | .place _ => 1
  | .settle cls => (p.bases cls).length + 2
  | .conclude _ => 1

/-- The shares of steps together. -/
def OrderStep.weights (p : Plan) (steps : List OrderStep) : Nat :=
  steps.foldr (fun s n => s.weight p + n) 0

/-- Every step has a share. -/
theorem OrderStep.weights_lt_cons (p : Plan) (s : OrderStep) (steps : List OrderStep) :
    weights p steps < weights p (s :: steps) := by
  cases s <;> simp only [weights, weight, List.foldr_cons] <;> omega

/-- To take up classes weighs as much as there are classes. -/
theorem OrderStep.weights_place (p : Plan) (classes : List Nat) (steps : List OrderStep) :
    weights p (classes.map .place ++ steps) = classes.length + weights p steps := by
  induction classes with
  | nil => simp only [List.map_nil, List.nil_append, List.length_nil, Nat.zero_add]
  | cons c cs ih =>
    simp only [weights, weight, List.map_cons, List.cons_append, List.foldr_cons, List.length_cons]
      at ih ⊢
    omega

/-- To settle a class weighs more than what it comes down to. -/
theorem OrderStep.weights_settle_lt (p : Plan) (cls : Nat) (steps : List OrderStep) :
    weights p ((p.bases cls).map .place ++ .conclude cls :: steps) <
      weights p (.settle cls :: steps) := by
  rw [weights_place]
  simp only [weights, weight, List.foldr_cons]
  omega

/-- The classes that wait for a class, in the order of their arrival. -/
def Arrangement.waitingFor (o : Arrangement) (cls : Nat) : List Nat :=
  (o.waiting.filter (·.1 == cls)).map (·.2)

/-- The class `cls` is defined, and no one waits for it any more. -/
def Arrangement.define (o : Arrangement) (cls : Nat) : Arrangement :=
  { o with
    undefined := o.undefined.erase cls
    waiting := o.waiting.filter (·.1 != cls)
    defined := o.defined ++ [cls] }

def Arrangement.wait (o : Arrangement) (cls base : Nat) : Arrangement :=
  { o with
    undefined := o.undefined.insert cls
    waiting := o.waiting ++ [(base, cls)] }

/-- The class that a step leads to the definition of. -/
def OrderStep.concluded? : OrderStep → Option Nat
  | .place _ => none
  | .settle cls | .conclude cls => some cls

/-- The classes that were taken up and are to be defined: those that a step concludes and those that
wait. -/
def Arrangement.outstanding (o : Arrangement) (steps : List OrderStep) : List Nat :=
  steps.filterMap OrderStep.concluded? ++ o.waiting.map (·.2)

theorem Arrangement.outstanding_place (o : Arrangement) (classes : List Nat)
    (steps : List OrderStep) :
    o.outstanding (classes.map .place ++ steps) = o.outstanding steps := by
  have hnone : (classes.map OrderStep.place).filterMap OrderStep.concluded? = [] := by
    simp [OrderStep.concluded?]
  rw [outstanding, List.filterMap_append, hnone, List.nil_append, outstanding]

theorem Arrangement.outstanding_settle (o : Arrangement) (cls : Nat) (classes : List Nat)
    (steps : List OrderStep) : o.outstanding (classes.map .place ++ .conclude cls :: steps) =
      o.outstanding (.settle cls :: steps) :=
  o.outstanding_place classes _

/-- A class that waits is outstanding still. -/
theorem Arrangement.outstanding_wait (o : Arrangement) (cls base : Nat) (steps : List OrderStep) :
    ((o.wait cls base).outstanding steps).Perm (o.outstanding (.conclude cls :: steps)) := by
  simp only [outstanding, wait, List.map_append, ← List.append_assoc]
  exact List.perm_append_singleton ..

/-- A class that is defined is outstanding no more, and those that waited for it are. -/
theorem Arrangement.outstanding_define (o : Arrangement) (cls : Nat) (steps : List OrderStep) :
    (cls :: (o.define cls).outstanding ((o.waitingFor cls).map .settle ++ steps)).Perm
      (o.outstanding (.conclude cls :: steps)) := by
  have hsettle : ((o.waitingFor cls).map OrderStep.settle).filterMap OrderStep.concluded? =
      o.waitingFor cls := by
    simp [List.filterMap_map, Function.comp_def, OrderStep.concluded?]
  have hwaiting : (o.waitingFor cls ++ (o.waiting.filter (·.1 != cls)).map (·.2)).Perm
      (o.waiting.map (·.2)) := by
    rw [waitingFor, ← List.map_append]
    exact (List.filter_append_perm _ _).map _
  have hconclude : OrderStep.concluded? (.conclude cls) = some cls := rfl
  rw [outstanding, outstanding, List.filterMap_append, hsettle, List.filterMap_cons_some hconclude,
    List.cons_append]
  refine List.Perm.cons cls (List.Perm.trans ?_ (hwaiting.append_left _))
  rw [← List.append_assoc]
  exact List.perm_append_comm.append_right _

/-- Works off the steps. What is outstanding grows only when a class is taken up. -/
def arrange (p : Plan) (o : Arrangement) : List OrderStep → Arrangement
  | [] => o
  | .place cls :: steps =>
    if _h : cls ∈ o.fresh then
      p.arrange { o with fresh := o.fresh.erase cls }
        ((p.inner cls).map .place ++ .settle cls :: steps)
    else p.arrange o steps
  | .settle cls :: steps => p.arrange o ((p.bases cls).map .place ++ .conclude cls :: steps)
  | .conclude cls :: steps =>
    match (p.bases cls).find? (o.undefined.contains ·) with
    | some base => p.arrange (o.wait cls base) steps
    | none => p.arrange (o.define cls) ((o.waitingFor cls).map .settle ++ steps)
termination_by steps => (o.fresh.length, (o.outstanding steps).length, OrderStep.weights p steps)
decreasing_by
  · exact .left _ _ (length_erase_lt _h)
  · exact .right _ (.right _ (OrderStep.weights_lt_cons ..))
  · rw [o.outstanding_settle]
    exact .right _ (.right _ (OrderStep.weights_settle_lt ..))
  · rw [(o.outstanding_wait cls base steps).length_eq]
    exact .right _ (.right _ (OrderStep.weights_lt_cons ..))
  · refine .right _ (.left _ _ ?_)
    rw [← (o.outstanding_define cls steps).length_eq]
    exact Nat.lt_succ_self _

/-- All classes put in order, as far as that is possible. -/
def arrangement (p : Plan) : Arrangement :=
  p.arrange { fresh := List.range p.size, undefined := List.range p.size } (p.tops.map .place)

/-- The plan with its order of definition; a class that never got behind its bases is an error. -/
def order (p : Plan) : Except SourceError Plan :=
  match p.arrangement.undefined with
  | [] => .ok { p with emission := p.arrangement.defined }
  | cls :: _ =>
    .error (.ofPlace (.unordered (p.emitted cls)) ((p.class? cls).elim {} (·.place))
      (p.emitted cls))

/-- The plan of a file whose anonymous classes are named. `known` are the types that need no
import. -/
def ofFile (known : List Text) (f : File) : Except SourceError Plan := do
  let p ← resolveBases (isExternal known f.imports) { classes := f.classes }
  p.checkCycles
  p.order

end Unnest.Plan
