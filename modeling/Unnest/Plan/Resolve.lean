import Unnest.Plan.Basic

/-!
# Looking up class names

A dotted name is looked up from the inside out: in each class around the place where it stands,
first among the classes declared in that class or inherited by it, then as the name of that class
itself; at last among the top-level classes. Every further part of the name is a class declared in,
or inherited by, the class found so far.

* `Plan.member?`: the class of a name declared in a class or inherited by it;
* `Plan.resolve`: the class that a dotted name stands for in a scope.
-/

namespace Unnest.Plan

/-- The class `name` declared directly in `owner`. -/
def child? (p : Plan) (name : Text) (owner : Nat) : Option Nat :=
  (p.inner owner).find? fun i => (p.class? i).any fun c => !c.isAnonymous && c.simpleName == name

/-- The class `name` declared in `owner` or in one of the classes at most `levels - 1` steps above
it; nearer classes come first, and among the bases of a class the ones named first. -/
def memberWithin? (p : Plan) (name : Text) : (levels owner : Nat) → Option Nat
  | 0, _ => none
  | levels + 1, owner =>
    (p.child? name owner).or ((p.bases owner).findSome? (p.memberWithin? name levels))

/-- The class `name` declared in `owner` or inherited by it. -/
def member? (p : Plan) (owner : Nat) (name : Text) : Option Nat :=
  p.memberWithin? name (p.size + 1) owner

/-- A class and the classes around it, from the inside out. -/
def outward (p : Plan) (i : Nat) : List Nat :=
  match p.parent? i with
  | some j => if _h : j < i then i :: p.outward j else [i]
  | none => [i]
termination_by i

/-- What `name` stands for in the class `scope` alone: a class declared in it or inherited by it, or
else the class itself. -/
def visible? (p : Plan) (name : Text) (scope : Nat) : Option Nat :=
  (p.member? scope name).or (if p.simpleName scope == name then some scope else none)

/-- What an undotted name stands for in a scope; there is none at the top level. -/
def lookup (p : Plan) (name : Text) (scope : Option Nat) : Option Nat :=
  ((scope.elim [] p.outward).findSome? (p.visible? name)).or
    (p.tops.find? fun i => p.simpleName i == name)

/-- What a dotted name stands for in a scope. -/
def resolve (p : Plan) (name : Text) (scope : Option Nat) : Option Nat :=
  match Text.splitOn (chr '.') name with
  | [] => none
  | first :: rest => rest.foldl (fun found part => found.bind (p.member? · part))
    (p.lookup first scope)

end Unnest.Plan
