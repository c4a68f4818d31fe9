import Unnest.Error

/-!
# Type references

A type as it is written: a dotted name with type arguments and array dimensions, or a wildcard among
type arguments. Nothing is resolved here.

* `TypeRef.text`: the reference as one would write it.
-/

namespace Unnest

/-- How a type argument stands for a type: as a type of its own, or as `?` without bound, with an
upper bound (`extends`) or with a lower bound (`super`). The bound is the first type argument. -/
inductive Wildcard
  | plain
  | unbounded
  | upper
  | lower
deriving DecidableEq, Repr, Inhabited

/-- A reference to a type. -/
structure TypeRef where
  /-- The dotted name as written. -/
  name : Text := []
  /-- The type arguments of the last part of the name that has any. -/
  args : List TypeRef := []
  /-- The number of array dimensions. -/
  dims : Nat := 0
  /-- A primitive type or `void`. -/
  primitive : Bool := false
  wildcard : Wildcard := .plain
  /-- Where the reference begins; nowhere when it was not written out. -/
  place : Place := {}
deriving Repr, Inhabited

/-- A type parameter with its bounds. -/
structure TypeParam where
  name : Text
  bounds : List TypeRef := []
deriving Repr

namespace TypeRef

/-- Whether a reference is the keyword `void`. -/
def isVoid (t : TypeRef) : Bool := t.primitive && t.name == lit "void"

/-- The last part of the dotted name. -/
def simpleName (t : TypeRef) : Text := Text.afterLast (chr '.') t.name

end TypeRef

mutual

/-- A reference as one would write it. -/
def TypeRef.text : TypeRef → Text
  | ⟨name, args, dims, _, wildcard, _⟩ =>
    match wildcard with
    | .unbounded => lit "?"
    | .upper => lit "? extends " ++ boundText args
    | .lower => lit "? super " ++ boundText args
    | .plain =>
      name ++ (if args.isEmpty then [] else lit "<" ++ argTexts args ++ lit ">") ++
        (List.replicate dims (lit "[]")).flatten

/-- The bound of a wildcard: the first argument, or the root of all classes. -/
def boundText : List TypeRef → Text
  | [] => lit "Object"
  | t :: _ => t.text

/-- Type arguments with commas between them. -/
def argTexts : List TypeRef → Text
  | [] => []
  | [t] => t.text
  | t :: ts => t.text ++ lit ", " ++ argTexts ts

end

end Unnest
