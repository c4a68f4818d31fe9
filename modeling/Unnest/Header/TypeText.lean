import Unnest.Plan.Resolve

/-!
# Types in a header

Java types as C++ spells them: primitive types have a fixed width, a class is used through a
pointer, an array is a pointer to `Array<…>`, and a type variable stands for itself. Classes of the
same file go by the name under which they are written.

* `TypeScope.valueType`: the type of a field, parameter or result;
* `TypeScope.className`: a class without the pointer, as in a list of bases;
* `templateHead`, `templateArgs`: type parameters where they are declared and where they are used.
-/

namespace Unnest

/-- What the names in a type stand for: the classes of a plan seen from a scope, and type
variables. -/
structure TypeScope where
  plan : Plan
  scope : Option Nat
  vars : List Text

/-- A primitive type; `float`, `double` and `void` are spelled alike. -/
def primitiveText (name : Text) : Text :=
  if name == lit "boolean" then lit "bool"
  else if name == lit "byte" then lit "int8_t"
  else if name == lit "char" then lit "char16_t"
  else if name == lit "short" then lit "int16_t"
  else if name == lit "int" then lit "int32_t"
  else if name == lit "long" then lit "int64_t"
  else name

/-- A dotted name with `::` between its parts. -/
def qualifiedText (name : Text) : Text :=
  name.flatMap fun b => if b == chr '.' then lit "::" else [b]

/-- A pointer to an array of the given type. -/
def arrayText (element : Text) : Text := lit "Array<" ++ element ++ lit ">*"

/-- `typename` parameters in front of a template, nothing when there are none. -/
def templateHead (params : List Text) : Text :=
  if params.isEmpty then []
  else lit "template <" ++ Text.join (lit ", ") (params.map (lit "typename " ++ ·)) ++ lit ">"

/-- Template arguments, nothing when there are none. -/
def templateArgs (args : List Text) : Text :=
  if args.isEmpty then [] else lit "<" ++ Text.join (lit ", ") args ++ lit ">"

namespace TypeScope

/-- The class a name stands for, with type arguments. -/
def classText (s : TypeScope) (name : Text) (args : List Text) : Text :=
  (match s.plan.resolve name s.scope with
    | some i => s.plan.emitted i
    | none => qualifiedText name) ++ templateArgs args

mutual

/-- The type of a value. A bounded wildcard is its bound, and an unbounded one the root class. -/
def valueType (s : TypeScope) : TypeRef → Text
  | ⟨name, args, dims, primitive, wildcard, _⟩ =>
    match wildcard with
    | .unbounded => lit "Object*"
    | .upper | .lower => s.boundType args
    | .plain =>
      dims.repeat arrayText
        (if primitive then primitiveText name
        else if args.isEmpty && s.vars.contains name then name
        else s.classText name (s.valueTypes args) ++ lit "*")

def boundType (s : TypeScope) : List TypeRef → Text
  | [] => lit "Object*"
  | t :: _ => s.valueType t

def valueTypes (s : TypeScope) : List TypeRef → List Text
  | [] => []
  | t :: ts => s.valueType t :: s.valueTypes ts

end

/-- A class without the pointer. -/
def className (s : TypeScope) (t : TypeRef) : Text := s.classText t.name (s.valueTypes t.args)

end TypeScope

end Unnest
