import Unnest.Grammar.Modifiers

/-!
# Types and parameters

Type arguments contain types, which may have type arguments of their own one level further down.
`typeArgsAt` counts these levels; `Group.typeArgs` starts it with the depth of the group, so the
count never runs out.

* `Parser.typeRef`: a type;
* `Group.typeArgs`, `Group.typeParams`: what stands between angle brackets;
* `Parser.typeList`: types with commas between them;
* `Group.parameters`: a parameter list.
-/

namespace Unnest

namespace Parser

/-- A type, with `args` reading the type arguments of its parts. -/
def typeWith (args : Group → Except SourceError (List TypeRef)) : Parser TypeRef := do
  dropAnnotations
  let s ← get
  let place := s.here.place
  if s.isAt .primitive || s.isAt .kwVoid then
    let name := s.here.text
    advance
    return { name, primitive := true, dims := (← dims), place }
  else
    let first ← expect .ident (lit "type name")
    let firstArgs ← angleArgs
    let parts ← many do
      if (← get).isAt .dot then
        advance
        let part ← expect .ident (lit "type name")
        return some (lit "." ++ part.text, ← angleArgs)
      else
        return none
    return {
      name := first.text ++ (parts.map (·.1)).flatten
      args := (((firstArgs :: parts.map (·.2)).filterMap id).getLast?).getD []
      dims := (← dims)
      place }
where
  /-- The type arguments at the cursor, if there are any. -/
  angleArgs : Parser (Option (List TypeRef)) := do
    if (← get).isAtGroup .angle then
      let g ← expectGroup .angle (lit "type arguments")
      return some (← ofExcept (args g))
    else
      return none

/-- A type argument: a type or a wildcard. -/
def typeArgument (type : Parser TypeRef) : Parser TypeRef := do
  dropAnnotations
  let s ← get
  if s.isAt .question then
    let place := s.here.place
    advance
    let s ← get
    if s.isAt .kwExtends then
      advance
      return { wildcard := .upper, args := [← type], place }
    else if s.isAt .kwSuper then
      advance
      return { wildcard := .lower, args := [← type], place }
    else
      return { wildcard := .unbounded, place }
  else
    type

end Parser

open Unnest.Parser

/-- The type arguments of an angle group with at most `levels` levels of groups. -/
def typeArgsAt : (levels : Nat) → Group → Except SourceError (List TypeRef)
  | 0, _ => .ok []
  | levels + 1, g =>
    (separated (typeArgument (typeWith (typeArgsAt levels)))
      (lit "',' or '>' in type arguments")).runOn g

/-- The type arguments of an angle group. -/
def Group.typeArgs (g : Group) : Except SourceError (List TypeRef) :=
  typeArgsAt (depthAll g.children + 1) g

namespace Parser

def typeRef : Parser TypeRef := typeWith Group.typeArgs

/-- Types with commas between them, up to the first element that cannot go on. -/
def typeList : Parser (List TypeRef) := do
  let first ← typeRef
  let more ← many do
    if (← get).isAt .comma then
      advance
      return some (← typeRef)
    else
      return none
  return first :: more

/-- A type parameter with its bounds. -/
def typeParam : Parser TypeParam := do
  dropAnnotations
  let name ← expect .ident (lit "type parameter name")
  if (← get).isAt .kwExtends then
    advance
    let first ← typeRef
    let more ← many do
      if (← get).isAt .amp then
        advance
        return some (← typeRef)
      else
        return none
    return { name := name.text, bounds := first :: more }
  else
    return { name := name.text }

/-- A parameter; nothing for a receiver, which is written `Type this`. -/
def parameter : Parser (Option Parameter) := do
  let place := (← get).here.place
  let modifiers ← modifiers
  let type ← typeRef
  let isVariadic := (← get).isAt .ellipsis
  if isVariadic then
    advance
  if (← current).token?.any (·.text == lit "this") then
    advance
    return none
  else
    let name ← expect .ident (lit "parameter name")
    let extra ← dims
    return some {
      place, name := name.text, modifiers, type := { type with dims := type.dims + extra },
      isVariadic }

end Parser

/-- The type parameters of an angle group. -/
def Group.typeParams (g : Group) : Except SourceError (List TypeParam) :=
  (separated typeParam (lit "',' or '>' in type parameters")).runOn g

def Group.parameters (g : Group) : Except SourceError (List Parameter) :=
  ((separated parameter (lit "',' between parameters")).runOn g).map (·.filterMap id)

end Unnest
