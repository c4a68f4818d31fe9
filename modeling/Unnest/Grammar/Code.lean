import Unnest.Grammar.Types

/-!
# Code

Code is flattened depth first. Wherever `new Name(arguments) { … }` stands, at any depth, it becomes
the creation of an anonymous class: its arguments are code again, and what stands in its braces are
members. Nothing else in code is looked at.

How the elements inside a group are read is left open here: `Inside` holds the two readings, as code
and as members of a class. `Body` ties the knot.
-/

namespace Unnest

/-- The surroundings of a member: the class it is in. -/
structure BodyContext where
  /-- The name of the class; anonymous classes have none. -/
  className : Text := []
  classKind : ClassKind := .normal
  /-- Whether the list of enum constants at the start of the body still goes on. -/
  inConstants : Bool := false
deriving DecidableEq, Repr

/-- How the elements inside a group are read. -/
structure Inside where
  /-- As code. -/
  pieces : List Element → Except SourceError (List Piece)
  /-- As the members of a class. -/
  members : BodyContext → Group → Except SourceError (List Member)

/-- The creation of an anonymous class, behind the word `new`. -/
structure Creation where
  place : Place
  base : NameScan
  args : Group
  body : Group
  /-- The number of elements it covers behind `new`. -/
  length : Nat

/-- The creation that begins behind `new`, if the elements there are one. -/
def Creation.find? (es : List Element) : Option Creation :=
  let s := Cursor.ofList es {}
  if s.isAt .ident then
    let base := s.typeName
    if base.isWhole then
      (base.cursor.groupAt? .round).bind fun args =>
        let behind := base.cursor.next
        (behind.groupAt? .curly).map fun body =>
          { place := s.here.place, base, args, body, length := behind.pos + 1 }
    else none
  else none

namespace Code

/-- The code inside a group; when there is none, it stands where the group closes. -/
def ofGroup (inside : Inside) (g : Group) : Except SourceError Code := do
  let pieces ← inside.pieces g.children
  let place := (g.children.head?.map (·.firstToken.place)).getD {}
  return { place := if place.line = 0 then g.closing.place else place, pieces }

end Code

/-- The anonymous class of a creation whose `new` stands at `place`. -/
def Creation.anonymous (c : Creation) (inside : Inside) (place : Place) :
    Except SourceError Anonymous := do
  let typeArgs ← match c.base.args? with
    | none => pure []
    | some g => g.typeArgs
  let args ← Code.ofGroup inside c.args
  let members ← inside.members {} c.body
  return {
    place
    base := { name := c.base.name, args := typeArgs, place := c.place }
    args := some args
    members
    endLine := c.body.closing.line
    label := none }

/-- The pieces of elements; the first `skip` of them belong to a creation read before. -/
def piecesWith (inside : Inside) : (skip : Nat) → List Element → Except SourceError (List Piece)
  | _, [] => .ok []
  | skip + 1, _ :: es => piecesWith inside skip es
  | 0, e :: es =>
    match if e.is .kwNew then Creation.find? es else none with
    | some c => do
      let a ← c.anonymous inside e.firstToken.place
      let rest ← piecesWith inside c.length es
      return .creation a :: rest
    | none =>
      match e with
      | .token t => do
        let rest ← piecesWith inside 0 es
        return .token t :: rest
      | .group g => do
        let inner ← inside.pieces g.children
        let rest ← piecesWith inside 0 es
        return .token g.opening :: inner ++ .token g.closing :: rest

namespace Code

def ofElements (inside : Inside) (es : List Element) : Except SourceError Code := do
  let pieces ← piecesWith inside 0 es
  return { place := (es.head?.map (·.firstToken.place)).getD {}, pieces }

end Code

namespace Parser

/-- The elements up to a token of one of the kinds `stops`, or to the end. -/
def takeUntil (stops : List TokenKind) : Parser (List Element) :=
  many do
    match (← get).current? with
    | some e =>
      if stops.any (e.is ·) then
        return none
      else
        advance
        return some e
    | none => return none

/-- The code up to a token of one of the kinds `stops`, or to the end. -/
def codeUntil (inside : Inside) (stops : List TokenKind) : Parser Code := do
  let es ← takeUntil stops
  ofExcept (Code.ofElements inside es)

end Parser

end Unnest
