import Unnest.Decl.Basic
import Unnest.Grammar.Skip

/-!
# Names, annotations and modifiers

* `Parser.annotationText`: an annotation, as the text it was written with;
* `Parser.modifiers`: the run of modifiers and annotations in front of a declaration;
* `Parser.qualifiedName`: a dotted name, as in a package declaration;
* `Parser.dims`: the number of empty pairs of square brackets.
-/

namespace Unnest

/-- Tokens with a space where white space stood, except in front of the first; comments left out. -/
def spacedText (tokens : List Token) : Text :=
  match tokens.filter (·.kind != .comment) with
  | [] => []
  | t :: ts =>
    t.text ++ (ts.map fun u => (if u.spaceBefore then lit " " else []) ++ u.text).flatten

/-- One item of a run of modifiers. -/
inductive Mark
  | annotated (text : Text)
  | keyword (modifier : Modifier) (text : Text)
deriving DecidableEq, Repr

namespace Mark

def access? : Mark → Option Access
  | keyword .pub _ => some .pub
  | keyword .prot _ => some .prot
  | keyword .priv _ => some .priv
  | _ => none

def keyword? : Mark → Option Text
  | keyword _ text => some text
  | annotated _ => none

/-- The text of an annotation. -/
def annotated? : Mark → Option Text
  | annotated text => some text
  | keyword .. => none

end Mark

/-- The modifiers that a run of marks makes; of several access keywords the last one counts. -/
def Modifiers.ofMarks (marks : List Mark) : Modifiers :=
  { access := ((marks.filterMap (·.access?)).getLast?).getD .package
    keywords := marks.filterMap (·.keyword?)
    annotations := marks.filterMap (·.annotated?) }

namespace Parser

def annotationText : Parser Text := do
  let sign ← expect .atSign (lit "'@'")
  let first ← expect .ident (lit "annotation name")
  let parts ← many do
    if (← get).isAt .dot then
      advance
      let part ← expect .ident (lit "annotation name")
      return some (lit "." ++ part.text)
    else
      return none
  match (← get).groupAt? .round with
  | none => return sign.text ++ first.text ++ parts.flatten
  | some g =>
    advance
    return sign.text ++ first.text ++ parts.flatten ++
      lit "(" ++ spacedText (flattenAll g.children) ++ lit ")"

/-- One modifier or annotation, if one is there; an `@` that no name follows is none. -/
def mark : Parser (Option Mark) := do
  let s ← get
  if s.isAt .atSign then
    if (s.peek? 1).any (·.is .ident) then
      return some (.annotated (← annotationText))
    else
      return none
  else
    match s.current? with
    | some (.token t) =>
      match t.kind with
      | .modifier m =>
        advance
        return some (.keyword m t.text)
      | _ => return none
    | _ => return none

/-- A run of modifiers and annotations. -/
def modifiers : Parser Modifiers := do
  return .ofMarks (← many mark)

/-- Annotations that are read and left out. -/
def dropAnnotations : Parser Unit := do
  let _ ← many do
    if (← get).isAt .atSign then
      return some (← annotationText)
    else
      return none

/-- A dotted name; a point that no name follows is left alone. -/
def qualifiedName : Parser Text := do
  let first ← expect .ident (lit "identifier")
  let parts ← many do
    let s ← get
    if s.isAt .dot && (s.peek? 1).any (·.is .ident) then
      advance
      let part ← current
      advance
      return some (lit "." ++ part.firstToken.text)
    else
      return none
  return first.text ++ parts.flatten

/-- The number of empty pairs of square brackets. -/
def dims : Parser Nat := do
  let pairs ← many do
    if (← get).isAtEmptyGroup .square then
      advance
      return some ()
    else
      return none
  return pairs.length

end Parser

end Unnest
