import Unnest.Group.Basic
import Unnest.Token.Scan

/-!
# Grouping tokens

Curly, round and square brackets must be well nested. A `<` opens a group only when the tokens
behind it look like type arguments up to its own `>` (`matchAngle?`); every other `<` or `>` is an
operator and stays a token.

* `matchAngle?`: how far a `<` is from the `>` that closes it as type arguments;
* `Group.ofTokens`: the root group of a list of tokens, up to the first token of kind `eof`.
-/

namespace Unnest

/-- Whether a token may stand in type arguments (brackets apart). -/
def TokenKind.isTypeArgument : TokenKind → Bool
  | .ident | .primitive | .dot | .comma | .question | .amp | .kwExtends | .kwSuper | .atSign
  | .comment => true
  | _ => false

/-- The distance from the head of the list to the `>` that brings the number of open `<` from one to
none, as long as everything before it may stand in type arguments; square brackets only as an empty
pair. `depth` is the number of `<` that are open already. -/
def matchAngleFrom? : (depth : Int) → List Token → Option Nat
  | _, [] => none
  | depth, t :: ts =>
    match t.kind with
    | .lt => (matchAngleFrom? (depth + 1) ts).map (· + 1)
    | .gt => if depth - 1 = 0 then some 0 else (matchAngleFrom? (depth - 1) ts).map (· + 1)
    | .lbracket =>
      match ts with
      | [] => none
      | u :: us =>
        if u.kind = .rbracket then (matchAngleFrom? depth us).map (· + 2) else none
    | kind => if kind.isTypeArgument then (matchAngleFrom? depth ts).map (· + 1) else none

/-- The distance from a `<` at the head of the list to the `>` that closes it. -/
def matchAngle? (tokens : List Token) : Option Nat := matchAngleFrom? 0 tokens

def TokenKind.opens? : TokenKind → Option GroupKind
  | .lbrace => some .curly
  | .lparen => some .round
  | .lbracket => some .square
  | _ => none

def TokenKind.closes? : TokenKind → Option GroupKind
  | .rbrace => some .curly
  | .rparen => some .round
  | .rbracket => some .square
  | _ => none

/-- A group that is still open. -/
structure Frame where
  kind : GroupKind
  opening : Token
  /-- The number of the token that closes an angle group. -/
  closeAt : Nat := 0
  /-- The elements so far, the latest first. -/
  children : List Element := []

/-- A source that is grouped up to some token. -/
structure Nest where
  /-- The open groups, the innermost first. -/
  frames : List Frame := []
  /-- The elements outside all open groups, the latest first. -/
  roots : List Element := []

namespace Nest

/-- Puts an element into the innermost open group. -/
def add (nest : Nest) (e : Element) : Nest :=
  match nest.frames with
  | [] => { nest with roots := e :: nest.roots }
  | f :: fs => { nest with frames := { f with children := e :: f.children } :: fs }

/-- Opens a group. -/
def enter (nest : Nest) (f : Frame) : Nest := { nest with frames := f :: nest.frames }

/-- Closes the innermost open group. -/
def leave (nest : Nest) (closing : Token) : Nest :=
  match nest.frames with
  | [] => nest
  | f :: fs =>
    { nest with frames := fs }.add
      (.group { kind := f.kind, opening := f.opening, closing, children := f.children.reverse })

/-- Whether the token number `index` is the one that the innermost open angle group waits for. -/
def awaitsAngle (nest : Nest) (index : Nat) : Bool :=
  match nest.frames with
  | [] => false
  | f :: _ => f.kind == .angle && f.closeAt == index

/-- Closes the innermost open group with a bracket that closes groups of the given kind. -/
def leaveWith (nest : Nest) (kind : GroupKind) (closing : Token) : Except SourceError Nest :=
  match nest.frames with
  | [] => .error (closing.error .unmatchedClosing)
  | f :: _ =>
    if f.kind = kind then .ok (nest.leave closing)
    else
      .error (closing.error (.mismatchedClosing f.opening.text f.opening.line f.opening.col))

/-- The root group, once every group is closed. -/
def finish (nest : Nest) (closing : Token) : Except SourceError Group :=
  match nest.frames with
  | [] => .ok { kind := .root, opening := {}, closing, children := nest.roots.reverse }
  | f :: _ => .error (f.opening.error .unclosedBracket)

/-- One token: `rest` stands behind it, and `index` is its number. -/
def step (nest : Nest) (index : Nat) (t : Token) (rest : List Token) : Except SourceError Nest :=
  match t.kind.opens? with
  | some kind => .ok (nest.enter { kind, opening := t })
  | none =>
    match if t.kind = .lt then matchAngle? (t :: rest) else none with
    | some distance =>
      .ok (nest.enter { kind := .angle, opening := t, closeAt := index + distance })
    | none =>
      if t.kind = .gt && nest.awaitsAngle index then .ok (nest.leave t)
      else
        match t.kind.closes? with
        | some kind => nest.leaveWith kind t
        | none => .ok (nest.add (.token t))

/-- Groups the tokens from number `index` on. -/
def run (nest : Nest) : (index : Nat) → List Token → Except SourceError Group
  | _, [] => nest.finish {}
  | index, t :: ts =>
    if t.kind = .eof then nest.finish t
    else
      match nest.step index t ts with
      | .ok next => next.run (index + 1) ts
      | .error e => .error e

end Nest

def Group.ofTokens (tokens : List Token) : Except SourceError Group := ({} : Nest).run 0 tokens

def Group.ofSource (source : Source) : Except SourceError Group := do
  Group.ofTokens (← lex source)

end Unnest
