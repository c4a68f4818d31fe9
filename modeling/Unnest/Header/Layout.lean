import Unnest.Decl.Basic
import Unnest.Text.Lines

/-!
# Laying out code

Code is written token by token in the lines of its source. A token that stands on a later line than
the token before it begins a new line, indented by as much as it stood to the right of the leftmost
token that begins a line; on the same line there is a space wherever the source had white space. A
comment up to the end of the line always ends the line. The creation of an anonymous class becomes
`new Name(arguments)`.

* `Code.block`: code as the statements of a block, every line indented;
* `Code.expression`: code behind something else on its line, only further lines indented.
-/

namespace Unnest

/-- How code is laid out. -/
structure Layout where
  /-- The spaces in front of every line. -/
  indent : Text
  /-- Whether the code begins a line of its own. -/
  isBlock : Bool
  /-- The source column that is written directly behind the indentation. -/
  margin : Int

/-- What is known of the text written so far. -/
structure Pen where
  /-- The source line on which the last token ended. -/
  line : Int := 0
  /-- Whether anything has been written. -/
  started : Bool := false
  /-- Whether the line must end here. -/
  mustBreak : Bool := false
  /-- The last byte of the last token, 0 before the first. -/
  last : UInt8 := 0

/-! ### The margin -/

/-- The tokens that begin a source line, where the token in front ended on line `previous`. -/
def startersAfter (previous : Int) : List Token → List Token
  | [] => []
  | t :: ts =>
    if previous < t.line then t :: startersAfter t.endLine ts else startersAfter t.endLine ts

/-- The tokens that begin a line; the first token does in a block only. -/
def lineStarters (isBlock : Bool) : List Token → List Token
  | [] => []
  | t :: ts => if isBlock then t :: startersAfter t.endLine ts else startersAfter t.endLine ts

/-- The leftmost column of a token that begins a line, or else the first column. -/
def marginOf (isBlock : Bool) (tokens : List Token) : Int :=
  (((lineStarters isBlock tokens).map (·.col)).min?).getD 1

/-! ### Writing -/

/-- The start of a line for what stood in a source column. -/
def Layout.margins (l : Layout) (col : Int) : Text := l.indent ++ Text.spaces (col - l.margin).toNat

namespace Pen

/-- The white space in front of what stood at a place in the source. -/
def gap (pen : Pen) (l : Layout) (line col : Int) (space : Bool) : Text :=
  if !pen.started then if l.isBlock then l.margins col else []
  else if pen.line < line || pen.mustBreak then Text.newline :: l.margins col
  else if space then lit " " else []

def afterToken (pen : Pen) (t : Token) : Pen :=
  { line := t.endLine, started := true, mustBreak := t.isLineComment,
    last := t.text.getLastD pen.last }

/-- The pen behind the opening parenthesis of a creation on a line. -/
def afterOpening (pen : Pen) (line : Int) : Pen :=
  { pen with line, started := true, mustBreak := false }

/-- The line break that a comment in front of a closing parenthesis asks for. -/
def closingGap (pen : Pen) (l : Layout) : Text :=
  if pen.mustBreak then Text.newline :: l.indent else []

/-- The pen behind the closing parenthesis of a creation whose members end on a line. -/
def afterClosing (pen : Pen) (endLine : Int) : Pen :=
  { line := max pen.line endLine, started := true, mustBreak := false, last := chr ')' }

/-- Whether a space belongs in front of `new`: not at the very beginning, nor behind an opening
bracket, a negation or a dot. -/
def spaceBeforeNew (pen : Pen) : Bool :=
  pen.last != 0 && !(lit "([\x7b!.").contains pen.last && !isSpace pen.last

end Pen

/-- Pieces of code written one after the other, and the pen behind them. -/
def writePieces (l : Layout) (pen : Pen) : List Piece → Except SourceError (Text × Pen)
  | [] => .ok ([], pen)
  | .token t :: ps => do
    let (rest, last) ← writePieces l (pen.afterToken t) ps
    return (pen.gap l t.line t.col t.spaceBefore ++ t.text ++ rest, last)
  | .creation ⟨place, _, _, _, _, none⟩ :: _ => .error (.ofPlace .unplannedClass place (lit "new"))
  | .creation ⟨place, _, none, _, endLine, some name⟩ :: ps => do
    let (rest, last) ← writePieces l ((pen.afterOpening place.line).afterClosing endLine) ps
    return (pen.gap l place.line place.col pen.spaceBeforeNew ++
      lit "new " ++ name ++ lit "()" ++ rest, last)
  | .creation ⟨place, _, some ⟨_, args⟩, _, endLine, some name⟩ :: ps => do
    let (inner, within) ← writePieces l (pen.afterOpening place.line) args
    let (rest, last) ← writePieces l (within.afterClosing endLine) ps
    return (pen.gap l place.line place.col pen.spaceBeforeNew ++
      lit "new " ++ name ++ lit "(" ++ inner ++ within.closingGap l ++ lit ")" ++ rest, last)

/-- Pieces of code as a whole. Behind a comment up to the end of the line an expression goes on in a
new line. -/
def layOut (indent : Text) (isBlock : Bool) (pieces : List Piece) : Except SourceError Text := do
  let l : Layout := { indent, isBlock, margin := marginOf isBlock (pieces.filterMap (·.token?)) }
  let (text, pen) ← writePieces l {} pieces
  return if isBlock then text else text ++ pen.closingGap l

/-- The pieces without the first `n` tokens, but never beyond the first creation. -/
def dropTokens : Nat → List Piece → List Piece
  | n + 1, .token _ :: ps => dropTokens n ps
  | _, ps => ps

/-- Code as the statements of a block, without its first `skip` tokens. -/
def Code.block (c : Code) (indent : Text) (skip : Nat) : Except SourceError Text :=
  layOut indent true (dropTokens skip c.pieces)

/-- Code as an expression whose further lines are indented. -/
def Code.expression (c : Code) (indent : Text) : Except SourceError Text :=
  layOut indent false c.pieces

/-- Tokens as an expression whose further lines are indented. -/
def tokensExpression (tokens : List Token) (indent : Text) : Except SourceError Text :=
  layOut indent false (tokens.map .token)

end Unnest
