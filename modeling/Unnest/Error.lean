import Unnest.Text.Basic

/-!
# Errors

An error is a cause, a place in a source and the source text found there. `Cause.detail` is the one
place where causes get their wording; `Cause.kind` sorts them by the stage that can raise them.
-/

namespace Unnest

/-- A position in a named source; lines and columns count from 1, and 0 stands for "nowhere". They
are integers: a place may be made up, also one that no source has. -/
structure Place where
  file : Text := []
  line : Int := 0
  col : Int := 0
deriving DecidableEq, Repr, Inhabited

/-- What went wrong. -/
inductive Cause
  | textBlock
  | unterminatedString
  | unterminatedCharacter
  | malformedNumber
  | unexpectedCharacter
  | unterminatedComment
  | unmatchedClosing
  /-- A closing bracket whose innermost open bracket is another one. -/
  | mismatchedClosing (opening : Text) (line col : Int)
  | unclosedBracket
  /-- No form of member fits in the body of this class; anonymous classes have no name. -/
  | noMember (className : Text)
  | noTypeDeclaration
  /-- A form of member read up to another element than the one it announced. -/
  | extentMismatch (form : Text) (consumed announced : Nat)
  | expected (what : Text)
  | endOfInput
  | reported (detail : Text)
  | unresolvedBase (base className : Text)
  | selfBase (className : Text)
  | cyclicBase (base : Text)
  | unordered (className : Text)
  | unplannedClass
deriving DecidableEq, Repr

/-- The stage an error comes from. -/
inductive ErrorKind
  | lexical
  | bracket
  | unrecognized
  | consumption
  | grammar
  | emission
deriving DecidableEq, Repr

namespace Cause

/-- The stage that raises a cause. -/
def kind : Cause → ErrorKind
  | textBlock | unterminatedString | unterminatedCharacter | malformedNumber
  | unexpectedCharacter | unterminatedComment => .lexical
  | unmatchedClosing | mismatchedClosing .. | unclosedBracket => .bracket
  | noMember _ | noTypeDeclaration => .unrecognized
  | extentMismatch .. => .consumption
  | expected _ | endOfInput | reported _ => .grammar
  | unresolvedBase .. | selfBase _ | cyclicBase _ | unordered _ | unplannedClass => .emission

/-- `s` between single quotes. -/
def quote (s : Text) : Text := lit "'" ++ s ++ lit "'"

/-- The wording of a cause. -/
def detail : Cause → Text
  | textBlock => lit "text blocks are not supported"
  | unterminatedString => lit "unterminated string literal"
  | unterminatedCharacter => lit "unterminated character literal"
  | malformedNumber => lit "malformed numeric literal"
  | unexpectedCharacter => lit "unexpected character"
  | unterminatedComment => lit "unterminated block comment"
  | unmatchedClosing => lit "unmatched closing bracket"
  | mismatchedClosing opening line col =>
    lit "closing bracket does not match " ++ quote opening ++ lit " opened at " ++
      Text.ofInt line ++ lit ":" ++ Text.ofInt col
  | unclosedBracket => lit "unclosed bracket at end of input"
  | noMember [] => lit "no member declaration matches in anonymous class body"
  | noMember className => lit "no member declaration matches in body of " ++ quote className
  | noTypeDeclaration => lit "expected a class, interface or enum declaration"
  | extentMismatch form consumed announced =>
    lit "matcher " ++ quote form ++ lit " consumed through element " ++ Text.decimal consumed ++
      lit " but its extent ends at element " ++ Text.decimal announced
  | expected what => lit "expected " ++ what
  | endOfInput => lit "unexpected end of input"
  | reported detail => detail
  | unresolvedBase base className =>
    lit "unresolved base type " ++ quote base ++ lit " referenced by " ++ quote className
  | selfBase className => lit "class " ++ quote className ++ lit " cannot extend itself"
  | cyclicBase base => lit "cyclic inheritance involving " ++ quote base
  | unordered className => lit "cannot order class " ++ quote className ++ lit " after its bases"
  | unplannedClass => lit "anonymous class was not planned"

end Cause

/-- An error with the place it points to and the text found there. -/
structure SourceError where
  cause : Cause
  file : Text
  line : Int
  col : Int
  text : Text
deriving DecidableEq, Repr

namespace SourceError

def ofPlace (cause : Cause) (place : Place) (text : Text) : SourceError :=
  { cause, file := place.file, line := place.line, col := place.col, text }

/-- `file:line:col: `, without the file when it has no name. -/
def location (e : SourceError) : Text :=
  (if e.file = [] then [] else e.file ++ lit ":") ++
    Text.ofInt e.line ++ lit ":" ++ Text.ofInt e.col ++ lit ": "

/-- The wording of the cause and, in parentheses, the text found, unless there is none. -/
def description (e : SourceError) : Text :=
  e.cause.detail ++ if e.text = [] then [] else lit " (" ++ Cause.quote e.text ++ lit ")"

/-- The error in one line, up to the first NUL byte. -/
def message (e : SourceError) : Text := Text.beforeNul (e.location ++ e.description)

end SourceError

end Unnest
