import Unnest.Text.Lines
import Unnest.Token.Lexeme

/-!
# From source text to tokens

A source is scanned line by line. Inside a line the scan walks along the bytes and counts down those
that still belong to the token just read, so it is a recursion on the bytes of the line. Only a
block comment reaches over a line end; it is kept, with the text read so far, until its line comes.

`Lexer` holds sources that wait to be read, the last one pushed first. A failed reading drops the
source it failed in, keeps the ones below, and leaves the tokens that were read before the failure.

* `scanFrom`, `scanLine`: the tokens of one line;
* `scanLines`: the tokens of the lines of one source;
* `Lexer.read`: all waiting sources, closed by one token of kind `eof`;
* `lex`: the tokens of a single source.
-/

namespace Unnest

/-- How the scan of a line ended. -/
inductive LineEnd
  | closed
  /-- Inside a block comment; the token holds the text so far. -/
  | inComment (pending : Token)
  | failed (error : SourceError)
deriving DecidableEq, Repr

/-- The tokens of a line and how it ended. -/
structure LineScan where
  tokens : List Token
  ending : LineEnd
deriving DecidableEq, Repr

namespace LineScan

def cons (t : Token) (scan : LineScan) : LineScan := { scan with tokens := t :: scan.tokens }

end LineScan

/-- Scans the rest of a line from byte column `col` on. The first `skip` bytes belong to a token
read before; `space` says whether white space or the start of the line precedes what comes next. -/
def scanFrom (file : Text) (line : Nat) : (skip : Nat) → (space : Bool) → (col : Nat) → Text →
    LineScan
  | _, _, _, [] => ⟨[], .closed⟩
  | skip + 1, space, col, _ :: cs => scanFrom file line skip space (col + 1) cs
  | 0, space, col, c :: cs =>
    if Lexeme.isBlank c then scanFrom file line 0 true (col + 1) cs
    else
      match lexeme c cs with
      | .token kind more =>
        (scanFrom file line more false (col + 1) cs).cons
          { kind, text := c :: cs.take more, file, line, col, spaceBefore := space }
      | .openComment =>
        let text := c :: cs ++ [Text.newline]
        ⟨[], .inComment { kind := .comment, text, file, line, col, spaceBefore := space }⟩
      | .fault cause => ⟨[], .failed (.ofPlace cause { file, line, col } [c])⟩

/-- Scans a line. A pending comment ends at the first `*/`, or takes the whole line. -/
def scanLine (file : Text) (line : Nat) (pending : Option Token) (s : Text) : LineScan :=
  match pending with
  | none => scanFrom file line 0 true 1 s
  | some comment =>
    match Lexeme.closingMark s with
    | none => ⟨[], .inComment { comment with text := comment.text ++ s ++ [Text.newline] }⟩
    | some inside =>
      (scanFrom file line (inside + 2) true 1 s).cons
        { comment with text := comment.text ++ s.take (inside + 2) }

/-- The tokens read and the error that stopped the reading, if one did. -/
structure Scan where
  tokens : List Token
  error : Option SourceError
deriving DecidableEq, Repr

/-- Scans the lines of a source; the first of them has the number `line`. -/
def scanLines (file : Text) : (line : Nat) → (pending : Option Token) → List Text → Scan
  | _, none, [] => ⟨[], none⟩
  | _, some comment, [] =>
    ⟨[], some (.ofPlace .unterminatedComment comment.place (lit "/*"))⟩
  | line, pending, s :: rest =>
    let scan := scanLine file line pending s
    match scan.ending with
    | .failed e => ⟨scan.tokens, some e⟩
    | .closed =>
      let below := scanLines file (line + 1) none rest
      { below with tokens := scan.tokens ++ below.tokens }
    | .inComment comment =>
      let below := scanLines file (line + 1) (some comment) rest
      { below with tokens := scan.tokens ++ below.tokens }

/-- A named source text. -/
structure Source where
  name : Text
  text : Text
deriving DecidableEq, Repr

/-- Sources that wait to be read and the tokens of the last reading. -/
structure Lexer where
  /-- The waiting sources, the one to read first in front. -/
  waiting : List Source := []
  tokens : List Token := []
  /-- Nothing was pushed since the last reading. -/
  isRead : Bool := false
deriving DecidableEq, Repr

namespace Lexer

/-- Puts a source in front of the waiting ones. -/
def push (lexer : Lexer) (source : Source) : Lexer :=
  { lexer with waiting := source :: lexer.waiting, isRead := false }

/-- The result of reading waiting sources. -/
structure Reading where
  tokens : List Token
  error : Option SourceError
  waiting : List Source
deriving DecidableEq, Repr

/-- Reads sources one after the other. `file` and `line` say where the closing token stands: in the
source read last, on the last line that was read at all. -/
def readAll : (file : Text) → (line : Nat) → List Source → Reading
  | file, line, [] => ⟨[.ofEnd file line], none, []⟩
  | _, line, source :: rest =>
    let lines := source.text.lines
    let scan := scanLines source.name 1 none lines
    match scan.error with
    | some e => ⟨scan.tokens, some e, rest⟩
    | none =>
      let below := readAll source.name (if lines.isEmpty then line else lines.length) rest
      { below with tokens := scan.tokens ++ below.tokens }

/-- All tokens of the waiting sources, or the first error in them. When nothing was pushed since the
last reading, its tokens are given again, also if it had failed. -/
def read (lexer : Lexer) : Except SourceError (List Token) × Lexer :=
  if lexer.isRead then (.ok lexer.tokens, lexer)
  else
    let reading := readAll [] 1 lexer.waiting
    let after := { waiting := reading.waiting, tokens := reading.tokens, isRead := true }
    match reading.error with
    | some e => (.error e, after)
    | none => (.ok reading.tokens, after)

end Lexer

/-- The tokens of one source, closed by a token of kind `eof`. -/
def lex (source : Source) : Except SourceError (List Token) := (({} : Lexer).push source).read.1

end Unnest
