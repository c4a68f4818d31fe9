import Unnest.Text.Basic

/-!
# Lines

A line ends at a newline byte or at the end of the text; a final newline opens no further line. One
carriage return in front of the line end belongs to the line end, so both conventions read alike.

* `Text.lines`: all lines, in order;
* `Text.line?`: one line by its number, found without splitting the rest of the text.
-/

namespace Unnest.Text

/-- The newline byte. -/
def newline : UInt8 := chr '\n'

/-- `line` without one carriage return at its end. -/
def chomp (line : Text) : Text :=
  if line.getLast? = some (chr '\r') then line.dropLast else line

/-- The lines of a text, carriage returns included. -/
def splitLines : Text → List Text
  | [] => []
  | b :: bs =>
    if b == newline then [] :: splitLines bs
    else match splitLines bs with
      | [] => [[b]]
      | l :: ls => (b :: l) :: ls

def lines (s : Text) : List Text := (splitLines s).map chomp

/-- What follows the first newline, if there is one. -/
def afterNewline? : Text → Option Text
  | [] => none
  | b :: bs => if b == newline then some bs else afterNewline? bs

/-- The line that stands `k` newlines further down. -/
def lineBelow? : Nat → Text → Option Text
  | 0, [] => none
  | 0, s => some (chomp (s.takeWhile (· != newline)))
  | k + 1, s => (afterNewline? s).bind (lineBelow? k)

/-- Line number `k`, counted from 1; there is no line 0 and none behind the last. -/
def line? (s : Text) (k : Int) : Option Text :=
  if k ≤ 0 then none else lineBelow? (k.toNat - 1) s

end Unnest.Text
