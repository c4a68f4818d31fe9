import Unnest.Error
import Unnest.Text.Lines

/-!
# Diagnostics

An error in a source is reported with its place, its wording and, where the source has such a line,
the line with a caret below the column. The caret is moved by copies of the tabs of the line, so it
stands below the column however wide a tab is shown.

* `SourceError.diagnostic`: the report of an error in a source;
* `errorLine`: the report of an error without a place.
-/

namespace Unnest

/-! ### Colours -/

def escape (code : String) : Text := 27 :: lit ("[" ++ code ++ "m")

/-- `s` with a style, if colours are wanted. -/
def styled (color : Bool) (code : String) (s : Text) : Text :=
  if color then escape code ++ s ++ escape "0" else s

/-- The word in front of every error, red where there are colours. -/
def errorLabel (color : Bool) : Text := styled color "31" (lit "error: ")

/-! ### The source line -/

/-- A caret behind `n` columns of a line. -/
def caretBelow : (n : Nat) → (line : Text) → Text
  | 0, _ => lit "^"
  | n + 1, [] => chr ' ' :: caretBelow n []
  | n + 1, b :: bs => (if b == chr '\t' then b else chr ' ') :: caretBelow n bs

/-- The line of a place with a caret below its column, or nothing if there is no such place. -/
def excerpt (source : Text) (line col : Int) : Text :=
  if col ≤ 0 then []
  else match Text.line? source line with
    | none => []
    | some text => lit "  " ++ text ++ lit "\n  " ++ caretBelow (col.toNat - 1) text ++ lit "\n"

/-! ### Reports -/

def SourceError.diagnostic (e : SourceError) (source : Text) (color : Bool) : Text :=
  styled color "1" e.location ++ errorLabel color ++ e.description ++ lit "\n" ++
    excerpt source e.line e.col

/-- The report of an error without a place. -/
def errorLine (message : Text) (color : Bool) : Text :=
  lit "nestport: " ++ errorLabel color ++ message ++ lit "\n"

end Unnest
