import Unnest.Command.Options

/-!
# Where headers go

The header of a source goes beside it, or into the directory chosen for headers, under the same name
with the extension `.h`; or to the one output that was named.

* `headerName`: the name of a file with its extension replaced;
* `Options.target`: where the header of a source goes.
-/

namespace Unnest

/-- The bytes in front of the last dot, if there is a dot. -/
def beforeLastDot? (name : Text) : Option Text :=
  match name.reverse.dropWhile (· != chr '.') with
  | [] => none
  | _ :: front => some front.reverse

/-- A file name without its extension. A dot in front begins no extension, and names of one or two
bytes that begin with a dot have none. -/
def stem (name : Text) : Text :=
  if name.length ≤ 2 && name.head? == some (chr '.') then name
  else match beforeLastDot? name with
    | none | some [] => name
    | some front => front

/-- A file name with its extension replaced by `.h`. -/
def headerName (name : Text) : Text := stem name ++ lit ".h"

/-- The last part of a path, empty when the path ends in a slash. -/
def fileName (path : Text) : Text := Text.afterLast (chr '/') path

/-- A path up to its last slash, the slash included. -/
def directoryPart (path : Text) : Text := path.take (path.length - (fileName path).length)

def inDirectory (dir name : Text) : Text :=
  dir ++ (if dir.getLast? == some (chr '/') then [] else lit "/") ++ name

/-- Where the header of a source goes; `-` is the standard output. -/
def Options.target (o : Options) (input : Text) : Text :=
  if !o.output.isEmpty then o.output
  else
    let name := headerName (fileName input)
    if !o.outDir.isEmpty then inDirectory o.outDir name else directoryPart input ++ name

end Unnest
