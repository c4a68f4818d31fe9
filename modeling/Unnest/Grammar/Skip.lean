import Unnest.Cursor

/-!
# Skipping over syntax

These functions move a cursor over a piece of syntax without building anything. They never fail:
they say whether the piece was well formed and where the cursor got to.

* `skipAnnot`, `skipModifiers`: what may stand in front of a declaration;
* `typeName`: a dotted name whose parts may have type arguments;
* `skipType`, `skipDims`: a type and array dimensions.
-/

namespace Unnest.Cursor

/-- Moves over further parts of a dotted name; fails behind a point that no name follows. -/
def skipParts (s : Cursor) : Bool × Cursor :=
  if _h : s.isAt .dot then
    if s.next.isAt .ident then skipParts s.next.next else (false, s.next)
  else (true, s)
termination_by s.rest.length
decreasing_by
  exact Nat.lt_of_le_of_lt (length_rest_next_le _)
    (length_rest_next_lt (hasNext_of_isAt (by assumption)))

/-- Moves over an annotation with its arguments. -/
def skipAnnot (s : Cursor) : Bool × Cursor :=
  if s.isAt .atSign then
    if s.next.isAt .ident then
      match skipParts s.next.next with
      | (false, s') => (false, s')
      | (true, s') => (true, if s'.isAtGroup .round then s'.next else s')
    else (false, s.next)
  else (false, s)

/-- Moves over modifiers and annotations. -/
def skipModifiers (s : Cursor) : Cursor :=
  s.iterate fun s =>
    if s.isAt .atSign then
      match skipAnnot s with
      | (true, s') => some s'
      | (false, _) => none
    else if s.current?.any (fun e => e.token?.any (·.kind.isModifier)) then some s.next
    else none

/-- Moves over pairs of square brackets with nothing between them. -/
def skipDims (s : Cursor) : Cursor :=
  s.iterate fun s => if s.isAtEmptyGroup .square then some s.next else none

/-- Moves over a group of type arguments, if one is there. -/
def skipAngle (s : Cursor) : Cursor := if s.isAtGroup .angle then s.next else s

theorem length_rest_skipAngle_le (s : Cursor) : s.skipAngle.rest.length ≤ s.rest.length := by
  unfold skipAngle
  split
  · exact length_rest_next_le s
  · exact Nat.le_refl _

end Unnest.Cursor

namespace Unnest

/-- A dotted name found at a cursor. -/
structure NameScan where
  /-- False when the name stops at a point that no part follows. -/
  isWhole : Bool
  /-- The parts with their type arguments. -/
  parts : List (Text × Option Group)
  cursor : Cursor

namespace NameScan

/-- The same name with one more part in front. -/
def cons (part : Text × Option Group) (scan : NameScan) : NameScan :=
  { scan with parts := part :: scan.parts }

/-- The name without type arguments. -/
def name (scan : NameScan) : Text := Text.join (lit ".") (scan.parts.map (·.1))

/-- The last type arguments. -/
def args? (scan : NameScan) : Option Group := (scan.parts.filterMap (·.2)).getLast?

end NameScan

namespace Cursor

/-- Further parts of a dotted name. -/
def moreParts (s : Cursor) : NameScan :=
  if _h : s.isAt .dot then
    if s.next.isAt .ident then
      let behind := s.next.next
      (moreParts behind.skipAngle).cons (s.next.here.text, behind.groupAt? .angle)
    else ⟨false, [], s.next⟩
  else ⟨true, [], s⟩
termination_by s.rest.length
decreasing_by
  exact Nat.lt_of_le_of_lt (Nat.le_trans (length_rest_skipAngle_le _) (length_rest_next_le _))
    (length_rest_next_lt (hasNext_of_isAt (by assumption)))

/-- The dotted name that begins with the name at the cursor. -/
def typeName (s : Cursor) : NameScan :=
  (moreParts s.next.skipAngle).cons (s.here.text, s.next.groupAt? .angle)

/-- Moves over a type: a primitive one or a dotted name with type arguments, and dimensions. -/
def skipType (s : Cursor) : Bool × Cursor :=
  if s.isAt .primitive then (true, s.next.skipDims)
  else if s.isAt .ident then
    let scan := s.typeName
    if scan.isWhole then (true, scan.cursor.skipDims) else (false, scan.cursor)
  else (false, s)

end Cursor

end Unnest
