import Unnest.Group.Basic

/-!
# Cursors

A cursor walks over the elements of a range and never rests on a comment. Its position still counts
comments, so it tells how many elements of the sequence lie behind it.

A `Parser` moves a cursor and may fail; a failure also tells where the cursor stood. The skipping
functions elsewhere are plain functions on cursors and cannot fail.

* `Cursor.next`: the cursor one element further (unmoved at the end);
* `Parser.expect`, `Parser.expectGroup`: the element at the cursor, if it is the one wanted;
* `Parser.many`: repetition, for as long as the cursor moves forward.
-/

namespace Unnest

/-- A place in a range of elements. -/
structure Cursor where
  /-- The number of elements in front of the cursor, counted from the start of the sequence. -/
  pos : Nat
  /-- The elements of the range from the cursor on; a comment never stands in front. -/
  rest : List Element
  /-- The position at which the range ends. -/
  stop : Nat
  /-- The token that errors at the end of the range point to. -/
  closing : Token

namespace Cursor

/-- Moves over comments. -/
def settle (s : Cursor) : Cursor :=
  { s with
    pos := s.pos + (s.rest.takeWhile (·.isComment)).length
    rest := s.rest.dropWhile (·.isComment) }

/-- A cursor at the start of the elements numbered from `first` to before `stop`. -/
def view (elements : List Element) (first stop : Nat) (closing : Token) : Cursor :=
  let stop := min stop elements.length
  settle { pos := first, rest := (elements.take stop).drop first, stop, closing }

def ofList (elements : List Element) (closing : Token) : Cursor :=
  settle { pos := 0, rest := elements, stop := elements.length, closing }

def ofGroup (g : Group) : Cursor := ofList g.children g.closing

/-- Whether there is an element at the cursor. -/
def hasNext (s : Cursor) : Bool := !s.rest.isEmpty

/-- The cursor one element further; at the end it stays where it is. -/
def next (s : Cursor) : Cursor :=
  match s.rest with
  | [] => s
  | _ :: es => settle { s with pos := s.pos + 1, rest := es }

def current? (s : Cursor) : Option Element := s.rest.head?

/-- The `k`-th element from the cursor on, comments apart. -/
def peek? (s : Cursor) (k : Nat) : Option Element := (s.rest.filter (!·.isComment))[k]?

def isAt (s : Cursor) (kind : TokenKind) : Bool := s.current?.any (·.is kind)

def isAtGroup (s : Cursor) (kind : GroupKind) : Bool := s.current?.any (·.isGroup kind)

/-- The group at the cursor, if it is one of the given kind. -/
def groupAt? (s : Cursor) (kind : GroupKind) : Option Group :=
  s.current?.bind fun e => if e.isGroup kind then e.group? else none

/-- Whether the element at the cursor is the given name. -/
def isAtName (s : Cursor) (name : Text) : Bool :=
  s.isAt .ident && s.current?.any (·.firstToken.text == name)

def isAtEmptyGroup (s : Cursor) (kind : GroupKind) : Bool := s.current?.any (·.isEmptyGroup kind)

/-- The first token at the cursor, or the closing token at the end. -/
def here (s : Cursor) : Token := (s.current?.map (·.firstToken)).getD s.closing

def error (s : Cursor) (cause : Cause) : SourceError := s.here.error cause

theorem length_rest_settle_le (s : Cursor) : s.settle.rest.length ≤ s.rest.length :=
  (s.rest.dropWhile_sublist _).length_le

theorem length_rest_next_le (s : Cursor) : s.next.rest.length ≤ s.rest.length := by
  unfold next
  split
  · exact Nat.le_refl _
  · next h => exact Nat.le_trans (length_rest_settle_le _) (by simp [h])

/-- Moving on leaves fewer elements, unless the cursor is at the end. -/
theorem length_rest_next_lt {s : Cursor} (h : s.hasNext = true) :
    s.next.rest.length < s.rest.length := by
  unfold next
  split
  · next h' => simp [hasNext, h'] at h
  · next h' => exact Nat.lt_of_le_of_lt (length_rest_settle_le _) (by simp [h'])

theorem hasNext_of_isAt {s : Cursor} {kind : TokenKind} (h : s.isAt kind = true) :
    s.hasNext = true := by
  cases hr : s.rest with
  | nil => simp [isAt, current?, hr] at h
  | cons e es => simp [hasNext, hr]

/-- Repeats `step` for as long as it moves the cursor forward. -/
def iterate (step : Cursor → Option Cursor) (s : Cursor) : Cursor :=
  match step s with
  | none => s
  | some s' => if s'.rest.length < s.rest.length then iterate step s' else s'
termination_by s.rest.length

/-- Moves past the first element that satisfies `p`; says whether there was one. -/
def skipThrough (p : Element → Bool) (s : Cursor) : Bool × Cursor :=
  if _h : s.hasNext then
    if s.current?.any p then (true, s.next) else skipThrough p s.next
  else (false, s)
termination_by s.rest.length
decreasing_by exact length_rest_next_lt (by assumption)

end Cursor

/-- An action that reads at a cursor and moves it. -/
abbrev Parser := EStateM SourceError Cursor

namespace Parser

/-- Fails at the cursor. -/
def fail {α : Type} (cause : Cause) : Parser α := fun s => .error (s.error cause) s

/-- The element at the cursor; it is an error to look behind the end. -/
def current : Parser Element := fun s =>
  match s.current? with
  | some e => .ok e s
  | none => .error (s.error .endOfInput) s

/-- Moves the cursor one element on; it is an error to leave the range. -/
def advance : Parser Unit := fun s =>
  if s.hasNext then .ok () s.next else .error (s.error .endOfInput) s

def expect (kind : TokenKind) (what : Text) : Parser Token := fun s =>
  match s.current? with
  | some (.token t) =>
    if t.kind = kind then .ok t s.next else .error (s.error (.expected what)) s
  | _ => .error (s.error (.expected what)) s

def expectGroup (kind : GroupKind) (what : Text) : Parser Group := fun s =>
  match s.current? with
  | some (.group g) =>
    if g.kind = kind then .ok g s.next else .error (s.error (.expected what)) s
  | _ => .error (s.error (.expected what)) s

/-- The group at the cursor, for a closer look. -/
def currentGroup : Parser Group := fun s =>
  match s.current? with
  | some (.group g) => .ok g s
  | some _ => .error (s.error (.expected (lit "a bracketed group"))) s
  | none => .error (s.error .endOfInput) s

/-- Runs `step` until it gives nothing, and collects what it gave. A step that gives something
without moving the cursor forward is the last one. -/
def many {α : Type} (step : Parser (Option α)) : Parser (List α) := fun s =>
  match step s with
  | .error e s' => .error e s'
  | .ok none s' => .ok [] s'
  | .ok (some a) s' =>
    if s'.rest.length < s.rest.length then
      match many step s' with
      | .ok as s'' => .ok (a :: as) s''
      | .error e s'' => .error e s''
    else .ok [a] s'
termination_by s => s.rest.length

/-- A result found elsewhere; the cursor does not move. -/
def ofExcept {α : Type} (result : Except SourceError α) : Parser α := fun s =>
  match result with
  | .ok a => .ok a s
  | .error e => .error e s

/-- The result of a parser on the elements of a group. -/
def runOn {α : Type} (p : Parser α) (g : Group) : Except SourceError α :=
  match p (.ofGroup g) with
  | .ok a _ => .ok a
  | .error e _ => .error e

/-- Items with commas between them, up to the end of the range; a comma may also close the list. -/
def separated {α : Type} (item : Parser α) (what : Text) : Parser (List α) :=
  many do
    if (← get).hasNext then
      let a ← item
      if (← get).hasNext then
        let _ ← expect .comma what
      return some a
    else
      return none

end Parser

end Unnest
