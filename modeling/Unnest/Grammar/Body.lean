import Unnest.Grammar.Member

/-!
# Class bodies

The body of a class is read member by member. At each member the forms are tried in order, and the
first one that recognises the member reads it. A form must then have read exactly as far as it
announced. Semicolons between members are passed over.

`insideAt` ties the knot between bodies and code: elements with `levels` levels of groups are read
with the readings for one level less. `Inside.ofElements` starts it with the depth of the elements,
so the levels never run out.

* `dispatchWith`: the members of a range, by any list of forms;
* `dispatch`: the same with the forms of the language;
* `Group.members`, `Group.code`: the two readings of a group.
-/

namespace Unnest

/-- The members read from a range, where the cursor got to, and the error that stopped it. -/
structure Dispatched where
  members : List Member
  cursor : Cursor
  failure : Option SourceError

namespace Dispatched

/-- The same with more members in front. -/
def prepend (members : List Member) (d : Dispatched) : Dispatched :=
  { d with members := members ++ d.members }

def toExcept (d : Dispatched) : Except SourceError (List Member) :=
  match d.failure with
  | none => .ok d.members
  | some e => .error e

end Dispatched

/-- The form that recognises the member at the cursor, the point that decided it, and the context
afterwards. While the list of enum constants goes on only their form is tried; the first element
that is none ends the list. -/
def selectForm (constant : MemberForm) (forms : List MemberForm) (ctx : BodyContext) (s : Cursor) :
    Option (MemberForm × Cursor) × BodyContext :=
  match if ctx.inConstants then constant.recognize ctx s else none with
  | some decided => (some (constant, decided), ctx)
  | none =>
    let ctx := { ctx with inConstants := false }
    (forms.findSome? fun form => (form.recognize ctx s).map (form, ·), ctx)

/-- What reading one member gives. -/
inductive MemberStep
  | read (node : Node) (ctx : BodyContext) (behind : Cursor)
  | failed (error : SourceError) (cursor : Cursor)

def memberStep (constant : MemberForm) (forms : List MemberForm) (ctx : BodyContext) (s : Cursor) :
    MemberStep :=
  match selectForm constant forms ctx s with
  | (none, _) => .failed (s.error (.noMember ctx.className)) s
  | (some (form, decided), ctx) =>
    match form.finish decided with
    | .error e _ => .failed e s
    | .ok _ announced =>
      match form.parse ctx s with
      | .error e s' => .failed e s'
      | .ok node s' =>
        if s'.pos = announced.pos then
          let inConstants := ctx.inConstants && node.kind == .enumConstant
          .read (node.withSpan ⟨s.pos, s'.pos⟩) { ctx with inConstants } s'
        else .failed (s.error (.extentMismatch form.name s'.pos announced.pos)) s'

/-- The members from the cursor to the end of its range. A node that is no member is left out. -/
def dispatchWith (constant : MemberForm) (forms : List MemberForm) (ctx : BodyContext)
    (s : Cursor) :
    Dispatched :=
  if h : s.hasNext then
    if s.isAt .semi then
      have := Cursor.length_rest_next_lt h
      dispatchWith constant forms { ctx with inConstants := false } s.next
    else
      match memberStep constant forms ctx s with
      | .failed e s' => ⟨[], s', some e⟩
      | .read node ctx s' =>
        if s'.rest.length < s.rest.length then
          (dispatchWith constant forms ctx s').prepend node.member?.toList
        else ⟨node.member?.toList, s', none⟩
  else ⟨[], s, none⟩
termination_by s.rest.length

/-- How elements with at most `levels` levels of groups in them are read. -/
def insideAt : (levels : Nat) → Inside
  | 0 => { pieces := fun _ => .ok [], members := fun _ _ => .ok [] }
  | levels + 1 =>
    let inside := insideAt levels
    { pieces := piecesWith inside 0
      members := fun ctx g =>
        (dispatchWith (constantForm inside) (memberForms inside) ctx (.ofGroup g)).toExcept }

/-- How the insides of the groups among the given elements are read. -/
def Inside.ofElements (es : List Element) : Inside := insideAt (depthAll es)

/-- The members from the cursor to the end of its range. -/
def dispatch (ctx : BodyContext) (s : Cursor) : Dispatched :=
  let inside := Inside.ofElements s.rest
  dispatchWith (constantForm inside) (memberForms inside) ctx s

def Group.members (g : Group) (ctx : BodyContext) : Except SourceError (List Member) :=
  (dispatch ctx (.ofGroup g)).toExcept

def Group.code (g : Group) : Except SourceError Code :=
  Code.ofGroup (insideAt (depthAll g.children + 1)) g

end Unnest
