import Unnest.Token.Basic

/-!
# Groups

A grouped source is a tree: its elements are tokens and groups, and a group holds the elements
between an opening and a closing bracket. The whole source is the root group, which has no opening
bracket and whose closing token is the one behind the last token.

* `Element.flatten`, `Group.flatten`: the tokens of a tree, brackets included;
* `Element.depth`: how deeply groups are nested.
-/

namespace Unnest

/-- The brackets a group can stand between. -/
inductive GroupKind
  | root
  | curly
  | round
  | square
  | angle
deriving DecidableEq, Repr, Inhabited

mutual

/-- A token or a group. -/
inductive Element
  | token (t : Token)
  | group (g : Group)

/-- The elements between two brackets. -/
structure Group where
  kind : GroupKind
  opening : Token
  closing : Token
  children : List Element

end

def GroupKind.all : List GroupKind := [.root, .curly, .round, .square, .angle]

/-- The name under which a kind of group is shown. -/
def GroupKind.name : GroupKind → String
  | .root => "Root"
  | .curly => "Curly"
  | .round => "Round"
  | .square => "Square"
  | .angle => "Angle"

namespace Element

/-- Whether an element is a token of the given kind. -/
def is (kind : TokenKind) : Element → Bool
  | token t => t.kind == kind
  | group _ => false

/-- Whether an element is a group of the given kind. -/
def isGroup (kind : GroupKind) : Element → Bool
  | token _ => false
  | group g => g.kind == kind

abbrev isComment (e : Element) : Bool := e.is .comment

/-- The token itself, or the opening bracket of a group. -/
def firstToken : Element → Token
  | token t => t
  | group g => g.opening

def token? : Element → Option Token
  | token t => some t
  | group _ => none

def group? : Element → Option Group
  | token _ => none
  | group g => some g

/-- Whether an element is a group of the given kind with nothing but comments in it. -/
def isEmptyGroup (kind : GroupKind) : Element → Bool
  | token _ => false
  | group g => g.kind == kind && g.children.all (·.isComment)

end Element

mutual

/-- The tokens of an element, brackets included. -/
def Element.flatten : Element → List Token
  | .token t => [t]
  | .group ⟨_, opening, closing, children⟩ => opening :: flattenAll children ++ [closing]

def flattenAll : List Element → List Token
  | [] => []
  | e :: es => e.flatten ++ flattenAll es

end

mutual

/-- How many groups, at most, stand one in another. -/
def Element.depth : Element → Nat
  | .token _ => 0
  | .group ⟨_, _, _, children⟩ => depthAll children + 1

def depthAll : List Element → Nat
  | [] => 0
  | e :: es => max e.depth (depthAll es)

end

namespace Group

/-- The tokens of a group; the root has no brackets of its own. -/
def flatten (g : Group) : List Token :=
  if g.kind = .root then flattenAll g.children
  else g.opening :: flattenAll g.children ++ [g.closing]

end Group

end Unnest
