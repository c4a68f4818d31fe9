import Unnest.Plan.Label

/-!
# The classes of a file

Every class of a file, top-level, nested or anonymous, becomes a class of the header. A `Plan` lists
them in declaration order, each before the classes inside it, and says under which name each of them
is written and which classes it is derived from. Classes refer to each other by their number in the
list.

* `File.classes`: the classes of a file, their bases still unknown;
* `Plan.inner`, `Plan.tops`: the classes directly inside a class, and those inside none.
-/

namespace Unnest

/-- What a class of a plan was in the source. -/
inductive Origin
  /-- A class with a name of its own. -/
  | named (head : TypeHead)
  /-- An anonymous class with its place and base. -/
  | anonymous (place : Place) (base : TypeRef)

/-- A class of a plan. -/
structure ClassInfo where
  origin : Origin
  members : List Member
  /-- The name under which the class is written. -/
  emitted : Text
  /-- The number of the class around it. -/
  parent : Option Nat
  /-- The number of the top-level class around it, or its own. -/
  top : Nat
  /-- The numbers of the classes of the same file that it is derived from. -/
  bases : List Nat := []

namespace ClassInfo

/-- Whether the class has no name of its own. -/
def isAnonymous (c : ClassInfo) : Bool := match c.origin with
  | .named _ => false
  | .anonymous .. => true

/-- The name in the source, empty for an anonymous class. -/
def simpleName (c : ClassInfo) : Text := match c.origin with
  | .named head => head.name
  | .anonymous .. => []

/-- The declaration of a class that has a name of its own. -/
def head? (c : ClassInfo) : Option TypeHead := match c.origin with
  | .named head => some head
  | .anonymous .. => none

/-- Whether the class is of a kind; anonymous classes are of none. -/
def isKind (c : ClassInfo) (kind : ClassKind) : Bool := c.head?.any (·.kind == kind)

def isInterface (c : ClassInfo) : Bool := c.isKind .interface

def isEnum (c : ClassInfo) : Bool := c.isKind .enumeration

/-- The names of the type parameters of the class itself. -/
def typeParams (c : ClassInfo) : List Text := match c.origin with
  | .named head => head.typeParams.map (·.name)
  | .anonymous .. => []

def isTemplate (c : ClassInfo) : Bool := !c.typeParams.isEmpty

def place (c : ClassInfo) : Place := match c.origin with
  | .named head => head.place
  | .anonymous place _ => place

/-- The bases as written, superclasses before interfaces. -/
def baseRefs (c : ClassInfo) : List TypeRef := match c.origin with
  | .named head => head.extending ++ head.implementing
  | .anonymous _ base => [base]

end ClassInfo

/-! ### The classes of a file -/

/-- The class around the code that is searched for classes. -/
structure Enclosing where
  /-- Its number. -/
  self : Nat
  /-- The number of the top-level class around it, or its own. -/
  top : Nat
  /-- The name under which it is written. -/
  emitted : Text

mutual

/-- The classes created by pieces of code; the first of them gets the number `next`. -/
def pieceClasses (within : Enclosing) (next : Nat) : List Piece → List ClassInfo
  | [] => []
  | .token _ :: ps => pieceClasses within next ps
  | .creation a :: ps =>
    let first := a.classes within next
    first ++ pieceClasses within (next + first.length) ps

/-- An anonymous class and the classes inside it. Its arguments are evaluated outside of it, so the
classes in them belong to the class around. -/
def Anonymous.classes (within : Enclosing) (next : Nat) : Anonymous → List ClassInfo
  | ⟨place, base, none, members, _, label⟩ =>
    { origin := .anonymous place base, members, emitted := label.getD [], parent := within.self,
      top := within.top } ::
      memberClasses ⟨next, within.top, label.getD []⟩ (next + 1) members
  | ⟨place, base, some ⟨_, pieces⟩, members, _, label⟩ =>
    let outside := pieceClasses within (next + 1) pieces
    { origin := .anonymous place base, members, emitted := label.getD [], parent := within.self,
      top := within.top } :: outside ++
      memberClasses ⟨next, within.top, label.getD []⟩ (next + 1 + outside.length) members

def declaratorClasses (within : Enclosing) (next : Nat) : List Declarator → List ClassInfo
  | [] => []
  | ⟨_, _, _, _, none⟩ :: ds => declaratorClasses within next ds
  | ⟨_, _, _, _, some ⟨_, pieces⟩⟩ :: ds =>
    let first := pieceClasses within next pieces
    first ++ declaratorClasses within (next + first.length) ds

/-- The classes in a member, the member itself among them if it is a class. -/
def Member.classes (within : Enclosing) (next : Nat) : Member → List ClassInfo
  | .field _ declarators => declaratorClasses within next declarators
  | .method _ none => []
  | .method _ (some ⟨_, pieces⟩) => pieceClasses within next pieces
  | .constructor _ ⟨_, pieces⟩ => pieceClasses within next pieces
  | .nested head members =>
    let emitted := within.emitted ++ lit "_" ++ head.name
    { origin := .named head, members, emitted, parent := within.self, top := within.top } ::
      memberClasses ⟨next, within.top, emitted⟩ (next + 1) members
  | .initializer _ ⟨_, pieces⟩ => pieceClasses within next pieces
  | .constant _ none none => []
  | .constant _ (some ⟨_, pieces⟩) none => pieceClasses within next pieces
  | .constant _ none (some body) => body.classes within next
  | .constant _ (some ⟨_, pieces⟩) (some body) =>
    let first := pieceClasses within next pieces
    first ++ body.classes within (next + first.length)

def memberClasses (within : Enclosing) (next : Nat) : List Member → List ClassInfo
  | [] => []
  | m :: ms =>
    let first := m.classes within next
    first ++ memberClasses within (next + first.length) ms

end

/-- A top-level class and the classes inside it. -/
def TypeDecl.classes (next : Nat) (d : TypeDecl) : List ClassInfo :=
  { origin := .named d.head, members := d.members, emitted := d.head.name, parent := none,
    top := next } ::
    memberClasses ⟨next, next, d.head.name⟩ (next + 1) d.members

/-- The classes of top-level declarations in order, the first with the number `next`. -/
def typeClasses (next : Nat) : List TypeDecl → List ClassInfo
  | [] => []
  | d :: ds =>
    let first := d.classes next
    first ++ typeClasses (next + first.length) ds

/-- The classes of a file in declaration order. -/
def File.classes (f : File) : List ClassInfo := typeClasses 0 f.types

/-! ### Plans -/

/-- The classes of a file in declaration order and the order in which they are to be defined. -/
structure Plan where
  classes : List ClassInfo := []
  /-- The numbers of the classes, bases before derived classes once they are in order. -/
  emission : List Nat := []

namespace Plan

def class? (p : Plan) (i : Nat) : Option ClassInfo := p.classes[i]?

def size (p : Plan) : Nat := p.classes.length

/-- The name under which a class is written. -/
def emitted (p : Plan) (i : Nat) : Text := (p.class? i).elim [] (·.emitted)

def simpleName (p : Plan) (i : Nat) : Text := (p.class? i).elim [] (·.simpleName)

def parent? (p : Plan) (i : Nat) : Option Nat := (p.class? i).bind (·.parent)

/-- The classes of the same file that a class is derived from. -/
def bases (p : Plan) (i : Nat) : List Nat := (p.class? i).elim [] (·.bases)

/-- The classes with a property, in declaration order. -/
def select (p : Plan) (test : ClassInfo → Bool) : List Nat :=
  p.classes.zipIdx.filterMap fun (c, i) => if test c then some i else none

/-- The classes directly inside a class, in declaration order. -/
def inner (p : Plan) (i : Nat) : List Nat := p.select (·.parent == some i)

/-- The top-level classes in declaration order. -/
def tops (p : Plan) : List Nat := p.select (·.parent.isNone)

/-- The first class written under a name. -/
def named? (p : Plan) (emitted : Text) : Option Nat := p.classes.findIdx? (·.emitted == emitted)

end Plan

end Unnest
