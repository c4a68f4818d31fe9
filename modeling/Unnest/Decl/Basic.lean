import Unnest.Token.Basic
import Unnest.Decl.TypeRef

/-!
# Declarations

The classes of a source file with their members. Method bodies, initializers and arguments are not
understood: they are `Code`, a run of tokens in which only the creations of anonymous classes
(`new Base(arguments) { members }`) are taken apart.

Members, code and anonymous classes contain each other, so they are declared together. What a member
says apart from its code stands in a head (`FieldHead`, `MethodHead`, …).
-/

namespace Unnest

/-- The elements that a declaration covers, by their numbers: from `first` to before `stop`. -/
structure Span where
  first : Nat := 0
  stop : Nat := 0
deriving DecidableEq, Repr, Inhabited

/-! ### Modifiers and parameters -/

/-- Who may see a declaration. -/
inductive Access
  | package
  | pub
  | prot
  | priv
deriving DecidableEq, Repr, Inhabited

/-- The run of modifiers and annotations in front of a declaration. -/
structure Modifiers where
  access : Access := .package
  /-- The modifier keywords in source order. -/
  keywords : List Text := []
  /-- The annotations as written. -/
  annotations : List Text := []
deriving DecidableEq, Repr, Inhabited

namespace Modifiers

/-- Whether a keyword is among the modifiers. -/
def has (m : Modifiers) (keyword : String) : Bool := m.keywords.contains (lit keyword)

def isStatic (m : Modifiers) : Bool := m.has "static"

def isFinal (m : Modifiers) : Bool := m.has "final"

def isAbstract (m : Modifiers) : Bool := m.has "abstract"

end Modifiers

/-- A parameter of a method or constructor. -/
structure Parameter where
  place : Place := {}
  name : Text := []
  modifiers : Modifiers := {}
  type : TypeRef := {}
  /-- Any number of arguments, written `Type... name`. -/
  isVariadic : Bool := false
deriving Repr, Inhabited

/-! ### Heads -/

/-- The three sorts of named class. -/
inductive ClassKind
  | normal
  | interface
  | enumeration
deriving DecidableEq, Repr, Inhabited

/-- A class declaration apart from its members. -/
structure TypeHead where
  place : Place := {}
  span : Span := {}
  kind : ClassKind := .normal
  name : Text := []
  modifiers : Modifiers := {}
  typeParams : List TypeParam := []
  extending : List TypeRef := []
  implementing : List TypeRef := []
deriving Repr, Inhabited

/-- A field declaration apart from its declarators. -/
structure FieldHead where
  place : Place := {}
  span : Span := {}
  modifiers : Modifiers := {}
  type : TypeRef := {}
deriving Repr, Inhabited

/-- A constructor apart from its body. -/
structure ConstructorHead where
  place : Place := {}
  span : Span := {}
  name : Text := []
  modifiers : Modifiers := {}
  typeParams : List TypeParam := []
  params : List Parameter := []
  throwing : List TypeRef := []
deriving Repr, Inhabited

/-- A method apart from its body. -/
structure MethodHead extends ConstructorHead where
  returns : TypeRef := {}
deriving Repr, Inhabited

/-- An enum constant apart from its arguments and body. -/
structure ConstantHead where
  place : Place := {}
  span : Span := {}
  name : Text := []
  annotations : List Text := []
deriving Repr, Inhabited

/-- An initializer block apart from its code. -/
structure InitializerHead where
  place : Place := {}
  span : Span := {}
  isStatic : Bool := false
deriving Repr, Inhabited

/-! ### Members and code -/

mutual

/-- A token of code, or the creation of an anonymous class in it. -/
inductive Piece
  | token (t : Token)
  | creation (a : Anonymous)

/-- Code that is not understood. -/
structure Code where
  place : Place
  pieces : List Piece

/-- An anonymous class: `new base(args) { members }`, or an enum constant with a body. -/
structure Anonymous where
  place : Place
  base : TypeRef
  args : Option Code
  members : List Member
  /-- The line of the closing brace. -/
  endLine : Int
  /-- The name it gets as a class of its own, once names are assigned. -/
  label : Option Text

/-- One variable of a field declaration. -/
structure Declarator where
  name : Text
  /-- The dimensions written behind the name. -/
  extraDims : Nat
  line : Int
  col : Int
  init : Option Code

/-- A member of a class. -/
inductive Member
  | field (head : FieldHead) (declarators : List Declarator)
  | method (head : MethodHead) (body : Option Code)
  | constructor (head : ConstructorHead) (body : Code)
  | nested (head : TypeHead) (members : List Member)
  | initializer (head : InitializerHead) (body : Code)
  | constant (head : ConstantHead) (args : Option Code) (body : Option Anonymous)

end

/-- A class declaration at the top level of a file. -/
structure TypeDecl where
  head : TypeHead
  members : List Member

/-- An import. -/
structure Import where
  /-- The dotted name, without a final `.*`. -/
  name : Text
  isStatic : Bool := false
  isWildcard : Bool := false
deriving DecidableEq, Repr

/-- A source file. -/
structure File where
  place : Place := {}
  /-- The package, empty when there is none. -/
  package : Text := []
  imports : List Import := []
  types : List TypeDecl := []

/-! ### Views of code -/

def Piece.token? : Piece → Option Token
  | .token t => some t
  | .creation _ => none

/-- The part of a piece that is an anonymous class. -/
def Piece.creation? : Piece → Option Anonymous
  | .token _ => none
  | .creation a => some a

/-- A run of tokens and the creation behind it; only the last run of a piece of code has none. -/
structure Segment where
  tokens : List Token
  creation : Option Anonymous

/-- Pieces cut behind each creation. -/
def segmentsOf : List Piece → List Segment
  | [] => []
  | .creation a :: ps => ⟨[], some a⟩ :: segmentsOf ps
  | .token t :: ps =>
    match segmentsOf ps with
    | [] => [⟨[t], none⟩]
    | s :: ss => { s with tokens := t :: s.tokens } :: ss

namespace Code

/-- Whether there is nothing in the code. -/
def isEmpty (c : Code) : Bool := c.pieces.isEmpty

/-- The code cut behind each creation. -/
def segments (c : Code) : List Segment := segmentsOf c.pieces

/-- The anonymous classes created by the code itself, in order. -/
def creations (c : Code) : List Anonymous := c.pieces.filterMap (·.creation?)

/-- The tokens in front of the first creation. -/
def leadingTokens (c : Code) : List Token := match c.segments with
  | [] => []
  | s :: _ => s.tokens

/-- The one anonymous class of code that is nothing but its creation, comments in front apart. -/
def soleCreation? (c : Code) : Option Anonymous :=
  match c.segments with
  | [s] => if s.tokens.all (·.kind == .comment) then s.creation else none
  | _ => none

end Code

/-! ### Nodes -/

/-- The sorts of node in a tree of declarations. -/
inductive NodeKind
  | file
  | classDecl
  | nestedClassDecl
  | fieldDecl
  | methodDecl
  | constructorDecl
  | anonymousClass
  | staticInitializer
  | instanceInitializer
  | parameter
  | opaqueBody
  | enumConstant
deriving DecidableEq, Repr

def NodeKind.all : List NodeKind :=
  [.file, .classDecl, .nestedClassDecl, .fieldDecl, .methodDecl, .constructorDecl, .anonymousClass,
    .staticInitializer, .instanceInitializer, .parameter, .opaqueBody, .enumConstant]

/-- The name under which a sort of node is shown. -/
def NodeKind.name : NodeKind → String
  | .file => "File"
  | .classDecl => "ClassDecl"
  | .nestedClassDecl => "NestedClassDecl"
  | .fieldDecl => "FieldDecl"
  | .methodDecl => "MethodDecl"
  | .constructorDecl => "ConstructorDecl"
  | .anonymousClass => "AnonymousClassExpr"
  | .staticInitializer => "StaticInitializer"
  | .instanceInitializer => "InstanceInitializer"
  | .parameter => "Parameter"
  | .opaqueBody => "OpaqueBody"
  | .enumConstant => "EnumConstant"

/-- Any node of a tree of declarations. -/
inductive Node
  | file (f : File)
  | type (d : TypeDecl)
  | member (m : Member)
  | anonymous (a : Anonymous)
  | parameter (p : Parameter)
  | code (c : Code)

namespace Member

def kind : Member → NodeKind
  | field .. => .fieldDecl
  | method .. => .methodDecl
  | constructor .. => .constructorDecl
  | nested .. => .nestedClassDecl
  | initializer head _ => if head.isStatic then .staticInitializer else .instanceInitializer
  | constant .. => .enumConstant

/-- The elements a member covers. -/
def span : Member → Span
  | field head _ => head.span
  | method head _ => head.span
  | constructor head _ => head.span
  | nested head _ => head.span
  | initializer head _ => head.span
  | constant head .. => head.span

/-- The member with the elements it covers noted. -/
def withSpan (span : Span) : Member → Member
  | field head declarators => field { head with span } declarators
  | method head body => method { head with span } body
  | constructor head body => constructor { head with span } body
  | nested head members => nested { head with span } members
  | initializer head body => initializer { head with span } body
  | constant head args body => constant { head with span } args body

def method? : Member → Option (MethodHead × Option Code)
  | method head body => some (head, body)
  | _ => none

def constructor? : Member → Option (ConstructorHead × Code)
  | constructor head body => some (head, body)
  | _ => none

def field? : Member → Option (FieldHead × List Declarator)
  | field head declarators => some (head, declarators)
  | _ => none

end Member

namespace Node

def kind : Node → NodeKind
  | file _ => .file
  | type _ => .classDecl
  | member m => m.kind
  | anonymous _ => .anonymousClass
  | parameter _ => .parameter
  | code _ => .opaqueBody

/-- The member, if the node is one: only members go into the body of a class. -/
def member? : Node → Option Member
  | member m => some m
  | _ => none

theorem filterMap_member? (members : List Member) :
    (members.map member).filterMap member? = members := by
  simp [List.filterMap_map, Function.comp_def, member?]

/-- The node with the elements it covers noted, if it is a member. -/
def withSpan (span : Span) : Node → Node
  | member m => member (m.withSpan span)
  | n => n

end Node

end Unnest
