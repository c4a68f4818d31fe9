import Unnest.Decl.Basic

/-!
# Outlines

An outline shows the declarations of a file, one line each, indented by their depth. Of code it only
shows how many tokens it has and which anonymous classes it creates; the arguments of a creation are
not shown.
-/

namespace Unnest

/-- A line of an outline: how deep it is indented and what it says. -/
structure OutlineLine where
  depth : Nat
  text : Text
deriving DecidableEq, Repr

namespace Outline

/-- The word for a sort of class. -/
def kindText : ClassKind → Text
  | .normal => lit "class"
  | .interface => lit "interface"
  | .enumeration => lit "enum"

/-- Annotations and modifiers, each with a space behind it. -/
def modifiersText (m : Modifiers) : Text :=
  ((m.annotations ++ m.keywords).map (· ++ lit " ")).flatten

/-- A class declaration; `node` is the sort of node it is. -/
def typeText (node : NodeKind) (head : TypeHead) : Text :=
  lit node.name ++ lit " " ++ kindText head.kind ++ lit " " ++ head.name ++
    (head.extending.map fun t => lit " extends " ++ t.text).flatten ++
    (head.implementing.map fun t => lit " implements " ++ t.text).flatten

def fieldText (head : FieldHead) : Text :=
  lit "FieldDecl " ++ modifiersText head.modifiers ++ head.type.text

def methodText (head : MethodHead) (hasBody : Bool) : Text :=
  lit "MethodDecl " ++ modifiersText head.modifiers ++ head.returns.text ++ lit " " ++ head.name ++
    if hasBody then [] else lit " (no body)"

def constructorText (head : ConstructorHead) : Text :=
  lit "ConstructorDecl " ++ modifiersText head.modifiers ++ head.name

def parameterText (p : Parameter) : Text :=
  lit "Parameter " ++ p.type.text ++ (if p.isVariadic then lit "... " else lit " ") ++ p.name

/-- Code with so many tokens. -/
def codeText (pieces : List Piece) : Text :=
  lit "OpaqueBody tokens=" ++ Text.decimal (pieces.filterMap (·.token?)).length

def parameterLines (depth : Nat) (params : List Parameter) : List OutlineLine :=
  params.map fun p => ⟨depth, parameterText p⟩

def importText (i : Import) : Text :=
  lit "Import " ++ (if i.isStatic then lit "static " else []) ++ i.name ++
    if i.isWildcard then lit ".*" else []

end Outline

open Outline

mutual

/-- The anonymous classes created by pieces of code. -/
def creationLines (depth : Nat) : List Piece → List OutlineLine
  | [] => []
  | .token _ :: ps => creationLines depth ps
  | .creation a :: ps => a.outline depth ++ creationLines depth ps

/-- An anonymous class with its members. -/
def Anonymous.outline (depth : Nat) : Anonymous → List OutlineLine
  | ⟨_, base, _, members, _, _⟩ =>
    ⟨depth, lit "AnonymousClassExpr base=" ++ base.text⟩ :: membersOutline (depth + 1) members

/-- The variables of a field with their initializers. -/
def declaratorLines (depth : Nat) : List Declarator → List OutlineLine
  | [] => []
  | ⟨name, _, _, _, none⟩ :: ds => ⟨depth, lit "Declarator " ++ name⟩ :: declaratorLines depth ds
  | ⟨name, _, _, _, some ⟨_, pieces⟩⟩ :: ds =>
    ⟨depth, lit "Declarator " ++ name⟩ :: ⟨depth + 1, codeText pieces⟩ ::
      creationLines (depth + 2) pieces ++ declaratorLines depth ds

def Member.outline (depth : Nat) : Member → List OutlineLine
  | .field head declarators => ⟨depth, fieldText head⟩ :: declaratorLines (depth + 1) declarators
  | .method head none =>
    ⟨depth, methodText head false⟩ :: parameterLines (depth + 1) head.params
  | .method head (some ⟨_, pieces⟩) =>
    ⟨depth, methodText head true⟩ :: parameterLines (depth + 1) head.params ++
      ⟨depth + 1, codeText pieces⟩ :: creationLines (depth + 2) pieces
  | .constructor head ⟨_, pieces⟩ =>
    ⟨depth, constructorText head⟩ :: parameterLines (depth + 1) head.params ++
      ⟨depth + 1, codeText pieces⟩ :: creationLines (depth + 2) pieces
  | .nested head members =>
    ⟨depth, typeText .nestedClassDecl head⟩ :: membersOutline (depth + 1) members
  | .initializer head ⟨_, pieces⟩ =>
    ⟨depth, lit (if head.isStatic then "StaticInitializer" else "InstanceInitializer")⟩ ::
      ⟨depth + 1, codeText pieces⟩ :: creationLines (depth + 2) pieces
  | .constant head none none => [⟨depth, lit "EnumConstant " ++ head.name⟩]
  | .constant head (some ⟨_, pieces⟩) none =>
    ⟨depth, lit "EnumConstant " ++ head.name⟩ ::
      ⟨depth + 1, codeText pieces⟩ :: creationLines (depth + 2) pieces
  | .constant head none (some body) =>
    ⟨depth, lit "EnumConstant " ++ head.name⟩ :: body.outline (depth + 1)
  | .constant head (some ⟨_, pieces⟩) (some body) =>
    ⟨depth, lit "EnumConstant " ++ head.name⟩ ::
      ⟨depth + 1, codeText pieces⟩ :: creationLines (depth + 2) pieces ++ body.outline (depth + 1)

def membersOutline (depth : Nat) : List Member → List OutlineLine
  | [] => []
  | m :: ms => m.outline depth ++ membersOutline depth ms

end

def File.outlineLines (f : File) : List OutlineLine :=
  ⟨0, lit "File package=" ++ if f.package.isEmpty then lit "<default>" else f.package⟩ ::
    (f.imports.map fun i => ⟨1, importText i⟩) ++
    (f.types.map fun d => ⟨1, typeText .classDecl d.head⟩ :: membersOutline 2 d.members).flatten

/-- The outline of a file; each step of depth is two spaces. -/
def File.outline (f : File) : Text :=
  (f.outlineLines.map fun l => Text.spaces (2 * l.depth) ++ l.text ++ lit "\n").flatten

end Unnest
