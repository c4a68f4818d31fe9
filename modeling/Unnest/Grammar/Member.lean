import Unnest.Grammar.Code

/-!
# Forms of members

Each form of member can be recognised without reading it through: `recognize` walks up to the point
that decides, `finish` goes on from there to the end of the member. `parse` reads the member and is
written independently, so that the two can be compared: where `parse` stops must be where `finish`
stops.

* `memberForms`: the six forms in the order in which they are tried;
* `constantForm`: the form of enum constants, tried only at the start of an enum body.
-/

namespace Unnest

open Unnest.Parser

/-- A form of member. -/
structure MemberForm where
  name : Text
  /-- The cursor at the point that decides, if a member of this form begins at the cursor. -/
  recognize : BodyContext → Cursor → Option Cursor
  /-- From the point that decides to the end of the member. -/
  finish : Parser Unit
  parse : BodyContext → Parser Node

namespace MemberForm

/-- The position behind the member at the cursor, if one of this form is there. -/
def extent (form : MemberForm) (ctx : BodyContext) (s : Cursor) : Except SourceError (Option Nat) :=
  match form.recognize ctx s with
  | none => .ok none
  | some decided =>
    match form.finish decided with
    | .ok _ behind => .ok (some behind.pos)
    | .error e _ => .error e

/-- Goes past the first element that satisfies `p`, or to the end. -/
def finishThrough (p : Element → Bool) : Parser Unit := fun s => .ok () (s.skipThrough p).2

end MemberForm

open MemberForm

namespace Parser

def throwing : Parser (List TypeRef) := do
  if (← get).isAt .kwThrows then
    advance
    typeList
  else
    return []

/-- The type parameters at the cursor, if there are any. -/
def typeParams : Parser (List TypeParam) := do
  if (← get).isAtGroup .angle then
    let g ← expectGroup .angle (lit "type parameters")
    ofExcept g.typeParams
  else
    return []

/-! ### Fields -/

/-- One variable with its initializer, which must not be empty. -/
def declarator (inside : Inside) : Parser Declarator := do
  let name ← expect .ident (lit "field name")
  let extraDims ← dims
  let declared : Declarator :=
    { name := name.text, extraDims, line := name.line, col := name.col, init := none }
  if (← get).isAt .equal then
    advance
    let init ← codeUntil inside [.comma, .semi]
    if init.isEmpty then
      fail (.expected (lit "field initializer"))
    return { declared with init := some init }
  else
    return declared

def fieldDecl (inside : Inside) : Parser Member := do
  let place := (← get).here.place
  let modifiers ← modifiers
  let type ← typeRef
  let first ← declarator inside
  let more ← many do
    if (← get).isAt .comma then
      advance
      return some (← declarator inside)
    else
      return none
  let _ ← expect .semi (lit "';' after field declaration")
  return .field { place, modifiers, type } (first :: more)

/-! ### Methods and constructors -/

/-- A method with its body; without one it is abstract in an interface, unless it is static. -/
def methodDecl (inside : Inside) (ctx : BodyContext) : Parser Member := do
  let place := (← get).here.place
  let front ← modifiers
  let hasTypeParams := (← get).isAtGroup .angle
  let typeParams ← typeParams
  let behind ← if hasTypeParams then modifiers else pure {}
  let modifiers := { front with annotations := front.annotations ++ behind.annotations }
  let type ← typeRef
  let name ← expect .ident (lit "method name")
  let params ← ofExcept (← expectGroup .round (lit "parameter list")).parameters
  let extra ← dims
  let throwing ← throwing
  let head : MethodHead :=
    { place, name := name.text, modifiers, typeParams, params, throwing
      returns := { type with dims := type.dims + extra } }
  if (← get).isAtGroup .curly then
    let g ← expectGroup .curly (lit "method body")
    return .method head (some (← ofExcept (Code.ofGroup inside g)))
  else
    let _ ← expect .semi (lit "method body or ';'")
    if ctx.classKind = .interface && !modifiers.isStatic && !modifiers.isAbstract then
      let keywords := modifiers.keywords ++ [lit "abstract"]
      return .method { head with modifiers := { modifiers with keywords } } none
    else
      return .method head none

def constructorDecl (inside : Inside) : Parser Member := do
  let place := (← get).here.place
  let modifiers ← modifiers
  let typeParams ← typeParams
  let name ← expect .ident (lit "constructor name")
  let params ← ofExcept (← expectGroup .round (lit "parameter list")).parameters
  let throwing ← throwing
  let body ← ofExcept
    (Code.ofGroup inside (← expectGroup .curly (lit "constructor body")))
  return .constructor { place, name := name.text, modifiers, typeParams, params, throwing } body

/-! ### Initializers -/

/-- An initializer block; `static` stands in front of a static one. -/
def initializerDecl (inside : Inside) (isStatic : Bool) : Parser Member := do
  let place := (← get).here.place
  if isStatic then
    let _ ← expect (.modifier .static) (lit "'static'")
  let body ← ofExcept
    (Code.ofGroup inside (← expectGroup .curly (lit "initializer block")))
  return .initializer { place, isStatic } body

/-! ### Classes -/

/-- The word that says which sort of class is declared. -/
def classKeyword : Parser ClassKind := do
  let s ← get
  if s.isAt .kwClass then
    advance
    return .normal
  else if s.isAt .kwInterface then
    advance
    return .interface
  else if s.isAt .kwEnum then
    advance
    return .enumeration
  else
    fail (.expected (lit "'class', 'interface' or 'enum'"))

/-- Types behind a word, if the word is there. -/
def typesBehind (isThere : Cursor → Bool) : Parser (List TypeRef) := do
  if isThere (← get) then
    advance
    typeList
  else
    return []

/-- A class declaration with its members. The permitted subclasses of a sealed class are read and
left out. -/
def typeDecl (inside : Inside) : Parser TypeDecl := do
  let place := (← get).here.place
  let modifiers ← modifiers
  let kind ← classKeyword
  let name ← expect .ident (lit "type name")
  let typeParams ← typeParams
  let extending ← typesBehind (·.isAt .kwExtends)
  let implementing ← typesBehind (·.isAt .kwImplements)
  let _ ← typesBehind (·.isAtName (lit "permits"))
  let body ← expectGroup .curly (lit "class body")
  let ctx : BodyContext :=
    { className := name.text, classKind := kind, inConstants := kind = .enumeration }
  let members ← ofExcept (inside.members ctx body)
  return {
    head := { place, kind, name := name.text, modifiers, typeParams, extending, implementing }
    members }

/-! ### Enum constants -/

/-- The annotations in front of an enum constant. -/
def constantAnnotations : Parser (List Text) :=
  many do
    if (← get).isAt .atSign then
      return some (← annotationText)
    else
      return none

/-- An enum constant with the comma behind it. A constant with a body is an anonymous class on top
of the enum, which then has the arguments of the constant. -/
def constantDecl (inside : Inside) (ctx : BodyContext) : Parser Member := do
  let place := (← get).here.place
  let annotations ← constantAnnotations
  let name ← expect .ident (lit "enum constant name")
  let args ← do
    if (← get).isAtGroup .round then
      let g ← expectGroup .round (lit "constant arguments")
      pure (some (← ofExcept (Code.ofGroup inside g)))
    else
      pure none
  let head : ConstantHead := { place, name := name.text, annotations }
  let constant ← do
    if (← get).isAtGroup .curly then
      let body ← expectGroup .curly (lit "constant body")
      let members ← ofExcept (inside.members {} body)
      let anonymous : Anonymous :=
        { place := name.place, base := { name := ctx.className }, args, members
          endLine := body.closing.line, label := none }
      pure (Member.constant head none (some anonymous))
    else
      pure (Member.constant head args none)
  if (← get).isAt .comma then
    advance
  return constant

end Parser

/-! ### The forms -/

/-- `Type name` and then `=`, `;`, `,` or `[]`. -/
def recognizeField (s : Cursor) : Option Cursor :=
  match s.skipModifiers.skipType with
  | (false, _) => none
  | (true, s) =>
    if s.isAt .ident then
      let s := s.next
      if s.isAt .equal || s.isAt .semi || s.isAt .comma || s.isAtEmptyGroup .square then some s
      else none
    else none

/-- `Type name(…)` and then `throws`, a body or `;`. -/
def recognizeMethod (s : Cursor) : Option Cursor :=
  let s := s.skipModifiers.skipAngle.skipModifiers
  match if s.isAt .kwVoid then (true, s.next) else s.skipType with
  | (false, _) => none
  | (true, s) =>
    if s.isAt .ident && s.next.isAtGroup .round then
      let s := s.next.next.skipDims
      if s.isAt .kwThrows || s.isAtGroup .curly || s.isAt .semi then some s else none
    else none

/-- `class`, `interface` or `enum` and then a name. -/
def recognizeClass (s : Cursor) : Option Cursor :=
  let s := s.skipModifiers
  if s.isAt .kwClass || s.isAt .kwInterface || s.isAt .kwEnum then
    if s.next.isAt .ident then some s.next else none
  else none

/-- `static` and then a block. -/
def recognizeStatic (s : Cursor) : Option Cursor :=
  if s.isAt (.modifier .static) && s.next.isAtGroup .curly then some s.next else none

/-- A block. -/
def recognizeInstance (s : Cursor) : Option Cursor :=
  if s.isAtGroup .curly then some s else none

/-- The name of the class, `(…)` and then `throws` or a body; never in an anonymous class. -/
def recognizeConstructor (ctx : BodyContext) (s : Cursor) : Option Cursor :=
  if ctx.className.isEmpty then none
  else
    let s := s.skipModifiers.skipAngle
    if s.isAtName ctx.className && s.next.isAtGroup .round then
      let s := s.next.next
      if s.isAt .kwThrows || s.isAtGroup .curly then some s else none
    else none

/-- Moves over annotations, as long as they are well formed. -/
def skipAnnotations (s : Cursor) : Option Cursor :=
  let s' := s.iterate fun s =>
    match s.skipAnnot with
    | (true, s') => some s'
    | (false, _) => none
  if s'.isAt .atSign then none else some s'

/-- A name with arguments and a body, each optional, and then `,`, `;` or the end; only while the
list of constants goes on. -/
def recognizeConstant (ctx : BodyContext) (s : Cursor) : Option Cursor :=
  if ctx.classKind = .enumeration && ctx.inConstants then
    (skipAnnotations s).bind fun s =>
      if s.isAt .ident then
        let s := s.next
        let s := if s.isAtGroup .round then s.next else s
        let s := if s.isAtGroup .curly then s.next else s
        if !s.hasNext || s.isAt .comma || s.isAt .semi then some s else none
      else none
  else none

/-- A form whose `parse` reads a member. -/
def formOf (name : String) (recognize : BodyContext → Cursor → Option Cursor) (finish : Parser Unit)
    (parse : BodyContext → Parser Member) : MemberForm :=
  { name := lit name, recognize, finish, parse := fun ctx => Node.member <$> parse ctx }

def fieldForm (inside : Inside) : MemberForm :=
  formOf "field" (fun _ => recognizeField) (finishThrough (·.is .semi)) fun _ => fieldDecl inside

def methodForm (inside : Inside) : MemberForm :=
  formOf "method" (fun _ => recognizeMethod)
    (finishThrough fun e => e.isGroup .curly || e.is .semi) (methodDecl inside)

def classForm (inside : Inside) : MemberForm :=
  formOf "nested class" (fun _ => recognizeClass) (finishThrough (·.isGroup .curly)) fun _ => do
    let decl ← typeDecl inside
    return .nested decl.head decl.members

def staticForm (inside : Inside) : MemberForm :=
  formOf "static initializer" (fun _ => recognizeStatic) advance fun _ =>
    initializerDecl inside true

def instanceForm (inside : Inside) : MemberForm :=
  formOf "instance initializer" (fun _ => recognizeInstance) advance fun _ =>
    initializerDecl inside false

def constructorForm (inside : Inside) : MemberForm :=
  formOf "constructor" recognizeConstructor (finishThrough (·.isGroup .curly)) fun _ =>
    constructorDecl inside

def constantForm (inside : Inside) : MemberForm :=
  formOf "enum constant" recognizeConstant (fun s => .ok () (if s.isAt .comma then s.next else s))
    (constantDecl inside)

/-- The forms of members in the order in which they are tried. -/
def memberForms (inside : Inside) : List MemberForm :=
  [fieldForm inside, methodForm inside, classForm inside, staticForm inside, instanceForm inside,
    constructorForm inside]

end Unnest
