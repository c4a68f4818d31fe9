import Unnest.Header.Basic
import Unnest.Header.Overriding

/-!
# Class definitions

The definition of a class in a header: its bases, the classes it trusts, the names of the classes it
can see, and the declarations of its members. What the members do is written behind all classes.

* `Header.forwardDeclaration`: a class announced;
* `Header.definition`: a class defined.
-/

namespace Unnest.Header

/-! ### Names of classes -/

/-- The announcement of a class. -/
def forwardDeclaration (c : ClassInfo) : Text :=
  (if c.isTemplate then templateHead c.typeParams ++ lit " " else []) ++
    lit "class " ++ c.emitted ++ lit ";\n"

/-- The declaration of another class as a friend. -/
def friendText (h : Header) (other : ClassInfo) : Text :=
  h.indent 1 ++
    (if other.isTemplate then
      lit "template <" ++ Text.join (lit ", ") (other.typeParams.map fun _ => lit "typename") ++
      lit "> "
    else []) ++
    lit "friend class " ++ other.emitted ++ lit ";\n"

/-- The other classes of the same top-level class, as friends. -/
def friends (h : Header) (i : Nat) (c : ClassInfo) : Text :=
  h.plan.classes.zipIdx.flatMap fun (other, j) =>
    if j ≠ i ∧ other.top = c.top then h.friendText other else []

/-- The classes in the list with names not seen before; of several classes with one name the
first. -/
def firstNamed (p : Plan) (seen : List Text) : List Nat → List Nat
  | [] => []
  | i :: is =>
    if seen.contains (p.simpleName i) then firstNamed p seen is
    else i :: firstNamed p (p.simpleName i :: seen) is

/-- The classes that a class sees by their simple names, innermost scope first. -/
def visibleClasses (p : Plan) (i : Nat) : List Nat :=
  firstNamed p [] ((p.outward i).flatMap fun scope =>
    (p.inner scope).filter fun j => (p.class? j).any (!·.isAnonymous))

/-- The simple name of a class as another name for it. -/
def aliasText (h : Header) (c : ClassInfo) : Text :=
  h.indent 1 ++
    if c.isTemplate then
      lit "template <typename... Ts> using " ++ c.simpleName ++ lit " = " ++ c.emitted ++
      lit "<Ts...>;\n"
    else lit "using " ++ c.simpleName ++ lit " = " ++ c.emitted ++ lit ";\n"

/-- The simple names of the classes a class sees. -/
def aliases (h : Header) (i : Nat) : List (Visibility × Text) :=
  (visibleClasses h.plan i).filterMap fun j =>
    (h.plan.class? j).map fun c => (.pub, h.aliasText c)

/-! ### Members -/

/-- The constructor of an anonymous class, which hands its arguments on to the base. -/
def forwardingConstructor (h : Header) (c : ClassInfo) : Text :=
  h.indent 1 ++ lit "template <typename... Args>\n" ++
    h.indent 1 ++ lit "explicit " ++ c.emitted ++ lit "(Args&&... args) : " ++ h.superName c ++
    lit "(std::forward<Args>(args)...) \x7b" ++
    (if c.needsInitInstance then lit " initInstance(); \x7d\n" else lit "\x7d\n")

/-- The declarations of the variables of a field. -/
def fieldText (h : Header) (i : Nat) (c : ClassInfo) (head : FieldHead)
    (declarators : List Declarator) : Text :=
  declarators.flatMap fun d =>
    h.indent 1 ++ (if c.isStaticField head then lit "inline static " else []) ++
      (h.typeScope i c []).valueType { head.type with dims := head.type.dims + d.extraDims } ++
      lit " " ++ d.name ++ lit "\x7b\x7d;\n"

/-- The line that makes a member a template. -/
def memberTemplate (h : Header) (typeParams : List TypeParam) : Text :=
  if typeParams.isEmpty then []
  else h.indent 1 ++ templateHead (typeParams.map (·.name)) ++ lit "\n"

def methodText (h : Header) (i : Nat) (c : ClassInfo) (m : MethodHead) (body : Option Code) :
    Text :=
  let types := h.typeScope i c m.typeParams
  let overriding := h.plan.isOverriding i m
  let isVirtual := h.plan.isVirtual i c m body
  h.memberTemplate m.typeParams ++ h.indent 1 ++
    (if m.modifiers.isStatic then lit "static "
      else if isVirtual && !overriding then lit "virtual " else []) ++
    types.valueType m.returns ++ lit " " ++ m.name ++ lit "(" ++ paramsText types m.params ++
    lit ")" ++
    (if overriding then lit " override" else []) ++
    (if overriding && m.modifiers.isFinal then lit " final" else []) ++
    (if c.isAbstractMethod m body && isVirtual then lit " = 0" else []) ++ lit ";\n"

def constructorText (h : Header) (i : Nat) (c : ClassInfo) (head : ConstructorHead) : Text :=
  h.memberTemplate head.typeParams ++ h.indent 1 ++ c.emitted ++ lit "(" ++
    paramsText (h.typeScope i c head.typeParams) head.params ++ lit ");\n"

/-- The section for a member. All members of an interface are public. -/
def sectionOf (c : ClassInfo) (m : Modifiers) : Visibility :=
  if c.isInterface then .pub else m.access.visibility

/-- The section for a constructor. The bodies of enum constants are derived from the enum, so its
private constructors are open to them. -/
def constructorSection (c : ClassInfo) (m : Modifiers) : Visibility :=
  if c.isEnum && m.access == .priv then .prot else m.access.visibility

/-- The declaration of a member with its section. Nested classes stand on their own, and initializer
blocks have no declaration. -/
def memberText (h : Header) (i : Nat) (c : ClassInfo) : Member → List (Visibility × Text)
  | .field head declarators => [(sectionOf c head.modifiers, h.fieldText i c head declarators)]
  | .method head body => [(sectionOf c head.modifiers, h.methodText i c head body)]
  | .constructor head _ => [(constructorSection c head.modifiers, h.constructorText i c head)]
  | .constant head .. =>
    [(.pub, h.indent 1 ++ lit "inline static " ++ c.emitted ++ lit "* " ++ head.name ++
      lit "\x7b\x7d;\n")]
  | .nested .. | .initializer .. => []

/-- The declarations of the functions that a class has for its initialization. -/
def initDeclarations (h : Header) (c : ClassInfo) : List (Visibility × Text) :=
  (if c.needsConstructor then [(.pub, h.indent 1 ++ c.emitted ++ lit "();\n")] else []) ++
    (if c.needsInitStatic then [(.pub, h.indent 1 ++ lit "static void initStatic();\n")] else []) ++
    (if c.needsInitInstance then [(.priv, h.indent 1 ++ lit "void initInstance();\n")] else [])

def definition (h : Header) (i : Nat) (c : ClassInfo) : Text :=
  (if c.isTemplate then templateHead c.typeParams ++ lit "\n" else []) ++
    lit "class " ++ c.emitted ++
    (match h.baseNames c with
      | [] => []
      | names => lit " : " ++ Text.join (lit ", ") (names.map (lit "public " ++ ·))) ++
    lit " \x7b\n" ++ h.friends i c ++
    sections .priv
      (h.aliases i ++
        (if c.isAnonymous then [(.pub, h.forwardingConstructor c)] else []) ++
        c.members.flatMap (h.memberText i c) ++ h.initDeclarations c) ++
    lit "\x7d;\n\n"

end Unnest.Header
