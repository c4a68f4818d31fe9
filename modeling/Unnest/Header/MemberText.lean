import Unnest.Header.ClassText
import Unnest.Header.ConstructorCall
import Unnest.Header.Layout

/-!
# Member definitions

What the members of a class do, written behind all class definitions: the two functions that
initialize the class and its objects, the constructors, and the methods that have code.

* `Header.memberDefinitions`: the definitions for one class.
-/

namespace Unnest.Header

/-- The class in front of the name of a member. -/
def qualifier (c : ClassInfo) : Text := c.emitted ++ templateArgs c.typeParams ++ lit "::"

/-- What precedes the definition of a member: the templates it belongs to, or else `inline`. -/
def definitionHead (c : ClassInfo) (typeParams : List TypeParam) : Text :=
  (if c.isTemplate then templateHead c.typeParams ++ lit "\n" else []) ++
    (if typeParams.isEmpty then [] else templateHead (typeParams.map (·.name)) ++ lit "\n") ++
    (if c.isTemplate || !typeParams.isEmpty then [] else lit "inline ")

/-- The lines of a block; nothing at all if there is nothing to write. -/
def blockText (h : Header) (code : Code) (depth skip : Nat) : Except SourceError Text := do
  if code.isEmpty then return []
  let text ← code.block (h.indent depth) skip
  return if text.isEmpty then [] else text ++ lit "\n"

/-! ### Initialization -/

/-- Arguments inside an initialization. -/
def argsText (h : Header) : Option Code → Except SourceError Text
  | none => return []
  | some code => code.expression (h.indent 2)

/-- One step of an initialization. -/
def initItemText (h : Header) (c : ClassInfo) : InitItem → Except SourceError Text
  | .constant name args none => do
    return h.indent 1 ++ name ++ lit " = new " ++ c.emitted ++ lit "(" ++ (← h.argsText args) ++
      lit ");\n"
  | .constant name _ (some body) => do
    return h.indent 1 ++ name ++ lit " = new " ++ body.label.getD c.emitted ++ lit "(" ++
      (← h.argsText body.args) ++ lit ");\n"
  | .assign name value => do
    return h.indent 1 ++ name ++ lit " = " ++ (← value.expression (h.indent 2)) ++ lit ";\n"
  | .block code => do
    return h.indent 1 ++ lit "\x7b\n" ++ (← h.blockText code 2 0) ++ h.indent 1 ++ lit "\x7d\n"

/-- A function that carries out an initialization. -/
def initFunction (h : Header) (c : ClassInfo) (name : String) (items : List InitItem) :
    Except SourceError Text := do
  return definitionHead c [] ++ lit "auto " ++ qualifier c ++ lit name ++ lit "() -> void \x7b\n" ++
    (← items.mapM (h.initItemText c)).flatten ++ lit "\x7d\n\n"

/-- The constructor of a class that has none, if its objects have to be initialized. -/
def plainConstructor (h : Header) (c : ClassInfo) : Text :=
  if c.needsConstructor then
    definitionHead c [] ++ qualifier c ++ c.emitted ++ lit "() \x7b\n" ++ h.indent 1 ++
      lit "initInstance();\n\x7d\n\n"
  else []

/-! ### Constructors and methods -/

/-- The definition of a constructor. A call of another constructor moves in front of the body, and
unless one of the same class is called, the object is initialized first. -/
def constructorDefinition (h : Header) (i : Nat) (c : ClassInfo) (head : ConstructorHead)
    (body : Code) : Except SourceError Text := do
  let call := leadingCall? body.leadingTokens
  let chained ← match call with
    | none => pure []
    | some call =>
      let callee := if call.delegates then c.emitted ++ templateArgs c.typeParams else h.superName c
      pure (lit " : " ++ callee ++ lit "(" ++ (← tokensExpression call.args (h.indent 1)) ++
        lit ")")
  let delegates := call.any (·.delegates)
  return definitionHead c head.typeParams ++ qualifier c ++ c.emitted ++ lit "(" ++
    paramsText (h.typeScope i c head.typeParams) head.params ++ lit ")" ++ chained ++
    lit " \x7b\n" ++
    (if !delegates && c.needsInitInstance then h.indent 1 ++ lit "initInstance();\n" else []) ++
    (← h.blockText body 1 (call.elim 0 (·.length))) ++ lit "\x7d\n\n"

/-- A method up to its opening brace. -/
def methodHeadText (h : Header) (i : Nat) (c : ClassInfo) (m : MethodHead) : Text :=
  let types := h.typeScope i c m.typeParams
  definitionHead c m.typeParams ++ lit "auto " ++ qualifier c ++ m.name ++ lit "(" ++
    paramsText types m.params ++ lit ") -> " ++ types.valueType m.returns ++ lit " \x7b\n"

/-- The definition of a method. A template cannot be left to the classes below, so an abstract
method with type parameters throws; other methods without code have no definition. -/
def methodDefinition (h : Header) (i : Nat) (c : ClassInfo) (m : MethodHead) :
    Option Code → Except SourceError Text
  | some body => return h.methodHeadText i c m ++ (← h.blockText body 1 0) ++ lit "\x7d\n\n"
  | none =>
    return if m.isGeneric && c.isAbstractMethod m none then
      h.methodHeadText i c m ++ h.indent 1 ++
      lit "throw std::logic_error(\"abstract generic method '" ++
        c.emitted ++ lit "::" ++ m.name ++ lit "' has no implementation\");\n\x7d\n\n"
    else []

def memberDefinitions (h : Header) (i : Nat) (c : ClassInfo) : Except SourceError Text := do
  let initStatic ← (if c.needsInitStatic then h.initFunction c "initStatic" c.staticItems
      else pure [])
  let initInstance ← (if c.needsInitInstance then h.initFunction c "initInstance" c.instanceItems
      else pure [])
  let constructors ← c.constructors.mapM fun (head, body) => h.constructorDefinition i c head body
  let methods ← c.methods.mapM fun (head, body) => h.methodDefinition i c head body
  return initStatic ++ initInstance ++ h.plainConstructor c ++ constructors.flatten ++
    methods.flatten

end Unnest.Header
