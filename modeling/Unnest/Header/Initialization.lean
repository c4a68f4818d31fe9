import Unnest.Decl.ClassBody
import Unnest.Plan.Basic

/-!
# Initialization

Initializers are carried out by two functions of a class: `initStatic` once for the class, and
`initInstance` for every object. Each enum constant, each variable with an initial value and each
initializer block is one item of one of the two, in source order. The sorted members of the class
tell whether a function has items; one without items is left out.

* `ClassInfo.staticItems`, `ClassInfo.instanceItems`: the items of the two functions;
* `ClassInfo.needsInitStatic`, `ClassInfo.needsInitInstance`: whether there are any.
-/

namespace Unnest

/-- One step of an initialization. -/
inductive InitItem
  /-- An enum constant, with its arguments unless it has a body, and its body. -/
  | constant (name : Text) (args : Option Code) (body : Option Anonymous)
  /-- A variable with its initial value. -/
  | assign (name : Text) (value : Code)
  /-- An initializer block. -/
  | block (code : Code)

/-- The variables of a field that have initial values. -/
def assignments (declarators : List Declarator) : List InitItem :=
  declarators.filterMap fun d => d.init.map (.assign d.name)

/-- Whether a member is a field that passes the test and has a variable with an initial value. -/
def Member.assigns (test : FieldHead → Bool) (m : Member) : Bool :=
  m.field?.any fun (head, declarators) => test head && declarators.any (·.init.isSome)

namespace ClassInfo

/-- The body of the class, with its members sorted. -/
def body (c : ClassInfo) : ClassBody := .ofMembers c.members

/-- Whether a field belongs to the class and not to its objects; in an interface all fields do. -/
def isStaticField (c : ClassInfo) (field : FieldHead) : Bool :=
  field.modifiers.isStatic || c.isInterface

/-- What a member adds to the initialization of the class. -/
def staticItemsOf (c : ClassInfo) : Member → List InitItem
  | .constant head args body => [.constant head.name args body]
  | .field head declarators => if c.isStaticField head then assignments declarators else []
  | .initializer head code => if head.isStatic then [.block code] else []
  | _ => []

/-- What a member adds to the initialization of an object. -/
def instanceItemsOf (c : ClassInfo) : Member → List InitItem
  | .field head declarators => if c.isStaticField head then [] else assignments declarators
  | .initializer head code => if head.isStatic then [] else [.block code]
  | _ => []

/-- The initialization of the class. -/
def staticItems (c : ClassInfo) : List InitItem := c.members.flatMap c.staticItemsOf

/-- The initialization of an object. -/
def instanceItems (c : ClassInfo) : List InitItem := c.members.flatMap c.instanceItemsOf

/-- Whether the class has a function `initStatic`. -/
def needsInitStatic (c : ClassInfo) : Bool :=
  !c.body.staticInitializers.isEmpty || !c.body.enumConstants.isEmpty ||
    c.body.fields.any (·.val.assigns c.isStaticField)

/-- Whether the class has a function `initInstance`. -/
def needsInitInstance (c : ClassInfo) : Bool :=
  !c.body.instanceInitializers.isEmpty || c.body.fields.any (·.val.assigns (!c.isStaticField ·))

def methods (c : ClassInfo) : List (MethodHead × Option Code) := c.members.filterMap (·.method?)

def constructors (c : ClassInfo) : List (ConstructorHead × Code) :=
  c.members.filterMap (·.constructor?)

/-- Whether the class gets a constructor only because its objects have to be initialized. -/
def needsConstructor (c : ClassInfo) : Bool :=
  !c.isAnonymous && c.constructors.isEmpty && c.needsInitInstance

end ClassInfo

end Unnest
