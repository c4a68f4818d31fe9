import Unnest.Header.Initialization

/-!
# Overriding methods

A method overrides another one if a class above its own declares a method of the same name with as
many parameters that can be overridden. Static and private methods cannot be overridden, and neither
they nor methods with type parameters override others.

* `Plan.isOverriding`, `Plan.isVirtual`: how a method of a class is declared.
-/

namespace Unnest

namespace MethodHead

/-- The number of parameters. -/
def arity (m : MethodHead) : Nat := m.params.length

def isPrivate (m : MethodHead) : Bool := m.modifiers.access == .priv

/-- Whether a method has type parameters of its own. -/
def isGeneric (m : MethodHead) : Bool := !m.typeParams.isEmpty

/-- Whether a method can stand in a table of virtual methods. -/
def mayBeVirtual (m : MethodHead) : Bool := !m.modifiers.isStatic && !m.isPrivate && !m.isGeneric

end MethodHead

/-- Whether a class declares a method that `m` overrides in classes below. -/
def ClassInfo.declares (c : ClassInfo) (m : MethodHead) : Bool :=
  c.methods.any fun (other, _) =>
    other.name == m.name && other.arity == m.arity && !other.modifiers.isStatic && !other.isPrivate

/-- Whether a method is without code and left to the classes below. -/
def ClassInfo.isAbstractMethod (c : ClassInfo) (m : MethodHead) (body : Option Code) : Bool :=
  body.isNone && !m.modifiers.isStatic && (m.modifiers.isAbstract || c.isInterface)

namespace Plan

/-- Whether a class at most `levels` steps above class `i` declares the method. -/
def declaresAbove (p : Plan) (m : MethodHead) : (levels i : Nat) → Bool
  | 0, _ => false
  | levels + 1, i => (p.bases i).any fun base =>
    (p.class? base).any (·.declares m) || p.declaresAbove m levels base

/-- The number of steps that are searched upwards for an overridden method. -/
def overrideLevels : Nat := 65

/-- Whether a method of class `i` overrides another one. -/
def isOverriding (p : Plan) (i : Nat) (m : MethodHead) : Bool :=
  m.mayBeVirtual && p.declaresAbove m overrideLevels i

/-- Whether a method of class `i` can be overridden. -/
def isVirtual (p : Plan) (i : Nat) (c : ClassInfo) (m : MethodHead) (body : Option Code) : Bool :=
  m.mayBeVirtual &&
    (c.isAbstractMethod m body || !m.modifiers.isFinal || p.isOverriding i m)

end Plan

end Unnest
