import Unnest.Plan.Resolve

/-!
# The bases of the classes

Each base of a class is looked up in the scope around the class. A base found in the file is noted;
any other one has to be a type of some library: one known by name or one imported. A class then must
not be derived from itself, neither directly nor through other classes.

* `isExternal`: whether a name stands for a type outside the file;
* `Plan.resolveBases`: the plan with the bases of all classes filled in;
* `Plan.cyclicEdge?`: a class and a base of it on a cycle, if there is a cycle.
-/

namespace Unnest

/-! ### Types outside the file -/

/-- The library types that may be extended without an import. -/
def libraryTypes : List Text :=
  ["Object", "String", "Runnable", "Thread", "Comparable", "Iterable", "Cloneable", "AutoCloseable",
    "CharSequence", "Number", "Enum", "Record", "Throwable", "Exception", "RuntimeException",
    "Error", "IllegalArgumentException", "IllegalStateException", "UnsupportedOperationException",
    "Comparator", "Iterator", "Collection", "List", "Set", "Map", "AbstractList", "AbstractMap",
    "AbstractSet", "ArrayList", "HashMap", "HashSet", "LinkedList", "TimerTask", "EventListener",
    "Callable", "Function", "Supplier", "Consumer", "Predicate", "BiFunction"].map lit

/-- Whether an import brings in the type whose name begins with `first` or is `name` in full. -/
def Import.provides (i : Import) (name first : Text) : Bool :=
  !i.isWildcard && !i.isStatic && (i.name == name || Text.afterLast (chr '.') i.name == first)

/-- Whether a name begins with a small letter, as packages do. -/
def startsSmall : Text → Bool
  | [] => false
  | b :: _ => chr 'a' ≤ b && b ≤ chr 'z'

/-- Whether a name stands for a type outside the file: a known type, an imported one, or a known
type behind the name of its package. -/
def isExternal (known : List Text) (imports : List Import) (name : Text) : Bool :=
  let parts := Text.splitOn (chr '.') name
  let first := parts.headD []
  known.contains name || imports.any (·.provides name first) ||
    (parts.length > 1 && known.contains (parts.getLastD []) && startsSmall first)

namespace Plan

/-! ### Filling in the bases -/

/-- Notes one more base of a class. -/
def addBase (p : Plan) (i base : Nat) : Plan :=
  { p with classes := p.classes.modify i fun c => { c with bases := c.bases ++ [base] } }

/-- The error at a reference; one that was not written out is reported where its class stands. -/
def baseError (cause : Cause) (c : ClassInfo) (ref : TypeRef) : SourceError :=
  .ofPlace cause (if ref.place.line = 0 then c.place else ref.place) ref.name

/-- Looks up one base of a class and notes it. -/
def resolveBase (external : Text → Bool) (i : Nat) (c : ClassInfo) (p : Plan) (ref : TypeRef) :
    Except SourceError Plan :=
  match p.resolve ref.name c.parent with
  | some base =>
    if base = i then .error (baseError (.selfBase c.emitted) c ref) else .ok (p.addBase i base)
  | none =>
    if external ref.name then .ok p
    else .error (baseError (.unresolvedBase ref.name c.emitted) c ref)

/-- The plan with the bases of all classes filled in. The classes take their turn in declaration
order, so a class already inherits from the classes around it when its own bases are looked up. -/
def resolveBases (external : Text → Bool) (p : Plan) : Except SourceError Plan :=
  p.classes.zipIdx.foldlM (fun p (c, i) => c.baseRefs.foldlM (resolveBase external i c) p) p

/-! ### Cycles -/

/-- A list gets shorter when one of its entries is taken out. -/
theorem length_erase_lt {i : Nat} {l : List Nat} (h : i ∈ l) : (l.erase i).length < l.length := by
  have := List.length_pos_of_mem h
  rw [List.length_erase_of_mem h]
  omega

/-- What is left to do in the search for a cycle. -/
inductive SearchStep
  /-- Look at the base `base` of the class `cls`. -/
  | follow (cls base : Nat)
  /-- Begin at a class. -/
  | start (cls : Nat)
  /-- All bases of the innermost class have been looked at. -/
  | leave

/-- Searches for a class derived from itself. `fresh` holds the classes not visited yet, `path` the
class visited now and the ones it was reached from. -/
def findCycle (p : Plan) (fresh path : List Nat) : List SearchStep → Option (Nat × Nat)
  | [] => none
  | .leave :: steps => p.findCycle fresh path.tail steps
  | .start cls :: steps =>
    if _h : cls ∈ fresh then
      p.findCycle (fresh.erase cls) [cls] ((p.bases cls).map (.follow cls) ++ .leave :: steps)
    else p.findCycle fresh path steps
  | .follow cls base :: steps =>
    if base ∈ path then some (cls, base)
    else if _h : base ∈ fresh then
      p.findCycle (fresh.erase base) (base :: path)
      ((p.bases base).map (.follow base) ++ .leave :: steps)
    else p.findCycle fresh path steps
termination_by steps => (fresh.length, steps.length)
decreasing_by
  · exact .right _ (Nat.lt_succ_self _)
  · exact .left _ _ (length_erase_lt _h)
  · exact .right _ (Nat.lt_succ_self _)
  · exact .left _ _ (length_erase_lt _h)
  · exact .right _ (Nat.lt_succ_self _)

/-- A class and a base of it that lie on a cycle, if some class is derived from itself. -/
def cyclicEdge? (p : Plan) : Option (Nat × Nat) :=
  p.findCycle (List.range p.size) [] ((List.range p.size).map .start)

/-- Refuses plans in which a class is derived from itself. -/
def checkCycles (p : Plan) : Except SourceError Unit :=
  match p.cyclicEdge? with
  | none => .ok ()
  | some (cls, base) =>
    .error (.ofPlace (.cyclicBase (p.emitted base)) ((p.class? cls).elim {} (·.place))
      (p.emitted base))

end Plan

end Unnest
