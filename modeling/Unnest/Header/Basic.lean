import Unnest.Plan.Order
import Unnest.Header.TypeText

/-!
# Headers

A header defines the classes of one file. Here are the choices its writer has, the context in which
its parts are written, and what is said of a class in more than one place: its bases and its
sections.

* `Header.ofFile`: a file with its anonymous classes named and its classes planned;
* `Header.baseNames`: the bases of a class as written;
* `sections`: the parts of a class under the labels `public`, `protected` and `private`.
-/

namespace Unnest

/-- The choices left to the writer of a header. -/
structure HeaderOptions where
  /-- The types that may be extended without an import. -/
  known : List Text := libraryTypes
  /-- The header that declares the root class, strings and arrays. -/
  runtimeHeader : Text := lit "nestport/runtime.h"
  /-- The base of every class that extends no other. -/
  rootClass : Text := lit "Object"
  /-- The source named in the first line, if any. -/
  sourceName : Text := []
  /-- The number of spaces per level of indentation. -/
  indentWidth : Nat := 4

/-- A file ready to be written. -/
structure Header where
  options : HeaderOptions
  file : File
  plan : Plan

namespace Header

/-- Names the anonymous classes of a file and plans its classes. -/
def ofFile (options : HeaderOptions) (f : File) : Except SourceError Header := do
  let file := f.labelled
  return { options, file, plan := ← Plan.ofFile options.known file }

/-- The spaces in front of a line at a depth. -/
def indent (h : Header) (depth : Nat) : Text := Text.spaces (depth * h.options.indentWidth)

/-- The names in the types of a member of class `i`, with type parameters of its own. -/
def typeScope (h : Header) (i : Nat) (c : ClassInfo) (typeParams : List TypeParam) : TypeScope :=
  { plan := h.plan, scope := some i, vars := c.typeParams ++ typeParams.map (·.name) }

/-- The bases of a class. They are looked up outside of the class, and a class that extends no other
has the root class for its first base. -/
def baseNames (h : Header) (c : ClassInfo) : List Text :=
  let name := TypeScope.className { plan := h.plan, scope := c.parent, vars := c.typeParams }
  match c.origin with
  | .anonymous _ base => [name base]
  | .named head =>
    head.extending.map name ++
      (if head.extending.isEmpty && !c.isInterface then [h.options.rootClass] else []) ++
      head.implementing.map name

/-- The base whose constructor `super` stands for. -/
def superName (h : Header) (c : ClassInfo) : Text := (h.baseNames c).headD h.options.rootClass

/-- The parameters of a constructor or method. -/
def paramsText (types : TypeScope) (params : List Parameter) : Text :=
  Text.join (lit ", ") (params.map fun p =>
    let type := types.valueType p.type
    (if p.isVariadic then arrayText type else type) ++ lit " " ++ p.name)

end Header

/-! ### Sections -/

/-- The sections of a class. -/
inductive Visibility
  | pub
  | prot
  | priv
deriving DecidableEq, Repr

/-- The label that opens a section. -/
def Visibility.label : Visibility → Text
  | pub => lit "public"
  | prot => lit "protected"
  | priv => lit "private"

/-- The section for a member; what is visible in a package is public. -/
def Access.visibility : Access → Visibility
  | .package | .pub => .pub
  | .prot => .prot
  | .priv => .priv

/-- Parts of a class in order, with a label wherever the section changes from `current`. -/
def sections (current : Visibility) : List (Visibility × Text) → Text
  | [] => []
  | (v, text) :: rest =>
    (if v = current then [] else v.label ++ lit ":\n") ++ text ++ sections v rest

end Unnest
