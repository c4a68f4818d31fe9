import Unnest.Decl.Basic

/-!
# Class bodies

The body of a class holds its members twice: in source order, and sorted into one list for each sort
of member. Nodes are added one by one; a node that is no member is refused.

* `ClassBody.add`: puts a node into the lists it belongs to;
* `ClassBody.ofNodes`: the body to which the given nodes were added;
* `ClassBody.ofMembers`: the body with the given members.
-/

namespace Unnest

/-- A member of the given sort. -/
abbrev MemberOf (kind : NodeKind) := { m : Member // m.kind = kind }

/-- The members of a class, by sort and all together. -/
structure ClassBody where
  fields : List (MemberOf .fieldDecl) := []
  methods : List (MemberOf .methodDecl) := []
  constructors : List (MemberOf .constructorDecl) := []
  nestedClasses : List (MemberOf .nestedClassDecl) := []
  staticInitializers : List (MemberOf .staticInitializer) := []
  instanceInitializers : List (MemberOf .instanceInitializer) := []
  enumConstants : List (MemberOf .enumConstant) := []
  /-- All of these in source order. -/
  members : List Member := []

namespace ClassBody

/-- The list for a sort of member; there is none for other sorts of node. -/
def list (body : ClassBody) : NodeKind → List Member
  | .fieldDecl => body.fields.map (·.val)
  | .methodDecl => body.methods.map (·.val)
  | .constructorDecl => body.constructors.map (·.val)
  | .nestedClassDecl => body.nestedClasses.map (·.val)
  | .staticInitializer => body.staticInitializers.map (·.val)
  | .instanceInitializer => body.instanceInitializers.map (·.val)
  | .enumConstant => body.enumConstants.map (·.val)
  | _ => []

/-- Puts a member behind the others of its sort. -/
def sort (body : ClassBody) (m : Member) : ClassBody :=
  match m with
  | .field head declarators =>
    { body with fields := body.fields ++ [⟨.field head declarators, rfl⟩] }
  | .method head code => { body with methods := body.methods ++ [⟨.method head code, rfl⟩] }
  | .constructor head code =>
    { body with constructors := body.constructors ++ [⟨.constructor head code, rfl⟩] }
  | .nested head members =>
    { body with nestedClasses := body.nestedClasses ++ [⟨.nested head members, rfl⟩] }
  | .initializer head code =>
    if h : head.isStatic then
      { body with staticInitializers := body.staticInitializers ++
        [⟨.initializer head code, if_pos h⟩] }
    else
      { body with instanceInitializers := body.instanceInitializers ++
        [⟨.initializer head code, if_neg h⟩] }
  | .constant head args code =>
    { body with enumConstants := body.enumConstants ++ [⟨.constant head args code, rfl⟩] }

/-- Adds a node; says whether it is a member. -/
def add (body : ClassBody) (node : Node) : Bool × ClassBody :=
  match node.member? with
  | some m => (true, { body.sort m with members := body.members ++ [m] })
  | none => (false, body)

/-- The body to which the nodes were added, the first one first. -/
def ofNodes (nodes : List Node) : ClassBody := nodes.foldl (fun body node => (body.add node).2) {}

def ofMembers (members : List Member) : ClassBody := ofNodes (members.map .member)

end ClassBody

end Unnest
