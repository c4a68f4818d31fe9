import Unnest.Decl.Basic

/-!
# The size of a file

The declarations of a file form a tree: members stand below their class, parameters and code below
their member, anonymous classes below the code that creates them. `File.geometry` counts the nodes
of this tree and the greatest number of steps from the file down to a node.
-/

namespace Unnest

/-- The number of nodes of a tree and the greatest distance of a node from the root. -/
structure Geometry where
  nodes : Nat
  depth : Nat
deriving DecidableEq, Repr

/-- A node with the given trees below it. -/
def Geometry.over (below : List Geometry) : Geometry :=
  { nodes := below.foldl (fun n g => n + g.nodes) 1
    depth := below.foldl (fun d g => max d (g.depth + 1)) 0 }

/-- A node with nothing below it. -/
def Geometry.leaf : Geometry := .over []

mutual

/-- The anonymous classes created by pieces of code. -/
def piecesGeometry : List Piece → List Geometry
  | [] => []
  | .token _ :: ps => piecesGeometry ps
  | .creation a :: ps => a.geometry :: piecesGeometry ps

/-- An anonymous class with its arguments and members. -/
def Anonymous.geometry : Anonymous → Geometry
  | ⟨_, _, none, members, _, _⟩ => .over (membersGeometry members)
  | ⟨_, _, some ⟨_, pieces⟩, members, _, _⟩ =>
    .over (.over (piecesGeometry pieces) :: membersGeometry members)

/-- The initializers of declarators. -/
def declaratorsGeometry : List Declarator → List Geometry
  | [] => []
  | ⟨_, _, _, _, none⟩ :: ds => declaratorsGeometry ds
  | ⟨_, _, _, _, some ⟨_, pieces⟩⟩ :: ds =>
    .over (piecesGeometry pieces) :: declaratorsGeometry ds

/-- A member with what stands below it. -/
def Member.geometry : Member → Geometry
  | .field _ declarators => .over (declaratorsGeometry declarators)
  | .method head none => .over (head.params.map fun _ => .leaf)
  | .method head (some ⟨_, pieces⟩) =>
    .over ((head.params.map fun _ => .leaf) ++ [.over (piecesGeometry pieces)])
  | .constructor head ⟨_, pieces⟩ =>
    .over ((head.params.map fun _ => .leaf) ++ [.over (piecesGeometry pieces)])
  | .nested _ members => .over (membersGeometry members)
  | .initializer _ ⟨_, pieces⟩ => .over [.over (piecesGeometry pieces)]
  | .constant _ none none => .leaf
  | .constant _ (some ⟨_, pieces⟩) none => .over [.over (piecesGeometry pieces)]
  | .constant _ none (some body) => .over [body.geometry]
  | .constant _ (some ⟨_, pieces⟩) (some body) =>
    .over [.over (piecesGeometry pieces), body.geometry]

def membersGeometry : List Member → List Geometry
  | [] => []
  | m :: ms => m.geometry :: membersGeometry ms

end

/-- The size of a file. -/
def File.geometry (f : File) : Geometry :=
  .over (f.types.map fun d => .over (membersGeometry d.members))

end Unnest
