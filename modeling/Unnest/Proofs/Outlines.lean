import Unnest.Decl.Geometry
import Unnest.Decl.Outline
import Unnest.Proofs.Creations
import Mathlib

/-!
# Outlines and plans

An outline, the size of a file and a plan each go through the whole tree of declarations. The size
counts every anonymous class once and a plan declares each of them, but the outline passes over the
arguments of a creation. So it shows a class for every block of the classes that are declared: the
class itself, with those in its arguments behind it.

* `nodes_membersGeometry`: the number of nodes below members;
* `File.outline_skips_arguments`: outline, size and plan of a file.
-/

namespace Unnest

open Outline

/-! ### What is shown -/

mutual

/-- The anonymous classes in pieces of code, but for those in arguments. -/
def pieceShown : List Piece → List Anonymous
  | [] => []
  | .token _ :: ps => pieceShown ps
  | .creation a :: ps => a.shown ++ pieceShown ps

/-- An anonymous class and those in its members, but for those in arguments. -/
def Anonymous.shown : Anonymous → List Anonymous
  | ⟨place, base, args, members, endLine, label⟩ =>
    ⟨place, base, args, members, endLine, label⟩ :: memberShown members

/-- The anonymous classes in the initializers of declarators, but for those in arguments. -/
def declaratorShown : List Declarator → List Anonymous
  | [] => []
  | ⟨_, _, _, _, none⟩ :: ds => declaratorShown ds
  | ⟨_, _, _, _, some ⟨_, pieces⟩⟩ :: ds => pieceShown pieces ++ declaratorShown ds

/-- The anonymous classes in a member, but for those in arguments of creations. -/
def Member.shown : Member → List Anonymous
  | .field _ declarators => declaratorShown declarators
  | .method _ none => []
  | .method _ (some ⟨_, pieces⟩) => pieceShown pieces
  | .constructor _ ⟨_, pieces⟩ => pieceShown pieces
  | .nested _ members => memberShown members
  | .initializer _ ⟨_, pieces⟩ => pieceShown pieces
  | .constant _ none none => []
  | .constant _ (some ⟨_, pieces⟩) none => pieceShown pieces
  | .constant _ none (some body) => body.shown
  | .constant _ (some ⟨_, pieces⟩) (some body) => pieceShown pieces ++ body.shown

/-- The anonymous classes in members, but for those in arguments of creations. -/
def memberShown : List Member → List Anonymous
  | [] => []
  | m :: ms => m.shown ++ memberShown ms

end

/-- The text of the line that shows an anonymous class. -/
def Anonymous.heading (a : Anonymous) : Text := lit "AnonymousClassExpr base=" ++ a.base.text

/-- Whether a line shows an anonymous class. -/
def OutlineLine.isCreation (l : OutlineLine) : Bool :=
  (lit "AnonymousClassExpr base=").isPrefixOf l.text

/-- The texts of the lines that show anonymous classes. -/
def creationTexts (ls : List OutlineLine) : List Text := (ls.filter (·.isCreation)).map (·.text)

theorem creationTexts_append (ls ls' : List OutlineLine) :
    creationTexts (ls ++ ls') = creationTexts ls ++ creationTexts ls' := by
  simp [creationTexts]

theorem creationTexts_heading (depth : Nat) (a : Anonymous) (ls : List OutlineLine) :
    creationTexts (⟨depth, a.heading⟩ :: ls) = a.heading :: creationTexts ls := by
  have hcreation : OutlineLine.isCreation ⟨depth, a.heading⟩ = true :=
    List.isPrefixOf_iff_prefix.mpr (List.prefix_append _ _)
  rw [creationTexts, List.filter_cons_of_pos hcreation]
  rfl

/-- All other lines begin with another letter. -/
theorem creationTexts_cons {l : OutlineLine} {b : UInt8} (hl : l.text.head? = some b)
    (hb : b ≠ chr 'A') (ls : List OutlineLine) : creationTexts (l :: ls) = creationTexts ls := by
  have hcreation : ¬ l.isCreation = true := by
    intro h
    obtain ⟨rest, hrest⟩ := List.isPrefixOf_iff_prefix.mp h
    rw [← hrest] at hl
    exact hb (Option.some.inj hl).symm
  rw [creationTexts, List.filter_cons_of_neg hcreation]
  rfl

theorem creationTexts_map {α : Type} {line : α → OutlineLine} {b : UInt8}
    (hline : ∀ x, (line x).text.head? = some b) (hb : b ≠ chr 'A') (xs : List α) :
    creationTexts (xs.map line) = [] := by
  induction xs with
  | nil => rfl
  | cons x xs ih => exact (creationTexts_cons (hline x) hb _).trans ih

theorem creationTexts_parameterLines (depth : Nat) (params : List Parameter) :
    creationTexts (parameterLines depth params) = [] :=
  creationTexts_map (b := chr 'P') (fun _ => rfl) (by decide) params

theorem creationTexts_code (depth : Nat) (pieces : List Piece) (ls : List OutlineLine) :
    creationTexts (⟨depth, codeText pieces⟩ :: ls) = creationTexts ls :=
  creationTexts_cons (b := chr 'O') rfl (by decide) ls

theorem creationTexts_initializer (depth : Nat) (head : InitializerHead) (ls : List OutlineLine) :
    creationTexts
    (⟨depth, lit (if head.isStatic then "StaticInitializer" else "InstanceInitializer")⟩ :: ls) =
      creationTexts ls := by
  cases head.isStatic with
  | true => exact creationTexts_cons (b := chr 'S') rfl (by decide) ls
  | false => exact creationTexts_cons (b := chr 'I') rfl (by decide) ls

mutual

theorem creationTexts_pieces : ∀ (depth : Nat) (ps : List Piece),
    creationTexts (creationLines depth ps) = (pieceShown ps).map Anonymous.heading
  | _, [] => rfl
  | depth, .token _ :: ps => creationTexts_pieces depth ps
  | depth, .creation a :: ps => by
    rw [creationLines, creationTexts_append, a.creationTexts_outline, creationTexts_pieces,
      pieceShown, List.map_append]

theorem Anonymous.creationTexts_outline : ∀ (a : Anonymous) (depth : Nat),
    creationTexts (a.outline depth) = a.shown.map Anonymous.heading
  | ⟨place, base, args, members, endLine, label⟩, depth => by
    rw [Anonymous.outline, Anonymous.shown, List.map_cons,
      ← creationTexts_members (depth + 1) members]
    exact creationTexts_heading depth ⟨place, base, args, members, endLine, label⟩ _

theorem creationTexts_declarators : ∀ (depth : Nat) (ds : List Declarator),
    creationTexts (declaratorLines depth ds) = (declaratorShown ds).map Anonymous.heading
  | _, [] => rfl
  | depth, ⟨_, _, _, _, none⟩ :: ds =>
    (creationTexts_cons (b := chr 'D') rfl (by decide) _).trans (creationTexts_declarators depth ds)
  | depth, ⟨_, _, _, _, some ⟨_, pieces⟩⟩ :: ds => by
    rw [declaratorLines, List.cons_append, creationTexts_cons (b := chr 'D') rfl (by decide),
      List.cons_append, creationTexts_code, creationTexts_append, creationTexts_pieces,
      creationTexts_declarators, declaratorShown, List.map_append]

theorem Member.creationTexts_outline : ∀ (m : Member) (depth : Nat),
    creationTexts (m.outline depth) = m.shown.map Anonymous.heading
  | .field _ declarators, depth =>
    (creationTexts_cons (b := chr 'F') rfl (by decide) _).trans
    (creationTexts_declarators (depth + 1) declarators)
  | .method head none, depth =>
    (creationTexts_cons (b := chr 'M') rfl (by decide) _).trans
    (creationTexts_parameterLines (depth + 1) head.params)
  | .method head (some ⟨_, pieces⟩), depth => by
    rw [Member.outline, List.cons_append, creationTexts_cons (b := chr 'M') rfl (by decide),
      creationTexts_append, creationTexts_parameterLines, List.nil_append, creationTexts_code,
      creationTexts_pieces, Member.shown]
  | .constructor head ⟨_, pieces⟩, depth => by
    rw [Member.outline, List.cons_append, creationTexts_cons (b := chr 'C') rfl (by decide),
      creationTexts_append, creationTexts_parameterLines, List.nil_append, creationTexts_code,
      creationTexts_pieces, Member.shown]
  | .nested _ members, depth =>
    (creationTexts_cons (b := chr 'N') rfl (by decide) _).trans
    (creationTexts_members (depth + 1) members)
  | .initializer head ⟨_, pieces⟩, depth => by
    rw [Member.outline, creationTexts_initializer, creationTexts_code, creationTexts_pieces,
      Member.shown]
  | .constant _ none none, _ => creationTexts_cons (b := chr 'E') rfl (by decide) []
  | .constant _ (some ⟨_, pieces⟩) none, depth => by
    rw [Member.outline, creationTexts_cons (b := chr 'E') rfl (by decide), creationTexts_code,
      creationTexts_pieces, Member.shown]
  | .constant _ none (some body), depth => by
    rw [Member.outline, creationTexts_cons (b := chr 'E') rfl (by decide),
      body.creationTexts_outline, Member.shown]
  | .constant _ (some ⟨_, pieces⟩) (some body), depth => by
    rw [Member.outline, List.cons_append, creationTexts_cons (b := chr 'E') rfl (by decide),
      List.cons_append, creationTexts_code, creationTexts_append, creationTexts_pieces,
      body.creationTexts_outline, Member.shown, List.map_append]

theorem creationTexts_members : ∀ (depth : Nat) (ms : List Member),
    creationTexts (membersOutline depth ms) = (memberShown ms).map Anonymous.heading
  | _, [] => rfl
  | depth, m :: ms => by
    rw [membersOutline, creationTexts_append, m.creationTexts_outline, creationTexts_members,
      memberShown, List.map_append]

end

/-! ### Blocks of classes -/

/-- The anonymous classes in a list of classes. -/
def anonymousOf (nodes : List ClassNode) : List Anonymous := nodes.filterMap (·.anonymous?)

theorem anonymousOf_append (nodes nodes' : List ClassNode) :
    anonymousOf (nodes ++ nodes') = anonymousOf nodes ++ anonymousOf nodes' := List.filterMap_append

/-- The anonymous classes in the arguments of a creation, however deep. -/
def Anonymous.inArguments (a : Anonymous) : List Anonymous :=
  anonymousOf (a.args.elim [] Code.nodes)

/-- An anonymous class with those in its arguments behind it. -/
def Anonymous.block (a : Anonymous) : List Anonymous := a :: a.inArguments

theorem flatMap_block {as : List Anonymous} (h : ∀ a ∈ as, a.inArguments = []) :
    as.flatMap Anonymous.block = as := by
  induction as with
  | nil => rfl
  | cons a as ih =>
    obtain ⟨ha, has⟩ := List.forall_mem_cons.mp h
    rw [List.flatMap_cons, ih has, Anonymous.block, ha]
    rfl

theorem length_le_blocks (as : List Anonymous) :
    as.length ≤ (as.flatMap Anonymous.block).length := by
  induction as with
  | nil => exact Nat.le_refl 0
  | cons a as ih =>
    rw [List.flatMap_cons, List.length_append, Anonymous.block, List.length_cons, List.length_cons]
    omega

theorem inArguments_of_length {as : List Anonymous}
    (h : as.length = (as.flatMap Anonymous.block).length) :
    ∀ a ∈ as, a.inArguments = [] := by
  induction as with
  | nil => simp
  | cons a as ih =>
    have hle := length_le_blocks as
    rw [List.flatMap_cons, List.length_append, Anonymous.block, List.length_cons, List.length_cons]
      at h
    exact List.forall_mem_cons.mpr ⟨List.eq_nil_of_length_eq_zero (by omega), ih (by omega)⟩

mutual

theorem anonymous_pieces :
    ∀ ps : List Piece, anonymousOf (pieceNodes ps) = (pieceShown ps).flatMap Anonymous.block
  | [] => rfl
  | .token _ :: ps => anonymous_pieces ps
  | .creation a :: ps => by
    rw [pieceNodes, pieceShown, anonymousOf_append, a.anonymous_nodes, anonymous_pieces,
      List.flatMap_append]

theorem Anonymous.anonymous_nodes :
    ∀ a : Anonymous, anonymousOf a.nodes = a.shown.flatMap Anonymous.block
  | ⟨place, base, args, members, endLine, label⟩ => by
    rw [Anonymous.nodes_eq, Anonymous.shown, List.flatMap_cons, ← anonymous_members members,
      Anonymous.block, Anonymous.inArguments, List.cons_append, ← anonymousOf_append]
    rfl

theorem anonymous_declarators : ∀ ds : List Declarator,
    anonymousOf (declaratorNodes ds) = (declaratorShown ds).flatMap Anonymous.block
  | [] => rfl
  | ⟨_, _, _, _, none⟩ :: ds => anonymous_declarators ds
  | ⟨_, _, _, _, some ⟨_, pieces⟩⟩ :: ds => by
    rw [declaratorNodes, declaratorShown, anonymousOf_append, anonymous_pieces,
      anonymous_declarators, List.flatMap_append]

theorem Member.anonymous_nodes : ∀ m : Member, anonymousOf m.nodes = m.shown.flatMap Anonymous.block
  | .field _ declarators => anonymous_declarators declarators
  | .method _ none => rfl
  | .method _ (some ⟨_, pieces⟩) => anonymous_pieces pieces
  | .constructor _ ⟨_, pieces⟩ => anonymous_pieces pieces
  | .nested _ members => anonymous_members members
  | .initializer _ ⟨_, pieces⟩ => anonymous_pieces pieces
  | .constant _ none none => rfl
  | .constant _ (some ⟨_, pieces⟩) none => anonymous_pieces pieces
  | .constant _ none (some body) => body.anonymous_nodes
  | .constant _ (some ⟨_, pieces⟩) (some body) => by
    rw [Member.nodes, Member.shown, anonymousOf_append, anonymous_pieces, body.anonymous_nodes,
      List.flatMap_append]

theorem anonymous_members : ∀ ms : List Member,
    anonymousOf (memberNodes ms) = (memberShown ms).flatMap Anonymous.block
  | [] => rfl
  | m :: ms => by
    rw [memberNodes, memberShown, anonymousOf_append, m.anonymous_nodes, anonymous_members,
      List.flatMap_append]

end

/-! ### Sizes -/

theorem Geometry.nodes_over (below : List Geometry) :
    (Geometry.over below).nodes = 1 + (below.map (·.nodes)).sum := by
  have hfold : ∀ n, below.foldl (fun n g => n + g.nodes) n = n + (below.map (·.nodes)).sum := by
    induction below with
    | nil => exact fun n => rfl
    | cons g below ih =>
      intro n
      rw [List.foldl_cons, ih, List.map_cons, List.sum_cons, Nat.add_assoc]
  exact hfold 1

theorem sum_nodes_leaf (params : List Parameter) :
    ((params.map fun _ => Geometry.leaf).map (·.nodes)).sum = params.length := by
  induction params with
  | nil => rfl
  | cons p params ih =>
    rw [List.map_cons, List.map_cons, List.sum_cons, ih, List.length_cons, Nat.add_comm]
    rfl

def Member.params : Member → List Parameter
  | .method head _ => head.params
  | .constructor head _ => head.params
  | _ => []

/-- The code that a member holds itself. -/
def Member.ownCode : Member → List Code
  | .field _ declarators => declarators.filterMap (·.init)
  | .method _ body => body.toList
  | .constructor _ body => [body]
  | .nested .. => []
  | .initializer _ body => [body]
  | .constant _ args _ => args.toList

/-- The number of nodes that a member stands for: itself, its parameters and its code. -/
def Member.ownNodes (m : Member) : Nat := 1 + m.params.length + m.ownCode.length

/-- The number of nodes below a class that belong to no class inside of it. -/
def ClassNode.ownNodes : ClassNode → Nat
  | named _ members => (members.map Member.ownNodes).sum
  | anonymous a => a.args.toList.length + (a.members.map Member.ownNodes).sum

/-- The number of nodes that a list of classes stands for: every anonymous class, and what belongs
to the classes. -/
def nodeCount (nodes : List ClassNode) : Nat :=
  (anonymousOf nodes).length + (nodes.map ClassNode.ownNodes).sum

theorem nodeCount_append (nodes nodes' : List ClassNode) :
    nodeCount (nodes ++ nodes') = nodeCount nodes + nodeCount nodes' := by
  rw [nodeCount, anonymousOf_append, List.length_append, List.map_append, List.sum_append,
    nodeCount, nodeCount]
  omega

theorem nodeCount_named (head : TypeHead) (members : List Member) (nodes : List ClassNode) :
    nodeCount (.named head members :: nodes) = (members.map Member.ownNodes).sum +
    nodeCount nodes := by
  rw [nodeCount, List.map_cons, List.sum_cons, nodeCount]
  exact Nat.add_left_comm _ _ _

theorem nodeCount_anonymous (a : Anonymous) (nodes : List ClassNode) :
    nodeCount (.anonymous a :: nodes) =
      1 + a.args.toList.length + (a.members.map Member.ownNodes).sum + nodeCount nodes := by
  have hlength : (anonymousOf (.anonymous a :: nodes)).length = (anonymousOf nodes).length + 1 :=
    rfl
  rw [nodeCount, hlength, List.map_cons, List.sum_cons, nodeCount, ClassNode.ownNodes]
  omega

mutual

theorem nodes_piecesGeometry : ∀ ps : List Piece,
    ((piecesGeometry ps).map (·.nodes)).sum = nodeCount (pieceNodes ps)
  | [] => rfl
  | .token _ :: ps => nodes_piecesGeometry ps
  | .creation a :: ps => by
    rw [piecesGeometry, pieceNodes, List.map_cons, List.sum_cons, a.nodes_geometry,
      nodes_piecesGeometry, nodeCount_append]

theorem Anonymous.nodes_geometry : ∀ a : Anonymous, a.geometry.nodes = nodeCount a.nodes
  | ⟨_, _, none, members, _, _⟩ => by
    rw [Anonymous.geometry, Anonymous.nodes, Geometry.nodes_over, nodes_membersGeometry,
      nodeCount_anonymous]
    simp only [Option.toList_none, List.length_nil]
    omega
  | ⟨_, _, some ⟨_, pieces⟩, members, _, _⟩ => by
    rw [Anonymous.geometry, Anonymous.nodes, Geometry.nodes_over, List.map_cons, List.sum_cons,
      Geometry.nodes_over, nodes_piecesGeometry, nodes_membersGeometry, nodeCount_anonymous,
      nodeCount_append]
    simp only [Option.toList_some, List.length_singleton]
    omega

theorem nodes_declaratorsGeometry : ∀ ds : List Declarator,
    ((declaratorsGeometry ds).map (·.nodes)).sum =
      (ds.filterMap (·.init)).length + nodeCount (declaratorNodes ds)
  | [] => rfl
  | ⟨_, _, _, _, none⟩ :: ds => nodes_declaratorsGeometry ds
  | ⟨_, _, _, _, some ⟨_, pieces⟩⟩ :: ds => by
    rw [declaratorsGeometry, declaratorNodes, List.map_cons, List.sum_cons, Geometry.nodes_over,
      nodes_piecesGeometry, nodes_declaratorsGeometry, nodeCount_append]
    simp only [List.filterMap_cons, List.length_cons]
    omega

theorem Member.nodes_geometry : ∀ m : Member, m.geometry.nodes = m.ownNodes + nodeCount m.nodes
  | .field _ declarators => by
    rw [Member.geometry, Member.nodes, Geometry.nodes_over, nodes_declaratorsGeometry]
    simp only [Member.ownNodes, Member.params, Member.ownCode, List.length_nil]
    omega
  | .method head none => by
    rw [Member.geometry, Member.nodes, Geometry.nodes_over, sum_nodes_leaf]
    rfl
  | .method head (some ⟨_, pieces⟩) => by
    rw [Member.geometry, Member.nodes, Geometry.nodes_over, List.map_append, List.sum_append,
      sum_nodes_leaf, List.map_singleton, List.sum_singleton, Geometry.nodes_over,
      nodes_piecesGeometry]
    simp only [Member.ownNodes, Member.params, Member.ownCode, Option.toList_some,
      List.length_singleton]
    omega
  | .constructor head ⟨_, pieces⟩ => by
    rw [Member.geometry, Member.nodes, Geometry.nodes_over, List.map_append, List.sum_append,
      sum_nodes_leaf, List.map_singleton, List.sum_singleton, Geometry.nodes_over,
      nodes_piecesGeometry]
    simp only [Member.ownNodes, Member.params, Member.ownCode, List.length_singleton]
    omega
  | .nested head members => by
    rw [Member.geometry, Member.nodes, Geometry.nodes_over, nodes_membersGeometry, nodeCount_named]
    rfl
  | .initializer _ ⟨_, pieces⟩ => by
    rw [Member.geometry, Member.nodes, Geometry.nodes_over, List.map_singleton, List.sum_singleton,
      Geometry.nodes_over, nodes_piecesGeometry]
    simp only [Member.ownNodes, Member.params, Member.ownCode, List.length_singleton,
      List.length_nil]
    omega
  | .constant _ none none => rfl
  | .constant _ (some ⟨_, pieces⟩) none => by
    rw [Member.geometry, Member.nodes, Geometry.nodes_over, List.map_singleton, List.sum_singleton,
      Geometry.nodes_over, nodes_piecesGeometry]
    simp only [Member.ownNodes, Member.params, Member.ownCode, Option.toList_some,
      List.length_singleton, List.length_nil]
    omega
  | .constant _ none (some body) => by
    rw [Member.geometry, Member.nodes, Geometry.nodes_over, List.map_singleton, List.sum_singleton,
      body.nodes_geometry]
    rfl
  | .constant _ (some ⟨_, pieces⟩) (some body) => by
    rw [Member.geometry, Member.nodes, Geometry.nodes_over, List.map_cons, List.sum_cons,
      List.map_singleton, List.sum_singleton, Geometry.nodes_over, nodes_piecesGeometry,
      body.nodes_geometry, nodeCount_append]
    simp only [Member.ownNodes, Member.params, Member.ownCode, Option.toList_some,
      List.length_singleton, List.length_nil]
    omega

theorem nodes_membersGeometry : ∀ ms : List Member,
    ((membersGeometry ms).map (·.nodes)).sum = (ms.map Member.ownNodes).sum +
    nodeCount (memberNodes ms)
  | [] => rfl
  | m :: ms => by
    rw [membersGeometry, memberNodes, List.map_cons, List.sum_cons, m.nodes_geometry,
      nodes_membersGeometry, List.map_cons, List.sum_cons, nodeCount_append]
    omega

end

/-! ### Files -/

/-- The place and the base of an anonymous class. -/
def Origin.anonymous? : Origin → Option (Place × TypeRef)
  | named _ => none
  | anonymous place base => some (place, base)

theorem Plan.anonymous_of_ofFile {known : List Text} {f : File} {p : Plan}
    (h : Plan.ofFile known f.labelled = .ok p) :
    p.classes.filterMap (·.origin.anonymous?) = f.anonymous.map fun a => (a.place, a.base) := by
  have horigins : p.classes.map (·.origin) = f.nodes.map (·.origin) :=
    (Plan.described_ofFile h).origins.trans f.origins_labelled
  have hnode : ∀ n : ClassNode, n.origin.anonymous? = n.anonymous?.map fun a =>
      (a.place, a.base) := by
    intro n
    cases n <;> rfl
  calc p.classes.filterMap (·.origin.anonymous?)
      = (p.classes.map (·.origin)).filterMap Origin.anonymous? := by rw [List.filterMap_map]; rfl
    _ = f.nodes.filterMap (·.origin.anonymous?) := by rw [horigins, List.filterMap_map]; rfl
    _ = f.anonymous.map fun a => (a.place, a.base) := by
      rw [File.anonymous, List.map_filterMap]
      exact List.filterMap_congr fun n _ => hnode n

theorem Code.anonymousOf_nodes_eq_nil_iff {c : Code} : anonymousOf c.nodes = [] ↔
    c.creations = [] := by
  rw [Code.nodes, pieceNodes_eq, ← Code.creations]
  cases c.creations with
  | nil => exact iff_of_true rfl rfl
  | cons a as =>
    refine iff_of_false ?_ (List.cons_ne_nil a as)
    rw [List.flatMap_cons, Anonymous.nodes_eq]
    exact List.cons_ne_nil a _

theorem Anonymous.inArguments_eq_nil_iff {a : Anonymous} :
    a.inArguments = [] ↔ ∀ c, a.args = some c → c.creations = [] := by
  rw [inArguments]
  cases a.args with
  | none => exact iff_of_true rfl (by simp)
  | some c =>
    refine Code.anonymousOf_nodes_eq_nil_iff.trans ⟨?_, fun h => h c rfl⟩
    rintro h _ ⟨⟩
    exact h

namespace File

/-- The anonymous classes in a file, but for those in arguments of creations. -/
def shown (f : File) : List Anonymous := f.types.flatMap fun d => memberShown d.members

theorem creationTexts_outlineLines (f : File) :
    creationTexts f.outlineLines = f.shown.map Anonymous.heading := by
  have htypes : ∀ ds : List TypeDecl,
      creationTexts (ds.map fun d => ⟨1, typeText .classDecl d.head⟩ ::
        membersOutline 2 d.members).flatten =
        (ds.flatMap fun d => memberShown d.members).map Anonymous.heading := by
    intro ds
    induction ds with
    | nil => rfl
    | cons d ds ih =>
      rw [List.map_cons, List.flatten_cons, creationTexts_append,
        creationTexts_cons (b := chr 'C') rfl (by decide), creationTexts_members, ih,
        List.flatMap_cons, List.map_append]
  rw [outlineLines, creationTexts_append, creationTexts_cons (b := chr 'F') rfl (by decide),
    creationTexts_map (b := chr 'I') (fun _ => rfl) (by decide), List.nil_append, htypes, shown]

theorem anonymous_eq_blocks (f : File) : f.anonymous = f.shown.flatMap Anonymous.block := by
  have htypes : ∀ ds : List TypeDecl, anonymousOf (ds.flatMap TypeDecl.nodes) =
      (ds.flatMap fun d => memberShown d.members).flatMap Anonymous.block := by
    intro ds
    induction ds with
    | nil => rfl
    | cons d ds ih =>
      rw [List.flatMap_cons, anonymousOf_append, ih, List.flatMap_cons, List.flatMap_append,
        ← anonymous_members]
      rfl
  exact htypes f.types

theorem nodes_geometry (f : File) : f.geometry.nodes = 1 + f.types.length + nodeCount f.nodes := by
  have htypes : ∀ ds : List TypeDecl,
      ((ds.map fun d => Geometry.over (membersGeometry d.members)).map (·.nodes)).sum =
        ds.length + nodeCount (ds.flatMap TypeDecl.nodes) := by
    intro ds
    induction ds with
    | nil => rfl
    | cons d ds ih =>
      rw [List.map_cons, List.map_cons, List.sum_cons, ih, Geometry.nodes_over,
        nodes_membersGeometry, List.flatMap_cons, nodeCount_append, TypeDecl.nodes, nodeCount_named,
        List.length_cons]
      omega
  rw [geometry, Geometry.nodes_over, htypes, nodes, Nat.add_assoc]

/-- **Outlines pass over arguments.** The size of a file counts every anonymous class in it, and its
plan declares each of them. The outline has a line for the first class of every block only: in the
order of the plan, a class is followed by those in the arguments of its creation, which are not
shown, and then by those in its members. So the outline has one line for each anonymous class, in
the order of the plan, if and only if no creation has a creation among its arguments. -/
theorem outline_skips_arguments (f : File) :
    ∃ shown : List Anonymous,
      creationTexts f.outlineLines = shown.map Anonymous.heading ∧
      f.anonymous = shown.flatMap Anonymous.block ∧
      (creationTexts f.outlineLines = f.anonymous.map Anonymous.heading ↔
        ∀ a ∈ f.anonymous, ∀ c, a.args = some c → c.creations = []) ∧
      (∀ known p, Plan.ofFile known f.labelled = .ok p →
        p.classes.filterMap (·.origin.anonymous?) = f.anonymous.map fun a => (a.place, a.base)) ∧
      f.geometry.nodes = 1 + f.types.length + f.anonymous.length +
      (f.nodes.map ClassNode.ownNodes).sum := by
  refine ⟨f.shown, f.creationTexts_outlineLines, f.anonymous_eq_blocks, ?_,
    fun known p => Plan.anonymous_of_ofFile, ?_⟩
  · simp only [← Anonymous.inArguments_eq_nil_iff]
    rw [f.creationTexts_outlineLines, f.anonymous_eq_blocks]
    constructor
    · intro htexts
      have hlength := congrArg List.length htexts
      rw [List.length_map, List.length_map] at hlength
      have hnone := inArguments_of_length hlength
      rwa [flatMap_block hnone]
    · intro hnone
      have hshown : ∀ a ∈ f.shown, a.inArguments = [] := fun a ha =>
        hnone a (List.mem_flatMap.mpr ⟨a, ha, List.mem_cons_self⟩)
      rw [flatMap_block hshown]
  · rw [f.nodes_geometry, nodeCount, ← Nat.add_assoc]
    rfl

/-- A source with anonymous classes in members of others and in the body and the arguments of
constants. -/
def nestedCreations : Source :=
  ⟨lit "T",
    lit
    "enum E \x7b X(new B(1) \x7b\x7d), Y \x7b Object o = new C() \x7b Object p = new D() \x7b\x7d; \x7d; \x7d \x7d"⟩

theorem outline_skips_arguments_nested :
    ∃ f, File.ofSource nestedCreations = .ok f ∧ f.anonymous.length = 4 ∧
      creationTexts f.outlineLines = f.anonymous.map Anonymous.heading := by
  have hview : (File.ofSource nestedCreations).map (fun f =>
      (f.anonymous.length, f.anonymous.all fun a => a.args.all (·.creations.isEmpty))) =
      .ok (4, true) := by
    decide +kernel
  obtain ⟨f, hf, hview⟩ := Except.map_eq_ok.mp hview
  obtain ⟨hlength, hnone⟩ := Prod.mk.inj hview
  obtain ⟨shown, -, -, hiff, -⟩ := f.outline_skips_arguments
  refine ⟨f, hf, hlength, hiff.mpr fun a ha c hc => ?_⟩
  have hargs := List.all_eq_true.mp hnone a ha
  rw [hc] at hargs
  exact List.isEmpty_iff.mp hargs

/-- A creation among the arguments of another. -/
def creationInArguments : Source :=
  ⟨lit "T",
    lit
    "class B \x7b\x7d\nclass C \x7b\x7d\nclass A \x7b Object o = new B(new C() \x7b\x7d) \x7b\x7d; \x7d\n"⟩

/-- The plan declares two anonymous classes, and the outline shows one of them. -/
theorem outline_without_planned_class :
    ∃ f p, File.ofSource creationInArguments = .ok f ∧ Plan.ofFile [] f.labelled = .ok p ∧
      (p.classes.filter (·.isAnonymous)).map (·.emitted) = [lit "A_1", lit "A_2"] ∧
      f.anonymous.map Anonymous.heading =
        [lit "AnonymousClassExpr base=B", lit "AnonymousClassExpr base=C"] ∧
      creationTexts f.outlineLines = [lit "AnonymousClassExpr base=B"] := by
  have hview :
      ((File.ofSource creationInArguments).bind fun f => (Plan.ofFile [] f.labelled).map fun p =>
      ((p.classes.filter (·.isAnonymous)).map (·.emitted), f.anonymous.map Anonymous.heading,
        creationTexts f.outlineLines)) =
      .ok ([lit "A_1", lit "A_2"],
        [lit "AnonymousClassExpr base=B", lit "AnonymousClassExpr base=C"],
        [lit "AnonymousClassExpr base=B"]) := by
    cbv
  obtain ⟨f, hf, hview⟩ := Except.bind_eq_ok.mp hview
  obtain ⟨p, hp, hview⟩ := Except.map_eq_ok.mp hview
  simp only [Prod.mk.injEq] at hview
  exact ⟨f, p, hf, hp, hview.1, hview.2.1, hview.2.2⟩

end File

end Unnest
