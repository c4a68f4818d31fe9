import Unnest.Proofs.ClassNodes
import Unnest.Proofs.Initializers
import Unnest.Proofs.MemberHeads

/-!
# Creations of anonymous classes

An anonymous class is created where it stands in code, or as the value of an enum constant. Which
classes a member creates is said without looking into the bodies of these classes: what is created
there is created by the members of another class. All classes of a tree together create every
anonymous class in the tree once.

* `Member.created`: the anonymous classes that the code of a member creates;
* `File.argsOrBody_labelled`: an enum constant of a file has arguments or a body, but not both.
-/

namespace Unnest

open Unnest.Parser

namespace ClassNode

def node : ClassNode → Node
  | named head members => .member (.nested head members)
  | anonymous a => .anonymous a

def members : ClassNode → List Member
  | named _ members => members
  | anonymous a => a.members

theorem Describes.members {n : ClassNode} {c : ClassInfo} (h : n.Describes c) :
    c.members = n.members := by
  cases n with
  | named head members => exact h.2
  | anonymous a => exact h.2.1

end ClassNode

/-- All of the anonymous classes have names. -/
abbrev AllNamed (as : List Anonymous) : Prop := ∀ a ∈ as, a.label.isSome = true

/-- The anonymous classes in a file, in the order in which they are declared. -/
def File.anonymous (f : File) : List Anonymous := f.nodes.filterMap (·.anonymous?)

/-! ### The classes inside of nodes -/

theorem pieceNodes_eq (ps : List Piece) :
    pieceNodes ps = (ps.filterMap (·.creation?)).flatMap Anonymous.nodes := by
  induction ps with
  | nil => rfl
  | cons p ps ih =>
    cases p with
    | token t => exact ih
    | creation a => exact congrArg (a.nodes ++ ·) ih

namespace Node

/-- The classes in a node, the node itself among them if it is a class. -/
def classNodes : Node → List ClassNode
  | member m => m.nodes
  | code c => c.nodes
  | anonymous a => a.nodes
  | _ => []

def ownClass : Node → List ClassNode
  | member (.nested head members) => [.named head members]
  | anonymous a => [.anonymous a]
  | _ => []

theorem mem_ownClass {x : Node} {n : ClassNode} : n ∈ x.ownClass ↔ x = n.node := by
  unfold ownClass
  split
  · cases n <;> simp [ClassNode.node, eq_comm]
  · cases n <;> simp [ClassNode.node, eq_comm]
  · next hnested hanonymous =>
    refine iff_of_false List.not_mem_nil ?_
    cases n with
    | named head members => exact hnested head members
    | anonymous a => exact hanonymous a

theorem classNodes_eq (x : Node) : x.classNodes = x.ownClass ++ x.parts.flatMap classNodes := by
  cases x with
  | file f => rfl
  | type d => rfl
  | parameter p => rfl
  | code c =>
    change pieceNodes c.pieces = (c.creations.map anonymous).flatMap classNodes
    rw [pieceNodes_eq, List.flatMap_map]
    rfl
  | anonymous a =>
    change a.nodes = .anonymous a ::
      (a.args.toList.map code ++ a.members.map member).flatMap classNodes
    rw [Anonymous.nodes_eq, memberNodes_eq, List.flatMap_append, List.flatMap_map, List.flatMap_map]
    cases a.args <;> simp [classNodes]
  | member m =>
    cases m with
    | field head declarators =>
      change declaratorNodes declarators =
        (declarators.filterMap fun d => d.init.map code).flatMap classNodes
      rw [declaratorNodes_eq, flatMap_filterMap]
      refine congrArg (List.flatMap · declarators) (funext fun d => ?_)
      cases d.init <;> rfl
    | method head body =>
      change (Member.method head body).nodes = (body.toList.map code).flatMap classNodes
      rw [Member.nodes_method]
      cases body <;> simp [classNodes]
    | constructor head body =>
      change (Member.constructor head body).nodes = [code body].flatMap classNodes
      rw [Member.nodes_constructor]
      simp [classNodes]
    | nested head members =>
      change .named head members :: memberNodes members =
        .named head members :: (members.map member).flatMap classNodes
      rw [memberNodes_eq, List.flatMap_map]
      rfl
    | initializer head body =>
      change (Member.initializer head body).nodes = [code body].flatMap classNodes
      rw [Member.nodes_initializer]
      simp [classNodes]
    | constant head args body =>
      change (Member.constant head args body).nodes =
        (args.toList.map code ++ body.toList.map anonymous).flatMap classNodes
      rw [Member.nodes_constant, List.flatMap_append]
      cases args <;> cases body <;> simp [classNodes]

theorem sizeOf_part_lt {x y : Node} (h : y ∈ x.parts) : sizeOf y < sizeOf x := by
  have hoption : ∀ {α : Type} [SizeOf α] {o : Option α} {a : α}, a ∈ o.toList →
      sizeOf a < sizeOf o := by
    intro α _ o a ha
    obtain rfl := Option.mem_toList.mp ha
    rw [Option.some.sizeOf_spec]
    omega
  cases x with
  | file f => cases h
  | type d => cases h
  | parameter p => cases h
  | code c =>
    obtain ⟨a, ha, rfl⟩ := mem_parts_code.mp h
    have hlt := List.sizeOf_lt_of_mem ha
    obtain ⟨place, pieces⟩ := c
    simp only [anonymous.sizeOf_spec, code.sizeOf_spec, Code.mk.sizeOf_spec,
      Piece.creation.sizeOf_spec] at hlt ⊢
    omega
  | anonymous a =>
    obtain ⟨place, base, args, members, endLine, label⟩ := a
    rcases List.mem_append.mp h with h | h
    · obtain ⟨c, hc, rfl⟩ := List.mem_map.mp h
      have hlt : sizeOf c < sizeOf args := hoption hc
      simp only [anonymous.sizeOf_spec, code.sizeOf_spec, Anonymous.mk.sizeOf_spec]
      omega
    · obtain ⟨m, hm, rfl⟩ := List.mem_map.mp h
      have hlt : sizeOf m < sizeOf members := List.sizeOf_lt_of_mem hm
      simp only [anonymous.sizeOf_spec, member.sizeOf_spec, Anonymous.mk.sizeOf_spec]
      omega
  | member m =>
    rw [member.sizeOf_spec]
    cases m with
    | field head declarators =>
      obtain ⟨d, hd, hcode⟩ := List.mem_filterMap.mp h
      obtain ⟨c, hc, rfl⟩ := Option.map_eq_some_iff.mp hcode
      have hlt := List.sizeOf_lt_of_mem hd
      have hinit := hoption (Option.mem_toList.mpr hc)
      obtain ⟨name, dims, line, col, init⟩ := d
      simp only [Declarator.mk.sizeOf_spec] at hlt hinit
      rw [code.sizeOf_spec, Member.field.sizeOf_spec]
      omega
    | method head body =>
      obtain ⟨c, hc, rfl⟩ := List.mem_map.mp h
      have hlt := hoption hc
      rw [code.sizeOf_spec, Member.method.sizeOf_spec]
      omega
    | constructor head body =>
      cases List.mem_singleton.mp h
      rw [code.sizeOf_spec, Member.constructor.sizeOf_spec]
      omega
    | nested head members =>
      obtain ⟨m, hm, rfl⟩ := List.mem_map.mp h
      have hlt := List.sizeOf_lt_of_mem hm
      rw [member.sizeOf_spec, Member.nested.sizeOf_spec]
      omega
    | initializer head body =>
      cases List.mem_singleton.mp h
      rw [code.sizeOf_spec, Member.initializer.sizeOf_spec]
      omega
    | constant head args body =>
      rw [Member.constant.sizeOf_spec]
      rcases List.mem_append.mp h with h | h
      · obtain ⟨c, hc, rfl⟩ := List.mem_map.mp h
        have hlt := hoption hc
        rw [code.sizeOf_spec]
        omega
      · obtain ⟨a, ha, rfl⟩ := List.mem_map.mp h
        have hlt := hoption ha
        rw [anonymous.sizeOf_spec]
        omega

/-- **The classes that are listed for a node** are those inside of it, however deep. -/
theorem mem_classNodes_iff_within {x : Node} {n : ClassNode} :
    n ∈ x.classNodes ↔ x.Within n.node := by
  constructor
  · intro hn
    induction hsize : sizeOf x using Nat.strong_induction_on generalizing x with
    | _ size ih =>
      subst hsize
      rw [classNodes_eq] at hn
      rcases List.mem_append.mp hn with hn | hn
      · rw [mem_ownClass.mp hn]
        exact .refl
      · obtain ⟨y, hy, hn⟩ := List.mem_flatMap.mp hn
        exact .head hy (ih _ (sizeOf_part_lt hy) hn rfl)
  · intro h
    induction h using Relation.ReflTransGen.head_induction_on with
    | refl =>
      rw [classNodes_eq]
      exact List.mem_append_left _ (mem_ownClass.mpr rfl)
    | head hstep _ ih =>
      rw [classNodes_eq]
      exact List.mem_append_right _ (List.mem_flatMap.mpr ⟨_, hstep, ih⟩)

end Node

/-- The node is somewhere inside of a class of the file. -/
def File.Within (f : File) (x : Node) : Prop :=
  ∃ d ∈ f.types, ∃ m ∈ d.members, (Node.member m).Within x

namespace File

variable {f : File} {n : ClassNode} {m : Member} {a : Anonymous}

theorem mem_nodes_iff : n ∈ f.nodes ↔ (∃ d ∈ f.types, n = .named d.head d.members) ∨
    f.Within n.node := by
  simp only [nodes, TypeDecl.nodes, memberNodes_eq, List.mem_flatMap, List.mem_cons, Within]
  constructor
  · rintro ⟨d, hd, rfl | ⟨m, hm, hn⟩⟩
    · exact Or.inl ⟨d, hd, rfl⟩
    · exact Or.inr ⟨d, hd, m, hm, Node.mem_classNodes_iff_within.mp hn⟩
  · rintro (⟨d, hd, rfl⟩ | ⟨d, hd, m, hm, hn⟩)
    · exact ⟨d, hd, Or.inl rfl⟩
    · exact ⟨d, hd, Or.inr ⟨m, hm, Node.mem_classNodes_iff_within.mpr hn⟩⟩

theorem mem_anonymous : a ∈ f.anonymous ↔ .anonymous a ∈ f.nodes := by
  simp only [File.anonymous, List.mem_filterMap]
  constructor
  · rintro ⟨_ | a', hn, ⟨⟩⟩
    exact hn
  · exact fun ha => ⟨_, ha, rfl⟩

theorem mem_anonymous_iff_within : a ∈ f.anonymous ↔ f.Within (.anonymous a) := by
  rw [mem_anonymous, mem_nodes_iff]
  exact or_iff_right fun ⟨_, _, h⟩ => by cases h

theorem within_of_mem_members (hn : n ∈ f.nodes) (hm : m ∈ n.members) : f.Within (.member m) := by
  rcases mem_nodes_iff.mp hn with ⟨d, hd, rfl⟩ | ⟨d, hd, m₀, hm₀, hwithin⟩
  · exact ⟨d, hd, m, hm, .refl⟩
  · refine ⟨d, hd, m₀, hm₀, hwithin.tail ?_⟩
    cases n with
    | named head members => exact List.mem_map_of_mem hm
    | anonymous a => exact List.mem_append_right _ (List.mem_map_of_mem hm)

theorem exists_within_of_labelled {y' : Node} (h : f.labelled.Within y') :
    ∃ top y, f.Within y ∧ y.Labelled top y' := by
  obtain ⟨d', hd', m', hm', hwithin⟩ := h
  obtain ⟨d, hd, rfl⟩ := List.mem_map.mp hd'
  obtain ⟨m, hm, k, rfl⟩ := exists_of_mem_labelMembers hm'
  obtain ⟨y, hy, hlabelled⟩ := (Node.Labelled.member k m).exists_within hwithin
  exact ⟨d.head.name, y, ⟨d, hd, m, hm, hy⟩, hlabelled⟩

theorem allNamed_labelled (f : File) : AllNamed f.labelled.anonymous := by
  intro a ha
  obtain ⟨d', hd', hn⟩ := List.mem_flatMap.mp (mem_anonymous.mp ha)
  obtain ⟨d, -, rfl⟩ := List.mem_map.mp hd'
  obtain ⟨m, -, k, -, hlabels⟩ := d.numbered_labelled
  have hlabel : a.label ∈ (d.labelled.nodes.filterMap (·.anonymous?)).map (·.label) :=
    List.mem_map_of_mem (List.mem_filterMap.mpr ⟨_, hn, rfl⟩)
  rw [hlabels] at hlabel
  obtain ⟨i, -, hi⟩ := List.mem_map.mp hlabel
  rw [← hi]
  rfl

end File

/-! ### What is created where -/

mutual

/-- The anonymous classes that pieces of code create: those among the pieces, and those in their
arguments. -/
def piecesCreated : List Piece → List Anonymous
  | [] => []
  | .token _ :: ps => piecesCreated ps
  | .creation a :: ps => a.created ++ piecesCreated ps

/-- An anonymous class and the ones that its arguments create. -/
def Anonymous.created : Anonymous → List Anonymous
  | ⟨place, base, none, members, endLine, label⟩ => [⟨place, base, none, members, endLine, label⟩]
  | ⟨place, base, some ⟨argsPlace, pieces⟩, members, endLine, label⟩ =>
    ⟨place, base, some ⟨argsPlace, pieces⟩, members, endLine, label⟩ :: piecesCreated pieces

end

def Code.created (c : Code) : List Anonymous := piecesCreated c.pieces

theorem Anonymous.created_eq (a : Anonymous) : a.created = a :: a.args.elim [] Code.created := by
  obtain ⟨place, base, args, members, endLine, label⟩ := a
  rcases args with _ | ⟨argsPlace, pieces⟩ <;> rfl

/-- The anonymous classes that the code of a member creates. A class among the members has code of
its own. -/
def Member.created : Member → List Anonymous
  | .field _ declarators => declarators.flatMap fun d => d.init.elim [] Code.created
  | .method _ body => body.elim [] Code.created
  | .constructor _ body => body.created
  | .nested .. => []
  | .initializer _ body => body.created
  | .constant _ args body => args.elim [] Code.created ++ body.elim [] Anonymous.created

def ClassNode.created (n : ClassNode) : List Anonymous := n.members.flatMap Member.created

/-- Of the anonymous classes among `nodes`, those in `outside` are created outside of the classes
`nodes`, and the others by the members of these classes. -/
def Gathered (nodes : List ClassNode) (outside : List Anonymous) : Prop :=
  (nodes.filterMap (·.anonymous?)).Perm (outside ++ nodes.flatMap ClassNode.created)

namespace Gathered

variable {nodes nodes' : List ClassNode} {outside outside' : List Anonymous}

theorem nil : Gathered [] [] := List.Perm.nil

theorem append (h : Gathered nodes outside) (h' : Gathered nodes' outside') :
    Gathered (nodes ++ nodes') (outside ++ outside') := by
  unfold Gathered at h h' ⊢
  rw [List.filterMap_append, List.flatMap_append]
  refine (h.append h').trans ?_
  rw [List.append_assoc, List.append_assoc]
  exact (List.perm_append_comm_assoc _ _ _).append_left outside

theorem named {members : List Member} (h : Gathered nodes (members.flatMap Member.created))
    (head : TypeHead) :
    Gathered (.named head members :: nodes) [] := h

theorem anonymous {a : Anonymous} (h : Gathered nodes outside)
    (h' : Gathered nodes' (a.members.flatMap Member.created)) :
    Gathered (.anonymous a :: (nodes ++ nodes')) (a :: outside) := by
  have happend := h.append h'
  unfold Gathered at happend ⊢
  rw [List.append_assoc] at happend
  exact happend.cons a

end Gathered

mutual

theorem gathered_pieces : ∀ ps : List Piece, Gathered (pieceNodes ps) (piecesCreated ps)
  | [] => .nil
  | .token _ :: ps => gathered_pieces ps
  | .creation a :: ps => (Anonymous.gathered a).append (gathered_pieces ps)

theorem Anonymous.gathered : ∀ a : Anonymous, Gathered a.nodes a.created
  | ⟨_, _, none, members, _, _⟩ => Gathered.nil.anonymous (gathered_members members)
  | ⟨_, _, some ⟨_, pieces⟩, members, _, _⟩ =>
    (gathered_pieces pieces).anonymous (gathered_members members)

theorem gathered_declarators : ∀ ds : List Declarator,
    Gathered (declaratorNodes ds) (ds.flatMap fun d => d.init.elim [] Code.created)
  | [] => .nil
  | ⟨_, _, _, _, none⟩ :: ds => gathered_declarators ds
  | ⟨_, _, _, _, some ⟨_, pieces⟩⟩ :: ds =>
    (gathered_pieces pieces).append (gathered_declarators ds)

theorem Member.gathered : ∀ m : Member, Gathered m.nodes m.created
  | .field _ declarators => gathered_declarators declarators
  | .method _ none => .nil
  | .method _ (some ⟨_, pieces⟩) => gathered_pieces pieces
  | .constructor _ ⟨_, pieces⟩ => gathered_pieces pieces
  | .nested head members => (gathered_members members).named head
  | .initializer _ ⟨_, pieces⟩ => gathered_pieces pieces
  | .constant _ none none => .nil
  | .constant _ (some ⟨_, pieces⟩) none => by
    rw [Member.nodes_constant]
    exact (gathered_pieces pieces).append .nil
  | .constant _ none (some body) => Anonymous.gathered body
  | .constant _ (some ⟨_, pieces⟩) (some body) =>
    (gathered_pieces pieces).append (Anonymous.gathered body)

theorem gathered_members : ∀ ms : List Member, Gathered (memberNodes ms) (ms.flatMap Member.created)
  | [] => .nil
  | m :: ms => (Member.gathered m).append (gathered_members ms)

end

/-- **The classes of a file together** create each anonymous class of the file once. -/
theorem File.created_perm (f : File) : f.anonymous.Perm (f.nodes.flatMap ClassNode.created) := by
  have hall : Gathered f.nodes [] := by
    unfold File.nodes
    induction f.types with
    | nil => exact .nil
    | cons d ds ih => exact ((gathered_members d.members).named d.head).append ih
  exact hall

/-! ### Enum constants -/

/-- An enum constant has arguments or a body, but not both: arguments in front of a body are those
of the anonymous class. -/
def Member.ArgsOrBody : Member → Prop
  | .constant _ args body => args = none ∨ body = none
  | _ => True

theorem Member.ArgsOrBody.labelled {m : Member} (h : m.ArgsOrBody) (top : Text) (n : Nat) :
    (m.labelled top n).1.ArgsOrBody := by
  cases m with
  | field head declarators => trivial
  | nested head members => trivial
  | method head body => rcases body with _ | ⟨place, pieces⟩ <;> trivial
  | constructor head body =>
    cases body
    trivial
  | initializer head body =>
    cases body
    trivial
  | constant head args body =>
    rcases args with _ | ⟨place, pieces⟩ <;> rcases body with _ | body
    · exact Or.inl rfl
    · exact Or.inl rfl
    · exact Or.inr rfl
    · rcases h with h | h <;> cases h

section Reading

variable {inside : Inside} {s : Cursor}

theorem gives_last {α β : Type} {p : Parser α} {q : α → Parser β} {P : β → Prop}
    (h : ∀ a t, Gives (q a) t (fun b _ => P b) fun _ => True) :
    Gives (p >>= q) s (fun b _ => P b) fun _ => True :=
  gives_bind.mpr (gives_of_forall (fun a t _ => h a t) fun _ _ _ => trivial)

theorem gives_block_of_build {what : Text} {build : Code → Member} {P : Member → Prop}
    (h : ∀ c, P (build c)) :
    Gives (block inside what build) s (fun m _ => P m) fun _ => True :=
  gives_last fun _ _ => gives_last fun c _ => gives_pure.mpr (h c)

/-- What holds of all fields, methods, initializers and constructors has to be seen for enum
constants and classes only. -/
theorem holds_of_parse {form : MemberForm}
    (hform : form ∈ constantForm inside :: memberForms inside) {ctx : BodyContext} {m : Member}
    {t : Cursor} {P : Member → Prop}
    (hconstant : Gives (constantDecl inside ctx) s (fun m _ => P m) fun _ => True)
    (htype : Gives (typeDecl inside) s (fun d _ => P (.nested d.head d.members)) fun _ => True)
    (hfields : ∀ head declarators, P (.field head declarators)) (hmethods : ∀ head code,
      P (.method head code)) (hinitializers : ∀ head code, P (.initializer head code))
    (hconstructors : ∀ head code, P (.constructor head code))
    (h : form.parse ctx s = .ok (.member m) t) : P m := by
  have hfield : Gives (fieldDecl inside) s (fun m _ => P m) fun _ => True :=
    gives_last fun _ _ => gives_last fun _ _ => gives_last fun _ _ => gives_last fun _ _ =>
      gives_last fun _ _ => gives_last fun _ _ => gives_pure.mpr (hfields _ _)
  have hmethod : Gives (methodDecl inside ctx) s (fun m _ => P m) fun _ => True := by
    rw [methodDecl_eq]
    refine gives_last fun head _ => gives_last fun s₁ _ => gives_ite.mpr ⟨fun _ => ?_, fun _ => ?_⟩
    · exact gives_block_of_build fun _ => hmethods _ _
    · refine gives_last fun _ _ => gives_ite.mpr ⟨fun _ => ?_, fun _ => ?_⟩ <;>
        exact gives_pure.mpr (hmethods _ _)
  have hinitializer : ∀ isStatic, Gives (initializerDecl inside isStatic) s (fun m _ => P m)
      fun _ => True := by
    intro isStatic
    rw [initializerDecl_eq]
    exact gives_last fun _ _ => gives_block_of_build fun _ => hinitializers _ _
  have hconstructor : Gives (constructorDecl inside) s (fun m _ => P m) fun _ => True := by
    rw [constructorDecl_eq]
    exact gives_last fun _ _ => gives_block_of_build fun _ => hconstructors _ _
  exact (gives_parse hform hconstant hfield hmethod htype hinitializer hconstructor).ok h m rfl

theorem argsOrBody_of_parse {form : MemberForm}
    (hform : form ∈ constantForm inside :: memberForms inside) {ctx : BodyContext} {m : Member}
    {t : Cursor} (h : form.parse ctx s = .ok (.member m) t) : m.ArgsOrBody := by
  refine holds_of_parse hform (gives_of_forall (fun m _ hm => ?_) fun _ _ _ => trivial)
    (gives_of_forall (fun _ _ _ => trivial) fun _ _ _ => trivial) (fun _ _ => trivial)
    (fun _ _ => trivial)
    (fun _ _ => trivial) (fun _ _ => trivial) h
  obtain ⟨head, args, body, rfl, hargs⟩ := exists_constant_of_constantDecl hm
  exact hargs

end Reading

namespace File

variable {f : File} {root : Group} {m : Member}

theorem argsOrBody_of_within (hf : File.ofGroup root = .ok f) (h : f.Within (.member m)) :
    m.ArgsOrBody := by
  obtain ⟨d, hd, m₀, hm₀, hwithin⟩ := h
  obtain ⟨levels, ms, hms, hm⟩ := (Node.fromTree_of_mem hf hd hm₀).within hwithin
  obtain ⟨k, ctx, g, form, s, s', m₁, span, -, -, -, hform, hparse, -, -, rfl⟩ :=
    exists_parse_of_membersFrom hms hm
  have hargs := argsOrBody_of_parse hform hparse
  cases m₁ <;> exact hargs

/-- **An enum constant** within a file, its anonymous classes named, has arguments or a body, but
not both. -/
theorem argsOrBody_labelled (hf : File.ofGroup root = .ok f) (h : f.labelled.Within (.member m)) :
    m.ArgsOrBody := by
  obtain ⟨top, y, hy, hlabelled⟩ := exists_within_of_labelled h
  cases hlabelled with
  | member k m₁ => exact (argsOrBody_of_within hf hy).labelled top k

end File

end Unnest
