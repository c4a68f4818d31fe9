import Unnest.Proofs.BaseLookup

/-!
# The classes in a tree of declarations

The tree of declarations of a file has classes at many places: at the top, among the members of
classes, in initializers, bodies and arguments. `File.nodes` lists them in the order in which they
are declared, each in front of the ones inside it. A plan has one class for each of them, in the
same order. Naming the anonymous classes goes through the tree in this order, too.

* `File.nodes`: the classes in the tree of a file;
* `numbered_labelMembers`: the anonymous classes of a top-level class are named in order.
-/

namespace Unnest

/-- A class in a tree of declarations. -/
inductive ClassNode
  | named (head : TypeHead) (members : List Member)
  | anonymous (a : Anonymous)

namespace ClassNode

def origin : ClassNode → Origin
  | named head _ => .named head
  | anonymous a => .anonymous a.place a.base

def place : ClassNode → Place
  | named head _ => head.place
  | anonymous a => a.place

def anonymous? : ClassNode → Option Anonymous
  | named .. => none
  | anonymous a => some a

end ClassNode

mutual

/-- The classes in pieces of code. -/
def pieceNodes : List Piece → List ClassNode
  | [] => []
  | .token _ :: ps => pieceNodes ps
  | .creation a :: ps => a.nodes ++ pieceNodes ps

/-- An anonymous class, the ones in its arguments and those in its members. -/
def Anonymous.nodes : Anonymous → List ClassNode
  | ⟨place, base, none, members, endLine, label⟩ =>
    .anonymous ⟨place, base, none, members, endLine, label⟩ :: memberNodes members
  | ⟨place, base, some ⟨argsPlace, pieces⟩, members, endLine, label⟩ =>
    .anonymous ⟨place, base, some ⟨argsPlace, pieces⟩, members, endLine, label⟩ ::
      (pieceNodes pieces ++ memberNodes members)

/-- The classes in the initializers of declarators. -/
def declaratorNodes : List Declarator → List ClassNode
  | [] => []
  | ⟨_, _, _, _, none⟩ :: ds => declaratorNodes ds
  | ⟨_, _, _, _, some ⟨_, pieces⟩⟩ :: ds => pieceNodes pieces ++ declaratorNodes ds

/-- The classes in a member, the member itself among them if it is a class. -/
def Member.nodes : Member → List ClassNode
  | .field _ declarators => declaratorNodes declarators
  | .method _ none => []
  | .method _ (some ⟨_, pieces⟩) => pieceNodes pieces
  | .constructor _ ⟨_, pieces⟩ => pieceNodes pieces
  | .nested head members => .named head members :: memberNodes members
  | .initializer _ ⟨_, pieces⟩ => pieceNodes pieces
  | .constant _ none none => []
  | .constant _ (some ⟨_, pieces⟩) none => pieceNodes pieces
  | .constant _ none (some body) => body.nodes
  | .constant _ (some ⟨_, pieces⟩) (some body) => pieceNodes pieces ++ body.nodes

def memberNodes : List Member → List ClassNode
  | [] => []
  | m :: ms => m.nodes ++ memberNodes ms

end

/-- A top-level class and the classes inside it. -/
def TypeDecl.nodes (d : TypeDecl) : List ClassNode :=
  .named d.head d.members :: memberNodes d.members

/-- The classes in a file, in the order in which they are declared. -/
def File.nodes (f : File) : List ClassNode := f.types.flatMap TypeDecl.nodes

def Code.nodes (c : Code) : List ClassNode := pieceNodes c.pieces

theorem flatMap_filterMap {α β γ : Type} (f : α → Option β) (g : β → List γ) (l : List α) :
    (l.filterMap f).flatMap g = l.flatMap fun a => (f a).elim [] g := by
  induction l with
  | nil => rfl
  | cons a l ih => cases h : f a <;> simp [h, ih]

theorem pieceNodes_append (ps ps' : List Piece) :
    pieceNodes (ps ++ ps') = pieceNodes ps ++ pieceNodes ps' := by
  induction ps with
  | nil => rfl
  | cons p ps ih =>
    cases p with
    | token t => exact ih
    | creation a => simp [pieceNodes, ih]

theorem Anonymous.nodes_eq (a : Anonymous) :
    a.nodes = .anonymous a :: (a.args.elim [] Code.nodes ++ memberNodes a.members) := by
  obtain ⟨place, base, args, members, endLine, label⟩ := a
  rcases args with _ | ⟨argsPlace, pieces⟩ <;> rfl

theorem declaratorNodes_eq (ds : List Declarator) :
    declaratorNodes ds = ds.flatMap fun d => d.init.elim [] Code.nodes := by
  induction ds with
  | nil => rfl
  | cons d ds ih =>
    obtain ⟨name, dims, line, col, init⟩ := d
    rw [List.flatMap_cons, ← ih]
    rcases init with _ | ⟨place, pieces⟩ <;> rfl

theorem memberNodes_eq (ms : List Member) : memberNodes ms = ms.flatMap Member.nodes := by
  induction ms with
  | nil => rfl
  | cons m ms ih => rw [memberNodes, List.flatMap_cons, ih]

namespace Member

theorem nodes_method (head : MethodHead) (body : Option Code) :
    (method head body).nodes = body.elim [] Code.nodes := by
  rcases body with _ | ⟨place, pieces⟩ <;> rfl

theorem nodes_constructor (head : ConstructorHead) (body : Code) :
    (constructor head body).nodes = body.nodes := by
  cases body
  rfl

theorem nodes_initializer (head : InitializerHead) (body : Code) :
    (initializer head body).nodes = body.nodes := by
  cases body
  rfl

theorem nodes_constant (head : ConstantHead) (args : Option Code) (body : Option Anonymous) :
    (constant head args body).nodes = args.elim [] Code.nodes ++ body.elim [] Anonymous.nodes := by
  rcases args with _ | ⟨place, pieces⟩ <;> rcases body with _ | body
  · rfl
  · rfl
  · exact (List.append_nil _).symm
  · rfl

end Member

/-! ### The classes of a plan -/

/-- The class `c` of a plan is the class `node` of the tree. -/
def ClassNode.Describes (node : ClassNode) (c : ClassInfo) : Prop :=
  match node with
  | .named head members => c.origin = .named head ∧ c.members = members
  | .anonymous a => c.origin = .anonymous a.place a.base ∧ c.members = a.members ∧
    c.emitted = a.label.getD []

/-- The classes of a plan are those of the tree, in the same order. -/
abbrev Described (nodes : List ClassNode) (cs : List ClassInfo) : Prop :=
  List.Forall₂ ClassNode.Describes nodes cs

mutual

theorem described_pieces : ∀ (ps : List Piece) (within : Enclosing) (next : Nat),
    Described (pieceNodes ps) (pieceClasses within next ps)
  | [], _, _ => .nil
  | .token _ :: ps, within, next => described_pieces ps within next
  | .creation a :: ps, within, next =>
    List.rel_append (Anonymous.described a within next) (described_pieces ps within _)

theorem Anonymous.described : ∀ (a : Anonymous) (within : Enclosing) (next : Nat),
    Described a.nodes (a.classes within next)
  | ⟨_, _, none, members, _, _⟩, _, _ => .cons ⟨rfl, rfl, rfl⟩ (described_members members _ _)
  | ⟨_, _, some ⟨_, pieces⟩, members, _, _⟩, within, _ =>
    .cons ⟨rfl, rfl, rfl⟩
    (List.rel_append (described_pieces pieces within _) (described_members members _ _))

theorem described_declarators : ∀ (ds : List Declarator) (within : Enclosing) (next : Nat),
    Described (declaratorNodes ds) (declaratorClasses within next ds)
  | [], _, _ => .nil
  | ⟨_, _, _, _, none⟩ :: ds, within, next => described_declarators ds within next
  | ⟨_, _, _, _, some ⟨_, pieces⟩⟩ :: ds, within, next =>
    List.rel_append (described_pieces pieces within next) (described_declarators ds within _)

theorem Member.described : ∀ (m : Member) (within : Enclosing) (next : Nat),
    Described m.nodes (m.classes within next)
  | .field _ declarators, within, next => described_declarators declarators within next
  | .method _ none, _, _ => .nil
  | .method _ (some ⟨_, pieces⟩), within, next => described_pieces pieces within next
  | .constructor _ ⟨_, pieces⟩, within, next => described_pieces pieces within next
  | .nested _ members, _, _ => .cons ⟨rfl, rfl⟩ (described_members members _ _)
  | .initializer _ ⟨_, pieces⟩, within, next => described_pieces pieces within next
  | .constant _ none none, _, _ => .nil
  | .constant _ (some ⟨_, pieces⟩) none, within, next => described_pieces pieces within next
  | .constant _ none (some body), within, next => Anonymous.described body within next
  | .constant _ (some ⟨_, pieces⟩) (some body), within, next =>
    List.rel_append (described_pieces pieces within next) (Anonymous.described body within _)

theorem described_members : ∀ (ms : List Member) (within : Enclosing) (next : Nat),
    Described (memberNodes ms) (memberClasses within next ms)
  | [], _, _ => .nil
  | m :: ms, within, next =>
    List.rel_append (Member.described m within next) (described_members ms within _)

end

theorem TypeDecl.described (d : TypeDecl) (next : Nat) : Described d.nodes (d.classes next) :=
  .cons ⟨rfl, rfl⟩ (described_members d.members _ _)

theorem described_types (next : Nat) (ds : List TypeDecl) :
    Described (ds.flatMap TypeDecl.nodes) (typeClasses next ds) := by
  induction ds generalizing next with
  | nil => exact .nil
  | cons d ds ih =>
    rw [List.flatMap_cons]
    exact List.rel_append (d.described next) (ih _)

theorem Plan.classes_ofFile {known : List Text} {f : File} {p : Plan}
    (h : Plan.ofFile known f = .ok p) :
    p.classes.map ({ · with bases := [] }) = f.classes.map ({ · with bases := [] }) := by
  obtain ⟨q, hq, rfl, -⟩ := Plan.exists_of_ofFile h
  exact (Plan.extends_of_resolveBases f.nested_classes hq).same

theorem Plan.described_ofFile {known : List Text} {f : File} {p : Plan}
    (h : Plan.ofFile known f = .ok p) :
    Described f.nodes p.classes := by
  have hclasses := Plan.classes_ofFile h
  have hdescribed := described_types 0 f.types
  have hbases : ∀ cs : List ClassInfo, Described f.nodes (cs.map ({ · with bases := [] })) ↔
      Described f.nodes cs :=
    fun cs => List.forall₂_map_right_iff
  change Described f.nodes f.classes at hdescribed
  rw [← hbases, ← hclasses, hbases] at hdescribed
  exact hdescribed

theorem Described.origins {nodes : List ClassNode} {cs : List ClassInfo} (h : Described nodes cs) :
    cs.map (·.origin) = nodes.map (·.origin) := by
  have horigin : ∀ {n : ClassNode} {c : ClassInfo}, n.Describes c → c.origin = n.origin := by
    intro n c hc
    cases n <;> exact hc.1
  induction h with
  | nil => rfl
  | cons hnode _ ih => rw [List.map_cons, List.map_cons, ih, horigin hnode]

/-! ### Naming -/

/-- The classes `nodes'` are `nodes` with the anonymous classes named, from `top_n` to the one in
front of `top_m`. -/
structure Numbered (top : Text) (n m : Nat) (nodes nodes' : List ClassNode) : Prop where
  origins : nodes'.map (·.origin) = nodes.map (·.origin)
  labels : ∃ k, m = n + k ∧
    (nodes'.filterMap (·.anonymous?)).map (·.label) =
    (List.range' n k).map (some <| anonymousName top ·)

section Numbered

variable {top : Text} {n m l : Nat} {nodes nodes' others others' : List ClassNode}

theorem numbered_nil : Numbered top n n [] [] := ⟨rfl, 0, rfl, rfl⟩

theorem Numbered.append (h : Numbered top n m nodes nodes') (h' : Numbered top m l others others') :
    Numbered top n l (nodes ++ others) (nodes' ++ others') := by
  obtain ⟨horigins, k, rfl, hlabels⟩ := h
  obtain ⟨horigins', k', rfl, hlabels'⟩ := h'
  refine ⟨by rw [List.map_append, List.map_append, horigins, horigins'], k + k',
    Nat.add_assoc .., ?_⟩
  rw [List.filterMap_append, List.map_append, hlabels, hlabels', ← List.map_append,
    List.range'_append_1]

theorem Numbered.named (h : Numbered top n m nodes nodes') (head : TypeHead)
    (ms ms' : List Member) :
    Numbered top n m (.named head ms :: nodes) (.named head ms' :: nodes') := by
  refine ⟨?_, h.labels⟩
  rw [List.map_cons, List.map_cons, h.origins]
  rfl

theorem Numbered.anonymous (h : Numbered top (n + 1) m nodes nodes') {a a' : Anonymous}
    (horigin : (ClassNode.anonymous a').origin = (ClassNode.anonymous a).origin)
    (hlabel : a'.label = some (anonymousName top n)) :
    Numbered top n m (.anonymous a :: nodes) (.anonymous a' :: nodes') := by
  obtain ⟨horigins, k, rfl, hlabels⟩ := h
  refine ⟨?_, k + 1, by omega, ?_⟩
  · rw [List.map_cons, List.map_cons, horigins, horigin]
  · rw [List.range'_succ, List.map_cons, ← hlabels, ← hlabel]
    rfl

end Numbered

mutual

theorem numbered_labelPieces (top : Text) : ∀ (n : Nat) (ps : List Piece),
    Numbered top n (labelPieces top n ps).2 (pieceNodes ps) (pieceNodes (labelPieces top n ps).1)
  | _, [] => numbered_nil
  | n, .token _ :: ps => numbered_labelPieces top n ps
  | n, .creation a :: ps =>
    (Anonymous.numbered_labelled top n a).append (numbered_labelPieces top _ ps)

theorem Anonymous.numbered_labelled (top : Text) : ∀ (n : Nat) (a : Anonymous),
    Numbered top n (a.labelled top n).2 a.nodes (a.labelled top n).1.nodes
  | n, ⟨_, _, none, members, _, _⟩ => (numbered_labelMembers top (n + 1) members).anonymous rfl rfl
  | n, ⟨_, _, some ⟨_, pieces⟩, members, _, _⟩ =>
    ((numbered_labelPieces top (n + 1) pieces).append
      (numbered_labelMembers top _ members)).anonymous rfl rfl

theorem numbered_labelDeclarators (top : Text) : ∀ (n : Nat) (ds : List Declarator),
    Numbered top n (labelDeclarators top n ds).2 (declaratorNodes ds)
    (declaratorNodes (labelDeclarators top n ds).1)
  | _, [] => numbered_nil
  | n, ⟨_, _, _, _, none⟩ :: ds => numbered_labelDeclarators top n ds
  | n, ⟨_, _, _, _, some ⟨_, pieces⟩⟩ :: ds =>
    (numbered_labelPieces top n pieces).append (numbered_labelDeclarators top _ ds)

theorem Member.numbered_labelled (top : Text) : ∀ (n : Nat) (m : Member),
    Numbered top n (m.labelled top n).2 m.nodes (m.labelled top n).1.nodes
  | n, .field _ declarators => numbered_labelDeclarators top n declarators
  | _, .method _ none => numbered_nil
  | n, .method _ (some ⟨_, pieces⟩) => numbered_labelPieces top n pieces
  | n, .constructor _ ⟨_, pieces⟩ => numbered_labelPieces top n pieces
  | n, .nested head members => (numbered_labelMembers top n members).named head _ _
  | n, .initializer _ ⟨_, pieces⟩ => numbered_labelPieces top n pieces
  | _, .constant _ none none => numbered_nil
  | n, .constant _ (some ⟨_, pieces⟩) none => numbered_labelPieces top n pieces
  | n, .constant _ none (some body) => Anonymous.numbered_labelled top n body
  | n, .constant _ (some ⟨_, pieces⟩) (some body) =>
    (numbered_labelPieces top n pieces).append (Anonymous.numbered_labelled top _ body)

theorem numbered_labelMembers (top : Text) : ∀ (n : Nat) (ms : List Member),
    Numbered top n (labelMembers top n ms).2 (memberNodes ms)
    (memberNodes (labelMembers top n ms).1)
  | _, [] => numbered_nil
  | n, m :: ms => (Member.numbered_labelled top n m).append (numbered_labelMembers top _ ms)

end

theorem TypeDecl.numbered_labelled (d : TypeDecl) :
    ∃ m, Numbered d.head.name 1 m d.nodes d.labelled.nodes :=
  ⟨_, (numbered_labelMembers d.head.name 1 d.members).named d.head _ _⟩

theorem File.origins_labelled (f : File) :
    f.labelled.nodes.map (·.origin) = f.nodes.map (·.origin) := by
  unfold File.nodes File.labelled
  simp only [List.map_flatMap, List.flatMap_map]
  congr 1
  funext d
  obtain ⟨m, hd⟩ := d.numbered_labelled
  exact hd.origins

end Unnest
