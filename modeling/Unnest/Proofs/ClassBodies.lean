import Unnest.Proofs.Creations
import Unnest.Proofs.SortedBodies
import Unnest.Proofs.TwinRuns
import Mathlib

/-!
# The class bodies of a file

Every class of a file, at the top, among members or inside of code, has a body that is well formed
(`ClassNode.WellFormed`). Two things are shown for it. A body that is read in the right surroundings
is well formed: what one member must be like is seen from its form (`fits_of_parse`), and the order
of enum constants from the run that reads the body (`Run.constants_first`). And every body was read
in the surroundings of its class, however deep the class lies (`Node.Traced`).

* `traces_insideAt`: the surroundings in which the classes inside of groups are read;
* `File.wellFormed_of_mem_nodes`: the class bodies of a file.
-/

namespace Unnest

open Unnest.Parser

/-! ### Bodies that are read -/

/-- **The body of a class** is the one to which the nodes of a run are added that uses its range
up. -/
theorem toExcept_dispatchWith_eq_ok_iff_body {inside : Inside} {ctx : BodyContext} {s : Cursor}
    {members : List Member} :
    (dispatchWith (constantForm inside) (memberForms inside) ctx s).toExcept = .ok members ↔
      ∃ nodes ctx' t, Run inside ctx s nodes ctx' t ∧ t.rest = [] ∧
        ClassBody.ofMembers members = .ofNodes nodes := by
  constructor
  · intro h
    obtain ⟨ctx', t, hrun, hrest⟩ := toExcept_dispatchWith_eq_ok.mp h
    exact ⟨_, ctx', t, hrun, hrest, rfl⟩
  · rintro ⟨nodes, ctx', t, hrun, hrest, hbody⟩
    have hmembers : members = nodes.filterMap Node.member? := by
      rw [← ClassBody.members_ofMembers members, hbody, (ClassBody.sorted_ofNodes nodes).2]
    rw [hrun.dispatchWith_eq, dispatchWith_end (by simp [Cursor.hasNext, hrest]), hmembers]
    simp [Dispatched.prepend, Dispatched.toExcept]

/-! ### Well-formed bodies -/

namespace ClassNode

/-- The name of the class; anonymous classes have none. -/
def name? : ClassNode → Option Text
  | named head _ => some head.name
  | anonymous _ => none

def kind : ClassNode → ClassKind
  | named head _ => head.kind
  | anonymous _ => .normal

/-- What holds of the body of a class. -/
structure WellFormed (c : ClassNode) : Prop where
  /-- The members in source order, and sorted. -/
  sorted : (ClassBody.ofMembers c.members).members = c.members ∧
    ∀ kind, (ClassBody.ofMembers c.members).list kind = c.members.filter (·.kind == kind)
  /-- Only enums have enum constants. -/
  constants : ∀ m ∈ c.members, m.kind = .enumConstant → c.kind = .enumeration
  /-- Enum constants come first. -/
  constantsFirst : ∃ constants others, c.members = constants ++ others ∧
    (∀ m ∈ constants, m.kind = .enumConstant) ∧ ∀ m ∈ others, m.kind ≠ .enumConstant
  /-- A constructor bears the name of the class, which has one. -/
  constructors : ∀ head code, .constructor head code ∈ c.members → c.name? = some head.name
  /-- A field declares something, and what is initialized is initialized with something. -/
  fields : ∀ head declarators, .field head declarators ∈ c.members → declarators ≠ [] ∧
    ∀ d ∈ declarators, ∀ code, d.init = some code → code.isEmpty = false
  /-- A method of an interface that has no body and is not static is abstract. -/
  methods : c.kind = .interface → ∀ head, .method head none ∈ c.members →
    head.modifiers.isStatic = false → head.modifiers.isAbstract = true
  /-- An enum constant with a body has no arguments of its own,
    and its class is based on the enum. -/
  constantBodies : ∀ head args a, .constant head args (some a) ∈ c.members →
    args = none ∧ c.name? = some a.base.name

end ClassNode

/-! ### Single members -/

/-- What a member that is read in the given surroundings is like. -/
def Member.Fits (ctx : BodyContext) : Member → Prop
  | .field _ declarators => declarators ≠ [] ∧
    ∀ d ∈ declarators, ∀ code, d.init = some code → code.isEmpty = false
  | .method head code => code = none → ctx.classKind = .interface →
    head.modifiers.isStatic = false →
    head.modifiers.isAbstract = true
  | .constructor head _ => ctx.className ≠ [] ∧ head.name = ctx.className
  | .constant _ args body => ctx.inConstants = true ∧ ctx.classKind = .enumeration ∧
    ∀ a, body = some a → args = none ∧ a.base.name = ctx.className
  | _ => True

section Members

variable {inside : Inside} {ctx : BodyContext} {s s' decided : Cursor} {form : MemberForm}
  {m : Member}

theorem Member.fits_withSpan {span : Span} : (m.withSpan span).Fits ctx ↔ m.Fits ctx := by
  cases m <;> exact Iff.rfl

theorem Member.kind_withSpan (m : Member) (span : Span) : (m.withSpan span).kind = m.kind := by
  cases m <;> rfl

theorem Member.Fits.mono {ctx' : BodyContext} (h : m.Fits ctx)
    (hname : ctx'.className = ctx.className) (hkind : ctx'.classKind = ctx.classKind)
    (hin : ctx.inConstants = true → ctx'.inConstants = true) :
    m.Fits ctx' := by
  cases m with
  | field => exact h
  | method => exact fun hcode hinterface => h hcode (hkind ▸ hinterface)
  | constructor => exact ⟨hname ▸ h.1, hname ▸ h.2⟩
  | nested => trivial
  | initializer => trivial
  | constant => exact ⟨hin h.1, hkind ▸ h.2.1, fun a ha => hname ▸ h.2.2 a ha⟩

theorem Member.Fits.inConstants (h : m.Fits ctx) (hkind : m.kind = .enumConstant) :
    ctx.inConstants = true := by
  cases m with
  | initializer head code =>
    simp only [Member.kind] at hkind
    split_ifs at hkind
  | constant => exact h.1
  | _ => cases hkind

theorem gives_constantDecl_of_body {P : Member → Prop}
    (h : ∀ head name args s, Gives (constantBody inside ctx head name args) s (fun m _ => P m)
      fun _ => True) :
    Gives (constantDecl inside ctx) s (fun m _ => P m) fun _ => True := by
  rw [constantDecl_eq]
  refine gives_last fun head _ => gives_last fun args _ => ?_
  exact (h _ _ _ _).bind fun m _ hm => gives_last fun _ _ => gives_pure.mpr hm

theorem gives_declarator_init :
    Gives (declarator inside) s (fun d _ => ∀ code, d.init = some code → code.isEmpty = false)
    fun _ => True := by
  unfold declarator
  refine gives_last fun name _ => gives_last fun extraDims _ => gives_last fun s₁ _ =>
    gives_ite.mpr
    ⟨fun _ => gives_last fun _ _ => gives_last fun init _ => ?_, fun _ => gives_pure.mpr (by simp)⟩
  refine gives_ite.mpr
    ⟨fun _ => gives_bind.mpr (gives_fail.mpr trivial), fun hinit => gives_pure.mpr ?_⟩
  rintro _ ⟨⟩
  simpa using hinit

theorem gives_fieldDecl_fits :
    Gives (fieldDecl inside) s (fun m _ => m.Fits ctx) fun _ => True := by
  unfold fieldDecl
  refine gives_last fun s₁ _ => gives_last fun modifiers _ => gives_last fun type s₂ => ?_
  refine gives_declarator_init.bind fun first s₃ hfirst => ?_
  refine (gives_many (fun _ => True)
    (A := fun d => ∀ code, d.init = some code → code.isEmpty = false) (fun s _ => ?_) trivial).bind
    fun more s₄ hmore => gives_last fun _ _ => gives_pure.mpr ?_
  · rw [gives_get_ite]
    refine ⟨fun _ => ?_, fun _ => gives_pure.mpr ⟨trivial, by simp⟩⟩
    rw [gives_bind]
    refine gives_of_forall (fun _ s₁ _ => ?_) fun _ _ _ => trivial
    refine gives_declarator_init.bind fun d _ hd => gives_pure.mpr ⟨trivial, ?_⟩
    rintro _ ⟨⟩
    exact hd
  · exact ⟨List.cons_ne_nil _ _, List.forall_mem_cons.mpr ⟨hfirst, hmore.2⟩⟩

/-- The word `abstract` makes modifiers abstract, and `static` is not among them unless it was
before. -/
theorem bodiless_fits (head : MethodHead) :
    Gives (bodiless ctx head) s (fun m _ => m.Fits ctx) fun _ => True := by
  unfold bodiless
  refine gives_last fun _ _ =>
    gives_ite.mpr ⟨fun _ => gives_pure.mpr ?_, fun hnot => gives_pure.mpr ?_⟩
  · intro _ _ _
    simp [Modifiers.isAbstract, Modifiers.has]
  · intro _ hinterface hstatic
    simpa [hinterface, hstatic] using hnot

theorem gives_methodDecl_fits :
    Gives (methodDecl inside ctx) s (fun m _ => m.Fits ctx) fun _ => True := by
  rw [methodDecl_eq]
  refine gives_last fun head _ =>
    gives_last fun s₁ _ => gives_ite.mpr ⟨fun _ => ?_, fun _ => bodiless_fits head⟩
  exact gives_block_of_build fun c hnone => nomatch hnone

theorem gives_constantDecl_fits (hin : ctx.inConstants = true)
    (hkind : ctx.classKind = .enumeration) :
    Gives (constantDecl inside ctx) s (fun m _ => m.Fits ctx) fun _ => True := by
  refine gives_constantDecl_of_body fun head name args s => ?_
  unfold constantBody
  refine gives_last fun s₁ _ =>
    gives_ite.mpr ⟨fun _ => ?_, fun _ => gives_pure.mpr ⟨hin, hkind, by simp⟩⟩
  refine gives_last fun body _ => gives_last fun members _ => gives_pure.mpr ⟨hin, hkind, ?_⟩
  rintro _ ⟨⟩
  exact ⟨rfl, rfl⟩

theorem gives_constructorDecl_fits (hrec : recognizeConstructor ctx s = some decided) :
    Gives (constructorDecl inside) s (fun m _ => m.Fits ctx) fun _ => True := by
  obtain ⟨hname, -, -⟩ := recognizeConstructor_eq_some hrec
  have hclass : ctx.className ≠ [] := by
    intro hnil
    simp [recognizeConstructor, hnil] at hrec
  unfold constructorDecl
  rw [gives_bind, gives_get]
  refine gives_modifiers.bind fun modifiers s₁ h₁ => ?_
  refine gives_typeParams.bind fun typeParams s₂ h₂ => ?_
  rw [gives_bind, gives_expect]
  refine ⟨fun name hcurrent _ => ?_, fun _ => trivial⟩
  refine gives_last fun _ _ =>
    gives_last fun params _ => gives_last fun throwing _ => gives_last fun _ _ =>
    gives_last fun body _ => gives_pure.mpr ⟨hclass, ?_⟩
  subst h₁
  subst h₂
  simp only [Cursor.isAtName, hcurrent, Option.any_some, Bool.and_eq_true, beq_iff_eq] at hname
  exact hname.2

/-- **A member that a form recognises and reads** fits its surroundings. -/
theorem fits_of_parse (hform : form ∈ constantForm inside :: memberForms inside)
    (hrec : form.recognize ctx s = some decided) (hparse : form.parse ctx s = .ok (.member m) s') :
    m.Fits ctx := by
  have hmap : ∀ {p : Parser Member}, Gives p s (fun m _ => m.Fits ctx) (fun _ => True) →
      (Node.member <$> p) s = .ok (.member m) s' → m.Fits ctx := by
    intro p hp h
    obtain ⟨m', hm', heq⟩ := map_eq_ok.mp h
    cases heq
    exact hp.ok hm'
  have hblock : ∀ isStatic, Gives (initializerDecl inside isStatic) s (fun m _ => m.Fits ctx)
      fun _ => True := by
    intro isStatic
    rw [initializerDecl_eq]
    exact gives_last fun _ _ => gives_block_of_build fun _ => trivial
  rcases MemberForm.eq_of_mem hform with rfl | rfl | rfl | rfl | rfl | rfl | rfl
  · change recognizeConstant ctx s = some decided at hrec
    unfold recognizeConstant at hrec
    split_ifs at hrec with hctx
    simp only [Bool.and_eq_true, decide_eq_true_eq] at hctx
    exact hmap (gives_constantDecl_fits hctx.2 hctx.1) hparse
  · exact hmap gives_fieldDecl_fits hparse
  · exact hmap gives_methodDecl_fits hparse
  · have htype : ∀ d : TypeDecl, (Member.nested d.head d.members).Fits ctx := fun _ => trivial
    exact hmap (gives_last fun d _ => gives_pure.mpr (htype d)) hparse
  · exact hmap (hblock true) hparse
  · exact hmap (hblock false) hparse
  · exact hmap (gives_constructorDecl_fits hrec) hparse

end Members

/-! ### Runs -/

section Runs

variable {inside : Inside} {ctx ctx' : BodyContext} {s s' t : Cursor} {node : Node}
  {nodes : List Node}

theorem exists_fits_of_memberStep
    (h : memberStep (constantForm inside) (memberForms inside) ctx s = .read node ctx' s') :
    ∃ m, node = .member m ∧ m.Fits ctx ∧ ctx'.className = ctx.className ∧
      ctx'.classKind = ctx.classKind ∧
      (ctx'.inConstants = true → ctx.inConstants = true ∧ m.kind = .enumConstant) := by
  obtain ⟨form, decided, ctx₁, m, hsel, hparse, rfl, rfl⟩ := memberStep_eq_read h
  obtain ⟨hform, hrec⟩ := selectForm_eq_some hsel
  have hctx : ctx₁.className = ctx.className ∧ ctx₁.classKind = ctx.classKind ∧
      (ctx₁.inConstants = true → ctx.inConstants = true) := by
    rcases selectForm_cases hsel with ⟨-, rfl, -, -⟩ | ⟨-, -, -, rfl, -⟩
    · exact ⟨rfl, rfl, id⟩
    · exact ⟨rfl, rfl, fun h => by cases h⟩
  obtain ⟨hname, hkind, hin⟩ := hctx
  have hfits := (fits_of_parse hform hrec hparse).mono hname.symm hkind.symm hin
  refine ⟨_, rfl, Member.fits_withSpan.mpr hfits, hname, hkind, fun hboth => ?_⟩
  simp only [Bool.and_eq_true, beq_iff_eq] at hboth
  exact ⟨hin hboth.1, by rw [Member.kind_withSpan, hboth.2]⟩

theorem Run.fits (h : Run inside ctx s nodes ctx' t) :
    ∀ m, .member m ∈ nodes → m.Fits { ctx with inConstants := true } := by
  induction h with
  | done => simp
  | semi _ _ ih => exact ih
  | read _ _ hstep _ ih =>
    obtain ⟨m₀, rfl, hfits, hname, hkind, -⟩ := exists_fits_of_memberStep hstep
    intro m hm
    rcases List.mem_cons.mp hm with hm | hm
    · cases hm
      exact hfits.mono rfl rfl fun _ => rfl
    · exact (ih m hm).mono hname.symm hkind.symm fun _ => rfl

theorem Run.no_constant (h : Run inside ctx s nodes ctx' t) (hin : ctx.inConstants = false) :
    ∀ m, .member m ∈ nodes → m.kind ≠ .enumConstant := by
  induction h with
  | done => simp
  | semi _ _ ih => exact ih rfl
  | read _ _ hstep _ ih =>
    obtain ⟨m₀, rfl, hfits, -, -, hconst⟩ := exists_fits_of_memberStep hstep
    intro m hm hkind
    rcases List.mem_cons.mp hm with hm | hm
    · cases hm
      exact Bool.noConfusion (hin.symm.trans (hfits.inConstants hkind))
    · refine ih (Bool.eq_false_iff.mpr fun h => ?_) m hm hkind
      exact Bool.noConfusion (hin.symm.trans (hconst h).1)

theorem Run.constants_first {ms : List Member} (h : Run inside ctx s (ms.map .member) ctx' t) :
    ∃ constants others, ms = constants ++ others ∧ (∀ m ∈ constants, m.kind = .enumConstant) ∧
      ∀ m ∈ others, m.kind ≠ .enumConstant := by
  generalize hnodes : ms.map Node.member = nodes at h
  induction h generalizing ms with
  | done =>
    cases List.map_eq_nil_iff.mp hnodes
    exact ⟨[], [], rfl, by simp, by simp⟩
  | semi _ rest _ =>
    subst hnodes
    exact ⟨[], ms, rfl, by simp, fun m hm => rest.no_constant rfl m (List.mem_map_of_mem hm)⟩
  | read hnext hsemi hstep rest ih =>
    obtain ⟨m, ms, rfl, hm, rfl⟩ := List.map_eq_cons_iff.mp hnodes
    obtain ⟨m', hm', -, -, -, hconst⟩ := exists_fits_of_memberStep hstep
    cases hm.trans hm'
    by_cases hkind : m.kind = .enumConstant
    · obtain ⟨constants, others, rfl, hconstants, hothers⟩ := ih rfl
      exact ⟨m :: constants, others, rfl, List.forall_mem_cons.mpr ⟨hkind, hconstants⟩, hothers⟩
    · refine ⟨[], m :: ms, rfl, by simp, List.forall_mem_cons.mpr ⟨hkind, fun m hm => ?_⟩⟩
      exact rest.no_constant (Bool.eq_false_iff.mpr fun h => hkind (hconst h).2) m
        (List.mem_map_of_mem hm)

end Runs

/-! ### The surroundings of classes -/

/-- The members were read from a group in the given surroundings, at some level. -/
def ReadAs (ctx : BodyContext) (ms : List Member) : Prop :=
  ∃ levels g, (insideAt levels).members ctx g = .ok ms

/-- If the node is a class, its members were read in the surroundings of this class. -/
def Node.IsReadAs : Node → Prop
  | .member (.nested head members) => ReadAs head.context members
  | .anonymous a => ReadAs {} a.members
  | _ => True

/-- All classes in the node, however deep, were read in their surroundings. -/
def Node.Traced (x : Node) : Prop := ∀ y, x.Within y → y.IsReadAs

theorem Node.traced_iff {x : Node} : x.Traced ↔ x.IsReadAs ∧ ∀ y ∈ x.parts, y.Traced := by
  constructor
  · exact fun h => ⟨h x .refl, fun y hy z hz => h z (.head hy hz)⟩
  · rintro ⟨hx, hparts⟩ z hz
    rcases Relation.ReflTransGen.cases_head hz with rfl | ⟨y, hy, hyz⟩
    · exact hx
    · exact hparts y hy z hyz

/-- What is in groups was read in its surroundings. -/
structure Inside.Traces (inside : Inside) : Prop where
  readAs : ∀ {ctx g ms}, inside.members ctx g = .ok ms → ReadAs ctx ms
  members : ∀ {ctx g ms}, inside.members ctx g = .ok ms → ∀ m ∈ ms, (Node.member m).Traced
  pieces : ∀ {es ps}, inside.pieces es = .ok ps → ∀ a, .creation a ∈ ps → (Node.anonymous a).Traced

/-- The surroundings in which the members of a class were read that a member is or creates. -/
def Member.OpensWith (inside : Inside) : Member → Prop
  | .nested head members => ∃ g, inside.members head.context g = .ok members
  | .constant _ _ body => ∀ a, body = some a → ∃ g, inside.members {} g = .ok a.members
  | _ => True

section Tracing

variable {inside : Inside} {ctx ctx' : BodyContext} {s s' t : Cursor} {form : MemberForm}
  {m : Member}

theorem gives_typeDecl_context :
    Gives (typeDecl inside) s (fun d _ => ∃ g, inside.members d.head.context g = .ok d.members)
    fun _ => True := by
  rw [typeDecl_eq]
  refine gives_last fun head _ => gives_last fun g _ => ?_
  rw [gives_bind, gives_ofExcept]
  exact ⟨fun members hmembers => gives_pure.mpr ⟨g, hmembers⟩, fun _ _ => trivial⟩

theorem gives_constantDecl_opensWith :
    Gives (constantDecl inside ctx) s (fun m _ => m.OpensWith inside) fun _ => True := by
  refine gives_constantDecl_of_body fun head name args s => ?_
  unfold constantBody
  refine gives_last fun s₁ _ =>
    gives_ite.mpr ⟨fun _ => ?_, fun _ => gives_pure.mpr (by simp [Member.OpensWith])⟩
  refine gives_last fun g _ => ?_
  rw [gives_bind, gives_ofExcept]
  refine ⟨fun members hmembers => gives_pure.mpr ?_, fun _ _ => trivial⟩
  rintro _ ⟨⟩
  exact ⟨g, hmembers⟩

theorem opensWith_of_parse (hform : form ∈ constantForm inside :: memberForms inside)
    (hparse : form.parse ctx s = .ok (.member m) t) : m.OpensWith inside :=
  holds_of_parse hform gives_constantDecl_opensWith gives_typeDecl_context (fun _ _ => trivial)
    (fun _ _ => trivial)
    (fun _ _ => trivial) (fun _ _ => trivial) hparse

namespace Inside.Traces

variable (h : inside.Traces)
include h

theorem anonymous {a : Anonymous} {g : Group} (hmembers : inside.members {} g = .ok a.members)
    (hargs : ∀ c, a.args = some c → (Node.code c).Traced) : (Node.anonymous a).Traced := by
  refine Node.traced_iff.mpr ⟨h.readAs hmembers, fun y hy => ?_⟩
  rcases List.mem_append.mp hy with hy | hy
  · obtain ⟨c, hc, rfl⟩ := List.mem_map.mp hy
    exact hargs c (Option.mem_toList.mp hc)
  · obtain ⟨m, hm, rfl⟩ := List.mem_map.mp hy
    exact h.members hmembers m hm

omit h in
theorem code {c : Code} (hc : ∀ a, .creation a ∈ c.pieces → (Node.anonymous a).Traced) :
    (Node.code c).Traced := by
  refine Node.traced_iff.mpr ⟨trivial, fun y hy => ?_⟩
  obtain ⟨a, ha, rfl⟩ := mem_parts_code.mp hy
  exact hc a ha

theorem ofGroup {g : Group} {c : Code} (hc : Code.ofGroup inside g = .ok c) :
    (Node.code c).Traced := by
  unfold Code.ofGroup at hc
  obtain ⟨ps, hps, hc⟩ := Except.bind_eq_ok.mp hc
  cases hc
  exact code (h.pieces hps)

theorem piecesWith {skip : Nat} {es : List Element} {ps : List Piece}
    (hps : piecesWith inside skip es = .ok ps) :
    ∀ a, .creation a ∈ ps → (Node.anonymous a).Traced := by
  intro a ha
  induction es generalizing skip ps with
  | nil =>
    simp only [Unnest.piecesWith, Except.ok.injEq] at hps
    subst hps
    cases ha
  | cons e es ih =>
    cases skip with
    | succ skip => exact ih hps ha
    | zero =>
      cases piecesFrom_of_piecesWith hps with
      | creation _ _ hargs hmembers hrest =>
        rcases List.mem_cons.mp ha with ha | ha
        · cases ha
          refine h.anonymous hmembers ?_
          rintro _ ⟨⟩
          exact h.ofGroup hargs
        · exact ih hrest ha
      | token hrest =>
        rcases List.mem_cons.mp ha with ha | ha
        · cases ha
        · exact ih hrest ha
      | group hinner hrest =>
        rcases List.mem_append.mp ha with ha | ha
        · rcases List.mem_cons.mp ha with ha | ha
          · cases ha
          · exact h.pieces hinner a ha
        · rcases List.mem_cons.mp ha with ha | ha
          · cases ha
          · exact ih hrest ha

theorem ofElements {es : List Element} {c : Code} (hc : Code.ofElements inside es = .ok c) :
    (Node.code c).Traced := by
  unfold Code.ofElements at hc
  obtain ⟨ps, hps, hc⟩ := Except.bind_eq_ok.mp hc
  cases hc
  exact code (h.piecesWith hps)

/-- **A member** whose parts were read, and whose class was read in its surroundings. -/
theorem member (hread : ElementInvariant.announced.ReadBy inside m) (hopens : m.OpensWith inside) :
    (Node.member m).Traced := by
  have hgroup : ∀ {c}, ElementInvariant.announced.FromGroup inside c → (Node.code c).Traced := by
    rintro c ⟨g, -, hc⟩
    exact h.ofGroup hc
  rw [Node.traced_iff]
  cases m with
  | field head declarators =>
    refine ⟨trivial, fun y hy => ?_⟩
    obtain ⟨d, hd, hcode⟩ := List.mem_filterMap.mp hy
    obtain ⟨c, hc, rfl⟩ := Option.map_eq_some_iff.mp hcode
    obtain ⟨es, -, hes⟩ := hread d hd c hc
    exact h.ofElements hes
  | method head body =>
    refine ⟨trivial, fun y hy => ?_⟩
    obtain ⟨c, hc, rfl⟩ := List.mem_map.mp hy
    exact hgroup (hread c (Option.mem_toList.mp hc))
  | constructor head body =>
    refine ⟨trivial, fun y hy => ?_⟩
    cases List.mem_singleton.mp hy
    exact hgroup hread
  | nested head members =>
    obtain ⟨g, hmembers⟩ := hopens
    refine ⟨h.readAs hmembers, fun y hy => ?_⟩
    obtain ⟨m, hm, rfl⟩ := List.mem_map.mp hy
    exact h.members hmembers m hm
  | initializer head body =>
    refine ⟨trivial, fun y hy => ?_⟩
    cases List.mem_singleton.mp hy
    exact hgroup hread
  | constant head args body =>
    obtain ⟨hargs, hbody⟩ := hread
    refine ⟨trivial, fun y hy => ?_⟩
    rcases List.mem_append.mp hy with hy | hy
    · obtain ⟨c, hc, rfl⟩ := List.mem_map.mp hy
      exact hgroup (hargs c (Option.mem_toList.mp hc))
    · obtain ⟨a, ha, rfl⟩ := List.mem_map.mp hy
      have ha := Option.mem_toList.mp ha
      obtain ⟨g, hmembers⟩ := hopens a ha
      exact h.anonymous hmembers fun c hc => hgroup ((hbody a ha).1 c hc)

theorem run {nodes : List Node} (hread : ElementInvariant.announced.Reads inside)
    (hrun : Run inside ctx s nodes ctx' t) : ∀ node ∈ nodes, node.Traced := by
  induction hrun with
  | done => simp
  | semi _ _ ih => exact ih
  | read _ _ hstep _ ih =>
    obtain ⟨form, decided, ctx₁, m, hsel, hparse, rfl, -⟩ := memberStep_eq_read hstep
    have hform := (selectForm_eq_some hsel).1
    obtain ⟨-, m', heq, -, hm⟩ :=
      (hread.gives_form hform ctx₁ ⟨trivial, fun _ _ => trivial⟩).ok hparse
    cases heq
    refine List.forall_mem_cons.mpr ⟨?_, ih⟩
    refine h.member (ElementInvariant.readBy_withSpan.mpr hm) ?_
    have hopens := opensWith_of_parse hform hparse
    cases m <;> exact hopens

end Inside.Traces

/-- **What is in groups**, at all depths, was read in its surroundings. -/
theorem traces_insideAt (levels : Nat) : (insideAt levels).Traces := by
  induction levels with
  | zero =>
    refine ⟨fun h => ⟨0, _, h⟩, fun h => ?_, fun h => ?_⟩
    · cases h
      simp
    · cases h
      simp
  | succ levels ih =>
    refine ⟨fun h => ⟨levels + 1, _, h⟩, fun {ctx g ms} hms m hm => ?_,
      fun hps => ih.piecesWith hps⟩
    obtain ⟨ctx', t, hrun, -⟩ := toExcept_dispatchWith_eq_ok.mp hms
    exact ih.run (ElementInvariant.announced.reads_insideAt levels) hrun _ (List.mem_map_of_mem hm)

theorem gives_file_types {P : TypeDecl → Prop}
    (hspan : ∀ d span, P d → P { d with head := { d.head with span } })
    (htype : ∀ s, Gives (typeDecl inside) s (fun d _ => P d) fun _ => True) :
    Gives (file inside) s (fun f _ => ∀ d ∈ f.types, P d) fun _ => True := by
  unfold file
  refine gives_last fun s₁ _ => gives_last fun package _ => gives_last fun imports s₂ => ?_
  refine (gives_many (fun _ => True) (A := fun d : Option TypeDecl => ∀ d', d = some d' → P d')
    (fun s _ => ?_) trivial).bind fun types s₃ h₃ => gives_pure.mpr fun d hd => ?_
  · rw [gives_get_ite]
    refine ⟨fun _ => ?_, fun _ => gives_pure.mpr ⟨trivial, by simp⟩⟩
    unfold topLevel
    rw [gives_bind, gives_bind, gives_get, gives_ite]
    refine ⟨fun _ => ?_, fun _ => gives_ite.mpr ⟨fun _ => ?_, fun _ => gives_fail.mpr trivial⟩⟩
    · rw [gives_bind, gives_advance]
      exact ⟨fun _ => gives_pure.mpr (gives_pure.mpr ⟨trivial, by simp⟩), fun _ => trivial⟩
    · refine (htype s).bind fun d s' hd => ?_
      rw [gives_bind, gives_get, gives_pure, gives_pure]
      refine ⟨trivial, ?_⟩
      rintro _ ⟨⟩ d' ⟨⟩
      exact hspan d _ hd
  · obtain ⟨d', hd', he⟩ := List.mem_filterMap.mp hd
    exact h₃.2 d' hd' d he

end Tracing

/-! ### Files -/

namespace ClassNode

/-- The surroundings of the members of the class. -/
def context : ClassNode → BodyContext
  | named head _ => head.context
  | anonymous _ => {}

variable {c : ClassNode}

theorem kind_eq (c : ClassNode) : c.kind = c.context.classKind := by
  cases c <;> rfl

theorem name?_eq (h : c.context.className ≠ [] ∨ c.kind = .enumeration) :
    c.name? = some c.context.className := by
  cases c with
  | named head members => rfl
  | anonymous a => rcases h with h | h <;> contradiction

theorem exists_run (h : ReadAs c.context c.members) :
    ∃ inside s ctx' t, Run inside c.context s (c.members.map .member) ctx' t := by
  obtain ⟨levels, g, hmembers⟩ := h
  cases levels with
  | zero =>
    rw [← Except.ok.inj hmembers]
    exact ⟨insideAt 0, .ofGroup g, _, _, .done _ _⟩
  | succ levels =>
    obtain ⟨ctx', t, hrun, -⟩ := toExcept_dispatchWith_eq_ok.mp hmembers
    exact ⟨_, _, ctx', t, hrun⟩

/-- **Members that are read in the surroundings of their class** make a well-formed body. -/
theorem wellFormed_of_readAs (h : ReadAs c.context c.members) : c.WellFormed := by
  obtain ⟨inside, s, ctx', t, hrun⟩ := exists_run h
  have hfits : ∀ m ∈ c.members, m.Fits { c.context with inConstants := true } := fun m hm =>
    hrun.fits m (List.mem_map_of_mem hm)
  constructor
  case sorted =>
    exact ⟨ClassBody.members_ofMembers _, ClassBody.list_ofMembers _⟩
  case constants =>
    intro m hm hkind
    cases m with
    | constant head args code =>
      rw [kind_eq]
      exact (hfits _ hm).2.1
    | initializer head code =>
      simp only [Member.kind] at hkind
      split_ifs at hkind
    | _ => cases hkind
  case constantsFirst => exact hrun.constants_first
  case constructors =>
    intro head code hm
    obtain ⟨hclass, hname⟩ := hfits _ hm
    rw [name?_eq (Or.inl hclass), hname]
  case fields => exact fun head declarators hm => hfits _ hm
  case methods =>
    intro hinterface head hm
    rw [kind_eq] at hinterface
    exact hfits _ hm rfl hinterface
  case constantBodies =>
    intro head args a hm
    obtain ⟨-, henum, hbody⟩ := hfits _ hm
    obtain ⟨hargs, hbase⟩ := hbody a rfl
    rw [name?_eq (Or.inr (c.kind_eq.trans henum)), hbase]
    exact ⟨hargs, rfl⟩

end ClassNode

namespace File

variable {root : Group} {f : File} {c : ClassNode}

theorem exists_members_of_mem_types (h : File.ofGroup root = .ok f) :
    ∀ d ∈ f.types, ∃ g, (Inside.ofElements root.children).members d.head.context g =
      .ok d.members := by
  have hgives : Gives (Parser.file (Inside.ofElements root.children)) (.ofGroup root)
      (fun f _ => ∀ d ∈ f.types, ∃ g, (Inside.ofElements root.children).members d.head.context g =
        .ok d.members) fun _ => True :=
    gives_file_types (fun _ _ hd => hd) fun _ => gives_typeDecl_context
  unfold File.ofGroup runOn at h
  split at h
  · next f' s' hrun =>
    cases h
    exact hgives.ok hrun
  · cases h

theorem readAs_of_mem_nodes (h : File.ofGroup root = .ok f) (hc : c ∈ f.nodes) :
    ReadAs c.context c.members := by
  rcases mem_nodes_iff.mp hc with ⟨d, hd, rfl⟩ | ⟨d, hd, m, hm, hwithin⟩
  · obtain ⟨g, hg⟩ := exists_members_of_mem_types h d hd
    exact ⟨_, g, hg⟩
  · obtain ⟨g, hg⟩ := exists_members_of_mem_types h d hd
    have htraced := (traces_insideAt _).members hg m hm _ hwithin
    cases c <;> exact htraced

/-- **The class bodies of a file** are well formed: at the top, among the members of classes and
inside of code, however deep. -/
theorem wellFormed_of_mem_nodes (h : File.ofGroup root = .ok f) : ∀ c ∈ f.nodes, c.WellFormed :=
  fun _ hc => ClassNode.wellFormed_of_readAs (readAs_of_mem_nodes h hc)

/-- An interface with an enum in it, one of whose constants has arguments and a body. -/
def enumInInterface : Source :=
  ⟨lit "I", lit "interface I { void m(); enum E { A(1) { int x = 2; }, B; E(int n) { } } }"⟩

/-- The bodies of the interface, of the enum and of its constant. -/
theorem wellFormed_of_mem_nodes_enum : ∃ root f, Group.ofSource enumInInterface = .ok root ∧
    File.ofGroup root = .ok f ∧
    (f.nodes.map fun c => (c.name?, c.members.map Member.kind)) =
      [(some (lit "I"), [.methodDecl, .nestedClassDecl]),
        (some (lit "E"), [.enumConstant, .enumConstant, .constructorDecl]), (none, [.fieldDecl])] ∧
    ∀ c ∈ f.nodes, c.WellFormed := by
  have hview : ((Group.ofSource enumInInterface).bind fun root => (File.ofGroup root).map fun f =>
      f.nodes.map fun c => (c.name?, c.members.map Member.kind)) =
        .ok [(some (lit "I"), [.methodDecl, .nestedClassDecl]),
          (some (lit "E"), [.enumConstant, .enumConstant, .constructorDecl]),
          (none, [.fieldDecl])] := by
    cbv
  obtain ⟨root, hroot, hview⟩ := Except.bind_eq_ok.mp hview
  obtain ⟨f, hf, hnodes⟩ := Except.map_eq_ok.mp hview
  exact ⟨root, f, hroot, hf, hnodes, wellFormed_of_mem_nodes hf⟩

end File

end Unnest
