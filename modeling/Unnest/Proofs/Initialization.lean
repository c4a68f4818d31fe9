import Unnest.Proofs.ClassBodies
import Unnest.Proofs.ConstructorCalls
import Unnest.Proofs.Overriding
import Mathlib

/-!
# What initializes a class and its objects

Enum constants, variables with initial values and initializer blocks are carried out by the
functions `initStatic` and `initInstance` of their class. What the functions do is found member by
member; whether they are needed is told from the sorted members. The functions are declared in the
definition of the class, defined behind all classes, and called from constructors and by a variable
for the class. All of these places agree.

* `Member.initItems`, `ClassInfo.initializesClass`: the steps of a member, and for which function
  they are;
* `Header.WritesStep`, `Header.WritesFunction`: the functions as texts;
* `Header.Declares`, `Header.DefinesMembers`: where the functions are declared, defined and called;
* `Header.Initializes`: what is written of the initialization of a class;
* `Header.initializes_of_ofFile`: every class of a header is written so.
-/

namespace Unnest

open Text

/-! ### Steps -/

/-- The steps of an initialization that a member stands for; of a field, in the order of its
declarators. -/
def Member.initItems : Member → List InitItem
  | field _ declarators => declarators.filterMap fun d => d.init.map (.assign d.name)
  | initializer _ code => [.block code]
  | constant head args body => [.constant head.name args body]
  | _ => []

namespace ClassInfo

/-- Whether the steps of a member initialize the class, and not its objects. -/
def initializesClass (c : ClassInfo) : Member → Bool
  | .field head _ => c.isStaticField head
  | .initializer head _ => head.isStatic
  | .constant .. => true
  | _ => false

variable (c : ClassInfo)

theorem staticItemsOf_eq (m : Member) :
    c.staticItemsOf m = if c.initializesClass m then m.initItems else [] := by
  cases m <;> rfl

theorem instanceItemsOf_eq (m : Member) :
    c.instanceItemsOf m = if !c.initializesClass m then m.initItems else [] := by
  simp only [Bool.not_eq_true', ← Bool.not_eq_true, ite_not]
  cases m <;> rfl

theorem initItems_filter (test : Member → Bool) (ms : List Member) :
    (ms.filter test).flatMap Member.initItems = ms.flatMap fun m => if test m then m.initItems
    else [] := by
  rw [← List.filterMap_eq_filter, flatMap_filterMap]
  refine List.flatMap_congr fun m _ => ?_
  cases hm : test m <;> simp [Option.guard, hm]

theorem staticItems_eq :
    c.staticItems = (c.members.filter c.initializesClass).flatMap Member.initItems := by
  rw [initItems_filter]
  exact List.flatMap_congr fun m _ => c.staticItemsOf_eq m

theorem instanceItems_eq :
    c.instanceItems =
    (c.members.filter fun m => !c.initializesClass m).flatMap Member.initItems := by
  rw [initItems_filter]
  exact List.flatMap_congr fun m _ => c.instanceItemsOf_eq m

end ClassInfo

/-! ### Functions and their calls -/

namespace Header

variable {h : Header} {i : Nat} {c : ClassInfo}

/-- The text of one step: a variable is given its value, an enum constant a new object, of its own
class if it has a body, and a block is carried out. -/
def WritesStep (h : Header) (c : ClassInfo) : InitItem → Text → Prop
  | .assign name value, text => ∃ code, value.expression (h.indent 2) = .ok code ∧
    text = h.indent 1 ++ name ++ lit " = " ++ code ++ lit ";\n"
  | .constant name args none, text => ∃ code, h.argsText args = .ok code ∧
    text = h.indent 1 ++ name ++ lit " = new " ++ c.emitted ++ lit "(" ++ code ++ lit ");\n"
  | .constant name _ (some body), text => ∃ label code, body.label = some label ∧
    h.argsText body.args = .ok code ∧
    text = h.indent 1 ++ name ++ lit " = new " ++ label ++ lit "(" ++ code ++ lit ");\n"
  | .block code, text => ∃ lines, h.blockText code 2 0 = .ok lines ∧
    text = h.indent 1 ++ lit "\x7b\n" ++ lines ++ h.indent 1 ++ lit "\x7d\n"

/-- The text of a function with the given steps, one after the other. -/
def WritesFunction (h : Header) (c : ClassInfo) (name : String) (items : List InitItem)
    (text : Text) : Prop :=
  ∃ steps, List.Forall₂ (h.WritesStep c) items steps ∧ text = definitionHead c [] ++ lit "auto " ++
    qualifier c ++
    lit name ++ lit "() -> void \x7b\n" ++ steps.flatten ++ lit "\x7d\n\n"

/-- The definition of a constructor, which initializes the object unless it begins with a call of
another constructor of the class. -/
def DefinesConstructor (h : Header) (i : Nat) (c : ClassInfo) (head : ConstructorHead) (body : Code)
    (text : Text) :
    Prop :=
  ∃ args block, (∀ call ∈ leadingCall? body.leadingTokens, tokensExpression call.args (h.indent 1) =
    .ok args) ∧
    h.blockText body 1 ((leadingCall? body.leadingTokens).elim 0 (·.length)) = .ok block ∧
    text = h.constructorWith i c head
      ((leadingCall? body.leadingTokens).elim [] fun call => h.chainedText c call.delegates args)
      (!(leadingCall? body.leadingTokens).any (·.delegates) && c.needsInitInstance) block

/-- What the definition of class `i` says of the initialization. A function that is needed is
declared; objects of an anonymous class are initialized by the constructor that it is given, and
objects of other classes without constructors by one that is declared. A function that is not needed
is not mentioned, unless a name of the source is the same. -/
structure Declares (h : Header) (i : Nat) (c : ClassInfo) : Prop where
  initStatic : c.needsInitStatic = true → lit "static void initStatic();\n" <:+: h.definition i c
  noInitStatic : c.needsInitStatic = false → lit "initStatic" ∈ words (h.definition i c) →
    h.HasNameWith (lit "initStatic")
  initInstance : c.needsInitInstance = true → lit "void initInstance();\n" <:+: h.definition i c
  noInitInstance : c.needsInitInstance = false → lit "initInstance" ∈ words (h.definition i c) →
    h.HasNameWith (lit "initInstance")
  forwarding : c.isAnonymous = true → c.needsInitInstance = true →
    lit "explicit " ++ c.emitted ++ lit "(Args&&... args) : " ++ h.superName c ++
      lit "(std::forward<Args>(args)...) \x7b initInstance(); \x7d\n" <:+: h.definition i c
  plain : c.isAnonymous = false → c.constructors = [] → c.needsInitInstance = true →
    h.indent 1 ++ c.emitted ++ lit "();\n" <:+: h.definition i c

/-- The definitions of the members of class `i`. The functions for the initialization are there if
they are needed. Objects are initialized by the constructor that is added to a class without
constructors, and by all other constructors that do not leave this to another one of the class. -/
structure DefinesMembers (h : Header) (i : Nat) (c : ClassInfo)
    (initStatic initInstance plain : Text) (constructors methods : List Text) : Prop where
  text : h.memberDefinitions i c =
    .ok (initStatic ++ initInstance ++ plain ++ constructors.flatten ++ methods.flatten)
  initStatic : if c.needsInitStatic then h.WritesFunction c "initStatic" c.staticItems initStatic
    else initStatic = []
  initInstance : if c.needsInitInstance then h.WritesFunction c "initInstance" c.instanceItems
    initInstance
    else initInstance = []
  plain : plain = if !c.isAnonymous && c.constructors.isEmpty && c.needsInitInstance then
    definitionHead c [] ++ qualifier c ++ c.emitted ++ lit "() \x7b\n" ++ h.indent 1 ++
    lit "initInstance();\n\x7d\n\n"
    else []
  constructors : List.Forall₂ (fun x text => h.DefinesConstructor i c x.1 x.2 text) c.constructors
    constructors
  methods : List.Forall₂ (fun x text => h.methodDefinition i c x.1 x.2 = .ok text) c.methods methods

/-- What is written of the initialization of class `i` and of its objects. -/
structure Initializes (h : Header) (i : Nat) (c : ClassInfo) : Prop where
  /-- The steps of `initStatic` are those of the members that initialize the class, in source
  order. -/
  classSteps : c.staticItems = (c.members.filter c.initializesClass).flatMap Member.initItems
  /-- The steps of `initInstance` are those of all other members, in source order. -/
  objectSteps : c.instanceItems =
    (c.members.filter fun m => !c.initializesClass m).flatMap Member.initItems
  /-- There is an `initStatic` if it has steps. -/
  classNeeds : c.needsInitStatic = true ↔ c.staticItems ≠ []
  /-- There is an `initInstance` if it has steps. -/
  objectNeeds : c.needsInitInstance = true ↔ c.instanceItems ≠ []
  /-- The functions are declared in the definition of the class. -/
  declared : h.Declares i c
  /-- The functions are defined and called behind all classes. -/
  defined : ∃ initStatic initInstance plain constructors methods,
    h.DefinesMembers i c initStatic initInstance plain constructors methods
  /-- The class is initialized as soon as the program starts, unless it is a template. -/
  triggered : staticTrigger c = if !c.isTemplate && c.needsInitStatic then
    lit "[[maybe_unused]] inline const bool " ++ c.emitted ++ lit "_staticInit = (" ++ c.emitted ++
      lit "::initStatic(), true);\n" else []

theorem infix_initDeclaration {v : Visibility} {text : Text}
    (hmem : (v, h.indent 1 ++ text) ∈ h.initDeclarations c) :
    text <:+: h.definition i c :=
  (List.suffix_append _ _).isInfix.trans (infix_declaration (List.mem_append_right _ hmem))

theorem declares (hc : h.plan.class? i = some c) : h.Declares i c where
  initStatic hneeds := infix_initDeclaration (v := .pub) (by simp [initDeclarations, hneeds])
  noInitStatic hneeds hword := by
    have hwording := (h.wording (lit "initStatic") (by decide)).definition (i := i)
      (List.mem_of_getElem? hc)
    exact (hwording (by simp [hneeds]) fun _ heq => absurd heq (by decide)).worded _ hword rfl
  initInstance hneeds := infix_initDeclaration (v := .priv) (by simp [initDeclarations, hneeds])
  noInitInstance hneeds hword := by
    have hwording := (h.wording (lit "initInstance") (by decide)).definition (i := i)
      (List.mem_of_getElem? hc)
    exact (hwording (fun _ heq => absurd heq (by decide)) (by simp [hneeds])).worded _ hword rfl
  forwarding hanonymous hneeds := by
    have hmem : (Visibility.pub, h.forwardingConstructor c) ∈ h.aliases i ++
        (if c.isAnonymous then [(.pub, h.forwardingConstructor c)] else []) ++
        c.members.flatMap (h.memberText i c) ++
        h.initDeclarations c := by
      simp [hanonymous]
    have hsplit : lit "(std::forward<Args>(args)...) \x7b initInstance(); \x7d\n" =
        lit "(std::forward<Args>(args)...) \x7b" ++ lit " initInstance(); \x7d\n" := rfl
    refine List.IsInfix.trans (List.IsSuffix.isInfix ?_) (infix_declaration hmem)
    refine ⟨h.indent 1 ++ lit "template <typename... Args>\n" ++ h.indent 1, ?_⟩
    simp [forwardingConstructor, hneeds, hsplit]
  plain hanonymous hconstructors hneeds := by
    refine infix_declaration (v := .pub) (List.mem_append_right _ ?_)
    simp [initDeclarations, ClassInfo.needsConstructor, hanonymous, hconstructors, hneeds]

theorem exists_definesConstructor {head : ConstructorHead} {body : Code}
    (hnamed : AllNamed body.created) :
    ∃ text, h.constructorDefinition i c head body = .ok text ∧
      h.DefinesConstructor i c head body text := by
  unfold DefinesConstructor
  cases hcall : leadingCall? body.leadingTokens with
  | none =>
    have hblock := h.blockText_eq 1 0 hnamed
    exact ⟨_, constructorDefinition_of_none hcall hblock, [], _, by simp, hblock, rfl⟩
  | some call =>
    have hargs : AllNamed (piecesCreated (call.args.map .token)) := by
      rw [piecesCreated_tokens]
      exact fun _ ha => absurd ha List.not_mem_nil
    have hexpression : tokensExpression call.args (h.indent 1) = _ := layOut_eq _ _ hargs
    have hblock := h.blockText_eq 1 call.length hnamed
    refine ⟨_, constructorDefinition_of_call hcall hexpression hblock, _, _,
      fun call' hcall' => ?_, hblock, rfl⟩
    cases hcall'
    exact hexpression

theorem exists_mapM {α : Type} {as : List α} (write : α → Except SourceError Text)
    {P : α → Text → Prop} (hwrite : ∀ a ∈ as, ∃ text, write a = .ok text ∧ P a text) :
    ∃ texts, as.mapM write = .ok texts ∧ List.Forall₂ P as texts := by
  induction as with
  | nil => exact ⟨[], rfl, .nil⟩
  | cons a as ih =>
    obtain ⟨text, htext, hP⟩ := hwrite a List.mem_cons_self
    obtain ⟨texts, htexts, hPs⟩ := ih fun a ha => hwrite a (List.mem_cons_of_mem _ ha)
    refine ⟨text :: texts, ?_, .cons hP hPs⟩
    rw [List.mapM_cons, htext, htexts]
    rfl

theorem exists_writesStep {item : InitItem} (hnamed : AllNamed item.created) :
    ∃ text, h.initItemText c item = .ok text ∧ h.WritesStep c item text := by
  cases item with
  | constant name args body =>
    cases body with
    | none =>
      have hargs := h.argsText_eq hnamed
      exact ⟨_, by rw [initItemText, hargs]; rfl, _, hargs, rfl⟩
    | some body =>
      have hcreated : AllNamed (body :: body.args.elim [] Code.created) := by
        rwa [← Anonymous.created_eq]
      obtain ⟨label, hlabel⟩ := Option.isSome_iff_exists.mp (hcreated body List.mem_cons_self)
      have hargs := h.argsText_eq fun a ha => hcreated a (List.mem_cons_of_mem _ ha)
      exact ⟨_, by rw [initItemText, hargs, hlabel]; rfl, label, _, hlabel, hargs, rfl⟩
  | assign name value =>
    have hvalue : value.expression (h.indent 2) = _ := layOut_eq _ _ hnamed
    exact ⟨_, by rw [initItemText, hvalue]; rfl, _, hvalue, rfl⟩
  | block code =>
    have hlines := h.blockText_eq 2 0 hnamed
    exact ⟨_, by rw [initItemText, hlines]; rfl, _, hlines, rfl⟩

theorem exists_writesFunction (name : String) {items : List InitItem}
    (hnamed : AllNamed (items.flatMap InitItem.created)) :
    ∃ text, h.initFunction c name items = .ok text ∧ h.WritesFunction c name items text := by
  obtain ⟨steps, hsteps, hall⟩ := exists_mapM (h.initItemText c) fun item hitem =>
    exists_writesStep (h := h) (c := c) fun a ha =>
    hnamed a (List.mem_flatMap.mpr ⟨item, hitem, ha⟩)
  exact ⟨_, Except.bind_eq_ok.mpr ⟨steps, hsteps, rfl⟩, steps, hall, rfl⟩

theorem exists_definesMembers (i : Nat) (hnamed : AllNamed c.created) :
    ∃ initStatic initInstance plain constructors methods,
      h.DefinesMembers i c initStatic initInstance plain constructors methods := by
  simp only [ClassInfo.created, List.forall_mem_append] at hnamed
  obtain ⟨⟨⟨hstatic, hinstance⟩, hconstructors⟩, hmethods⟩ := hnamed
  have hneeded : ∀ (needs : Bool) (name : String) (items : List InitItem),
      AllNamed (items.flatMap InitItem.created) →
      ∃ text, (if needs then h.initFunction c name items else pure []) = .ok text ∧
        if needs then h.WritesFunction c name items text else text = [] := by
    intro needs name items hitems
    cases needs with
    | false => exact ⟨[], rfl, rfl⟩
    | true => exact exists_writesFunction name hitems
  obtain ⟨initStatic, hclass, hwrites⟩ := hneeded c.needsInitStatic "initStatic" _ hstatic
  obtain ⟨initInstance, hobject, hwrites'⟩ := hneeded c.needsInitInstance "initInstance" _ hinstance
  obtain ⟨constructors, hdefinitions, hcalls⟩ :=
    exists_mapM (fun x => h.constructorDefinition i c x.1 x.2)
    fun x hx => exists_definesConstructor fun a ha =>
      hconstructors a (List.mem_flatMap.mpr ⟨x, hx, ha⟩)
  obtain ⟨methods, htexts, hall⟩ := exists_mapM (fun x => h.methodDefinition i c x.1 x.2)
    (P := fun x text => h.methodDefinition i c x.1 x.2 = .ok text) fun x hx =>
      have htext := h.methodDefinition_eq i c x.1 fun a ha =>
        hmethods a (List.mem_flatMap.mpr ⟨x, hx, ha⟩)
      ⟨_, htext, htext⟩
  refine ⟨initStatic, initInstance, _, constructors, methods, ?_, hwrites, hwrites', rfl,
    hcalls, hall⟩
  refine Except.bind_eq_ok.mpr ⟨_, hclass, ?_⟩
  refine Except.bind_eq_ok.mpr ⟨_, hobject, ?_⟩
  refine Except.bind_eq_ok.mpr ⟨_, hdefinitions, ?_⟩
  exact Except.bind_eq_ok.mpr ⟨_, htexts, rfl⟩

theorem exists_text (hnamed : ∀ x ∈ h.inOrder, AllNamed x.2.created) : ∃ members,
    List.Forall₂ (fun x text => h.memberDefinitions x.1 x.2 = .ok text) h.inOrder members ∧
    h.text = .ok (h.banner ++ h.plan.classes.flatMap forwardDeclaration ++
      h.inOrder.flatMap (fun x => h.definition x.1 x.2) ++ members.flatten ++
      h.inOrder.flatMap (fun x => staticTrigger x.2) ++ h.footer) := by
  have heach : ∀ x ∈ h.inOrder, ∃ text, h.memberDefinitions x.1 x.2 = .ok text ∧
      h.memberDefinitions x.1 x.2 = .ok text := by
    intro x hx
    have htext := h.memberDefinitions_eq x.1 (hnamed x hx)
    exact ⟨_, htext, htext⟩
  obtain ⟨members, hmembers, hall⟩ := exists_mapM _ heach
  exact ⟨members, hall, Except.bind_eq_ok.mpr ⟨members, hmembers, rfl⟩⟩

/-- **How classes and objects are initialized**. A plan has the classes of the tree, with their
members, and in the text of the header each is defined once, its members are defined once and there
is one place to initialize it. Of every class, the enum constants, variables with initial values and
initializer blocks are the steps of one of two functions, in source order. A function is declared
and defined exactly if it has steps, and then it is called: for objects by all constructors but
those that call another one of the class, and for the class, unless it is a template, when the
program starts. -/
theorem initializes_of_ofFile {root : Group} {f : File} (hf : File.ofGroup root = .ok f)
    {options : HeaderOptions} (hh : ofFile options f = .ok h) :
    Described f.labelled.nodes h.plan.classes ∧ (h.inOrder.map (·.2)).Perm h.plan.classes ∧
    (∃ members, List.Forall₂ (fun x text => h.memberDefinitions x.1 x.2 = .ok text) h.inOrder
      members ∧
      h.text = .ok (h.banner ++ h.plan.classes.flatMap forwardDeclaration ++
        h.inOrder.flatMap (fun x => h.definition x.1 x.2) ++ members.flatten ++
        h.inOrder.flatMap (fun x => staticTrigger x.2) ++ h.footer)) ∧
    ∀ i c, h.plan.class? i = some c → (i, c) ∈ h.inOrder ∧ h.Initializes i c := by
  obtain ⟨p, hp, hheader⟩ := Except.map_eq_ok.mp hh
  obtain rfl : h.plan = p := by rw [← hheader]
  have hperm := h.inOrder_perm (Plan.emission_perm hp)
  have hnamed : ∀ c ∈ h.plan.classes, AllNamed c.created := fun c hc a ha => f.allNamed_labelled a
    ((Plan.created_perm hf hp).mem_iff.mp (List.mem_flatMap.mpr ⟨c, hc, ha⟩))
  refine ⟨Plan.described_ofFile hp, hperm, ?_, fun i c hc => ⟨mem_inOrder hh hc, ?_⟩⟩
  · exact exists_text fun x hx => hnamed x.2 (hperm.mem_iff.mp (List.mem_map_of_mem hx))
  · exact {
      classSteps := c.staticItems_eq
      objectSteps := c.instanceItems_eq
      classNeeds := c.needsInitStatic_iff
      objectNeeds := c.needsInitInstance_iff
      declared := declares hc
      defined := exists_definesMembers i (hnamed c (List.mem_of_getElem? hc))
      triggered := by
        unfold staticTrigger
        cases c.isTemplate <;> cases c.needsInitStatic <;> rfl }

/-- Steps of both kinds, out of order, a constructor that calls another one of its class, and a
class without steps. -/
def initializedBothWays : Source := ⟨lit "S",
  lit
    "class A { int i = 1, j, k = 2; static int s = 3; { j = 4; } A(int x) {} A() { this(1); } } class B {}"⟩

/-- The first class has one step and its objects have three, which are carried out by the first of
its constructors. The second class does not mention any initialization. -/
theorem initializes_of_ofFile_both_ways :
    ∃ root f h c d, Group.ofSource initializedBothWays = .ok root ∧
    File.ofGroup root = .ok f ∧ ofFile {} f = .ok h ∧ h.plan.class? 0 = some c ∧
    h.plan.class? 1 = some d ∧
    c.staticItems.length = 1 ∧ c.instanceItems.length = 3 ∧
    c.constructors.map (fun x => (leadingCall? x.2.leadingTokens).any (·.delegates)) =
    [false, true] ∧
    lit "static void initStatic();\n" <:+: h.definition 0 c ∧
    lit "void initInstance();\n" <:+: h.definition 0 c ∧
    staticTrigger c ≠ [] ∧ h.Initializes 0 c ∧
    lit "initStatic" ∉ words (h.definition 1 d) ∧
    lit "initInstance" ∉ words (h.definition 1 d) := by
  have hview :
      ((Group.ofSource initializedBothWays).bind fun root => (File.ofGroup root).bind fun f =>
      (ofFile {} f).map fun h => (h.plan.class? 0).bind fun c => (h.plan.class? 1).map fun d =>
        (c.staticItems.length, c.instanceItems.length,
          c.constructors.map (fun x => (leadingCall? x.2.leadingTokens).any (·.delegates)),
          c.isTemplate, d.needsInitStatic, d.needsInitInstance,
          decide (h.HasNameWith (lit "initStatic")),
          decide (h.HasNameWith (lit "initInstance")))) =
      .ok (some (1, 3, [false, true], false, false, false, false, false)) := by
    cbv
  obtain ⟨root, hroot, hview⟩ := Except.bind_eq_ok.mp hview
  obtain ⟨f, hf, hview⟩ := Except.bind_eq_ok.mp hview
  obtain ⟨h, hh, hview⟩ := Except.map_eq_ok.mp hview
  obtain ⟨c, hc, hview⟩ := Option.bind_eq_some_iff.mp hview
  obtain ⟨d, hd, hview⟩ := Option.map_eq_some_iff.mp hview
  simp only [Prod.mk.injEq] at hview
  obtain ⟨hstatic, hinstance, hcalls, htemplate, hnone, hnone', hnames, hnames'⟩ := hview
  obtain ⟨-, -, -, hall⟩ := initializes_of_ofFile hf hh
  obtain ⟨-, hinit⟩ := hall 0 c hc
  obtain ⟨-, hinit'⟩ := hall 1 d hd
  have hclass : c.needsInitStatic = true :=
    hinit.classNeeds.mpr (List.ne_nil_of_length_pos (hstatic ▸ Nat.one_pos))
  have hobject : c.needsInitInstance = true :=
    hinit.objectNeeds.mpr (List.ne_nil_of_length_pos (hinstance ▸ Nat.succ_pos 2))
  refine ⟨root, f, h, c, d, hroot, hf, hh, hc, hd, hstatic, hinstance, hcalls,
    hinit.declared.initStatic hclass, hinit.declared.initInstance hobject, ?_, hinit, ?_, ?_⟩
  · rw [hinit.triggered, htemplate, hclass]
    exact List.cons_ne_nil _ _
  · exact fun hmem => of_decide_eq_false hnames (hinit'.declared.noInitStatic hnone hmem)
  · exact fun hmem => of_decide_eq_false hnames' (hinit'.declared.noInitInstance hnone' hmem)

end Header

end Unnest
