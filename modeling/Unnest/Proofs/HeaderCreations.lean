import Unnest.Proofs.OwnWords
import Unnest.Proofs.SortedBodies
import Mathlib

/-!
# Each anonymous class is created once

A plan has one class for each anonymous class in the tree of a file, and the header of the file has
one creation for each of them. The tree is taken apart along different routes by the plan and by the
writers of a header: enum constants, initial values and initializer blocks are written in two
functions, constructors and methods each on their own, and what is in the body of an anonymous class
with the members of that class.

* `Plan.cause_of_ofFile`: a plan only fails for a base that is unknown, the class itself or part of
  a cycle;
* `File.header_creates_each_class_once`: the creations of a header, one for each anonymous class.
-/

namespace Unnest

open Text

/-! ### What fragments create -/

namespace Header

variable (h : Header)

theorem created_argsFragments (args : Option Code) :
    fragmentsCreated (h.argsFragments args) = args.elim [] Code.created := by
  cases args with
  | none => rfl
  | some code => exact created_layFragments _ _ _

theorem created_initItemFragments (c : ClassInfo) (item : InitItem) :
    fragmentsCreated (h.initItemFragments c item) = item.created := by
  cases item with
  | constant name args body =>
    cases body with
    | none => simp [initItemFragments, InitItem.created, created_argsFragments]
    | some body =>
      simp [initItemFragments, InitItem.created, created_argsFragments, Anonymous.created_eq]
  | assign name value =>
    simp [initItemFragments, InitItem.created, created_layFragments, Code.created]
  | block code => simp [initItemFragments, InitItem.created, created_blockFragments]

theorem created_initFragments (c : ClassInfo) (name : String) (items : List InitItem) :
    fragmentsCreated (h.initFragments c name items) = items.flatMap InitItem.created := by
  simp [initFragments, fragmentsCreated_flatMap, created_initItemFragments]

theorem created_constructorFragments (i : Nat) (c : ClassInfo) (head : ConstructorHead)
    (body : Code) :
    fragmentsCreated (h.constructorFragments i c head body) = body.created := by
  have hcall : ∀ call, fragmentsCreated (h.callFragments c call) = [] := by
    intro call
    cases call with
    | none => rfl
    | some call => simp [callFragments, created_layFragments, piecesCreated_tokens]
  simp [constructorFragments, hcall, created_blockFragments]

theorem created_methodFragments (i : Nat) (c : ClassInfo) (m : MethodHead) (body : Option Code) :
    fragmentsCreated (h.methodFragments i c m body) = body.elim [] Code.created := by
  cases body <;> simp [methodFragments, created_blockFragments]

theorem created_memberFragments (i : Nat) (c : ClassInfo) :
    fragmentsCreated (h.memberFragments i c) = c.created := by
  have hstatic : c.needsInitStatic = false → c.staticItems = [] := fun hneeds => by
    simpa [hneeds] using c.needsInitStatic_iff
  have hinstance : c.needsInitInstance = false → c.instanceItems = [] := fun hneeds => by
    simpa [hneeds] using c.needsInitInstance_iff
  cases hs : c.needsInitStatic <;> cases hi : c.needsInitInstance <;>
    simp [memberFragments, ClassInfo.created, created_initFragments, fragmentsCreated_flatMap,
      created_constructorFragments, created_methodFragments, hs, hi, hstatic, hinstance]

/-- **What a header creates** is what its classes create, class by class. -/
theorem created_fragments :
    fragmentsCreated h.fragments = (h.inOrder.map (·.2)).flatMap ClassInfo.created := by
  simp [fragments, fragmentsCreated_flatMap, created_memberFragments, List.flatMap_map]

end Header

/-! ### What classes create -/

def ClassInfo.createdBy (c : ClassInfo) (m : Member) : List Anonymous :=
  (c.staticItemsOf m).flatMap InitItem.created ++ (c.instanceItemsOf m).flatMap InitItem.created ++
    (m.constructor?.elim [] fun (_, body) => body.created) ++
    (m.method?.elim [] fun (_, body) => body.elim [] Code.created)

theorem ClassInfo.createdBy_eq (c : ClassInfo) {m : Member} (h : m.ArgsOrBody) :
    c.createdBy m = m.created := by
  have hassign : ∀ ds : List Declarator,
      (assignments ds).flatMap InitItem.created = ds.flatMap fun d =>
      d.init.elim [] Code.created := by
    intro ds
    rw [assignments, flatMap_filterMap]
    refine congrArg (List.flatMap · ds) (funext fun d => ?_)
    cases d.init <;> simp [InitItem.created]
  cases m with
  | field head declarators =>
    by_cases hstatic : c.isStaticField head = true
    · simp [createdBy, staticItemsOf, instanceItemsOf, Member.constructor?, Member.method?,
        Member.created, hstatic, hassign]
    · simp [createdBy, staticItemsOf, instanceItemsOf, Member.constructor?, Member.method?,
        Member.created, hstatic, hassign]
  | method head body => rfl
  | constructor head body => exact List.append_nil _
  | nested head members => rfl
  | initializer head body =>
    by_cases hstatic : head.isStatic = true
    · simp [createdBy, staticItemsOf, instanceItemsOf, Member.constructor?, Member.method?,
        Member.created, hstatic, InitItem.created]
    · simp [createdBy, staticItemsOf, instanceItemsOf, Member.constructor?, Member.method?,
        Member.created, hstatic, InitItem.created]
  | constant head args body =>
    have hitem : (InitItem.constant head.name args body).created =
        (Member.constant head args body).created := by
      -- with a body, the arguments are those of the anonymous class
      rcases h with rfl | rfl
      · cases body <;> rfl
      · exact (List.append_nil _).symm
    change [InitItem.constant head.name args body].flatMap InitItem.created ++ [] ++ [] ++ [] = _
    rw [List.flatMap_singleton, List.append_nil, List.append_nil, List.append_nil, hitem]

/-- **The definitions of a class** create what its members create. -/
theorem ClassInfo.created_perm (c : ClassInfo) (h : ∀ m ∈ c.members, m.ArgsOrBody) :
    c.created.Perm (c.members.flatMap Member.created) := by
  have hmembers : c.members.flatMap Member.created = c.members.flatMap c.createdBy :=
    List.flatMap_congr fun m hm => (c.createdBy_eq (h m hm)).symm
  rw [hmembers]
  unfold ClassInfo.created staticItems instanceItems constructors methods
  rw [List.flatMap_assoc, List.flatMap_assoc, flatMap_filterMap, flatMap_filterMap]
  refine List.Perm.trans ?_ (List.flatMap_append_perm _ _ _)
  refine List.Perm.append_right _ (List.Perm.trans ?_ (List.flatMap_append_perm _ _ _))
  exact List.Perm.append_right _ (List.flatMap_append_perm _ _ _)

/-! ### Plans -/

namespace Plan

variable {known : List Text} {f : File} {q : Plan} {e : SourceError}

theorem emission_perm (h : ofFile known f = .ok q) : q.emission.Perm (List.range q.size) := by
  obtain ⟨p, hp, rfl, hundefined⟩ := exists_of_ofFile h
  have hperm := (arranged_of_resolveBases hp).perm
  rw [hundefined, List.append_nil] at hperm
  exact hperm

theorem cause_of_resolveBase {external : Text → Bool} {i : Nat} {c : ClassInfo} {p : Plan}
    {ref : TypeRef} (h : resolveBase external i c p ref = .error e) :
    (∃ base cls, e.cause = .unresolvedBase base cls) ∨ ∃ cls, e.cause = .selfBase cls := by
  unfold resolveBase at h
  split at h
  · split_ifs at h
    cases h
    exact Or.inr ⟨_, rfl⟩
  · split_ifs at h
    cases h
    exact Or.inl ⟨_, _, rfl⟩

/-- **A plan fails** only for a base that is unknown, that is the class itself, or that makes a
cycle. -/
theorem cause_of_ofFile (h : ofFile known f = .error e) :
    (∃ base cls, e.cause = .unresolvedBase base cls) ∨ (∃ cls, e.cause = .selfBase cls) ∨
      ∃ base, e.cause = .cyclicBase base := by
  rcases Except.bind_eq_error.mp h with h | ⟨p, hp, h⟩
  · have hcause : (∃ base cls, e.cause = .unresolvedBase base cls) ∨
        ∃ cls, e.cause = .selfBase cls :=
      foldlM_error (P := fun e => (∃ base cls, e.cause = .unresolvedBase base cls) ∨
        ∃ cls, e.cause = .selfBase cls)
        (fun _ _ _ _ he => foldlM_error (fun _ _ _ _ he => cause_of_resolveBase he) he) h
    rw [← or_assoc]
    exact Or.inl hcause
  · rcases Except.bind_eq_error.mp h with h | ⟨_, hcycles, h⟩
    · unfold checkCycles at h
      split at h
      · cases h
      · cases h
        exact Or.inr (Or.inr ⟨_, rfl⟩)
    · have hext := extends_of_resolveBases f.nested_classes hp
      have hundefined := (arranged_of_resolveBases hp).undefined_eq_nil
        (acc_of_checkCycles (fun c b hb => (hext.lt_size_of_mem_bases hb).2) hcycles)
      unfold order at h
      rw [hundefined] at h
      cases h

end Plan

theorem Header.inOrder_perm (h : Header) (hperm : h.plan.emission.Perm (List.range h.plan.size)) :
    (h.inOrder.map (·.2)).Perm h.plan.classes := by
  have hall : ∀ cs : List ClassInfo, (List.range cs.length).filterMap (cs[·]?) = cs := by
    intro cs
    induction cs with
    | nil => rfl
    | cons c cs ih =>
      rw [List.length_cons, List.range_succ_eq_map, List.filterMap_cons, List.filterMap_map]
      exact congrArg (c :: ·) ih
  have hsecond : h.inOrder.map (·.2) = h.plan.emission.filterMap h.plan.class? := by
    rw [inOrder, List.map_filterMap]
    refine List.filterMap_congr fun i _ => ?_
    cases h.plan.class? i <;> rfl
  rw [hsecond]
  refine (hperm.filterMap _).trans ?_
  exact List.Perm.of_eq (hall h.plan.classes)

/-! ### Headers -/

theorem Described.members {nodes : List ClassNode} {cs : List ClassInfo} (h : Described nodes cs) :
    cs.map (·.members) = nodes.map (·.members) := by
  induction h with
  | nil => rfl
  | cons hnode _ ih => rw [List.map_cons, List.map_cons, ih, hnode.members]

/-- **The classes of a plan together** create each anonymous class of the file once. -/
theorem Plan.created_perm {root : Group} {f : File} (hf : File.ofGroup root = .ok f)
    {known : List Text} {p : Plan} (hp : Plan.ofFile known f.labelled = .ok p) :
    (p.classes.flatMap ClassInfo.created).Perm f.labelled.anonymous := by
  have hmembers := (Plan.described_ofFile hp).members
  have hargs : ∀ c ∈ p.classes, ∀ m ∈ c.members, m.ArgsOrBody := by
    intro c hc m hm
    have hmem : c.members ∈ f.labelled.nodes.map (·.members) := hmembers ▸ List.mem_map_of_mem hc
    obtain ⟨n, hn, hnm⟩ := List.mem_map.mp hmem
    exact File.argsOrBody_labelled hf (File.within_of_mem_members hn (hnm ▸ hm))
  have hnodes : (p.classes.flatMap fun c => c.members.flatMap Member.created) =
      f.labelled.nodes.flatMap ClassNode.created := by
    have hleft := List.flatMap_map ClassInfo.members (·.flatMap Member.created) p.classes
    have hright := List.flatMap_map ClassNode.members (·.flatMap Member.created) f.labelled.nodes
    rw [← hleft, hmembers]
    exact hright
  calc p.classes.flatMap ClassInfo.created
    _ |>.Perm (p.classes.flatMap fun c => c.members.flatMap Member.created) :=
      .flatMap_left _ fun c hc => c.created_perm (hargs c hc)
    _ |>.Perm f.labelled.anonymous := hnodes ▸ f.labelled.created_perm.symm

/-- **The header of a file** is the text of its fragments, and these create each anonymous class of
the file once. -/
theorem Header.text_of_ofFile {root : Group} {f : File} (hf : File.ofGroup root = .ok f)
    {options : HeaderOptions} {h : Header} (hh : Header.ofFile options f = .ok h) :
    h.text = .ok (fragmentsText h.fragments) ∧
    (fragmentsCreated h.fragments).Perm f.labelled.anonymous := by
  obtain ⟨p, hp, hh⟩ := Except.bind_eq_ok.mp hh
  have hplan : h.plan = p := by
    cases hh
    rfl
  subst hplan
  have hcreated : (fragmentsCreated h.fragments).Perm f.labelled.anonymous := by
    rw [created_fragments]
    exact ((h.inOrder_perm (Plan.emission_perm hp)).flatMap_right _).trans (Plan.created_perm hf hp)
  refine ⟨h.text_eq fun x hx a ha => f.allNamed_labelled a (hcreated.mem_iff.mp ?_), hcreated⟩
  rw [created_fragments]
  exact List.mem_flatMap.mpr ⟨x.2, List.mem_map_of_mem hx, ha⟩

/-- **The anonymous classes of a file**. Naming them leaves all classes of the file as they are, and
they are listed wherever they stand in the tree. A plan has one class for each class of the tree,
and then there is a header. Its text is put together from fragments, among which each anonymous
class is created once. A header only fails for a base that is unknown, that is the class itself, or
that makes a cycle. -/
theorem File.header_creates_each_class_once {root : Group} {f : File}
    (hf : File.ofGroup root = .ok f) (options : HeaderOptions) :
    f.labelled.nodes.map (·.origin) = f.nodes.map (·.origin) ∧
    (∀ a, a ∈ f.labelled.anonymous ↔ f.labelled.Within (.anonymous a)) ∧
    (∀ h, Header.ofFile options f = .ok h → Described f.labelled.nodes h.plan.classes ∧
      f.header options = .ok (fragmentsText h.fragments) ∧
      (fragmentsCreated h.fragments).Perm f.labelled.anonymous ∧
      ∀ text ∈ fragmentsOwn h.fragments, lit "new" ∈ words text → h.HasNameWith (lit "new")) ∧
    ∀ e, f.header options = .error e → (∃ base cls, e.cause = .unresolvedBase base cls) ∨
      (∃ cls, e.cause = .selfBase cls) ∨ ∃ base, e.cause = .cyclicBase base := by
  refine ⟨f.origins_labelled, fun a => File.mem_anonymous_iff_within,
    fun h hh => ?_, fun e he => ?_⟩
  · obtain ⟨p, hp, hplan⟩ := Except.bind_eq_ok.mp hh
    obtain ⟨htext, hcreated⟩ := Header.text_of_ofFile hf hh
    refine ⟨?_, Except.bind_eq_ok.mpr ⟨h, hh, htext⟩, hcreated, fun text hmem hnew => ?_⟩
    · cases hplan
      exact Plan.described_ofFile hp
    · exact Header.hasNameWith_of_mem_words (by decide) (by decide) (by decide) hmem hnew
  · rcases Except.bind_eq_error.mp he with he | ⟨h, hh, he⟩
    · rcases Except.bind_eq_error.mp he with he | ⟨p, -, he⟩
      · exact Plan.cause_of_ofFile he
      · cases he
    · rw [(Header.text_of_ofFile hf hh).1] at he
      cases he

/-- An enum constant with arguments and a body, and a field with an initial value. -/
def createdInConstant : Source := ⟨lit "E", lit "enum E { A(new E() {}) {}; E e = new E() {}; }"⟩

/-- The body of the constant, the class in its arguments and the one of the field are each created
once, and the words of the header itself create nothing. -/
theorem header_creates_constant_once : ∃ root f h, Group.ofSource createdInConstant = .ok root ∧
    File.ofGroup root = .ok f ∧ Header.ofFile {} f = .ok h ∧
    Described f.labelled.nodes h.plan.classes ∧ f.header {} = .ok (fragmentsText h.fragments) ∧
    ((fragmentsCreated h.fragments).map (·.label)).Perm
    [some (lit "E_1"), some (lit "E_2"), some (lit "E_3")] ∧
    ∀ text ∈ fragmentsOwn h.fragments, lit "new" ∉ words text := by
  have hview :
      ((Group.ofSource createdInConstant).bind fun root => (File.ofGroup root).bind fun f =>
      (Header.ofFile {} f).map
      fun h => (f.labelled.anonymous.map (·.label), decide (h.HasNameWith (lit "new")))) =
        .ok ([some (lit "E_1"), some (lit "E_2"), some (lit "E_3")], false) := by
    cbv
  obtain ⟨root, hroot, hview⟩ := Except.bind_eq_ok.mp hview
  obtain ⟨f, hf, hview⟩ := Except.bind_eq_ok.mp hview
  obtain ⟨h, hh, hview⟩ := Except.map_eq_ok.mp hview
  obtain ⟨hlabels, hnames⟩ := Prod.mk.inj hview
  obtain ⟨-, -, hheader, -⟩ := File.header_creates_each_class_once hf {}
  obtain ⟨hdescribed, htext, hcreated, hown⟩ := hheader h hh
  exact ⟨root, f, h, hroot, hf, hh, hdescribed, htext, hlabels ▸ hcreated.map _,
    fun text hmem hnew =>
    of_decide_eq_false hnames (hown text hmem hnew)⟩

end Unnest
