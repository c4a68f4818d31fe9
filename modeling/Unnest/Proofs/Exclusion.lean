import Unnest.Proofs.Bodies
import Mathlib.Data.List.Basic

/-!
# At most one form fits

The forms of members are tried one after the other, but their order decides nothing: what stands
behind the modifiers and type parameters at a cursor allows one form only. `Cursor.formKind` reads
off which one, and every form that recognises a member is the form read off
(`formKind_of_recognize`).

* `findSome?_perm`: a search in which at most one entry is a hit does not depend on the order;
* `dispatch_of_perm`: the forms in any order read the same members.
-/

namespace Unnest

open Unnest.Parser

/-- The forms of members, without their readings of groups. -/
inductive FormKind
  | field
  | method
  | nested
  | staticBlock
  | instanceBlock
  | constructor
deriving DecidableEq

def FormKind.form (inside : Inside) : FormKind → MemberForm
  | field => fieldForm inside
  | method => methodForm inside
  | nested => classForm inside
  | staticBlock => staticForm inside
  | instanceBlock => instanceForm inside
  | constructor => constructorForm inside

/-- All kinds of form, in the order in which the forms are tried. -/
def FormKind.all : List FormKind := [field, method, nested, staticBlock, instanceBlock, constructor]

namespace Cursor

variable {s s₁ : Cursor}

/-- The cursor behind the modifiers, the type parameters and the modifiers behind those. -/
def bare (s : Cursor) : Cursor := s.skipModifiers.skipAngle.skipModifiers

/-- The word that a class declaration needs stands at the cursor. -/
def isAtClassWord (s : Cursor) : Bool := s.isAt .kwClass || s.isAt .kwInterface || s.isAt .kwEnum

/-- The one form that the elements at the cursor allow. -/
def formKind (s : Cursor) : FormKind :=
  if s.bare.isAtClassWord then .nested
  else if s.bare.isAtGroup .curly then
    if s.isAt (.modifier .static) then .staticBlock else .instanceBlock
  else if s.bare.isAt .kwVoid then .method
  else if s.bare.skipType.1 && s.bare.skipType.2.isAt .ident then
    if s.bare.skipType.2.next.isAtGroup .round then .method else .field
  else .constructor

/-! ### What stands at a cursor -/

variable {kind : TokenKind} {gkind : GroupKind}

theorem isAtGroup_of_isAt (h : s.isAt kind = true) (gkind : GroupKind) :
    s.isAtGroup gkind = false := by
  obtain ⟨t, ht, -⟩ := isAt_iff.mp h
  simp [isAtGroup, ht, Element.isGroup]

theorem isAt_of_isAtGroup (h : s.isAtGroup gkind = true) (kind : TokenKind) :
    s.isAt kind = false := by
  obtain ⟨g, hg, -⟩ := isAtGroup_iff.mp h
  simp [isAt, hg, Element.is]

theorem isAtGroup_ne {gkind gkind' : GroupKind} (h : s.isAtGroup gkind = true)
    (hne : gkind ≠ gkind') :
    s.isAtGroup gkind' = false := by
  obtain ⟨g, hg, rfl⟩ := isAtGroup_iff.mp h
  simpa [isAtGroup, hg, Element.isGroup] using hne

theorem isAtEmptyGroup_of_isAtGroup {gkind gkind' : GroupKind} (h : s.isAtGroup gkind = true)
    (hne : gkind ≠ gkind') : s.isAtEmptyGroup gkind' = false := by
  rw [Bool.eq_false_iff]
  intro hempty
  obtain ⟨g, hg, hk, -⟩ := isAtEmptyGroup_iff.mp hempty
  have hgroup := isAtGroup_of_current hg hk
  rw [isAtGroup_ne h hne] at hgroup
  cases hgroup

theorem isAtClassWord_of_isAt (h : s.isAt kind = true)
    (hk : kind ≠ .kwClass ∧ kind ≠ .kwInterface ∧ kind ≠ .kwEnum) : s.isAtClassWord = false := by
  simp [isAtClassWord, isAt_ne h hk.1, isAt_ne h hk.2.1, isAt_ne h hk.2.2]

theorem isAtClassWord_of_isAtGroup (h : s.isAtGroup gkind = true) :
    s.isAtClassWord = false := by
  simp [isAtClassWord, isAt_of_isAtGroup h]

theorem bare_of_not_angle (h : s.skipModifiers.isAtGroup .angle = false) :
    s.bare = s.skipModifiers := by
  unfold bare skipAngle
  rw [if_neg (by simp [h]), skipModifiers_skipModifiers]

theorem bare_of_isAt (h : s.skipModifiers.isAt kind = true) :
    s.bare = s.skipModifiers :=
  bare_of_not_angle (isAtGroup_of_isAt h .angle)

theorem skipModifiers_of_isAtGroup (h : s.isAtGroup gkind = true) :
    s.skipModifiers = s := by
  obtain ⟨g, hg, -⟩ := isAtGroup_iff.mp h
  exact skipModifiers_of_other (isAt_of_isAtGroup h .atSign) (by simp [hg, Element.token?])

theorem skipModifiers_of_isAt (h : s.isAt kind = true) (hat : kind ≠ .atSign)
    (hm : kind.isModifier = false) : s.skipModifiers = s := by
  obtain ⟨t, ht, rfl⟩ := isAt_iff.mp h
  exact skipModifiers_of_other (isAt_ne h hat) (by simp [ht, Element.token?, hm])

theorem isAt_of_skipType (h : s.skipType = (true, s₁)) :
    s.isAt .primitive = true ∨ s.isAt .ident = true := by
  unfold skipType at h
  split_ifs at h with hp hi
  · exact Or.inl hp
  · exact Or.inr hi
  · simp at h

/-- A name with parentheses behind it is a type for itself. -/
theorem skipType_of_call (hi : s.isAt .ident = true) (hround : s.next.isAtGroup .round = true) :
    s.skipType = (true, s.next) := by
  have hangle : s.next.skipAngle = s.next := by
    unfold skipAngle
    rw [isAtGroup_ne hround (by decide)]
    rfl
  have hmore : s.next.moreParts = ⟨true, [], s.next⟩ :=
    moreParts_of_not_dot (isAt_of_isAtGroup hround .dot)
  have hdims : s.next.skipDims = s.next :=
    skipDims_of_other (isAtEmptyGroup_of_isAtGroup hround (by decide))
  have hprimitive : s.isAt .primitive = false := isAt_ne hi (by decide)
  unfold skipType typeName
  simp [hprimitive, hi, hangle, hmore, NameScan.cons, hdims]

end Cursor

/-! ### The form that a cursor allows -/

section Forms

variable {s decided : Cursor} {ctx : BodyContext} {inside : Inside} {kind : FormKind}

open Cursor

theorem formKind_of_skipType {s₁ : Cursor} (htype : s.bare.skipType = (true, s₁))
    (hi : s₁.isAt .ident = true) :
    s.formKind = if s₁.next.isAtGroup .round then .method else .field := by
  have hvoid := isAt_kwVoid_of_skipType htype
  have hword : s.bare.isAtClassWord = false := by
    rcases isAt_of_skipType htype with h | h
    · exact isAtClassWord_of_isAt h (by decide)
    · exact isAtClassWord_of_isAt h (by decide)
  have hcurly : s.bare.isAtGroup .curly = false := by
    rcases isAt_of_skipType htype with h | h
    · exact isAtGroup_of_isAt h .curly
    · exact isAtGroup_of_isAt h .curly
  simp [formKind, hword, hcurly, hvoid, htype, hi]

theorem formKind_of_field (h : recognizeField s = some decided) : s.formKind = .field := by
  obtain ⟨s₁, htype, hi, hend, rfl⟩ := recognizeField_eq_some h
  have hbare : s.bare = s.skipModifiers := by
    rcases isAt_of_skipType htype with h | h
    · exact bare_of_isAt h
    · exact bare_of_isAt h
  -- none of the four elements that may follow the name is a parameter list
  have hround : s₁.next.isAtGroup .round = false := by
    rw [Bool.eq_false_iff]
    intro hround
    simp [isAt_of_isAtGroup hround, isAtEmptyGroup_of_isAtGroup hround] at hend
  rw [formKind_of_skipType (hbare ▸ htype) hi, hround]
  rfl

theorem formKind_of_method (h : recognizeMethod s = some decided) : s.formKind = .method := by
  obtain ⟨s₁, htype, hi, hround, -⟩ := recognizeMethod_eq_some h
  rcases htype with ⟨hvoid, -⟩ | htype
  · have hword : s.bare.isAtClassWord = false := isAtClassWord_of_isAt hvoid (by decide)
    have hcurly : s.bare.isAtGroup .curly = false := isAtGroup_of_isAt hvoid .curly
    have hvoid : s.bare.isAt .kwVoid = true := hvoid
    simp [formKind, hword, hcurly, hvoid]
  · rw [formKind_of_skipType htype hi, hround]
    rfl

theorem formKind_of_class (h : recognizeClass s = some decided) : s.formKind = .nested := by
  obtain ⟨hword, -, -⟩ := recognizeClass_eq_some h
  have hbare : s.bare = s.skipModifiers := by
    rcases hword with h | h | h
    · exact bare_of_isAt h
    · exact bare_of_isAt h
    · exact bare_of_isAt h
  have hat : s.bare.isAtClassWord = true := by
    rw [hbare]
    simpa [isAtClassWord, or_assoc] using hword
  simp [formKind, hat]

theorem formKind_of_block (h : s.skipModifiers.isAtGroup .curly = true) :
    s.formKind = if s.isAt (.modifier .static) then .staticBlock else .instanceBlock := by
  have hbare : s.bare = s.skipModifiers := bare_of_not_angle (isAtGroup_ne h (by decide))
  rw [← hbare] at h
  simp [formKind, isAtClassWord_of_isAtGroup h, h]

theorem formKind_of_static (h : recognizeStatic s = some decided) : s.formKind = .staticBlock := by
  obtain ⟨hstatic, hcurly, -⟩ := recognizeStatic_eq_some h
  obtain ⟨t, ht, hk⟩ := isAt_iff.mp hstatic
  have hskip : s.skipModifiers = s.next := by
    rw [skipModifiers_of_modifier ht (by rw [hk]; rfl), skipModifiers_of_isAtGroup hcurly]
  rw [formKind_of_block (hskip ▸ hcurly), hstatic]
  rfl

theorem formKind_of_instance (h : recognizeInstance s = some decided) :
    s.formKind = .instanceBlock := by
  have hcurly := (recognizeInstance_eq_some h).1
  have hskip : s.skipModifiers = s := skipModifiers_of_isAtGroup hcurly
  rw [formKind_of_block (hskip.symm ▸ hcurly), isAt_of_isAtGroup hcurly]
  rfl

theorem formKind_of_constructor (h : recognizeConstructor ctx s = some decided) :
    s.formKind = .constructor := by
  obtain ⟨hname, hround, -⟩ := recognizeConstructor_eq_some h
  have hi : s.skipModifiers.skipAngle.isAt .ident = true := (Bool.and_eq_true_iff.mp hname).1
  have hbare : s.bare = s.skipModifiers.skipAngle := skipModifiers_of_isAt hi (by decide) rfl
  rw [← hbare] at hi hround
  -- the name is skipped as a type, and a list of parameters is no name
  have htype : s.bare.skipType = (true, s.bare.next) := skipType_of_call hi hround
  have hword : s.bare.isAtClassWord = false := isAtClassWord_of_isAt hi (by decide)
  have hcurly : s.bare.isAtGroup .curly = false := isAtGroup_of_isAt hi .curly
  have hvoid : s.bare.isAt .kwVoid = false := isAt_ne hi (by decide)
  simp [formKind, hword, hcurly, hvoid, htype, isAt_of_isAtGroup hround]

/-- **A form that recognises a member** is the form that the elements at the cursor allow. -/
theorem formKind_of_recognize (h : (kind.form inside).recognize ctx s = some decided) :
    s.formKind = kind := by
  cases kind with
  | field => exact formKind_of_field h
  | method => exact formKind_of_method h
  | nested => exact formKind_of_class h
  | staticBlock => exact formKind_of_static h
  | instanceBlock => exact formKind_of_instance h
  | constructor => exact formKind_of_constructor h

end Forms

/-! ### The order of the forms -/

/-- A search in which at most one entry is a hit finds it in any order. -/
theorem findSome?_perm {α β : Type} {f : α → Option β} {l l' : List α} (hperm : l.Perm l')
    (hunique : ∀ x ∈ l, ∀ y ∈ l, (f x).isSome = true → (f y).isSome = true → x = y) :
    l.findSome? f = l'.findSome? f := by
  cases h : l.findSome? f with
  | none =>
    rw [List.findSome?_eq_none_iff] at h
    refine (List.findSome?_eq_none_iff.mpr fun x hx => ?_).symm
    exact h x (hperm.mem_iff.mpr hx)
  | some b =>
    obtain ⟨x, hx, hb⟩ := List.exists_of_findSome?_eq_some h
    cases h' : l'.findSome? f with
    | none =>
      rw [List.findSome?_eq_none_iff] at h'
      rw [h' x (hperm.mem_iff.mp hx)] at hb
      cases hb
    | some b' =>
      obtain ⟨y, hy, hb'⟩ := List.exists_of_findSome?_eq_some h'
      have hxy : x = y := by
        refine hunique x hx y (hperm.mem_iff.mpr hy) ?_ ?_
        · rw [hb]
          rfl
        · rw [hb']
          rfl
      rw [hxy, hb'] at hb
      exact hb.symm

theorem memberForms_eq_map (inside : Inside) :
    memberForms inside = FormKind.all.map (FormKind.form inside) :=
  rfl

section Order

variable {inside : Inside} {forms : List MemberForm}

theorem eq_of_recognize {ctx : BodyContext} {s : Cursor} {form form' : MemberForm}
    (hform : form ∈ memberForms inside) (hform' : form' ∈ memberForms inside)
    (h : (form.recognize ctx s).isSome = true) (h' : (form'.recognize ctx s).isSome = true) :
    form = form' := by
  rw [memberForms_eq_map, List.mem_map] at hform hform'
  obtain ⟨kind, -, rfl⟩ := hform
  obtain ⟨kind', -, rfl⟩ := hform'
  obtain ⟨decided, hdecided⟩ := Option.isSome_iff_exists.mp h
  obtain ⟨decided', hdecided'⟩ := Option.isSome_iff_exists.mp h'
  rw [← formKind_of_recognize hdecided, ← formKind_of_recognize hdecided']

theorem length_filter_recognize_le (inside : Inside) (ctx : BodyContext) (s : Cursor) :
    ((memberForms inside).filter fun form => (form.recognize ctx s).isSome).length ≤ 1 := by
  have hkinds :
      (FormKind.all.filter fun kind => ((kind.form inside).recognize ctx s).isSome).length ≤
      (FormKind.all.filter fun kind => kind = s.formKind).length := by
    refine (List.monotone_filter_right FormKind.all fun kind h => ?_).length_le
    obtain ⟨decided, hdecided⟩ := Option.isSome_iff_exists.mp h
    exact decide_eq_true (formKind_of_recognize hdecided).symm
  have hone : ∀ kind : FormKind, (FormKind.all.filter fun k => k = kind).length = 1 := by
    intro kind
    cases kind <;> rfl
  rw [memberForms_eq_map, List.filter_map, List.length_map]
  have h := hone s.formKind
  exact hkinds.trans (Nat.le_of_eq h)

theorem selectForm_perm (hperm : forms.Perm (memberForms inside)) (constant : MemberForm)
    (ctx : BodyContext) (s : Cursor) :
    selectForm constant forms ctx s = selectForm constant (memberForms inside) ctx s := by
  unfold selectForm
  split
  · rfl
  · refine congrArg (·, _) (findSome?_perm hperm fun form hform form' hform' h h' => ?_)
    rw [Option.isSome_map] at h h'
    exact eq_of_recognize (hperm.mem_iff.mp hform) (hperm.mem_iff.mp hform') h h'

theorem memberStep_perm (hperm : forms.Perm (memberForms inside)) (constant : MemberForm)
    (ctx : BodyContext) (s : Cursor) :
    memberStep constant forms ctx s = memberStep constant (memberForms inside) ctx s := by
  unfold memberStep
  rw [selectForm_perm hperm]

theorem dispatchWith_perm (hperm : forms.Perm (memberForms inside)) (constant : MemberForm)
    (ctx : BodyContext) (s : Cursor) :
    dispatchWith constant forms ctx s = dispatchWith constant (memberForms inside) ctx s := by
  induction ctx, s using dispatchWith.induct constant (memberForms inside) with
  | case1 ctx s hnext hsemi _ ih => rw [dispatchWith_semi hsemi, dispatchWith_semi hsemi, ih]
  | case2 ctx s hnext hsemi e s' hstep =>
    have hstep' := (memberStep_perm hperm constant ctx s).trans hstep
    rw [dispatchWith_failed hnext hsemi hstep, dispatchWith_failed hnext hsemi hstep']
  | case3 ctx s hnext hsemi node ctx' s' hstep hlt ih =>
    have hstep' := (memberStep_perm hperm constant ctx s).trans hstep
    rw [dispatchWith_read hnext hsemi hstep hlt, dispatchWith_read hnext hsemi hstep' hlt, ih]
  | case4 ctx s hnext hsemi node ctx' s' hstep hlt =>
    have hstep' := (memberStep_perm hperm constant ctx s).trans hstep
    rw [dispatchWith_stays hnext hsemi hstep hlt, dispatchWith_stays hnext hsemi hstep' hlt]
  | case5 ctx s hnext => rw [dispatchWith_end hnext, dispatchWith_end hnext]

end Order

/-- **The order of the forms decides nothing**. At any cursor and in any class at most one of the
six forms recognises a member, so a range is read alike, with the same members, spans and error, in
whatever order the forms are tried. -/
theorem dispatch_of_perm (ctx : BodyContext) (s : Cursor) :
    (∀ inside, ((memberForms inside).filter fun form => (form.recognize ctx s).isSome).length ≤ 1) ∧
    (∀ inside forms, forms.Perm (memberForms inside) →
      dispatchWith (constantForm inside) forms ctx s =
        dispatchWith (constantForm inside) (memberForms inside) ctx s) ∧
    ∀ forms, forms.Perm (memberForms (.ofElements s.rest)) →
      dispatchWith (constantForm (.ofElements s.rest)) forms ctx s = dispatch ctx s := by
  refine ⟨fun inside => ?_, fun inside forms hperm => ?_, fun forms hperm => ?_⟩
  · exact length_filter_recognize_le inside ctx s
  · exact dispatchWith_perm hperm (constantForm inside) ctx s
  · exact dispatchWith_perm hperm _ ctx s

/-- `static final int x; A f() { } A() { }` in a class `A`. -/
def threeMembers : Cursor := .ofList
  [.token { kind := .modifier .static, text := lit "static" },
    .token { kind := .modifier .final, text := lit "final" },
    .token { kind := .primitive, text := lit "int" }, .token { kind := .ident, text := lit "x" },
    .token { kind := .semi, text := lit ";" }, .token { kind := .ident, text := lit "A" },
    .token { kind := .ident, text := lit "f" }, .group ⟨.round, {}, {}, []⟩,
    .group ⟨.curly, {}, {}, []⟩, .token { kind := .ident, text := lit "A" },
    .group ⟨.round, {}, {}, []⟩, .group ⟨.curly, {}, {}, []⟩] {}

/-- A field, a method and a constructor, with the forms tried from the last to the first. -/
theorem dispatch_of_perm_reversed :
    (dispatch { className := lit "A" } threeMembers).members.map (fun m => (m.kind, m.span)) =
      [(.fieldDecl, ⟨0, 5⟩), (.methodDecl, ⟨5, 9⟩), (.constructorDecl, ⟨9, 12⟩)] ∧
    dispatchWith (constantForm (.ofElements threeMembers.rest))
      (memberForms (.ofElements threeMembers.rest)).reverse { className := lit "A" } threeMembers =
        dispatch { className := lit "A" } threeMembers := by
  refine ⟨by decide +kernel, ?_⟩
  exact (dispatch_of_perm { className := lit "A" } threeMembers).2.2 _ (List.reverse_perm _)

end Unnest
