import Unnest.Proofs.Recognition

/-!
# Runs over two ranges

Member by member, two ranges walked over in step are read alike: a run over the first range that
ends in front of what the ranges do not share is matched by a run over the second that reads the
same members, but notes other positions (`Pace.Twins`). Where the ranges share everything, their
readings fail alike, too. One use of this is that it does not matter how many levels of groups a
reading is prepared for, as long as they are enough.

* `Pace.Limit.memberStep`, `Pace.Limit.run`: one member, and a run;
* `Pace.dispatchWith`: the whole reading, where the ranges share everything.
-/

namespace Unnest

open Unnest.Parser

/-! ### The form that is selected -/

theorem BodyContext.behindConstants {ctx : BodyContext} (h : ctx.inConstants = false) :
    { ctx with inConstants := false } = ctx := by
  rw [← h]

theorem FormKind.form_mem (kind : FormKind) (inside : Inside) :
    kind.form inside ∈ memberForms inside := by
  cases kind <;> simp [FormKind.form, memberForms]

section Select

variable {inside : Inside} {ctx ctx' : BodyContext} {s decided : Cursor} {form : MemberForm}

/-- Either an enum constant is selected, or there is none and a form of another kind is. -/
theorem selectForm_cases
    (h : selectForm (constantForm inside) (memberForms inside) ctx s =
      (some (form, decided), ctx')) :
    (form = constantForm inside ∧ ctx' = ctx ∧ ctx.inConstants = true ∧
      recognizeConstant ctx s = some decided) ∨
    ∃ kind : FormKind, form = kind.form inside ∧
      (ctx.inConstants = true → recognizeConstant ctx s = none) ∧
      ctx' = { ctx with inConstants := false } ∧ form.recognize ctx' s = some decided := by
  unfold selectForm at h
  split at h
  · next d hd =>
    cases h
    split_ifs at hd with hconst
    exact Or.inl ⟨rfl, rfl, hconst, hd⟩
  · next hnone =>
    obtain ⟨hfind, rfl⟩ := Prod.mk.inj h
    obtain ⟨form', hform, hd⟩ := List.exists_of_findSome?_eq_some hfind
    obtain ⟨d, hrec, hpair⟩ := Option.map_eq_some_iff.mp hd
    cases hpair
    rw [memberForms_eq_map] at hform
    obtain ⟨kind, -, rfl⟩ := List.mem_map.mp hform
    refine Or.inr ⟨kind, rfl, fun hconst => ?_, rfl, hrec⟩
    rwa [if_pos hconst] at hnone

theorem selectForm_eq_none_iff :
    (∃ ctx', selectForm (constantForm inside) (memberForms inside) ctx s = (none, ctx')) ↔
      (ctx.inConstants = true → recognizeConstant ctx s = none) ∧
        ∀ kind : FormKind, (kind.form inside).recognize { ctx with inConstants := false } s =
          none := by
  have hfind : ((memberForms inside).findSome? fun form =>
        (form.recognize { ctx with inConstants := false } s).map (form, ·)) = none ↔
      ∀ kind : FormKind, (kind.form inside).recognize { ctx with inConstants := false } s =
        none := by
    rw [List.findSome?_eq_none_iff, memberForms_eq_map]
    simp only [Option.map_eq_none_iff, List.forall_mem_map]
    exact ⟨fun h kind => h kind (by cases kind <;> decide), fun h kind _ => h kind⟩
  rw [← hfind]
  unfold selectForm
  by_cases hconst : ctx.inConstants = true
  · rw [if_pos hconst]
    cases hrec : recognizeConstant ctx s with
    | some decided =>
      rw [show (constantForm inside).recognize ctx s = some decided from hrec]
      simp [hconst]
    | none =>
      rw [show (constantForm inside).recognize ctx s = none from hrec]
      simp
  · rw [if_neg hconst]
    simp [hconst]

theorem selectForm_eq_none
    (h : selectForm (constantForm inside) (memberForms inside) ctx s = (none, ctx'))
    (hconst : ctx.inConstants = false) :
    ∀ form ∈ constantForm inside :: memberForms inside, form.recognize ctx s = none := by
  have hforms := (selectForm_eq_none_iff.mp ⟨ctx', h⟩).2
  rw [BodyContext.behindConstants hconst] at hforms
  rw [memberForms_eq_map]
  refine List.forall_mem_cons.mpr ⟨if_neg (by simp [hconst]), ?_⟩
  exact List.forall_mem_map.mpr fun kind _ => hforms kind

theorem selectForm_of_constant (hconst : ctx.inConstants = true)
    (h : recognizeConstant ctx s = some decided) :
    selectForm (constantForm inside) (memberForms inside) ctx s =
    (some (constantForm inside, decided), ctx) := by
  unfold selectForm
  rw [if_pos hconst, show (constantForm inside).recognize ctx s = some decided from h]

theorem selectForm_of_kind {kind : FormKind}
    (hconst : ctx.inConstants = true → recognizeConstant ctx s = none)
    (h : (kind.form inside).recognize { ctx with inConstants := false } s = some decided) :
    selectForm (constantForm inside) (memberForms inside) ctx s =
      (some (kind.form inside, decided), { ctx with inConstants := false }) := by
  have hnone : (if ctx.inConstants then (constantForm inside).recognize ctx s else none) =
      none := by
    split_ifs with h
    · exact hconst h
    · rfl
  have hform := kind.form_mem inside
  unfold selectForm
  rw [hnone]
  simp only
  cases hfind : (memberForms inside).findSome? fun form =>
      (form.recognize { ctx with inConstants := false } s).map (form, ·) with
  | none =>
    rw [List.findSome?_eq_none_iff] at hfind
    have := hfind _ hform
    rw [h] at this
    cases this
  | some found =>
    obtain ⟨form, hmem, hd⟩ := List.exists_of_findSome?_eq_some hfind
    obtain ⟨d, hrec, rfl⟩ := Option.map_eq_some_iff.mp hd
    obtain rfl := eq_of_recognize hmem hform (by rw [hrec]; rfl) (by rw [h]; rfl)
    rw [h] at hrec
    cases hrec
    rfl

end Select

theorem recognize_form (kind : FormKind) (inside inside' : Inside) :
    (kind.form inside).recognize = (kind.form inside').recognize := by
  cases kind <;> simp only [FormKind.form, fieldForm, methodForm, classForm, staticForm,
    instanceForm, constructorForm, formOf]

/-! ### Where a member is decided -/

section Decided

variable {inside : Inside} {kind : FormKind} {ctx : BodyContext} {s decided s' : Cursor}

/-- At the point that decides there is an element, and it is no `@`. -/
theorem decided_of_recognize (h : (kind.form inside).recognize ctx s = some decided) :
    decided.hasNext = true ∧ decided.isAt .atSign = false := by
  have htoken : ∀ {kind : TokenKind}, decided.isAt kind = true → kind ≠ .atSign →
      decided.hasNext = true ∧ decided.isAt .atSign = false :=
    fun hat hk => ⟨Cursor.hasNext_of_isAt hat, Cursor.isAt_ne hat hk⟩
  have hgroup : ∀ {kind : GroupKind}, decided.isAtGroup kind = true →
      decided.hasNext = true ∧ decided.isAt .atSign = false :=
    fun hat => ⟨Cursor.hasNext_of_isAtGroup hat, Cursor.isAt_of_isAtGroup hat .atSign⟩
  cases kind with
  | field =>
    obtain ⟨-, -, -, hend, -⟩ := recognizeField_eq_some h
    simp only [Bool.or_eq_true] at hend
    rcases hend with ((hend | hend) | hend) | hend
    · exact htoken hend (by decide)
    · exact htoken hend (by decide)
    · exact htoken hend (by decide)
    · obtain ⟨g, hg, hk, -⟩ := Cursor.isAtEmptyGroup_iff.mp hend
      exact hgroup (Cursor.isAtGroup_of_current hg hk)
  | method =>
    obtain ⟨-, -, -, -, hend, -⟩ := recognizeMethod_eq_some h
    simp only [Bool.or_eq_true] at hend
    rcases hend with (hend | hend) | hend
    · exact htoken hend (by decide)
    · exact hgroup hend
    · exact htoken hend (by decide)
  | nested =>
    obtain ⟨-, hi, rfl⟩ := recognizeClass_eq_some h
    exact htoken hi (by decide)
  | staticBlock =>
    obtain ⟨-, hcurly, rfl⟩ := recognizeStatic_eq_some h
    exact hgroup hcurly
  | instanceBlock =>
    obtain ⟨hcurly, rfl⟩ := recognizeInstance_eq_some h
    exact hgroup hcurly
  | constructor =>
    obtain ⟨-, -, hend, -⟩ := recognizeConstructor_eq_some h
    rcases Bool.or_eq_true_iff.mp hend with hend | hend
    · exact htoken hend (by decide)
    · exact hgroup hend

theorem Cursor.Lasting.behindDecided {I : Cursor → Prop} (hI : Cursor.Lasting I)
    (hrec : (kind.form inside).recognize ctx s = some decided)
    (hfinish : (kind.form inside).finish decided = .ok () s') (h : I decided.next) : I s' := by
  have hnext := (decided_of_recognize hrec).1
  have hthrough : ∀ p, MemberForm.finishThrough p decided = .ok () s' → I s' := by
    rintro p ⟨⟩
    exact hI.through p hnext h
  have hadvance : advance decided = .ok () s' → I s' := by
    intro hadvance
    rwa [Cursor.eq_next_of_advance hadvance]
  cases kind with
  | field => exact hthrough _ hfinish
  | method => exact hthrough _ hfinish
  | nested => exact hthrough _ hfinish
  | staticBlock => exact hadvance hfinish
  | instanceBlock => exact hadvance hfinish
  | constructor => exact hthrough _ hfinish

theorem inConstants_of_memberStep {ctx' : BodyContext} {node : Node}
    (h : memberStep (constantForm inside) (memberForms inside) ctx s = .read node ctx' s')
    (hconst : ctx.inConstants = false) : ctx'.inConstants = false := by
  obtain ⟨form, decided, ctx₁, m, hsel, -, -, rfl⟩ := memberStep_eq_read h
  rcases selectForm_cases hsel with ⟨-, -, hin, -⟩ | ⟨-, -, -, rfl, -⟩
  · rw [hconst] at hin
    cases hin
  · rfl

end Decided

theorem Run.context {inside : Inside} {ctx ctx' : BodyContext} {s t : Cursor} {nodes : List Node}
    (h : Run inside ctx s nodes ctx' t) (hconst : ctx.inConstants = false) : ctx' = ctx := by
  induction h with
  | done => rfl
  | semi _ _ ih => exact (ih rfl).trans (BodyContext.behindConstants hconst)
  | read _ _ hstep _ ih =>
    obtain ⟨form, decided, ctx₁, m, hsel, -, -, rfl⟩ := memberStep_eq_read hstep
    rcases selectForm_cases hsel with ⟨-, -, hin, -⟩ | ⟨-, -, -, rfl, -⟩
    · rw [hconst] at hin
      cases hin
    · exact (ih rfl).trans (BodyContext.behindConstants hconst)

namespace Pace

variable {P : Pace} {V : View} {K : Element → Element → Prop} {beyond : Cursor → Prop}
  {inside inside' : Inside} {ctx ctx' : BodyContext} {s s' t : Cursor}

/-- As far as is seen of it, the same member, with the positions that it has in the two ranges. -/
def Twins (P : Pace) (V : View) (m m' : Member) : Prop :=
  ∃ (m₀ m₀' : Member) (s s' t t' : Cursor), P.rel s s' ∧ P.rel t t' ∧ m₀'.seen V = m₀.seen V ∧
    m = m₀.withSpan ⟨s.pos, t.pos⟩ ∧ m' = m₀'.withSpan ⟨s'.pos, t'.pos⟩

/-- Enum constants are recognised alike in both ranges, and none ends where the ranges differ. -/
structure KeepsConstants (P : Pace) (beyond : Cursor → Prop) : Prop where
  over_of_past : ∀ t, P.past t → beyond t
  recognize : ∀ {s s'} ctx, P.rel s s' →
    (recognizeConstant ctx s').isSome = (recognizeConstant ctx s).isSome

/-! ### One member -/

namespace Limit

variable (hL : P.Limit K beyond) (hin : inside.Reads V K inside')
include hL

theorem exists_recognize (inside' : Inside) {kind : FormKind} {decided : Cursor} {node : Node}
    (hs : P.rel s s') (hrec : (kind.form inside).recognize ctx s = some decided)
    (hparse : (kind.form inside).parse ctx s = .ok node t) :
    beyond t ∨ ∃ decided', (kind.form inside').recognize ctx s' = some decided' := by
  by_cases hpast : P.past decided
  · obtain ⟨hnext, hat⟩ := decided_of_recognize hrec
    have hform := List.mem_cons_of_mem (constantForm inside) (kind.form_mem inside)
    have hfinish := (agrees_of_mem hform ctx s decided hrec).ok hparse
    exact Or.inl (hL.lasting.behindDecided hrec hfinish (hL.over_of_past hpast hnext hat))
  · obtain ⟨decided', hrec', -⟩ := Pace.exists_recognize hs hrec hpast
    rw [recognize_form kind inside inside'] at hrec'
    exact Or.inr ⟨decided', hrec'⟩

include hin

theorem memberStep {node : Node} (hconst : ctx.inConstants = false ∨ P.KeepsConstants beyond)
    (hs : P.rel s s') (hstep : memberStep (constantForm inside) (memberForms inside) ctx s =
      .read node ctx' t) :
    beyond t ∨ ¬ P.past s ∧ ∃ m m' t', node = .member m ∧ P.Twins V m m' ∧ P.rel t t' ∧
      Unnest.memberStep (constantForm inside') (memberForms inside') ctx s' =
      .read (.member m') ctx' t' := by
  obtain ⟨form, decided, ctx₁, m, hsel, hparse, rfl, rfl⟩ := memberStep_eq_read hstep
  rw [or_iff_not_imp_left]
  intro hover
  rcases selectForm_cases hsel with ⟨rfl, rfl, hconstants, hrec⟩ | ⟨kind, rfl, hnone, rfl, hrec⟩
  · have hkeeps := hconst.resolve_left (by rw [hconstants]; decide)
    have hcloses := (hL.mirrors_constant hin ctx₁).weaken hkeeps.over_of_past
    obtain ⟨_, t', hparse', ht, hsame⟩ := (hcloses.ok hs hparse).resolve_left hover
    obtain ⟨_, m', ⟨⟩, rfl, hm⟩ := hsame
    have hkind : m'.kind = m.kind := by rw [← m'.kind_seen V, hm, m.kind_seen]
    obtain ⟨decided', hrec'⟩ : ∃ d, recognizeConstant ctx₁ s' = some d := by
      rw [← Option.isSome_iff_exists, hkeeps.recognize ctx₁ hs, hrec]
      rfl
    refine ⟨hcloses.not_past hparse hover, _, _, t', rfl,
      ⟨m, m', s, s', t, t', hs, ht, hm, rfl, rfl⟩, ht, ?_⟩
    rw [memberStep_of_parse (selectForm_of_constant hconstants hrec') hparse', ← hkind]
    rfl
  · have hcloses := hL.closes_form hin kind { ctx with inConstants := false }
    obtain ⟨_, t', hparse', ht, hsame⟩ := (hcloses.ok hs hparse).resolve_left hover
    obtain ⟨_, m', ⟨⟩, rfl, hm⟩ := hsame
    have hkind : m'.kind = m.kind := by rw [← m'.kind_seen V, hm, m.kind_seen]
    obtain ⟨decided', hrec'⟩ := (hL.exists_recognize inside' hs hrec hparse).resolve_left hover
    have hnone' : ctx.inConstants = true → recognizeConstant ctx s' = none := by
      intro hconstants
      have hkeeps := hconst.resolve_left (by rw [hconstants]; decide)
      rw [← Option.not_isSome_iff_eq_none, hkeeps.recognize ctx hs, hnone hconstants]
      decide
    refine ⟨hcloses.not_past hparse hover, _, _, t', rfl,
      ⟨m, m', s, s', t, t', hs, ht, hm, rfl, rfl⟩, ht, ?_⟩
    rw [memberStep_of_parse (selectForm_of_kind hnone' hrec') hparse', ← hkind]
    rfl

/-! ### Runs -/

/-- **A run over the first range** that ends where the ranges do not differ is matched over the
second. -/
theorem run {nodes : List Node} (hconst : ctx.inConstants = false ∨ P.KeepsConstants beyond)
    (hrun : Run inside ctx s nodes ctx' t) (hs : P.rel s s') (hover : ¬ beyond t) :
    ∃ members members' t', nodes = members.map .member ∧ List.Forall₂ (P.Twins V) members members' ∧
      P.rel t t' ∧
      Run inside' ctx s' (members'.map .member) ctx' t' := by
  induction hrun generalizing s' with
  | done ctx s => exact ⟨[], [], s', rfl, .nil, hs, .done ctx s'⟩
  | @semi ctx ctx' s t nodes hsemi rest ih =>
    have hnext := Cursor.hasNext_of_isAt hsemi
    have hpast : ¬ P.past s := by
      intro hpast
      have hbehind := hL.over_of_past hpast hnext (Cursor.isAt_ne hsemi (by decide))
      exact hover (rest.lasts hL.lasting hbehind)
    obtain ⟨members, members', t', hnodes, htwins, ht, hrun'⟩ :=
      ih (Or.inl rfl) (P.next hs hpast hnext) hover
    exact ⟨members, members', t', hnodes, htwins, ht,
      .semi (by rw [(P.look hs hpast).isAt, hsemi]) hrun'⟩
  | @read ctx ctx₁ ctx' s s₁ t node nodes hnext hsemi hstep rest ih =>
    have hover₁ : ¬ beyond s₁ := fun h => hover (rest.lasts hL.lasting h)
    obtain ⟨hpast, m, m', s₁', rfl, htwin, hs₁, hstep'⟩ :=
      (hL.memberStep hin hconst hs hstep).resolve_left hover₁
    have hconst₁ : ctx₁.inConstants = false ∨ P.KeepsConstants beyond :=
      hconst.imp_left (inConstants_of_memberStep hstep)
    obtain ⟨members, members', t', rfl, htwins, ht, hrun'⟩ := ih hconst₁ hs₁ hover
    have hlook := P.look hs hpast
    refine ⟨m :: members, m' :: members', t', rfl, .cons htwin htwins, ht, ?_⟩
    exact .read (by rw [hlook.hasNext, hnext]) (by rwa [hlook.isAt]) hstep' hrun'

end Limit

/-! ### Readings -/

section Steady

variable (hsteady : ∀ s, ¬ P.past s) (hL : P.Limit K fun _ => False)
  (hin : inside.Reads V K inside')
include hsteady

theorem keepsConstants (beyond : Cursor → Prop) : P.KeepsConstants beyond :=
  ⟨fun t ht => absurd ht (hsteady t), fun ctx hs => isSome_recognizeConstant hsteady hs ctx⟩

include hL hin

theorem memberStep_failed {e : SourceError} (hs : P.rel s s')
    (hstep : memberStep (constantForm inside) (memberForms inside) ctx s = .failed e t) :
    ∃ t', memberStep (constantForm inside') (memberForms inside') ctx s' = .failed e t' := by
  have hlook := P.look hs (hsteady s)
  have hconstant := isSome_recognizeConstant hsteady hs ctx
  have hkind : ∀ kind ctx, ((FormKind.form inside' kind).recognize ctx s').isSome =
      ((FormKind.form inside kind).recognize ctx s).isSome := by
    intro kind ctx
    rw [recognize_form kind inside' inside]
    exact isSome_recognize hsteady hs inside kind ctx
  rcases memberStep_eq_failed hstep with ⟨ctx₁, hsel, rfl⟩ | ⟨form, decided, ctx₁, hsel, hparse⟩
  · obtain ⟨hnone, hforms⟩ := selectForm_eq_none_iff.mp ⟨ctx₁, hsel⟩
    obtain ⟨ctx₁', hsel'⟩ :
        ∃ ctx₁', selectForm (constantForm inside') (memberForms inside') ctx s' =
          (none, ctx₁') := by
      refine selectForm_eq_none_iff.mpr ⟨fun hconst => ?_, fun kind => ?_⟩
      · simpa [hnone hconst] using hconstant
      · simpa [hforms kind] using hkind kind { ctx with inConstants := false }
    refine ⟨s', ?_⟩
    rw [memberStep_of_none hsel']
    unfold Cursor.error
    rw [hlook.here]
  · rcases selectForm_cases hsel with ⟨rfl, rfl, hconst, hrec⟩ | ⟨kind, rfl, hnone, rfl, hrec⟩
    · obtain ⟨t', hparse'⟩ :=
        ((hL.mirrors_constant hin ctx₁).error hs hparse).resolve_left (hsteady t)
      rw [hrec] at hconstant
      obtain ⟨decided', hrec'⟩ := Option.isSome_iff_exists.mp hconstant
      exact ⟨t', memberStep_of_error (selectForm_of_constant hconst hrec') hparse'⟩
    · obtain ⟨t', hparse'⟩ := ((hL.closes_form hin kind _).error hs hparse).resolve_left (hsteady t)
      have hsome := hkind kind { ctx with inConstants := false }
      rw [hrec] at hsome
      obtain ⟨decided', hrec'⟩ := Option.isSome_iff_exists.mp hsome
      have hnone' : ctx.inConstants = true → recognizeConstant ctx s' = none :=
        fun hconst => by simpa [hnone hconst] using hconstant
      exact ⟨t', memberStep_of_error (selectForm_of_kind hnone' hrec') hparse'⟩

/-- **Ranges that share everything** are read alike: the same members, and the same error. -/
theorem dispatchWith (ctx : BodyContext) (hs : P.rel s s') :
    let d := Unnest.dispatchWith (constantForm inside) (memberForms inside) ctx s
    let d' := Unnest.dispatchWith (constantForm inside') (memberForms inside') ctx s'
    d'.failure = d.failure ∧ List.Forall₂ (P.Twins V) d.members d'.members := by
  intro d d'
  obtain ⟨nodes, ctx₁, t, hrun, hend⟩ := exists_run inside ctx s
  obtain ⟨members, members', t', rfl, htwins, ht, hrun'⟩ :=
    hL.run hin (Or.inr (keepsConstants hsteady _)) hrun hs id
  have hlook := P.look ht (hsteady t)
  have hd := hrun.dispatchWith_eq
  have hd' := hrun'.dispatchWith_eq
  rw [Node.filterMap_member?] at hd hd'
  rcases hend with hend | ⟨hnext, hsemi, e, u, hstep⟩
  · have hend' : ¬ t'.hasNext = true := by rwa [hlook.hasNext]
    rw [dispatchWith_end hend] at hd
    rw [dispatchWith_end hend'] at hd'
    simp only [d, d', hd, hd', Dispatched.prepend, List.append_nil]
    exact ⟨trivial, htwins⟩
  · obtain ⟨u', hstep'⟩ := memberStep_failed hsteady hL hin ht hstep
    have hnext' : t'.hasNext = true := by rwa [hlook.hasNext]
    have hsemi' : ¬ t'.isAt .semi = true := by rwa [hlook.isAt]
    rw [dispatchWith_failed hnext hsemi hstep] at hd
    rw [dispatchWith_failed hnext' hsemi' hstep'] at hd'
    simp only [d, d', hd, hd', Dispatched.prepend, List.append_nil]
    exact ⟨trivial, htwins⟩

end Steady

/-- Members whose positions are noted alike are the same. -/
theorem eq_of_twins {members members' : List Member}
    (h : List.Forall₂ (P.Twins .whole) members members')
    (hpos : ∀ {s s'}, P.rel s s' → s'.pos = s.pos) : members' = members := by
  induction h with
  | nil => rfl
  | cons htwin _ ih =>
    obtain ⟨m, m', s, s', t, t', hs, ht, hm, rfl, rfl⟩ := htwin
    rw [Member.seen_whole, Member.seen_whole] at hm
    rw [hpos hs, hpos ht, hm, ih]

theorem withSpan_of_twins {members members' : List Member}
    (h : List.Forall₂ (P.Twins .whole) members members') :
    members'.map (·.withSpan {}) = members.map (·.withSpan {}) := by
  induction h with
  | nil => rfl
  | cons htwin _ ih =>
    obtain ⟨m, m', s, s', t, t', -, -, hm, rfl, rfl⟩ := htwin
    rw [Member.seen_whole, Member.seen_whole] at hm
    rw [List.map_cons, List.map_cons, ih, hm]
    cases m <;> rfl

end Pace

/-! ### The same elements at other positions -/

/-- The elements of the range have at most `levels` levels of groups. -/
def Cursor.Shallow (levels : Nat) (s : Cursor) : Prop := ∀ e ∈ s.rest, e.depth ≤ levels

theorem Cursor.Shallow.next {levels : Nat} {s : Cursor} (h : s.Shallow levels) :
    s.next.Shallow levels :=
  fun e he => h e (s.rest_next_subset he)

namespace Cursor

variable {k : Nat} {s s' : Cursor}

/-- The cursor `s'` stands at the same elements as `s`, at positions greater by `k`. -/
structure Shifted (k : Nat) (s s' : Cursor) : Prop where
  pos : s'.pos = s.pos + k
  rest : s'.rest = s.rest
  closing : s'.closing = s.closing

theorem Shifted.settle (h : Shifted k s s') : Shifted k s.settle s'.settle where
  pos := by
    simp only [Cursor.settle, h.pos, h.rest]
    omega
  rest := by simp only [Cursor.settle, h.rest]
  closing := h.closing

theorem Shifted.next (h : Shifted k s s') : Shifted k s.next s'.next := by
  unfold Cursor.next
  rw [h.rest]
  cases hrest : s.rest with
  | nil => exact h
  | cons e es => exact Shifted.settle ⟨by simp only [h.pos]; omega, rfl, h.closing⟩

theorem Shifted.alike (h : Shifted k s s') : s.Alike s' :=
  .of_eq (congrArg List.head? h.rest) h.closing

end Cursor

/-- Ranges with the same elements, `k` positions apart, which all have the property `K`. -/
def Pace.shift (k : Nat) (K : Element → Prop) : Pace where
  rel s s' := s.Shifted k s' ∧ ∀ e ∈ s.rest, K e
  past _ := False
  look hs _ := hs.1.alike
  next hs _ _ := ⟨hs.1.next, fun e he => hs.2 e (Cursor.rest_next_subset _ he)⟩
  lt hs ht _ _ := by rw [hs.1.rest, ht.1.rest]
  past_next := Cursor.lasting_false
  past_at _ _ := id
  Pairs g g' := g' = g ∧ K (.group g)
  pairs := by
    intro s s' g g' hs _ hg hg'
    have hsame : s'.current? = s.current? := congrArg List.head? hs.1.rest
    rw [hg, hg'] at hsame
    cases hsame
    exact ⟨rfl, hs.2 _ (Cursor.mem_rest_of_current hg)⟩

theorem Pace.limit_shift (k : Nat) (K : Element → Prop) :
    (Pace.shift k K).Limit (fun e e' => e = e' ∧ K e) fun _ => False where
  lasting := Cursor.lasting_false
  past_of_over := id
  over_of_past h _ _ := h
  pass := by
    intro s s' e e' hs _ he he'
    have hsame : s'.current? = s.current? := congrArg List.head? hs.1.rest
    rw [he, he'] at hsame
    cases hsame
    exact Or.inr ⟨rfl, hs.2 e (Cursor.mem_rest_of_current he)⟩

/-! ### Levels of groups -/

theorem depthAll_children_lt {g : Group} {levels : Nat} (h : (Element.group g).depth ≤ levels) :
    depthAll g.children < levels := by
  rw [Element.depth_group] at h
  omega

theorem depthAll_le {es : List Element} {n : Nat} (h : ∀ e ∈ es, e.depth ≤ n) :
    depthAll es ≤ n := by
  induction es with
  | nil => simp [depthAll]
  | cons e es ih =>
    have he := h e List.mem_cons_self
    have hes := ih fun x hx => h x (List.mem_cons_of_mem _ hx)
    rw [depthAll]
    omega

theorem Dispatched.toExcept_eq {d d' : Dispatched} (hfailure : d'.failure = d.failure)
    (hmembers : d'.members = d.members) : d'.toExcept = d.toExcept := by
  unfold toExcept
  rw [hfailure, hmembers]

theorem Dispatched.toExcept_of_failure {d : Dispatched} (h : d.failure = none) :
    d.toExcept = .ok d.members := by
  unfold toExcept
  rw [h]

/-- How elements are read whose groups are read by `inside`. -/
def Inside.outward (inside : Inside) : Inside where
  pieces := piecesWith inside 0
  members ctx g :=
    (dispatchWith (constantForm inside) (memberForms inside) ctx (.ofGroup g)).toExcept

theorem Cursor.rest_ofGroup_subset (g : Group) : (Cursor.ofGroup g).rest ⊆ g.children :=
  Cursor.rest_settle_subset _

theorem Inside.Agrees.outward_members {K : Element → Prop} {inside inside' : Inside}
    (h : inside.Agrees K inside') {g : Group} (hg : ∀ e ∈ (Cursor.ofGroup g).rest, K e)
    (ctx : BodyContext) : inside'.outward.members ctx g = inside.outward.members ctx g := by
  have hrel : (Pace.shift 0 K).rel (.ofGroup g) (.ofGroup g) := ⟨⟨rfl, rfl, rfl⟩, hg⟩
  obtain ⟨hfailure, htwins⟩ :=
    Pace.dispatchWith (fun _ => id) (Pace.limit_shift 0 K) h.reads ctx hrel
  exact Dispatched.toExcept_eq hfailure (Pace.eq_of_twins htwins fun hs => hs.1.pos)

/-- **More levels than the elements have** change nothing. -/
theorem agrees_insideAt {levels levels' : Nat} (hle : levels ≤ levels') :
    (insideAt levels).Agrees (fun e => e.depth ≤ levels) (insideAt levels') := by
  induction levels generalizing levels' with
  | zero =>
    have hnone : ∀ g : Group, ¬ (Element.group g).depth ≤ 0 :=
      fun g hg => absurd (depthAll_children_lt hg) (Nat.not_lt_zero _)
    exact ⟨fun h => absurd h (hnone _), fun h => absurd h (hnone _)⟩
  | succ levels ih =>
    obtain ⟨levels', rfl⟩ : ∃ n, levels' = n + 1 := ⟨levels' - 1, by omega⟩
    have hagrees := ih (Nat.le_of_succ_le_succ hle)
    have hchildren : ∀ {g : Group}, (Element.group g).depth ≤ levels + 1 →
        ∀ e ∈ g.children, e.depth ≤ levels :=
      fun hg e he => (depth_le_of_mem he).trans (Nat.le_of_lt_succ (depthAll_children_lt hg))
    exact ⟨fun hg => hagrees.piecesWith (hchildren hg),
      fun hg => hagrees.outward_members
        (fun e he => hchildren hg e (Cursor.rest_ofGroup_subset _ he)) _⟩

theorem agrees_insideAt_of_le {levels levels₁ levels₂ : Nat} (h₁ : levels ≤ levels₁)
    (h₂ : levels ≤ levels₂) :
    (insideAt levels₁).Agrees (fun e => e.depth ≤ levels) (insideAt levels₂) :=
  (agrees_insideAt h₁).symm.trans (agrees_insideAt h₂)

end Unnest
