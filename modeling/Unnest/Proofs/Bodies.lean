import Unnest.Proofs.MemberParts
import Unnest.Proofs.Moving
import Unnest.Grammar.File

/-!
# Reading bodies and files

The members of a body are read one by one, and each of them keeps the invariant of its elements. The
one error without the property would be a form that reads past its own announcement, and no form
does (`agrees_of_mem`). Since the readings of groups are built level by level, the same holds at
every depth.

* `ElementInvariant.Reads.dispatchWith`: the members and the error of a range;
* `dispatch_agrees_with_extents`: no member is read to another end than the announced one.
-/

namespace Unnest

open Unnest.Parser

/-! ### The walk over a range -/

section Range

variable {constant : MemberForm} {forms : List MemberForm} {ctx ctx' : BodyContext} {s s' : Cursor}
  {node : Node} {e : SourceError}

theorem dispatchWith_end (hnext : ¬ s.hasNext = true) :
    dispatchWith constant forms ctx s = ⟨[], s, none⟩ := by
  rw [dispatchWith, dif_neg hnext]

theorem dispatchWith_semi (hsemi : s.isAt .semi = true) :
    dispatchWith constant forms ctx s =
      dispatchWith constant forms { ctx with inConstants := false } s.next := by
  rw [dispatchWith, dif_pos (Cursor.hasNext_of_isAt hsemi), if_pos hsemi]

theorem dispatchWith_failed (hnext : s.hasNext = true) (hsemi : ¬ s.isAt .semi = true)
    (hstep : memberStep constant forms ctx s = .failed e s') :
    dispatchWith constant forms ctx s = ⟨[], s', some e⟩ := by
  rw [dispatchWith, dif_pos hnext, if_neg hsemi, hstep]

theorem dispatchWith_read (hnext : s.hasNext = true) (hsemi : ¬ s.isAt .semi = true)
    (hstep : memberStep constant forms ctx s = .read node ctx' s')
    (hlt : s'.rest.length < s.rest.length) :
    dispatchWith constant forms ctx s =
      (dispatchWith constant forms ctx' s').prepend node.member?.toList := by
  rw [dispatchWith, dif_pos hnext, if_neg hsemi, hstep]
  simp only [hlt, if_true]

theorem dispatchWith_stays (hnext : s.hasNext = true) (hsemi : ¬ s.isAt .semi = true)
    (hstep : memberStep constant forms ctx s = .read node ctx' s')
    (hlt : ¬ s'.rest.length < s.rest.length) :
    dispatchWith constant forms ctx s = ⟨node.member?.toList, s', none⟩ := by
  rw [dispatchWith, dif_pos hnext, if_neg hsemi, hstep]
  simp only [hlt, if_false]

end Range

/-! ### One member -/

section Step

variable {inside : Inside} {ctx ctx' : BodyContext} {s decided : Cursor} {form : MemberForm}

theorem selectForm_eq_some (h : selectForm (constantForm inside) (memberForms inside) ctx s =
      (some (form, decided), ctx')) :
    form ∈ constantForm inside :: memberForms inside ∧ form.recognize ctx' s = some decided := by
  unfold selectForm at h
  split at h
  · next d hd =>
    simp only [Prod.mk.injEq, Option.some.injEq] at h
    obtain ⟨⟨rfl, rfl⟩, rfl⟩ := h
    split_ifs at hd
    exact ⟨by simp, hd⟩
  · simp only [Prod.mk.injEq] at h
    obtain ⟨h, rfl⟩ := h
    obtain ⟨f, hf, hd⟩ := List.exists_of_findSome?_eq_some h
    simp only [Option.map_eq_some_iff, Prod.mk.injEq] at hd
    obtain ⟨d, hd, rfl, rfl⟩ := hd
    exact ⟨List.mem_cons_of_mem _ hf, hd⟩

theorem memberStep_of_parse
    (h : selectForm (constantForm inside) (memberForms inside) ctx s = (some (form, decided), ctx'))
    {node : Node} {s' : Cursor} (hparse : form.parse ctx' s = .ok node s') :
    memberStep (constantForm inside) (memberForms inside) ctx s =
      .read (node.withSpan ⟨s.pos, s'.pos⟩)
        { ctx' with inConstants := ctx'.inConstants && node.kind == .enumConstant } s' := by
  obtain ⟨hform, hrec⟩ := selectForm_eq_some h
  have hfinish := (agrees_of_mem hform ctx' s decided hrec).ok hparse
  unfold memberStep
  simp only [h, hfinish, hparse, if_true]

theorem memberStep_of_error
    (h : selectForm (constantForm inside) (memberForms inside) ctx s = (some (form, decided), ctx'))
    {e : SourceError} {s' : Cursor} (hparse : form.parse ctx' s = .error e s') :
    memberStep (constantForm inside) (memberForms inside) ctx s = .failed e s' := by
  obtain ⟨hform, hrec⟩ := selectForm_eq_some h
  obtain ⟨announced, hfinish⟩ := exists_finish_of_mem hform hrec
  unfold memberStep
  simp only [h, hfinish, hparse]

theorem memberStep_of_none
    (h : selectForm (constantForm inside) (memberForms inside) ctx s = (none, ctx')) :
    memberStep (constantForm inside) (memberForms inside) ctx s =
      .failed (s.error (.noMember ctx.className)) s := by
  unfold memberStep
  simp only [h]

end Step

/-! ### Packages and imports -/

namespace Walk

variable {I : Cursor → Prop} {E : SourceError → Prop} (w : Walk I E) (hI : Cursor.Lasting I)
  {s : Cursor}
include w hI

theorem advance : Keeps I E advance := fun s hs =>
  gives_advance.mpr ⟨fun _ => hI s hs, fun _ => w.fail hs rfl⟩

theorem gives_expect (kind : TokenKind) (what : Text) (hs : I s) :
    Gives (Parser.expect kind what) s (fun _ s' => I s') E :=
  Parser.gives_expect.mpr ⟨fun _ _ _ => hI s hs, fun _ => w.fail hs rfl⟩

theorem qualifiedName : Keeps I E qualifiedName := by
  intro s hs
  unfold Parser.qualifiedName
  refine (w.expect .ident _ (by decide) s hs).bind fun first s₁ h₁ => ?_
  refine (Keeps.many (fun s hs => ?_) s₁ h₁).bind fun _ _ h => gives_pure.mpr h
  rw [gives_get_ite]
  refine ⟨fun _ => ?_, fun _ => gives_pure.mpr hs⟩
  refine (w.advance hI s hs).bind fun _ s₂ h₂ => ?_
  rw [gives_bind, gives_current]
  refine ⟨fun part _ => ?_, fun _ => w.fail h₂ rfl⟩
  exact (w.advance hI s₂ h₂).bind fun _ _ h => gives_pure.mpr h

theorem packageDecl : Keeps I E packageDecl := by
  intro s hs
  unfold Parser.packageDecl
  rw [gives_bind, gives_get]
  simp only [gives_ite]
  refine ⟨fun _ => ?_, fun _ => gives_pure.mpr hs⟩
  rw [gives_bind, gives_set]
  refine (w.gives_expect hI .kwPackage _ (hI.skipModifiers hs)).bind fun _ s₁ h₁ => ?_
  refine (w.qualifiedName hI s₁ h₁).bind fun _ s₂ h₂ => ?_
  exact (w.gives_expect hI .semi _ h₂).bind fun _ _ h => gives_pure.mpr h

theorem importDecl : Keeps I E importDecl := by
  intro s hs
  have hadvance := w.advance hI
  unfold Parser.importDecl
  refine (w.gives_expect hI .kwImport _ hs).bind fun _ s₁ h₁ => ?_
  rw [gives_bind, gives_get]
  have hstatic : Gives (if s₁.isAt (.modifier .static) then Parser.advance else pure ()) s₁
      (fun _ s' => I s') E :=
    gives_ite.mpr ⟨fun _ => hadvance s₁ h₁, fun _ => gives_pure.mpr h₁⟩
  refine gives_branch.mpr (hstatic.mono (fun _ s₂ h₂ => ?_) fun _ => id)
  refine (w.qualifiedName hI s₂ h₂).bind fun name s₃ h₃ => ?_
  have hend : ∀ (i : Import) {s}, I s → Gives (do
      let _ ← Parser.expect .semi (lit "';' after import")
      return i) s (fun _ s' => I s') E := by
    intro i s hs
    exact (w.gives_expect hI .semi _ hs).bind fun _ _ h => gives_pure.mpr h
  rw [gives_bind, gives_get]
  simp only [gives_ite]
  refine ⟨fun _ => ?_, fun _ => hend _ h₃⟩
  refine (hadvance s₃ h₃).bind fun _ s₄ h₄ => ?_
  rw [gives_bind, gives_current]
  refine ⟨fun star _ => ?_, fun _ => w.fail h₄ rfl⟩
  simp only [gives_ite]
  refine ⟨fun _ => gives_bind.mpr (gives_fail.mpr (w.fail h₄ rfl)), fun _ => ?_⟩
  exact (hadvance s₄ h₄).bind fun _ _ h => hend _ h

end Walk

namespace ElementInvariant

variable {inv : ElementInvariant} {inside : Inside} {s : Cursor}

theorem readBy_withSpan {m : Member} {span : Span} :
    inv.ReadBy inside (m.withSpan span) ↔ inv.ReadBy inside m := by
  cases m <;> exact Iff.rfl

/-- What a step of the reading gives: a member from the source, or an error with the property. -/
def StepFrom (inv : ElementInvariant) (inside : Inside) : MemberStep → Prop
  | .read node _ behind => inv.cursor behind ∧ ∃ m, node = .member m ∧ inv.ReadBy inside m
  | .failed e _ => inv.error e

namespace Reads

variable (h : inv.Reads inside)
include h

theorem memberStep (ctx : BodyContext) (hs : inv.cursor s) :
    inv.StepFrom inside (memberStep (constantForm inside) (memberForms inside) ctx s) := by
  rcases hsel : selectForm (constantForm inside) (memberForms inside) ctx s with
    ⟨_ | ⟨form, decided⟩, ctx'⟩
  · rw [memberStep_of_none hsel]
    exact (error_of_cursor hs (by simp [Cause.kind]) : inv.error
      (s.error (.noMember ctx.className)))
  have hgives := h.gives_form (selectForm_eq_some hsel).1 ctx' hs
  cases hparse : form.parse ctx' s with
  | error e s' =>
    rw [memberStep_of_error hsel hparse]
    exact hgives.error hparse
  | ok node s' =>
    obtain ⟨hs', m, rfl, -, hm⟩ := hgives.ok hparse
    rw [memberStep_of_parse hsel hparse]
    exact ⟨hs', _, rfl, readBy_withSpan.mpr hm⟩

/-- **The members of a range** come from the source, and the error that stopped the reading has the
property of the invariant. -/
theorem dispatchWith (ctx : BodyContext) (hs : inv.cursor s) :
    (∀ m ∈ (dispatchWith (constantForm inside) (memberForms inside) ctx s).members,
      inv.ReadBy inside m) ∧
    ∀ e, (Unnest.dispatchWith (constantForm inside) (memberForms inside) ctx s).failure = some e →
      inv.error e := by
  induction ctx, s using dispatchWith.induct (constantForm inside) (memberForms inside) with
  | case1 ctx s hnext hsemi _ ih =>
    rw [Unnest.dispatchWith]
    simp only [hnext, hsemi, dite_true, if_true]
    exact ih (cursor_next hs)
  | case2 ctx s hnext hsemi e s' hstep =>
    have he := h.memberStep ctx hs
    rw [hstep] at he
    rw [Unnest.dispatchWith]
    simp only [hnext, hsemi, dite_true, Bool.false_eq_true, if_false, hstep]
    refine ⟨by simp, ?_⟩
    rintro e ⟨⟩
    exact he
  | case3 ctx s hnext hsemi node ctx' s' hstep hlt ih =>
    have hread := h.memberStep ctx hs
    rw [hstep] at hread
    obtain ⟨hs', m, rfl, hm⟩ := hread
    obtain ⟨hms, he⟩ := ih hs'
    rw [Unnest.dispatchWith]
    simp only [hnext, hsemi, dite_true, Bool.false_eq_true, if_false, hstep, hlt, if_true,
      Dispatched.prepend]
    refine ⟨fun m' hm' => ?_, he⟩
    rcases List.mem_append.mp hm' with hm' | hm'
    · simp only [Node.member?, Option.toList_some, List.mem_singleton] at hm'
      rw [hm']
      exact hm
    · exact hms m' hm'
  | case4 ctx s hnext hsemi node ctx' s' hstep hlt =>
    have hread := h.memberStep ctx hs
    rw [hstep] at hread
    obtain ⟨hs', m, rfl, hm⟩ := hread
    rw [Unnest.dispatchWith]
    simp only [hnext, hsemi, dite_true, Bool.false_eq_true, if_false, hstep, hlt]
    refine ⟨fun m' hm' => ?_, by simp⟩
    simp only [Node.member?, Option.toList_some, List.mem_singleton] at hm'
    rw [hm']
    exact hm
  | case5 ctx s hnext =>
    rw [Unnest.dispatchWith]
    simp only [hnext]
    exact ⟨by simp, by simp⟩

end Reads

/-! ### All levels -/

theorem reads_insideAt (inv : ElementInvariant) (levels : Nat) : inv.Reads (insideAt levels) := by
  induction levels with
  | zero => exact ⟨fun _ h => by simp [insideAt] at h, fun _ h => by simp [insideAt] at h⟩
  | succ levels ih =>
    refine ⟨fun hes h => ih.error_of_piecesWith hes h, fun {ctx g e} hg h => ?_⟩
    have hd := (ih.dispatchWith ctx (cursor_ofGroup hg)).2
    simp only [insideAt, Dispatched.toExcept] at h
    split at h
    · cases h
    · next e' he' =>
      cases h
      exact hd _ he'

variable {e : SourceError} {root : Group}

theorem error_of_dispatch (inv : ElementInvariant) {ctx : BodyContext} (hs : inv.cursor s)
    (he : (dispatch ctx s).failure = some e) : inv.error e :=
  ((inv.reads_insideAt _).dispatchWith ctx hs).2 e he

/-! ### Files -/

theorem lasting_cursor (inv : ElementInvariant) : Cursor.Lasting inv.cursor := fun _ => cursor_next

theorem keeps_packageDecl (inv : ElementInvariant) : Keeps inv.cursor inv.error packageDecl :=
  inv.walk.packageDecl inv.lasting_cursor

theorem keeps_importDecl (inv : ElementInvariant) : Keeps inv.cursor inv.error importDecl :=
  inv.walk.importDecl inv.lasting_cursor

/-- Where the parts of a class declaration were read: it bears a name of the source, and its members
are those of a group. -/
def TypeFrom (inv : ElementInvariant) (inside : Inside) (d : TypeDecl) : Prop :=
  inv.MembersFrom inside d.members ∧ ∃ t, inv.element (.token t) ∧ t.kind = .ident ∧
    d.head.name = t.text

/-- **A file** has class declarations from the source; an error has the property of the
invariant. -/
theorem Reads.gives_file (h : inv.Reads inside) (hs : inv.cursor s) :
    Gives (file inside) s (fun f _ => ∀ d ∈ f.types, inv.TypeFrom inside d) inv.error := by
  have w := inv.walk
  unfold file
  rw [gives_bind, gives_get]
  refine (inv.keeps_packageDecl s hs).bind fun package s₁ h₁ => ?_
  refine (Keeps.many (fun s hs => ?_) s₁ h₁).bind fun imports s₂ h₂ => ?_
  · rw [gives_get_ite]
    refine ⟨fun _ => ?_, fun _ => gives_pure.mpr hs⟩
    exact (inv.keeps_importDecl s hs).bind fun _ _ h => gives_pure.mpr h
  refine (gives_many inv.cursor (A := fun d : Option TypeDecl => ∀ d', d = some d' →
    inv.TypeFrom inside d') (fun s hs => ?_) h₂).bind fun types s₃ h₃ => ?_
  · rw [gives_get_ite]
    refine ⟨fun _ => ?_, fun _ => gives_pure.mpr ⟨hs, by simp⟩⟩
    unfold topLevel
    rw [gives_bind, gives_bind, gives_get, gives_ite]
    refine ⟨fun _ => ?_, fun _ => gives_ite.mpr ⟨fun _ => ?_, fun _ => ?_⟩⟩
    · rw [gives_bind, gives_advance]
      exact ⟨fun _ => gives_pure.mpr (gives_pure.mpr ⟨cursor_next hs, by simp⟩),
        fun _ => w.fail hs rfl⟩
    · refine (h.gives_typeDecl hs).bind fun d s' hd => ?_
      rw [gives_bind, gives_get, gives_pure, gives_pure]
      refine ⟨hd.1, ?_⟩
      rintro _ ⟨⟩ d' ⟨⟩
      exact hd.2
    · exact error_of_cursor hs (by simp [Cause.kind])
  · refine gives_pure.mpr fun d hd => ?_
    obtain ⟨d', hd', he⟩ := List.mem_filterMap.mp hd
    exact h₃.2 d' hd' d he

theorem typesFrom_ofGroup (inv : ElementInvariant)
    (hroot : inv.cursor (.ofGroup root)) {f : File} (hf : File.ofGroup root = .ok f) :
    ∀ d ∈ f.types, inv.TypeFrom (Inside.ofElements root.children) d := by
  have hgives := (inv.reads_insideAt (depthAll root.children)).gives_file hroot
  unfold File.ofGroup runOn at hf
  split at hf
  · next f' s' hrun =>
    cases hf
    exact hgives.ok hrun
  · cases hf

theorem error_of_ofGroup (inv : ElementInvariant)
    (hroot : inv.cursor (.ofGroup root)) (he : File.ofGroup root = .error e) :
    inv.error e := by
  have hgives := (inv.reads_insideAt (depthAll root.children)).gives_file hroot
  unfold File.ofGroup runOn at he
  split at he
  · cases he
  · next e' s' hrun =>
    cases he
    exact hgives.error hrun

theorem error_of_file (inv : ElementInvariant) (hroot : inv.element (.group root))
    (he : File.ofGroup root = .error e) : inv.error e :=
  inv.error_of_ofGroup (cursor_ofGroup hroot) he

/-- The invariant that says nothing of the elements: no form contradicts its own announcement. -/
def announced : ElementInvariant where
  element := fun _ => True
  closing := fun _ => True
  error := fun e => e.cause.kind ≠ .consumption
  closing_of_group := fun _ => trivial
  children := fun _ _ _ => trivial
  error_at := fun _ h => h
  error_closing := fun _ h => h

end ElementInvariant

/-! ### The announced extents -/

/-- **Forms read what they announce**. A member that a form recognises and reads ends where the form
announced its end, so no reading of a range or of a file, its nested and anonymous classes included,
ever stops because the two differ. -/
theorem dispatch_agrees_with_extents :
    (∀ inside, ∀ form ∈ constantForm inside :: memberForms inside, ∀ ctx s decided node s',
      form.recognize ctx s = some decided → form.parse ctx s = .ok node s' →
        form.extent ctx s = .ok (some s'.pos)) ∧
    (∀ ctx s e, (dispatch ctx s).failure = some e → e.cause.kind ≠ .consumption) ∧
    ∀ root e, File.ofGroup root = .error e → e.cause.kind ≠ .consumption := by
  refine ⟨fun inside form hform ctx s decided node s' hrec hparse => ?_, fun ctx s e he => ?_,
    fun root e he => ?_⟩
  · exact extent_eq_of_parse hform hrec hparse
  · exact ElementInvariant.announced.error_of_dispatch ⟨trivial, fun _ _ => trivial⟩ he
  · exact ElementInvariant.announced.error_of_file trivial he

end Unnest
