import Unnest.Proofs.Twins

/-!
# Members end where they are announced

A form of member announces where the member ends (`recognize`, `finish`) and reads it (`parse`) by
two walks that share nothing. `MemberForm.Agrees` says that the two end at the same cursor, and
every form of the language agrees with itself.

The announcement goes through to the first semicolon or the first group in braces behind the point
that decides. The rest of a head contains neither, so reading it leaves `Cursor.skipThrough` where
it was (`walk_skipThrough`), and the last element that is read is the one that is announced.
-/

namespace Unnest

open Unnest.Parser

/-- A form that recognises a member and reads it, reads up to the end it announced. -/
def MemberForm.Agrees (form : MemberForm) : Prop :=
  ∀ ctx s decided, form.recognize ctx s = some decided →
    Gives (form.parse ctx) s (fun _ s' => form.finish decided = .ok () s') fun _ => True

/-! ### Going through to an element -/

namespace Cursor

variable {s : Cursor} {p : Element → Bool} {e : Element}

theorem skipThrough_of_not (h : s.current? = some e) (hp : p e = false) :
    s.skipThrough p = s.next.skipThrough p := by
  rw [skipThrough]
  simp [hasNext_iff.mpr ⟨e, h⟩, h, hp]

theorem skipThrough_of_pos (h : s.current? = some e) (hp : p e = true) :
    s.skipThrough p = (true, s.next) := by
  rw [skipThrough]
  simp [hasNext_iff.mpr ⟨e, h⟩, h, hp]

end Cursor

/-- The end of a member does not change while its head is read. -/
theorem walk_skipThrough {p : Element → Bool} (hp : ∀ e, p e = true → e.isBodyOrSemi = true)
    (c : Bool × Cursor) : Walk (fun s => s.skipThrough p = c) fun _ => True where
  next := by
    intro s e hs he hne
    rw [← hs, Cursor.skipThrough_of_not he]
    rw [Bool.eq_false_iff]
    intro hpe
    rw [hp e hpe] at hne
    exact absurd hne (by decide)
  fail := fun _ _ => trivial

section Forms

variable {s s₁ decided : Cursor} {inside : Inside} {ctx : BodyContext}

theorem finishThrough_of_pos {p : Element → Bool} {e : Element}
    (h : s.skipThrough p = decided.skipThrough p) (he : s.current? = some e) (hp : p e = true) :
    MemberForm.finishThrough p decided = .ok () s.next := by
  unfold MemberForm.finishThrough
  rw [← h, Cursor.skipThrough_of_pos he hp]

/-! ### Fields -/

theorem gives_takeUntil {stops : List TokenKind} {I : Cursor → Prop} {A : Element → Prop}
    {E : SourceError → Prop}
    (hnext : ∀ s e, I s → s.current? = some e → stops.any (e.is ·) = false → I s.next ∧ A e)
    (hs : I s) : Gives (takeUntil stops) s (fun es s' => I s' ∧ ∀ e ∈ es, A e) E := by
  unfold takeUntil
  refine gives_many I (fun s hs => ?_) hs
  rw [gives_bind, gives_get]
  split
  · next e he =>
    rw [gives_ite]
    refine ⟨fun _ => gives_pure.mpr ⟨hs, by simp⟩, fun hstop => ?_⟩
    rw [gives_bind, gives_advance]
    obtain ⟨hI, hA⟩ := hnext s e hs he (by simpa using hstop)
    refine ⟨fun _ => gives_pure.mpr ⟨hI, ?_⟩, fun hn => ?_⟩
    · rintro b ⟨⟩
      exact hA
    · rw [Cursor.hasNext_iff.mpr ⟨e, he⟩] at hn
      exact absurd hn (by decide)
  · exact gives_pure.mpr ⟨hs, by simp⟩

theorem Walk.declarator {I : Cursor → Prop} {E : SourceError → Prop} (w : Walk I E)
    {P : Code → Prop} (hcode : ∀ s, I s → s.isAt .equal = true →
      Gives (codeUntil inside [.comma, .semi]) s.next (fun c s' => I s' ∧ P c) E) (hs : I s) :
    Gives (declarator inside) s (fun d s' => I s' ∧ ∀ c, d.init = some c → P c) E := by
  unfold Parser.declarator
  refine (w.expect .ident _ (by decide) s hs).bind fun name s₁ h₁ => ?_
  refine (w.dims s₁ h₁).bind fun _ s₂ h₂ => ?_
  rw [gives_bind, gives_get]
  simp only [gives_ite]
  refine ⟨fun heq => ?_, fun _ => gives_pure.mpr ⟨h₂, by simp⟩⟩
  rw [gives_bind, gives_advance]
  refine ⟨fun _ => ?_, fun _ => w.fail h₂ rfl⟩
  refine (hcode s₂ h₂ heq).bind fun init s₄ h₄ => ?_
  simp only [gives_ite]
  refine ⟨fun _ => gives_bind.mpr (gives_fail.mpr (w.fail h₄.1 rfl)), fun _ => ?_⟩
  refine gives_pure.mpr ⟨h₄.1, ?_⟩
  rintro c ⟨⟩
  exact h₄.2

theorem declarator_skipThrough (c : Bool × Cursor) :
    Keeps (fun s => s.skipThrough (·.is .semi) = c) (fun _ => True) (declarator inside) := by
  have w : Walk (fun s => s.skipThrough (·.is .semi) = c) fun _ => True :=
    walk_skipThrough (fun e he => by simp [Element.isBodyOrSemi, he]) c
  intro s hs
  refine (w.declarator (P := fun _ => True) (fun s hs heq => ?_) hs).mono (fun _ _ h => h.1)
    fun _ => id
  unfold codeUntil
  refine (gives_takeUntil (I := fun s => s.skipThrough (·.is .semi) = c) (A := fun _ => True)
    (fun s e hs he hstop => ⟨?_, trivial⟩) (w.isAt hs heq (by decide))).bind fun es s' h' => ?_
  · rw [← hs, Cursor.skipThrough_of_not he]
    simp only [List.any_cons, List.any_nil, Bool.or_false, Bool.or_eq_false_iff] at hstop
    exact hstop.2
  · exact gives_ofExcept.mpr ⟨fun _ _ => ⟨h'.1, trivial⟩, fun _ _ => trivial⟩

theorem recognizeField_eq_some (h : recognizeField s = some decided) :
    ∃ s₁, s.skipModifiers.skipType = (true, s₁) ∧ s₁.isAt .ident = true ∧
      (decided.isAt .equal || decided.isAt .semi || decided.isAt .comma ||
        decided.isAtEmptyGroup .square) = true ∧
      decided = s₁.next := by
  unfold recognizeField at h
  split at h
  · simp at h
  · next s₁ htype =>
    simp only at h
    split_ifs at h with hi hend
    cases h
    exact ⟨s₁, htype, hi, hend, rfl⟩

theorem isAt_atSign_of_skipType (h : s.skipType = (true, s₁)) : s.isAt .atSign = false := by
  unfold Cursor.skipType at h
  split_ifs at h with hp hi
  · exact Cursor.isAt_ne hp (by decide)
  · exact Cursor.isAt_ne hi (by decide)
  · simp at h

theorem isAt_kwVoid_of_skipType (h : s.skipType = (true, s₁)) : s.isAt .kwVoid = false := by
  unfold Cursor.skipType at h
  split_ifs at h with hp hi
  · exact Cursor.isAt_ne hp (by decide)
  · exact Cursor.isAt_ne hi (by decide)
  · simp at h

theorem gives_typeRef_of_skipType (h : s.skipType = (true, s₁)) :
    Gives typeRef s (fun _ s' => s' = s₁) fun _ => True := by
  refine (gives_typeRef (isAt_atSign_of_skipType h)).mono (fun _ s' h' => ?_) fun _ => id
  rcases h' with ⟨hv, -⟩ | h'
  · rw [isAt_kwVoid_of_skipType h] at hv
    exact absurd hv (by decide)
  · rw [h] at h'
    exact (Prod.mk.inj h').2.symm

theorem fieldForm_agrees : (fieldForm inside).Agrees := by
  intro ctx s decided hrec
  obtain ⟨s₁, htype, hi, -, rfl⟩ := recognizeField_eq_some hrec
  obtain ⟨t, ht, hk⟩ := Cursor.isAt_iff.mp hi
  -- the name in front of the point that decides is no semicolon
  have hstart : s₁.skipThrough (·.is .semi) = s₁.next.skipThrough (·.is .semi) :=
    Cursor.skipThrough_of_not ht (by simp [Element.is, hk])
  change Gives (Node.member <$> fieldDecl inside) s _ _
  rw [gives_map]
  unfold fieldDecl
  rw [gives_bind, gives_get]
  refine gives_modifiers.bind fun _ s₂ h₂ => ?_
  rw [gives_bind, h₂]
  refine (gives_typeRef_of_skipType htype).mono (fun _ s₃ h₃ => ?_) fun _ => id
  rw [gives_bind, h₃]
  refine (declarator_skipThrough _ s₁ hstart).mono (fun _ s₄ h₄ => ?_) fun _ => id
  refine (gives_many (A := fun _ => True) (fun s => s.skipThrough (·.is .semi) =
    s₁.next.skipThrough (·.is .semi)) (fun s hs => ?_) h₄).bind fun _ s₅ h₅ => ?_
  · rw [gives_get_ite]
    refine ⟨fun hc => ?_, fun _ => gives_pure.mpr ⟨hs, fun _ _ => trivial⟩⟩
    obtain ⟨t, ht, hk⟩ := Cursor.isAt_iff.mp hc
    rw [gives_bind, gives_advance]
    refine ⟨fun _ => ?_, fun _ => trivial⟩
    rw [gives_bind]
    have hs' : s.next.skipThrough (·.is .semi) = s₁.next.skipThrough (·.is .semi) := by
      rw [← hs, Cursor.skipThrough_of_not ht (by simp [Element.is, hk])]
    exact (declarator_skipThrough _ s.next hs').mono
      (fun _ _ h => gives_pure.mpr ⟨h, fun _ _ => trivial⟩) fun _ => id
  · rw [gives_bind, gives_expect]
    refine ⟨fun semi ht hk => ?_, fun _ => trivial⟩
    exact gives_pure.mpr (finishThrough_of_pos h₅.1 ht (by simp [Element.is, hk]))

/-! ### Methods and constructors -/

theorem recognizeMethod_eq_some (h : recognizeMethod s = some decided) :
    ∃ s₁, (let s' := s.skipModifiers.skipAngle.skipModifiers
        (s'.isAt .kwVoid = true ∧ s₁ = s'.next) ∨ s'.skipType = (true, s₁)) ∧
      s₁.isAt .ident = true ∧ s₁.next.isAtGroup .round = true ∧
      (decided.isAt .kwThrows || decided.isAtGroup .curly || decided.isAt .semi) = true ∧
      decided = s₁.next.next.skipDims := by
  unfold recognizeMethod at h
  simp only at h
  split at h
  · simp at h
  · next s₁ htype =>
    split_ifs at h with hi hend
    cases h
    rw [Bool.and_eq_true] at hi
    refine ⟨s₁, ?_, hi.1, hi.2, hend, rfl⟩
    simp only
    split_ifs at htype with hv
    · cases htype
      exact Or.inl ⟨hv, rfl⟩
    · exact Or.inr htype

theorem gives_returnType (htype : s.isAt .kwVoid = true ∧ s₁ = s.next ∨ s.skipType = (true, s₁))
    (hi : s₁.isAt .ident = true) : Gives typeRef s (fun _ s' => s' = s₁) fun _ => True := by
  rcases htype with ⟨hv, rfl⟩ | htype
  · refine (gives_typeRef (Cursor.isAt_ne hv (by decide))).mono (fun _ s' h' => ?_) fun _ => id
    rcases h' with ⟨-, rfl⟩ | h'
    · -- a name is no pair of brackets
      obtain ⟨t, ht, -⟩ := Cursor.isAt_iff.mp hi
      exact Cursor.skipDims_of_other (by simp [Cursor.isAtEmptyGroup, ht, Element.isEmptyGroup])
    · rw [isAt_kwVoid_of_skipType h'] at hv
      exact absurd hv (by decide)
  · exact gives_typeRef_of_skipType htype

theorem methodForm_agrees : (methodForm inside).Agrees := by
  intro ctx s decided hrec
  obtain ⟨s₁, htype, hi, hround, -, rfl⟩ := recognizeMethod_eq_some hrec
  simp only at htype
  set p : Element → Bool := fun e => e.isGroup .curly || e.is .semi with hp
  have w := walk_skipThrough (p := p) (fun e he => he) (s₁.next.next.skipDims.skipThrough p)
  change Gives (Node.member <$> methodDecl inside ctx) s
    (fun _ s' => MemberForm.finishThrough p _ = .ok () s') _
  rw [gives_map]
  unfold methodDecl
  rw [gives_bind, gives_get]
  refine gives_modifiers.bind fun front s₂ h₂ => ?_
  rw [gives_bind, gives_get]
  refine gives_typeParams.bind fun typeParams s₃ h₃ => ?_
  -- without type parameters the modifiers are not read again, but there are none to skip either
  have hbehind : Gives (if s₂.isAtGroup .angle then modifiers else pure {}) s₃
      (fun _ s' => s' = s.skipModifiers.skipAngle.skipModifiers) fun _ => True := by
    rw [gives_ite, h₃, h₂]
    refine ⟨fun _ => gives_modifiers, fun hno => gives_pure.mpr ?_⟩
    unfold Cursor.skipAngle
    rw [if_neg hno, Cursor.skipModifiers_skipModifiers]
  refine gives_branch.mpr (hbehind.mono (fun behind s₄ h₄ => ?_) fun _ => id)
  simp only
  rw [gives_bind, h₄]
  refine (gives_returnType htype hi).mono (fun type s₅ h₅ => ?_) fun _ => id
  rw [gives_bind, gives_expect, h₅]
  refine ⟨fun name _ _ => ?_, fun _ => trivial⟩
  rw [gives_bind, gives_expectGroup]
  refine ⟨fun g _ _ => ?_, fun _ => trivial⟩
  rw [gives_bind, gives_ofExcept]
  refine ⟨fun params _ => ?_, fun _ _ => trivial⟩
  refine gives_dims.bind fun extra s₆ h₆ => ?_
  rw [gives_bind, h₆]
  refine (w.throwing (w.typeWith fun _ _ _ _ _ _ => trivial) _ rfl).mono
    (fun throwing s₇ h₇ => ?_) fun _ => id
  rw [gives_get_ite]
  refine ⟨fun _ => ?_, fun _ => ?_⟩
  · rw [gives_bind, gives_expectGroup]
    refine ⟨fun body hg hk => ?_, fun _ => trivial⟩
    rw [gives_bind, gives_ofExcept]
    refine ⟨fun _ _ => gives_pure.mpr ?_, fun _ _ => trivial⟩
    exact finishThrough_of_pos h₇ hg (by simp [hp, Element.isGroup, hk])
  · rw [gives_bind, gives_expect]
    refine ⟨fun semi ht hk => ?_, fun _ => trivial⟩
    have hend := finishThrough_of_pos h₇ ht (by simp [hp, Element.is, hk])
    simp only [gives_ite, gives_pure]
    exact ⟨fun _ => hend, fun _ => hend⟩

theorem recognizeConstructor_eq_some (h : recognizeConstructor ctx s = some decided) :
    s.skipModifiers.skipAngle.isAtName ctx.className = true ∧
      s.skipModifiers.skipAngle.next.isAtGroup .round = true ∧
      (decided.isAt .kwThrows || decided.isAtGroup .curly) = true ∧
      decided = s.skipModifiers.skipAngle.next.next := by
  unfold recognizeConstructor at h
  simp only at h
  split_ifs at h with hname hi hend
  cases h
  rw [Bool.and_eq_true] at hi
  exact ⟨hi.1, hi.2, hend, rfl⟩

theorem constructorForm_agrees : (constructorForm inside).Agrees := by
  intro ctx s decided hrec
  obtain ⟨-, -, -, rfl⟩ := recognizeConstructor_eq_some hrec
  have w := walk_skipThrough (p := fun e => e.isGroup .curly)
    (fun e he => by simp [Element.isBodyOrSemi, he])
    (s.skipModifiers.skipAngle.next.next.skipThrough fun e => e.isGroup .curly)
  change Gives (Node.member <$> constructorDecl inside) s _ _
  rw [gives_map]
  unfold constructorDecl
  rw [gives_bind, gives_get]
  refine gives_modifiers.bind fun _ s₁ h₁ => ?_
  refine gives_typeParams.bind fun _ s₂ h₂ => ?_
  rw [gives_bind, gives_expect, h₂, h₁]
  refine ⟨fun name _ _ => ?_, fun _ => trivial⟩
  rw [gives_bind, gives_expectGroup]
  refine ⟨fun g _ _ => ?_, fun _ => trivial⟩
  rw [gives_bind, gives_ofExcept]
  refine ⟨fun params _ => ?_, fun _ _ => trivial⟩
  refine (w.throwing (w.typeWith fun _ _ _ _ _ _ => trivial) _ rfl).bind fun throwing s₃ h₃ => ?_
  rw [gives_bind, gives_expectGroup]
  refine ⟨fun body hg hk => ?_, fun _ => trivial⟩
  rw [gives_bind, gives_ofExcept]
  refine ⟨fun _ _ => gives_pure.mpr ?_, fun _ _ => trivial⟩
  exact finishThrough_of_pos h₃ hg (by simp [Element.isGroup, hk])

/-! ### Initializers -/

theorem initializer_agrees (isStatic : Bool) (hcurly : s₁.isAtGroup .curly = true)
    (hs : s₁ = if isStatic then s.next else s) :
    Gives (initializerDecl inside isStatic) s (fun _ s' => advance s₁ = .ok () s') fun _ =>
    True := by
  obtain ⟨g, hg, -⟩ := Cursor.isAtGroup_iff.mp hcurly
  have hfinish : advance s₁ = .ok () s₁.next := by
    simp [advance, Cursor.hasNext_iff.mpr ⟨_, hg⟩]
  have hbody : ∀ f : Code → Member, Gives (do
      let body ← Parser.ofExcept
        (Code.ofGroup inside (← expectGroup .curly (lit "initializer block")))
      return f body) s₁ (fun _ s' => advance s₁ = .ok () s') fun _ => True := by
    intro f
    rw [gives_bind, gives_expectGroup]
    refine ⟨fun body _ _ => ?_, fun _ => trivial⟩
    rw [gives_bind, gives_ofExcept]
    exact ⟨fun _ _ => gives_pure.mpr hfinish, fun _ _ => trivial⟩
  unfold initializerDecl
  rw [gives_bind, gives_get]
  simp only [gives_ite]
  refine ⟨fun hstatic => ?_, fun hstatic => ?_⟩
  · rw [gives_bind, gives_expect]
    refine ⟨fun _ _ _ => ?_, fun _ => trivial⟩
    rw [if_pos hstatic] at hs
    rw [← hs]
    exact hbody _
  · rw [if_neg hstatic] at hs
    subst hs
    exact hbody _

theorem recognizeStatic_eq_some (h : recognizeStatic s = some decided) :
    s.isAt (.modifier .static) = true ∧ s.next.isAtGroup .curly = true ∧ decided = s.next := by
  unfold recognizeStatic at h
  split_ifs at h with hat
  cases h
  obtain ⟨hstatic, hcurly⟩ := Bool.and_eq_true_iff.mp hat
  exact ⟨hstatic, hcurly, rfl⟩

theorem recognizeInstance_eq_some (h : recognizeInstance s = some decided) :
    s.isAtGroup .curly = true ∧ decided = s := by
  unfold recognizeInstance at h
  split_ifs at h with hcurly
  cases h
  exact ⟨hcurly, rfl⟩

theorem staticForm_agrees : (staticForm inside).Agrees := by
  intro ctx s decided hrec
  obtain ⟨-, hcurly, rfl⟩ := recognizeStatic_eq_some hrec
  change Gives (Node.member <$> initializerDecl inside true) s _ _
  rw [gives_map]
  exact initializer_agrees true hcurly rfl

theorem instanceForm_agrees : (instanceForm inside).Agrees := by
  intro ctx s decided hrec
  obtain ⟨hcurly, rfl⟩ := recognizeInstance_eq_some hrec
  change Gives (Node.member <$> initializerDecl inside false) _ _ _
  rw [gives_map]
  exact initializer_agrees false hcurly rfl

/-! ### Classes -/

theorem recognizeClass_eq_some (h : recognizeClass s = some decided) :
    (s.skipModifiers.isAt .kwClass = true ∨ s.skipModifiers.isAt .kwInterface = true ∨
      s.skipModifiers.isAt .kwEnum = true) ∧
      s.skipModifiers.next.isAt .ident = true ∧ decided = s.skipModifiers.next := by
  unfold recognizeClass at h
  simp only at h
  split_ifs at h with hword hi
  cases h
  simp only [Bool.or_eq_true, or_assoc] at hword
  exact ⟨hword, hi, rfl⟩

theorem gives_classKeyword : Gives classKeyword s (fun _ s' => s' = s.next) fun _ => True := by
  unfold classKeyword
  simp only [gives_bind, gives_get, gives_ite, gives_advance, gives_pure, gives_fail]
  simp

theorem typeDecl_agrees (p : Element → Bool) (hp : p = (·.isGroup .curly)) :
    Gives (typeDecl inside) s (fun _ s' =>
      MemberForm.finishThrough p s.skipModifiers.next = .ok () s') fun _ => True := by
  have w :=
    walk_skipThrough (p := p) (fun e he => by rw [hp] at he; simp [Element.isBodyOrSemi, he])
    (s.skipModifiers.next.skipThrough p)
  have htype : Keeps _ _ typeRef := w.typeWith fun _ _ _ _ _ _ => trivial
  unfold typeDecl
  rw [gives_bind, gives_get]
  refine gives_modifiers.bind fun _ s₁ h₁ => ?_
  rw [gives_bind, h₁]
  refine gives_classKeyword.mono (fun kind s₂ h₂ => ?_) fun _ => id
  rw [gives_bind, h₂]
  refine (w.expect .ident _ (by decide) _ rfl).mono (fun name s₃ h₃ => ?_) fun _ => id
  refine (w.typeParams (fun _ _ _ _ _ _ => trivial) s₃ h₃).bind fun _ s₄ h₄ => ?_
  refine (w.typesBehind htype (fun _ => id) (by decide) s₄ h₄).bind fun _ s₅ h₅ => ?_
  refine (w.typesBehind htype (fun _ => id) (by decide) s₅ h₅).bind fun _ s₆ h₆ => ?_
  refine (w.typesBehindName htype _ s₆ h₆).bind fun _ s₇ h₇ => ?_
  rw [gives_bind, gives_expectGroup]
  refine ⟨fun body hg hk => ?_, fun _ => trivial⟩
  rw [gives_bind, gives_ofExcept]
  refine ⟨fun _ _ => gives_pure.mpr ?_, fun _ _ => trivial⟩
  exact finishThrough_of_pos h₇ hg (by simp [hp, Element.isGroup, hk])

theorem classForm_agrees : (classForm inside).Agrees := by
  intro ctx s decided hrec
  obtain ⟨-, -, rfl⟩ := recognizeClass_eq_some hrec
  change Gives (Node.member <$> _) s _ _
  rw [gives_map]
  exact (typeDecl_agrees _ rfl).bind fun _ _ h => gives_pure.mpr h

/-! ### Enum constants -/

theorem skipAnnotations_of_annot (ha : s.skipAnnot = (true, s₁)) :
    skipAnnotations s = skipAnnotations s₁ := by
  unfold skipAnnotations
  rw [Cursor.iterate_of_some (by rw [ha]) (Cursor.length_rest_skipAnnot_lt ha)]

theorem skipAnnotations_of_not_at (hat : s.isAt .atSign = false) : skipAnnotations s = some s := by
  have hstop : s.skipAnnot = (false, s) := by simp [Cursor.skipAnnot, hat]
  unfold skipAnnotations
  rw [Cursor.iterate_of_none (by rw [hstop])]
  simp [hat]

theorem gives_constantAnnotations (h : skipAnnotations s = some s₁) :
    Gives constantAnnotations s (fun _ s' => s' = s₁) fun _ => True := by
  unfold constantAnnotations
  refine (gives_many_until (A := fun _ => True) (fun s' => skipAnnotations s' = some s₁)
    (fun s' => s' = s₁) (fun s₂ h₂ => ?_) h).mono (fun _ _ h => h.1) fun _ => id
  rw [gives_get_ite]
  refine ⟨fun hat => ?_, fun hat => ?_⟩
  · refine gives_annotationText.bind fun _ s₃ h₃ => gives_pure.mpr ?_
    refine ⟨by simp, fun _ _ => ⟨trivial, ?_, Or.inl (Cursor.length_rest_skipAnnot_lt h₃)⟩⟩
    rw [← h₂, skipAnnotations_of_annot h₃]
  · refine gives_pure.mpr ⟨fun _ => ?_, by simp⟩
    rw [skipAnnotations_of_not_at (by simpa using hat)] at h₂
    exact Option.some.inj h₂

/-- A group of some kind is passed over, if it is there. -/
def Cursor.skipGroup (kind : GroupKind) (s : Cursor) : Cursor :=
  if s.isAtGroup kind then s.next else s

theorem recognizeConstant_eq_some (h : recognizeConstant ctx s = some decided) :
    ∃ s₁, skipAnnotations s = some s₁ ∧ s₁.isAt .ident = true ∧
      decided = (s₁.next.skipGroup .round).skipGroup .curly := by
  unfold recognizeConstant at h
  split_ifs at h with hctx
  obtain ⟨s₁, hannot, h⟩ := Option.bind_eq_some_iff.mp h
  simp only at h
  split_ifs at h with hi
  all_goals
    cases h
    exact ⟨s₁, hannot, hi, by simp [Cursor.skipGroup, *]⟩

theorem constantForm_agrees : (constantForm inside).Agrees := by
  intro ctx s decided hrec
  obtain ⟨s₁, hannot, hi, rfl⟩ := recognizeConstant_eq_some hrec
  have hfinish : ∀ s, (constantForm inside).finish s =
      .ok () (if s.isAt .comma then s.next else s) := fun _ => rfl
  change Gives (Node.member <$> constantDecl inside ctx) s _ _
  rw [gives_map]
  unfold constantDecl
  rw [gives_bind, gives_get]
  refine (gives_constantAnnotations hannot).bind fun annotations s₂ h₂ => ?_
  rw [gives_bind, gives_expect, h₂]
  refine ⟨fun name _ _ => ?_, fun _ => trivial⟩
  -- arguments, body and comma are each there or not, and each is passed over alike
  simp only [gives_bind, gives_get, gives_ite, gives_expectGroup, gives_ofExcept, gives_advance,
    gives_pure, hfinish, Cursor.skipGroup]
  simp +contextual

/-! ### All forms -/

variable {form : MemberForm}

theorem agrees_of_mem (h : form ∈ constantForm inside :: memberForms inside) : form.Agrees := by
  rcases MemberForm.eq_of_mem h with rfl | rfl | rfl | rfl | rfl | rfl | rfl
  · exact constantForm_agrees
  · exact fieldForm_agrees
  · exact methodForm_agrees
  · exact classForm_agrees
  · exact staticForm_agrees
  · exact instanceForm_agrees
  · exact constructorForm_agrees

theorem exists_finish_of_mem (h : form ∈ constantForm inside :: memberForms inside)
    (hrec : form.recognize ctx s = some decided) : ∃ s', form.finish decided = .ok () s' := by
  have hblock : decided.isAtGroup .curly = true → ∃ s', advance decided = .ok () s' := by
    intro hcurly
    obtain ⟨g, hg, -⟩ := Cursor.isAtGroup_iff.mp hcurly
    exact ⟨decided.next, by simp [advance, Cursor.hasNext_iff.mpr ⟨_, hg⟩]⟩
  rcases MemberForm.eq_of_mem h with rfl | rfl | rfl | rfl | rfl | rfl | rfl
  · exact ⟨_, rfl⟩
  · exact ⟨_, rfl⟩
  · exact ⟨_, rfl⟩
  · exact ⟨_, rfl⟩
  · obtain ⟨-, hcurly, rfl⟩ := recognizeStatic_eq_some hrec
    exact hblock hcurly
  · obtain ⟨hcurly, rfl⟩ := recognizeInstance_eq_some hrec
    exact hblock hcurly
  · exact ⟨_, rfl⟩

theorem extent_eq_of_parse (h : form ∈ constantForm inside :: memberForms inside)
    (hrec : form.recognize ctx s = some decided) {node : Node} {s' : Cursor}
    (hparse : form.parse ctx s = .ok node s') : form.extent ctx s = .ok (some s'.pos) := by
  have hfinish := (agrees_of_mem h ctx s decided hrec).ok hparse
  unfold MemberForm.extent
  simp only [hrec, hfinish]

end Forms

end Unnest
