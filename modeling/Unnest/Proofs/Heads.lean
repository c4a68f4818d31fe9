import Unnest.Proofs.Outcome
import Unnest.Grammar.Member

/-!
# What the parsers of heads walk over

The head of a declaration is read by parsers for annotations, modifiers, types and parameter lists.
None of them moves past a semicolon or a group in braces (`Element.isBodyOrSemi`), and every error
of theirs is raised at a cursor they have reached. `Walk I E` states what an invariant `I` of the
cursor and a property `E` of errors need for that, and each parser keeps every such invariant.

* `Walk`: a property of cursors that survives moving over the elements of a head;
* `Keeps`: what a parser does to such a property;
* `Walk.typeWith`, `Walk.typeList`, `Walk.modifiers`, …: one lemma per parser.
-/

namespace Unnest

open Unnest.Parser

/-- A group in braces or a semicolon: what no head contains. -/
def Element.isBodyOrSemi (e : Element) : Bool := e.isGroup .curly || e.is .semi

theorem Element.isBodyOrSemi_token {t : Token} (h : t.kind ≠ .semi) :
    (Element.token t).isBodyOrSemi = false := by
  simp [isBodyOrSemi, isGroup, is, h]

theorem Element.isBodyOrSemi_group {g : Group} (h : g.kind ≠ .curly) :
    (Element.group g).isBodyOrSemi = false := by
  simp [isBodyOrSemi, isGroup, is, h]

theorem MemberForm.eq_of_mem {inside : Inside} {form : MemberForm}
    (h : form ∈ constantForm inside :: memberForms inside) :
    form = constantForm inside ∨ form = fieldForm inside ∨ form = methodForm inside ∨
    form = classForm inside ∨
      form = staticForm inside ∨ form = instanceForm inside ∨ form = constructorForm inside := by
  simpa only [memberForms, List.mem_cons, List.not_mem_nil, or_false] using h

/-! ### The element at a cursor -/

namespace Cursor

variable {s : Cursor}

theorem isAt_iff {kind : TokenKind} :
    s.isAt kind = true ↔ ∃ t, s.current? = some (.token t) ∧ t.kind = kind := by
  unfold isAt
  rcases s.current? with _ | t | g <;> simp [Element.is]

variable {kind : GroupKind}

theorem isAtGroup_iff :
    s.isAtGroup kind = true ↔ ∃ g, s.current? = some (.group g) ∧ g.kind = kind := by
  unfold isAtGroup
  rcases s.current? with _ | t | g <;> simp [Element.isGroup]

theorem groupAt?_eq_some {g : Group} (h : s.groupAt? kind = some g) :
    s.current? = some (.group g) ∧ g.kind = kind := by
  unfold groupAt? at h
  rcases hs : s.current? with _ | t | g'
  · simp [hs] at h
  · simp [hs, Element.isGroup] at h
  · by_cases hk : g'.kind = kind
    · simp only [hs, Option.bind_some, Element.isGroup, Element.group?, hk, beq_self_eq_true,
        if_true, Option.some.injEq] at h
      rw [h] at hk ⊢
      exact ⟨rfl, hk⟩
    · simp [hs, Element.isGroup, hk] at h

theorem isAtEmptyGroup_iff :
    s.isAtEmptyGroup kind = true ↔
      ∃ g, s.current? = some (.group g) ∧ g.kind = kind ∧ g.children.all (·.isComment) = true := by
  unfold isAtEmptyGroup
  rcases s.current? with _ | t | g <;> simp [Element.isEmptyGroup]

theorem hasNext_iff : s.hasNext = true ↔ ∃ e, s.current? = some e := by
  unfold hasNext current?
  cases s.rest <;> simp

theorem hasNext_of_isAtGroup (h : s.isAtGroup kind = true) :
    s.hasNext = true := by
  obtain ⟨g, hg, -⟩ := isAtGroup_iff.mp h
  exact hasNext_iff.mpr ⟨_, hg⟩

theorem hasNext_of_isAtEmptyGroup (h : s.isAtEmptyGroup kind = true) :
    s.hasNext = true := by
  obtain ⟨g, hg, -⟩ := isAtEmptyGroup_iff.mp h
  exact hasNext_iff.mpr ⟨_, hg⟩

end Cursor

/-! ### Invariants of a walk -/

/-- The parser `p` keeps the property `I` of cursors, and its errors are in `E`. -/
def Parser.Keeps {α : Type} (I : Cursor → Prop) (E : SourceError → Prop) (p : Parser α) : Prop :=
  ∀ s, I s → Gives p s (fun _ s' => I s') E

theorem Parser.Keeps.many {α : Type} {I : Cursor → Prop} {E : SourceError → Prop}
    {step : Parser (Option α)} (h : Keeps I E step) : Keeps I E (many step) := by
  intro s hs
  have hstep : ∀ s, I s → Gives step s (fun a s' => I s' ∧ ∀ b, a = some b → True) E :=
    fun s hs => (h s hs).mono (fun _ _ h => ⟨h, fun _ _ => trivial⟩) fun _ => id
  exact (gives_many I hstep hs).mono (fun _ _ h => h.1) fun _ => id

/-- A property `I` of cursors survives moving over elements that may stand in a head, and errors
raised at cursors in `I` are in `E`. -/
structure Walk (I : Cursor → Prop) (E : SourceError → Prop) : Prop where
  next : ∀ {s e}, I s → s.current? = some e → e.isBodyOrSemi = false → I s.next
  fail : ∀ {s cause}, I s → cause.kind = .grammar → E (s.error cause)

namespace Walk

variable {I : Cursor → Prop} {E : SourceError → Prop} (w : Walk I E) {s : Cursor}
include w

theorem token {t : Token} (hs : I s) (ht : s.current? = some (.token t)) (hk : t.kind ≠ .semi) :
    I s.next :=
  w.next hs ht (Element.isBodyOrSemi_token hk)

theorem group {g : Group} (hs : I s) (hg : s.current? = some (.group g)) (hk : g.kind ≠ .curly) :
    I s.next :=
  w.next hs hg (Element.isBodyOrSemi_group hk)

variable {kind : TokenKind}

theorem isAt (hs : I s) (h : s.isAt kind = true) (hk : kind ≠ .semi) :
    I s.next := by
  obtain ⟨t, ht, rfl⟩ := Cursor.isAt_iff.mp h
  exact w.token hs ht hk

theorem advance_isAt (hs : I s) (h : s.isAt kind = true) (hk : kind ≠ .semi) :
    Gives advance s (fun _ s' => I s') E :=
  gives_advance.mpr ⟨fun _ => w.isAt hs h hk, fun _ => w.fail hs rfl⟩

theorem expect (kind : TokenKind) (what : Text) (hk : kind ≠ .semi) :
    Keeps I E (Parser.expect kind what) := by
  intro s hs
  refine gives_expect.mpr ⟨fun t ht h => ?_, fun _ => w.fail hs rfl⟩
  exact w.token hs ht (by rw [h]; exact hk)

theorem expectGroup (kind : GroupKind) (what : Text) (hk : kind ≠ .curly) :
    Keeps I E (Parser.expectGroup kind what) := by
  intro s hs
  refine gives_expectGroup.mpr ⟨fun g hg h => ?_, fun _ => w.fail hs rfl⟩
  exact w.group hs hg (by rw [h]; exact hk)

/-! ### Annotations, modifiers and dimensions -/

theorem annotationText : Keeps I E annotationText := by
  intro s hs
  unfold Parser.annotationText
  simp only [gives_bind, gives_get]
  refine (w.expect .atSign _ (by decide) s hs).mono (fun sign s₁ h₁ => ?_) fun _ => id
  refine (w.expect .ident _ (by decide) s₁ h₁).mono (fun first s₂ h₂ => ?_) fun _ => id
  refine (Keeps.many (fun s hs => ?_) _ h₂).mono (fun parts s₃ h₃ => ?_) fun _ => id
  · rw [gives_get_ite]
    refine ⟨fun hdot => ?_, fun _ => gives_pure.mpr hs⟩
    refine (w.advance_isAt hs hdot (by decide)).bind fun _ s₁ h₁ => ?_
    exact (w.expect .ident _ (by decide) s₁ h₁).bind fun _ _ h => gives_pure.mpr h
  · split
    · exact gives_pure.mpr h₃
    · next g hg =>
      obtain ⟨hg, hk⟩ := Cursor.groupAt?_eq_some hg
      rw [gives_bind, gives_advance]
      refine ⟨fun _ => gives_pure.mpr ?_, fun _ => w.fail h₃ rfl⟩
      exact w.group h₃ hg (by rw [hk]; decide)

theorem dropAnnotations : Keeps I E dropAnnotations := by
  intro s hs
  unfold Parser.dropAnnotations
  refine (Keeps.many (fun s hs => ?_) s hs).bind fun _ _ h => h
  rw [gives_get_ite]
  refine ⟨fun _ => ?_, fun _ => gives_pure.mpr hs⟩
  exact (w.annotationText s hs).bind fun _ _ h => gives_pure.mpr h

theorem mark : Keeps I E mark := by
  intro s hs
  unfold Parser.mark
  simp only [gives_bind, gives_get, gives_ite, gives_pure]
  refine ⟨fun _ => ⟨fun _ => w.annotationText s hs, fun _ => hs⟩, fun _ => ?_⟩
  split
  · next t ht =>
    split
    · next m hm =>
      rw [gives_bind, gives_advance]
      refine ⟨fun _ => gives_pure.mpr (w.token hs ht (by rw [hm]; simp)), fun _ => w.fail hs rfl⟩
    · exact gives_pure.mpr hs
  · exact gives_pure.mpr hs

theorem modifiers : Keeps I E modifiers := by
  intro s hs
  unfold Parser.modifiers
  exact (w.mark.many s hs).bind fun _ _ h => h

theorem dims : Keeps I E dims := by
  intro s hs
  unfold Parser.dims
  refine (Keeps.many (fun s hs => ?_) s hs).bind fun _ _ h => h
  rw [gives_get_ite]
  refine ⟨fun h => ?_, fun _ => gives_pure.mpr hs⟩
  obtain ⟨g, hg, hk, -⟩ := Cursor.isAtEmptyGroup_iff.mp h
  rw [gives_bind, gives_advance]
  refine ⟨fun _ => gives_pure.mpr ?_, fun _ => w.fail hs rfl⟩
  exact w.group hs hg (by rw [hk]; decide)

/-! ### Types -/

section Types

variable {args : Group → Except SourceError (List TypeRef)}
  (hargs : ∀ s g, I s → s.current? = some (.group g) → ∀ e, args g = .error e → E e)
include hargs

theorem angleArgs : Keeps I E (typeWith.angleArgs args) := by
  intro s hs
  unfold typeWith.angleArgs
  rw [gives_get_ite]
  refine ⟨fun _ => ?_, fun _ => gives_pure.mpr hs⟩
  rw [gives_bind, gives_expectGroup]
  refine ⟨fun g hg hk => ?_, fun _ => w.fail hs rfl⟩
  rw [gives_bind, gives_ofExcept]
  refine ⟨fun _ _ => gives_pure.mpr ?_, fun e he => hargs s g hs hg e he⟩
  exact w.group hs hg (by rw [hk]; decide)

theorem typeWith : Keeps I E (typeWith args) := by
  intro s hs
  unfold Parser.typeWith
  refine (w.dropAnnotations s hs).bind fun _ s₁ h₁ => ?_
  rw [gives_get_ite]
  refine ⟨fun hprim => ?_, fun _ => ?_⟩
  · have hnext : I s₁.next := by
      rcases Bool.or_eq_true_iff.mp hprim with h | h
      · exact w.isAt h₁ h (by decide)
      · exact w.isAt h₁ h (by decide)
    simp only [gives_bind, gives_advance, gives_pure]
    exact ⟨fun _ => w.dims _ hnext, fun _ => w.fail h₁ rfl⟩
  · refine (w.expect .ident _ (by decide) s₁ h₁).bind fun first s₂ h₂ => ?_
    refine (w.angleArgs hargs s₂ h₂).bind fun firstArgs s₃ h₃ => ?_
    refine (Keeps.many (fun s hs => ?_) s₃ h₃).bind fun parts s₄ h₄ => ?_
    · rw [gives_get_ite]
      refine ⟨fun hdot => ?_, fun _ => gives_pure.mpr hs⟩
      refine (w.advance_isAt hs hdot (by decide)).bind fun _ s₁ h₁ => ?_
      refine (w.expect .ident _ (by decide) s₁ h₁).bind fun part s₂ h₂ => ?_
      exact (w.angleArgs hargs s₂ h₂).bind fun _ _ h => gives_pure.mpr h
    · exact (w.dims s₄ h₄).bind fun _ _ h => gives_pure.mpr h

end Types

theorem typeArgument {type : Parser TypeRef} (htype : Keeps I E type) :
    Keeps I E (typeArgument type) := by
  intro s hs
  unfold Parser.typeArgument
  refine (w.dropAnnotations s hs).bind fun _ s₁ h₁ => ?_
  rw [gives_get_ite]
  refine ⟨fun hq => ?_, fun _ => htype s₁ h₁⟩
  refine (w.advance_isAt h₁ hq (by decide)).bind fun _ s₂ h₂ => ?_
  -- both bounds are a word and a type
  have hbound : ∀ {kind : TokenKind} {f : TypeRef → TypeRef}, s₂.isAt kind = true → kind ≠ .semi →
      Gives (do advance; return f (← type)) s₂ (fun _ s' => I s') E := by
    intro kind f hat hk
    refine (w.advance_isAt h₂ hat hk).bind fun _ s₃ h₃ => ?_
    exact (htype s₃ h₃).bind fun _ _ h => gives_pure.mpr h
  rw [gives_get_ite]
  refine ⟨fun h => hbound h (by decide), fun _ => ?_⟩
  rw [gives_ite]
  exact ⟨fun h => hbound h (by decide), fun _ => gives_pure.mpr h₂⟩

theorem typesWith {α : Type} {type : Parser TypeRef} (htype : Keeps I E type)
    (hk : kind ≠ .semi) (f : List TypeRef → α) :
    Keeps I E (do
      let first ← type
      let more ← many do
        if (← get).isAt kind then
          advance
          return some (← type)
        else
          return none
      return f (first :: more)) := by
  intro s hs
  refine (htype s hs).bind fun first s₁ h₁ => ?_
  refine (Keeps.many (fun s hs => ?_) s₁ h₁).bind fun _ _ h => gives_pure.mpr h
  rw [gives_get_ite]
  refine ⟨fun hat => ?_, fun _ => gives_pure.mpr hs⟩
  refine (w.advance_isAt hs hat hk).bind fun _ s₁ h₁ => ?_
  exact (htype s₁ h₁).bind fun _ _ h => gives_pure.mpr h

section TypeRef

variable (htype : Keeps I E typeRef)
include htype

theorem typeList : Keeps I E typeList := w.typesWith htype (by decide) id

theorem typeParam : Keeps I E typeParam := by
  intro s hs
  unfold Parser.typeParam
  refine (w.dropAnnotations s hs).bind fun _ s₁ h₁ => ?_
  refine (w.expect .ident _ (by decide) s₁ h₁).bind fun name s₂ h₂ => ?_
  rw [gives_get_ite]
  refine ⟨fun h => ?_, fun _ => gives_pure.mpr h₂⟩
  refine (w.advance_isAt h₂ h (by decide)).bind fun _ s₃ h₃ => ?_
  exact w.typesWith htype (by decide : TokenKind.amp ≠ .semi)
    (fun bounds => ({ name := name.text, bounds } : TypeParam)) s₃ h₃

/-- A receiver is known by its text alone, so here the invariant has to survive any element. -/
theorem parameter (hnext : ∀ s, I s → I s.next) : Keeps I E parameter := by
  intro s hs
  unfold Parser.parameter
  rw [gives_bind, gives_get]
  refine (w.modifiers s hs).bind fun _ s₁ h₁ => ?_
  refine (htype s₁ h₁).bind fun type s₂ h₂ => ?_
  rw [gives_bind, gives_get]
  -- behind the dots, whether they are there or not
  have hrest : ∀ {s : Cursor} (f : Token → Nat → Parameter), I s → Gives (do
      if (← current).token?.any (·.text == lit "this") then
        advance
        return none
      else
        let name ← Parser.expect .ident (lit "parameter name")
        let extra ← Parser.dims
        return some (f name extra)) s (fun _ s' => I s') E := by
    intro s f hs
    rw [gives_bind, gives_current]
    refine ⟨fun _ _ => ?_, fun _ => w.fail hs rfl⟩
    rw [gives_ite]
    refine ⟨fun _ => ?_, fun _ => ?_⟩
    · rw [gives_bind, gives_advance]
      exact ⟨fun _ => gives_pure.mpr (hnext s hs), fun _ => w.fail hs rfl⟩
    · refine (w.expect .ident _ (by decide) s hs).bind fun name s₁ h₁ => ?_
      exact (w.dims s₁ h₁).bind fun _ _ h => gives_pure.mpr h
  simp only [gives_ite]
  refine ⟨fun h => ?_, fun _ => hrest _ h₂⟩
  exact (w.advance_isAt h₂ h (by decide)).bind fun _ _ h₃ => hrest _ h₃

theorem typesBehind {isThere : Cursor → Bool} {kind : TokenKind}
    (hthere : ∀ s, isThere s = true → s.isAt kind = true) (hk : kind ≠ .semi) :
    Keeps I E (typesBehind isThere) := by
  intro s hs
  unfold Parser.typesBehind
  rw [gives_get_ite]
  refine ⟨fun h => ?_, fun _ => gives_pure.mpr hs⟩
  exact (w.advance_isAt hs (hthere s h) hk).bind fun _ s₁ h₁ => w.typeList htype s₁ h₁

theorem typesBehindName (name : Text) : Keeps I E (Parser.typesBehind (·.isAtName name)) :=
  w.typesBehind htype (fun _ h => (Bool.and_eq_true_iff.mp h).1)
    (by decide : TokenKind.ident ≠ .semi)

theorem throwing : Keeps I E throwing :=
  w.typesBehind htype (fun _ => id) (by decide)

end TypeRef

theorem typeParams (hparams : ∀ s g, I s → s.current? = some (.group g) →
    ∀ e, g.typeParams = .error e → E e) :
    Keeps I E typeParams := by
  intro s hs
  unfold Parser.typeParams
  rw [gives_get_ite]
  refine ⟨fun _ => ?_, fun _ => gives_pure.mpr hs⟩
  rw [gives_bind, gives_expectGroup]
  refine ⟨fun g hg hk => ?_, fun _ => w.fail hs rfl⟩
  rw [gives_ofExcept]
  exact ⟨fun _ _ => w.group hs hg (by rw [hk]; decide), hparams s g hs hg⟩

end Walk

end Unnest
