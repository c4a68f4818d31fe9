import Unnest.Proofs.Lockstep

/-!
# What stands in front of a name, in two ranges

Annotations, modifiers, types and parameters are read alike in two ranges that are walked over in
step. Type arguments, type parameters and parameters are read in groups of their own. A group that
is the same but for its comments is read alike, since a range and the range without its comments are
walked over in step, too.

* `Pace.shadow`: a range with and without its comments;
* `typeArgs_uncommented`, `typeParams_uncommented`, `parameters_uncommented`: groups without
  comments.
-/

namespace Unnest

open Unnest.Parser

/-! ### Annotations and modifiers -/

namespace Parser

/-- At an `@` the element behind it decides whether an annotation is read. -/
theorem mark_of_at {s : Cursor} (hat : s.isAt .atSign = true) :
    mark s = if s.next.isAt .ident then
    (do return some (.annotated (← annotationText)) : Parser _) s
      else .ok none s := by
  obtain ⟨t, ht, hk⟩ := Cursor.isAt_iff.mp hat
  have hpeek : s.peek? 1 = s.next.current? :=
    Cursor.peek?_one ht (by simp [Element.isComment, Element.is, hk])
  change (if s.isAt .atSign then if (s.peek? 1).any (·.is .ident) then _ else _
    else _ : Parser _) s = _
  rw [if_pos hat, hpeek]
  unfold Cursor.isAt
  split_ifs <;> rfl

/-- A keyword that is a modifier, if one is there. -/
def keywordMark : Parser (Option Mark) := do
  match (← get).current? with
  | some (.token t) =>
    match t.kind with
    | .modifier m =>
      advance
      return some (.keyword m t.text)
    | _ => return none
  | _ => return none

theorem mark_of_not_at {s : Cursor} (hat : s.isAt .atSign = false) : mark s = keywordMark s := by
  change (if s.isAt .atSign then _ else _ : Parser _) s = _
  rw [hat]
  rfl

end Parser

namespace Pace

variable {P : Pace} {α β : Type}

theorem mirrors_annotationText : P.Mirrors annotationText annotationText := by
  unfold annotationText
  refine mirrors_bind (mirrors_expect _ _) fun sign =>
    mirrors_bind (mirrors_expect _ _) fun first => ?_
  refine mirrors_bind (mirrors_many (mirrors_isAt _ ?_ (mirrors_pure rfl))) fun parts => ?_
  · refine mirrors_bind mirrors_advance fun _ => ?_
    exact mirrors_bind (mirrors_expect _ _) fun part => mirrors_pure rfl
  · refine mirrors_look fun s s' hs => ?_
    have hgroup := hs.groupAt? (show GroupKind.round ≠ .curly by decide)
    generalize s.groupAt? .round = x at hgroup ⊢
    generalize s'.groupAt? .round = x' at hgroup ⊢
    cases hgroup with
    | none => exact mirrors_pure rfl
    | @some g g' hsame =>
      have htext : spacedText (flattenAll g'.children) = spacedText (flattenAll g.children) := by
        rw [← spacedText_uncommentedAll g'.children, ← spacedText_uncommentedAll g.children,
          show uncommentedAll g'.children = _ from congrArg Group.children hsame]
        rfl
      refine mirrors_bind mirrors_advance fun _ => mirrors_pure ?_
      rw [htext]

theorem mirrors_keywordMark : P.Mirrors keywordMark keywordMark := by
  refine mirrors_look fun s s' hs => ?_
  cases he : s.current? with
  | none =>
    rw [hs.current?_eq_none he]
    exact mirrors_pure rfl
  | some e =>
    obtain ⟨e', he', halike⟩ := hs.exists_current? he
    rw [he']
    rcases halike.cases with ⟨t, rfl, rfl⟩ | ⟨g, g', rfl, rfl, -⟩
    · simp only
      split
      · exact mirrors_bind mirrors_advance fun _ => mirrors_pure rfl
      · exact mirrors_pure rfl
    · exact mirrors_pure rfl

theorem mirrors_mark : P.Mirrors mark mark := by
  have hannot : P.Mirrors (do return some (.annotated (← annotationText)))
      (do return some (Mark.annotated (← annotationText))) :=
    mirrors_bind mirrors_annotationText fun _ => mirrors_pure rfl
  have hstays : ∀ {s}, P.past s → P.Spent P.past (mark s) := by
    intro s hs
    cases hat : s.isAt .atSign with
    | true =>
      rw [mark_of_at hat]
      split_ifs
      · exact hannot.stays hs
      · exact hs
    | false =>
      rw [mark_of_not_at hat]
      exact mirrors_keywordMark.stays hs
  refine ⟨hstays, fun {s s'} hs => ?_⟩
  by_cases hpast : P.past s
  · exact Or.inl (hstays hpast)
  have hlook := P.look hs hpast
  cases hat : s.isAt .atSign with
  | true =>
    have hnext : P.rel s.next s'.next := P.next hs hpast (Cursor.hasNext_of_isAt hat)
    have hlook' := P.look hnext fun h => hpast (P.past_at hs hat h)
    rw [mark_of_at hat, mark_of_at (by rw [hlook.isAt, hat]), hlook'.isAt]
    split_ifs
    · exact hannot.meet hs
    · exact Or.inr (.ok rfl hs)
  | false =>
    rw [mark_of_not_at hat, mark_of_not_at (by rw [hlook.isAt, hat])]
    exact mirrors_keywordMark.meet hs

theorem mirrors_modifiers : P.Mirrors modifiers modifiers :=
  mirrors_bind (mirrors_many mirrors_mark) fun _ => mirrors_pure rfl

theorem mirrors_constantAnnotations : P.Mirrors constantAnnotations constantAnnotations :=
  mirrors_many (mirrors_isAt _ (mirrors_bind mirrors_annotationText fun _ => mirrors_pure rfl)
    (mirrors_pure rfl))

theorem mirrors_dropAnnotations : P.Mirrors dropAnnotations dropAnnotations :=
  mirrors_bind mirrors_constantAnnotations fun _ => mirrors_pure rfl

/-! ### Types -/

theorem mirrors_dims : P.Mirrors dims dims := by
  refine mirrors_bind (mirrors_many (mirrors_test (fun _ _ hs => ?_) ?_ (mirrors_pure rfl))) ?_
  · exact hs.isAtEmptyGroup (by decide)
  · exact mirrors_bind mirrors_advance fun _ => mirrors_pure rfl
  · exact fun _ => mirrors_pure rfl

theorem mirrors_inGroup {x x' : Group → Except SourceError α} {f f' : α → Parser β}
    {kind : GroupKind} (hk : kind ≠ .curly) (what : Text)
    (hx : ∀ g g', g'.uncommented = g.uncommented → P.Pairs g g' → x' g' = x g)
    (hf : ∀ a, P.Mirrors (f a) (f' a)) :
    P.Mirrors (expectGroup kind what >>= fun g => Parser.ofExcept (x g) >>= f)
      (expectGroup kind what >>= fun g => Parser.ofExcept (x' g) >>= f') := by
  refine mirrors_bind_of (mirrors_expectGroup hk what) (fun g => ?_) fun g g' hg => ?_
  · exact (mirrors_bind (mirrors_ofExcept rfl) hf).stays
  · exact mirrors_bind (mirrors_ofExcept (hx g g' hg.1 hg.2)) hf

section TypeArgs

variable {args args' : Group → Except SourceError (List TypeRef)}
  (hargs : ∀ g g', g'.uncommented = g.uncommented → P.Pairs g g' → args' g' = args g)
include hargs

theorem mirrors_angleArgs : P.Mirrors (typeWith.angleArgs args) (typeWith.angleArgs args') :=
  mirrors_isAtGroup _ (mirrors_inGroup (by decide) _ hargs fun _ => mirrors_pure rfl)
    (mirrors_pure rfl)

theorem mirrors_typeWith : P.Mirrors (typeWith args) (typeWith args') := by
  unfold typeWith
  refine mirrors_bind mirrors_dropAnnotations fun _ => mirrors_look fun s s' hs => ?_
  rw [hs.isAt, hs.isAt, hs.here]
  refine mirrors_ite ?_ ?_
  · exact mirrors_bind mirrors_advance fun _ => mirrors_bind mirrors_dims fun _ => mirrors_pure rfl
  · refine mirrors_bind (mirrors_expect _ _) fun first => ?_
    refine mirrors_bind (mirrors_angleArgs hargs) fun firstArgs => ?_
    refine mirrors_bind (mirrors_many (mirrors_isAt _ ?_ (mirrors_pure rfl))) fun parts => ?_
    · refine mirrors_bind mirrors_advance fun _ => mirrors_bind (mirrors_expect _ _) fun part => ?_
      exact mirrors_bind (mirrors_angleArgs hargs) fun _ => mirrors_pure rfl
    · exact mirrors_bind mirrors_dims fun _ => mirrors_pure rfl

theorem mirrors_typeArguments (what : Text) :
    P.Mirrors (separated (typeArgument (typeWith args)) what)
      (separated (typeArgument (typeWith args')) what) := by
  have htype := mirrors_typeWith hargs
  refine mirrors_separated (mirrors_bind mirrors_dropAnnotations fun _ => ?_) what
  refine mirrors_look fun s s' hs => ?_
  rw [hs.isAt, hs.here]
  refine mirrors_ite (mirrors_bind mirrors_advance fun _ => mirrors_look fun t t' ht => ?_) htype
  rw [ht.isAt, ht.isAt]
  refine mirrors_ite ?_ (mirrors_ite ?_ (mirrors_pure rfl))
  all_goals exact mirrors_bind mirrors_advance fun _ => mirrors_bind htype fun _ => mirrors_pure rfl

end TypeArgs

end Pace

/-! ### Ranges without comments -/

theorem Cursor.Shadow.alike {es : List Element} {s s' : Cursor} (h : Shadow es s s') :
    s.Alike s' := by
  refine .of_current ?_ h.closing
  rw [h.current?]
  cases s.current? with
  | none => exact .none
  | some e => exact .some (.uncommented e)

/-- A range and the range without its comments. -/
def Pace.shadow (es : List Element) : Pace where
  rel := Cursor.Shadow es
  past _ := False
  look hs _ := hs.alike
  next hs _ _ := hs.next
  lt hs ht _ _ := hs.length_rest_lt_iff ht
  past_next := Cursor.lasting_false
  past_at _ _ := id

theorem runOn_uncommented {α γ : Type} {v : α → γ} {p q : Parser α}
    (h : ∀ es, (Pace.shadow es).MirrorsWith (fun _ => False) (fun a b => v b = v a) p q)
    (g : Group) :
    (q.runOn g.uncommented).map v = (p.runOn g).map v := by
  have hmeet := ((h g.children).meet (Cursor.shadow_ofGroup g)).resolve_left fun hspent => by
    revert hspent
    unfold Pace.Spent
    split <;> exact id
  unfold runOn
  revert hmeet
  generalize p (.ofGroup g) = r
  generalize q (.ofGroup g.uncommented) = r'
  rintro (⟨hab, -⟩ | -)
  · exact congrArg Except.ok hab
  · rfl

theorem eq_of_uncommented {α : Type} {x : Group → α} (h : ∀ g, x g.uncommented = x g) {g g' : Group}
    (hsame : g'.uncommented = g.uncommented) : x g' = x g := by
  rw [← h g', hsame, h g]

theorem runOn_uncommented_eq {α : Type} {p : Parser α} (h : ∀ es, (Pace.shadow es).Mirrors p p)
    (g : Group) :
    p.runOn g.uncommented = p.runOn g := by
  have hsame := runOn_uncommented (v := id) (fun es => (h es).mono fun _ _ => Eq.symm) g
  rwa [Except.map_id] at hsame

theorem typeArgsAt_uncommented (levels : Nat) (g : Group) :
    typeArgsAt levels g.uncommented = typeArgsAt levels g := by
  induction levels generalizing g with
  | zero => rfl
  | succ levels ih =>
    exact runOn_uncommented_eq (fun es => Pace.mirrors_typeArguments
      (fun _ _ hsame _ => eq_of_uncommented ih hsame) _) g

theorem typeArgs_uncommented (g : Group) : g.uncommented.typeArgs = g.typeArgs := by
  unfold Group.typeArgs
  rw [typeArgsAt_uncommented, Group.uncommented, depthAll_uncommentedAll]

namespace Pace

variable {P : Pace}

theorem mirrors_typeRef : P.Mirrors typeRef typeRef :=
  mirrors_typeWith fun _ _ hsame _ => eq_of_uncommented typeArgs_uncommented hsame

theorem mirrors_moreTypes (kind : TokenKind) :
    P.Mirrors (many do if (← get).isAt kind then advance; return some (← typeRef) else return none)
      (many do if (← get).isAt kind then advance; return some (← typeRef) else return none) := by
  refine mirrors_many (mirrors_isAt _ ?_ (mirrors_pure rfl))
  exact mirrors_bind mirrors_advance fun _ => mirrors_bind mirrors_typeRef fun _ => mirrors_pure rfl

theorem mirrors_typeList : P.Mirrors typeList typeList :=
  mirrors_bind mirrors_typeRef fun _ => mirrors_bind (mirrors_moreTypes _) fun _ => mirrors_pure rfl

theorem mirrors_typesBehind {isThere : Cursor → Bool}
    (hthere : ∀ s s', s.Alike s' → isThere s' = isThere s) :
    P.Mirrors (typesBehind isThere) (typesBehind isThere) :=
  mirrors_test hthere (mirrors_bind mirrors_advance fun _ => mirrors_typeList) (mirrors_pure rfl)

theorem mirrors_throwing : P.Mirrors throwing throwing :=
  mirrors_typesBehind fun _ _ hs => hs.isAt .kwThrows

/-! ### Type parameters and parameters -/

theorem mirrors_typeParam : P.Mirrors typeParam typeParam := by
  unfold typeParam
  refine mirrors_bind mirrors_dropAnnotations fun _ =>
    mirrors_bind (mirrors_expect _ _) fun name => ?_
  refine mirrors_isAt _ (mirrors_bind mirrors_advance fun _ => ?_) (mirrors_pure rfl)
  refine mirrors_bind mirrors_typeRef fun first => ?_
  exact mirrors_bind (mirrors_moreTypes _) fun _ => mirrors_pure rfl

theorem mirrors_parameter : P.Mirrors parameter parameter := by
  unfold parameter
  refine mirrors_look fun s s' hs => ?_
  rw [hs.here]
  refine mirrors_bind mirrors_modifiers fun modifiers => mirrors_bind mirrors_typeRef fun type => ?_
  refine mirrors_look fun t t' ht => ?_
  rw [ht.isAt]
  refine mirrors_optional mirrors_advance fun _ => ?_
  refine mirrors_bind_rel mirrors_current .refl fun e e' he => ?_
  rw [he.token?]
  refine mirrors_ite (mirrors_bind mirrors_advance fun _ => mirrors_pure rfl) ?_
  exact mirrors_bind (mirrors_expect _ _) fun name => mirrors_bind mirrors_dims fun _ =>
    mirrors_pure rfl

end Pace

theorem typeParams_uncommented (g : Group) : g.uncommented.typeParams = g.typeParams :=
  runOn_uncommented_eq (fun _ => Pace.mirrors_separated Pace.mirrors_typeParam _) g

theorem parameters_uncommented (g : Group) : g.uncommented.parameters = g.parameters := by
  unfold Group.parameters
  rw [runOn_uncommented_eq (fun _ => Pace.mirrors_separated Pace.mirrors_parameter _) g]

namespace Pace

variable {P : Pace} {α : Type}

theorem mirrors_typeParams : P.Mirrors typeParams typeParams := by
  refine mirrors_isAtGroup _ ?_ (mirrors_pure rfl)
  refine mirrors_bind_of (mirrors_expectGroup (by decide) _)
    (fun g => (mirrors_ofExcept rfl).stays) ?_
  exact fun g g' hg => mirrors_ofExcept (eq_of_uncommented typeParams_uncommented hg.1)

theorem mirrors_parameters {f : List Parameter → Parser α} (what : Text)
    (hf : ∀ params, P.Mirrors (f params) (f params)) :
    P.Mirrors (do f (← Parser.ofExcept (← expectGroup .round what).parameters))
      (do f (← Parser.ofExcept (← expectGroup .round what).parameters)) :=
  mirrors_inGroup (by decide) _
    (fun _ _ hsame _ => eq_of_uncommented parameters_uncommented hsame) hf

theorem mirrors_classKeyword : P.Mirrors classKeyword classKeyword := by
  unfold classKeyword
  refine mirrors_look fun s s' hs => ?_
  rw [hs.isAt, hs.isAt, hs.isAt]
  refine mirrors_ite ?_ (mirrors_ite ?_ (mirrors_ite ?_ (mirrors_fail _)))
  all_goals exact mirrors_bind mirrors_advance fun _ => mirrors_pure rfl

end Pace

end Unnest
