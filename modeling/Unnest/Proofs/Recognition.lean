import Unnest.Proofs.LockstepForms

/-!
# Members recognised in two ranges

A form that recognises a member in one of two ranges walked over in step recognises it in the other,
unless the point that decides lies behind what the ranges share. Skipping may also fail there, but a
form that recognises a member has skipped nothing in vain.

* `Pace.skipModifiers`, `Pace.skipType` and others: what is skipped in one range is skipped in the
  other;
* `Pace.flip`: ranges that share everything may change their places;
* `Pace.mirrors_file`: files in two such ranges.
-/

namespace Unnest

open Unnest.Parser

/-! ### The type of a method -/

/-- Moves over `void` or a type. -/
def Cursor.skipReturnType (s : Cursor) : Bool × Cursor :=
  if s.isAt .kwVoid then (true, s.next) else s.skipType

theorem Cursor.Lasting.skipReturnType {I : Cursor → Prop} (h : Cursor.Lasting I) {s : Cursor}
    (hs : I s) :
    I s.skipReturnType.2 := by
  unfold Cursor.skipReturnType
  split_ifs
  · exact h _ hs
  · exact h.skipType hs

theorem recognizeMethod_of_skipReturnType {s v : Cursor} (h : s.bare.skipReturnType = (true, v)) :
    recognizeMethod s =
      if v.isAt .ident && v.next.isAtGroup .round then
        if v.next.next.skipDims.isAt .kwThrows || v.next.next.skipDims.isAtGroup .curly ||
            v.next.next.skipDims.isAt .semi then
          some v.next.next.skipDims
        else none
      else none := by
  unfold Cursor.skipReturnType Cursor.bare at h
  unfold recognizeMethod
  simp only [h]

theorem exists_skipReturnType_of_recognize {s decided : Cursor}
    (h : recognizeMethod s = some decided) :
    ∃ v, s.bare.skipReturnType = (true, v) ∧ decided = v.next.next.skipDims := by
  obtain ⟨v, hskip, -, -, -, rfl⟩ := recognizeMethod_eq_some h
  refine ⟨v, ?_, rfl⟩
  unfold Cursor.skipReturnType
  rcases hskip with ⟨hvoid, rfl⟩ | hskip
  · exact if_pos hvoid
  · rw [show s.bare.isAt .kwVoid = false from isAt_kwVoid_of_skipType hskip, if_neg (by decide)]
    exact hskip

theorem isAt_atSign_of_skipReturnType {s v : Cursor} (h : s.skipReturnType = (true, v)) :
    s.isAt .atSign = false := by
  unfold Cursor.skipReturnType at h
  split_ifs at h with hvoid
  · exact Cursor.isAt_ne hvoid (by decide)
  · exact isAt_atSign_of_skipType h

namespace Pace

variable {P : Pace} {s s' t : Cursor}

/-! ### Skipping -/

theorem exists_modifier (h : s.current?.any (fun e => e.token?.any (·.kind.isModifier)) = true) :
    ∃ t, s.current? = some (.token t) ∧ t.kind.isModifier = true := by
  rcases hs : s.current? with _ | t | g
  · simp [hs] at h
  · exact ⟨t, rfl, by simpa [hs, Element.token?] using h⟩
  · simp [hs, Element.token?] at h

section Skipping

variable (hs : P.rel s s')
include hs

theorem look_of_next (h : ¬ P.past s.next) : s.Alike s' := P.look hs (mt (P.past_next s) h)

theorem next_of_isAt {kind : TokenKind} (h : ¬ P.past s.next) (hat : s.isAt kind = true) :
    P.rel s.next s'.next :=
  P.next hs (mt (P.past_next s) h) (Cursor.hasNext_of_isAt hat)

theorem next_of_isAtGroup {kind : GroupKind} (h : ¬ P.past s.next) (hat : s.isAtGroup kind = true) :
    P.rel s.next s'.next :=
  P.next hs (mt (P.past_next s) h) (Cursor.hasNext_of_isAtGroup hat)

theorem skipGroup {kind : GroupKind} (h : ¬ P.past (s.skipGroup kind)) :
    P.rel (s.skipGroup kind) (s'.skipGroup kind) := by
  have hpast : ¬ P.past s := fun hpast => h (P.past_next.skipGroup kind hpast)
  unfold Cursor.skipGroup at h ⊢
  rw [(P.look hs hpast).isAtGroup]
  split_ifs at h ⊢ with hat
  · exact next_of_isAtGroup hs h hat
  · exact hs

theorem skipAngle (h : ¬ P.past s.skipAngle) : P.rel s.skipAngle s'.skipAngle := skipGroup hs h

theorem skipDims (h : ¬ P.past s.skipDims) : P.rel s.skipDims s'.skipDims := by
  induction hn : s.rest.length using Nat.strong_induction_on generalizing s s' with
  | _ n ih =>
    have hpast : ¬ P.past s := fun hpast => h (P.past_next.skipDims hpast)
    have hlook := (P.look hs hpast).isAtEmptyGroup (show GroupKind.square ≠ .curly by decide)
    cases hpair : s.isAtEmptyGroup .square with
    | true =>
      have hnext := Cursor.hasNext_of_isAtEmptyGroup hpair
      rw [hpair] at hlook
      rw [Cursor.skipDims_of_pair hpair] at h ⊢
      rw [Cursor.skipDims_of_pair hlook]
      exact ih _ (hn ▸ Cursor.length_rest_next_lt hnext) (P.next hs hpast hnext) h rfl
    | false =>
      rw [hpair] at hlook
      rw [Cursor.skipDims_of_other hpair, Cursor.skipDims_of_other hlook]
      exact hs

theorem skipParts (hskip : s.skipParts = (true, t)) (h : ¬ P.past t) :
    ∃ t', s'.skipParts = (true, t') ∧ P.rel t t' := by
  induction s using Cursor.skipParts.induct generalizing s' with
  | case1 s hdot hi ih =>
    rw [Cursor.skipParts_of_dot hdot hi] at hskip
    have hpast₂ : ¬ P.past s.next.next := fun hpast => h (by
      have := P.past_next.skipParts hpast
      rwa [hskip] at this)
    have hpast₁ := mt (P.past_next _) hpast₂
    have hrel₁ := next_of_isAt hs hpast₁ hdot
    rw [Cursor.skipParts_of_dot (by rw [(look_of_next hs hpast₁).isAt, hdot])
      (by rw [(look_of_next hrel₁ hpast₂).isAt, hi])]
    exact ih (next_of_isAt hrel₁ hpast₂ hi) hskip
  | case2 s hdot hi =>
    rw [Cursor.skipParts_of_bare_dot hdot (by simpa using hi)] at hskip
    cases hskip
  | case3 s hdot =>
    have hdot : s.isAt .dot = false := by simpa using hdot
    rw [Cursor.skipParts_of_not_dot hdot] at hskip
    cases hskip
    exact ⟨s', Cursor.skipParts_of_not_dot (by rw [(P.look hs h).isAt, hdot]), hs⟩

theorem skipAnnot (hskip : s.skipAnnot = (true, t)) (h : ¬ P.past t) :
    ∃ t', s'.skipAnnot = (true, t') ∧ P.rel t t' := by
  have hi := Cursor.isAt_ident_of_skipAnnot hskip
  unfold Cursor.skipAnnot at hskip
  split_ifs at hskip with hat
  swap
  · cases hskip
  split at hskip
  · cases hskip
  · next u hparts =>
    have ht : t = u.skipGroup .round := by
      cases hskip
      rfl
    subst ht
    have hpast₃ : ¬ P.past u := fun hpast => h (P.past_next.skipGroup .round hpast)
    have hpast₂ : ¬ P.past s.next.next := fun hpast => hpast₃ (by
      have := P.past_next.skipParts hpast
      rwa [hparts] at this)
    have hpast₁ := mt (P.past_next _) hpast₂
    have hrel₁ := next_of_isAt hs hpast₁ hat
    obtain ⟨u', hparts', hu⟩ := skipParts (next_of_isAt hrel₁ hpast₂ hi) hparts hpast₃
    refine ⟨u'.skipGroup .round, ?_, skipGroup hu h⟩
    exact Cursor.skipAnnot_of_parts (by rw [(look_of_next hs hpast₁).isAt, hat])
      (by rw [(look_of_next hrel₁ hpast₂).isAt, hi]) hparts'

theorem skipModifiers (h : ¬ P.past s.skipModifiers) (hat : s.skipModifiers.isAt .atSign = false) :
    P.rel s.skipModifiers s'.skipModifiers := by
  induction hn : s.rest.length using Nat.strong_induction_on generalizing s s' with
  | _ n ih =>
    subst hn
    have hpast : ¬ P.past s := fun hpast => h (P.past_next.skipModifiers hpast)
    have hlook := P.look hs hpast
    cases hsign : s.isAt .atSign with
    | true =>
      have hsign' : s'.isAt .atSign = true := by rw [hlook.isAt, hsign]
      rcases hannot : s.skipAnnot with ⟨_ | _, u⟩
      · -- an annotation that is not well formed ends the modifiers in front of its `@`
        have hstop : s.skipModifiers = s :=
          Cursor.iterate_of_none (by simp only [hsign, if_true, hannot])
        rw [hstop, hsign] at hat
        cases hat
      · rw [Cursor.skipModifiers_of_annot hsign hannot] at h hat ⊢
        have hpast' : ¬ P.past u := fun hpast => h (P.past_next.skipModifiers hpast)
        obtain ⟨u', hannot', hu⟩ := skipAnnot hs hannot hpast'
        rw [Cursor.skipModifiers_of_annot hsign' hannot']
        exact ih _ (Cursor.length_rest_skipAnnot_lt hannot) hu h hat rfl
    | false =>
      have hsign' : s'.isAt .atSign = false := by rw [hlook.isAt, hsign]
      have hmark : s'.current?.any (fun e => e.token?.any (·.kind.isModifier)) =
          s.current?.any (fun e => e.token?.any (·.kind.isModifier)) :=
        hlook.any fun _ _ halike => by rw [halike.token?]
      cases hword : s.current?.any (fun e => e.token?.any (·.kind.isModifier)) with
      | true =>
        obtain ⟨u, hu, hm⟩ := exists_modifier hword
        obtain ⟨u', hu', hm'⟩ := exists_modifier (hmark.trans hword)
        have hnext := Cursor.hasNext_iff.mpr ⟨_, hu⟩
        rw [Cursor.skipModifiers_of_modifier hu hm] at h hat ⊢
        rw [Cursor.skipModifiers_of_modifier hu' hm']
        exact ih _ (Cursor.length_rest_next_lt hnext) (P.next hs hpast hnext) h hat rfl
      | false =>
        rw [Cursor.skipModifiers_of_other hsign hword,
          Cursor.skipModifiers_of_other hsign' (hmark.trans hword)]
        exact hs

theorem moreParts (hwhole : s.moreParts.isWhole = true) (h : ¬ P.past s.moreParts.cursor) :
    s'.moreParts.isWhole = true ∧ P.rel s.moreParts.cursor s'.moreParts.cursor := by
  induction s using Cursor.moreParts.induct generalizing s' with
  | case1 s hdot hi behind =>
    rename_i ih
    rw [Cursor.moreParts_of_dot hdot hi] at hwhole h ⊢
    have hpast₃ : ¬ P.past s.next.next.skipAngle := fun hpast => h (P.past_next.moreParts hpast)
    have hpast₂ : ¬ P.past s.next.next := fun hpast => hpast₃ (P.past_next.skipAngle hpast)
    have hpast₁ := mt (P.past_next _) hpast₂
    have hrel₁ := next_of_isAt hs hpast₁ hdot
    rw [Cursor.moreParts_of_dot (by rw [(look_of_next hs hpast₁).isAt, hdot])
      (by rw [(look_of_next hrel₁ hpast₂).isAt, hi])]
    exact ih (skipAngle (next_of_isAt hrel₁ hpast₂ hi) hpast₃) hwhole h
  | case2 s hdot hi =>
    rw [Cursor.moreParts_of_bare_dot hdot (by simpa using hi)] at hwhole
    cases hwhole
  | case3 s hdot =>
    have hdot : s.isAt .dot = false := by simpa using hdot
    rw [Cursor.moreParts_of_not_dot hdot] at h ⊢
    rw [Cursor.moreParts_of_not_dot (by rw [(P.look hs h).isAt, hdot])]
    exact ⟨rfl, hs⟩

theorem skipType (hskip : s.skipType = (true, t)) (h : ¬ P.past t) :
    ∃ t', s'.skipType = (true, t') ∧ P.rel t t' := by
  have hpast : ¬ P.past s := fun hpast => h (by
    have := P.past_next.skipType hpast
    rwa [hskip] at this)
  have hlook := P.look hs hpast
  unfold Cursor.skipType at hskip ⊢
  simp only [hlook.isAt] at hskip ⊢
  split_ifs at hskip with hprim hi hwhole
  · cases hskip
    have hpast₁ : ¬ P.past s.next := fun hpast => h (P.past_next.skipDims hpast)
    exact ⟨s'.next.skipDims, if_pos hprim, skipDims (next_of_isAt hs hpast₁ hprim) h⟩
  · cases hskip
    have hpast₃ : ¬ P.past s.typeName.cursor := fun hpast => h (P.past_next.skipDims hpast)
    have hpast₂ : ¬ P.past s.next.skipAngle := fun hpast => hpast₃ (P.past_next.moreParts hpast)
    have hpast₁ : ¬ P.past s.next := fun hpast => hpast₂ (P.past_next.skipAngle hpast)
    obtain ⟨hwhole', hrel⟩ : s'.typeName.isWhole = true ∧
        P.rel s.typeName.cursor s'.typeName.cursor :=
      moreParts (skipAngle (next_of_isAt hs hpast₁ hi) hpast₂) hwhole hpast₃
    rw [if_neg hprim, if_pos hi, if_pos hwhole']
    exact ⟨_, rfl, skipDims hrel h⟩
  · cases hskip
  · cases hskip

theorem skipReturnType (hskip : s.skipReturnType = (true, t)) (h : ¬ P.past t) :
    ∃ t', s'.skipReturnType = (true, t') ∧ P.rel t t' := by
  have hpast : ¬ P.past s := fun hpast => h (by
    have := P.past_next.skipReturnType hpast
    rwa [hskip] at this)
  unfold Cursor.skipReturnType at hskip ⊢
  rw [(P.look hs hpast).isAt]
  split_ifs at hskip ⊢ with hvoid
  · cases hskip
    exact ⟨s'.next, rfl, next_of_isAt hs h hvoid⟩
  · exact skipType hs hskip h

theorem bare (h : ¬ P.past s.bare) (hat : s.bare.isAt .atSign = false) : P.rel s.bare s'.bare := by
  have hpast₂ : ¬ P.past s.skipModifiers.skipAngle :=
    fun hpast => h (P.past_next.skipModifiers hpast)
  have hpast₁ : ¬ P.past s.skipModifiers := fun hpast => hpast₂ (P.past_next.skipAngle hpast)
  have hat₁ : s.skipModifiers.isAt .atSign = false := by
    rw [Bool.eq_false_iff]
    intro hat₁
    rw [Cursor.bare_of_isAt hat₁, hat₁] at hat
    cases hat
  exact skipModifiers (skipAngle (skipModifiers hs hpast₁ hat₁) hpast₂) h hat

end Skipping

/-! ### Forms -/

section Forms

variable (hs : P.rel s s') {decided : Cursor}
include hs

theorem exists_recognizeField (hrec : recognizeField s = some decided) (h : ¬ P.past decided) :
    ∃ decided', recognizeField s' = some decided' ∧ P.rel decided decided' := by
  obtain ⟨u, htype, hi, hend, rfl⟩ := recognizeField_eq_some hrec
  have hpast₁ := mt (P.past_next u) h
  have hpast₀ : ¬ P.past s.skipModifiers := fun hpast => hpast₁ (by
    have := P.past_next.skipType hpast
    rwa [htype] at this)
  obtain ⟨u', htype', hu⟩ :=
    skipType (skipModifiers hs hpast₀ (isAt_atSign_of_skipType htype)) htype hpast₁
  have hrel := next_of_isAt hu h hi
  have hlook := P.look hrel h
  unfold recognizeField
  rw [htype']
  simp only [(P.look hu hpast₁).isAt, hi, if_true, hlook.isAt,
    hlook.isAtEmptyGroup (show GroupKind.square ≠ .curly by decide), hend]
  exact ⟨_, rfl, hrel⟩

theorem exists_recognizeMethod (hrec : recognizeMethod s = some decided) (h : ¬ P.past decided) :
    ∃ decided', recognizeMethod s' = some decided' ∧ P.rel decided decided' := by
  obtain ⟨v, hskip, hdecided⟩ := exists_skipReturnType_of_recognize hrec
  rw [recognizeMethod_of_skipReturnType hskip] at hrec
  subst hdecided
  split_ifs at hrec with hcall hend
  obtain ⟨hi, hround⟩ := Bool.and_eq_true_iff.mp hcall
  have hpast₂ : ¬ P.past v.next.next := fun hpast => h (P.past_next.skipDims hpast)
  have hpast₁ := mt (P.past_next _) hpast₂
  have hpast₀ := mt (P.past_next _) hpast₁
  have hbare : ¬ P.past s.bare := fun hpast => hpast₀ (by
    have := P.past_next.skipReturnType hpast
    rwa [hskip] at this)
  obtain ⟨v', hskip', hv⟩ :=
    skipReturnType (bare hs hbare (isAt_atSign_of_skipReturnType hskip)) hskip hpast₀
  have hrel₁ := next_of_isAt hv hpast₁ hi
  have hrel := skipDims (next_of_isAtGroup hrel₁ hpast₂ hround) h
  have hlook := P.look hrel h
  rw [recognizeMethod_of_skipReturnType hskip']
  simp only [(P.look hv hpast₀).isAt, hi, (P.look hrel₁ hpast₁).isAtGroup, hround, Bool.and_self,
    if_true, hlook.isAt, hlook.isAtGroup, hend]
  exact ⟨_, rfl, hrel⟩

theorem exists_recognizeClass (hrec : recognizeClass s = some decided) (h : ¬ P.past decided) :
    ∃ decided', recognizeClass s' = some decided' ∧ P.rel decided decided' := by
  unfold recognizeClass at hrec
  simp only at hrec
  split_ifs at hrec with hword hi
  cases hrec
  have hpast₀ := mt (P.past_next _) h
  have hat : s.skipModifiers.isAt .atSign = false := by
    rcases (Bool.or_eq_true_iff.mp hword).imp_left Bool.or_eq_true_iff.mp
      with (hword | hword) | hword
    · exact Cursor.isAt_ne hword (by decide)
    · exact Cursor.isAt_ne hword (by decide)
    · exact Cursor.isAt_ne hword (by decide)
  have hrel₀ := skipModifiers hs hpast₀ hat
  have hrel := P.next hrel₀ hpast₀ (by
    rcases (Bool.or_eq_true_iff.mp hword).imp_left Bool.or_eq_true_iff.mp
      with (hword | hword) | hword
    · exact Cursor.hasNext_of_isAt hword
    · exact Cursor.hasNext_of_isAt hword
    · exact Cursor.hasNext_of_isAt hword)
  unfold recognizeClass
  simp only [(P.look hrel₀ hpast₀).isAt, hword, (P.look hrel h).isAt, hi, if_true]
  exact ⟨_, rfl, hrel⟩

theorem exists_recognizeStatic (hrec : recognizeStatic s = some decided) (h : ¬ P.past decided) :
    ∃ decided', recognizeStatic s' = some decided' ∧ P.rel decided decided' := by
  unfold recognizeStatic at hrec ⊢
  split_ifs at hrec with hblock
  cases hrec
  obtain ⟨hstatic, hcurly⟩ := Bool.and_eq_true_iff.mp hblock
  have hrel := next_of_isAt hs h hstatic
  rw [(look_of_next hs h).isAt, hstatic, (P.look hrel h).isAtGroup, hcurly]
  exact ⟨_, rfl, hrel⟩

theorem exists_recognizeInstance (hrec : recognizeInstance s = some decided)
    (h : ¬ P.past decided) :
    ∃ decided', recognizeInstance s' = some decided' ∧ P.rel decided decided' := by
  unfold recognizeInstance at hrec ⊢
  split_ifs at hrec with hcurly
  cases hrec
  rw [(P.look hs h).isAtGroup, hcurly]
  exact ⟨_, rfl, hs⟩

theorem exists_recognizeConstructor {ctx : BodyContext}
    (hrec : recognizeConstructor ctx s = some decided) (h : ¬ P.past decided) :
    ∃ decided', recognizeConstructor ctx s' = some decided' ∧ P.rel decided decided' := by
  unfold recognizeConstructor at hrec ⊢
  simp only at hrec ⊢
  split_ifs at hrec with hanonymous hcall hend
  cases hrec
  obtain ⟨hname, hround⟩ := Bool.and_eq_true_iff.mp hcall
  have hi := (Bool.and_eq_true_iff.mp hname).1
  have hpast₂ := mt (P.past_next _) h
  have hpast₁ := mt (P.past_next _) hpast₂
  have hpast₀ : ¬ P.past s.skipModifiers := fun hpast => hpast₁ (P.past_next.skipAngle hpast)
  have hat : s.skipModifiers.isAt .atSign = false := by
    rw [Bool.eq_false_iff]
    intro hat
    rw [Cursor.skipAngle, Cursor.isAtGroup_of_isAt hat, if_neg (by decide)] at hi
    rw [Cursor.isAt_ne hat (by decide)] at hi
    cases hi
  have hrel₁ := skipAngle (skipModifiers hs hpast₀ hat) hpast₁
  have hrel₂ := next_of_isAt hrel₁ hpast₂ hi
  have hrel := next_of_isAtGroup hrel₂ h hround
  have hlook := P.look hrel h
  simp only [if_neg hanonymous, (P.look hrel₁ hpast₁).isAtName, hname,
    (P.look hrel₂ hpast₂).isAtGroup, hround, Bool.and_self, if_true, hlook.isAt,
    hlook.isAtGroup, hend]
  exact ⟨_, rfl, hrel⟩

/-- **A form that recognises a member in the first range** recognises it in the second. -/
theorem exists_recognize {inside : Inside} {kind : FormKind} {ctx : BodyContext}
    (hrec : (kind.form inside).recognize ctx s = some decided) (h : ¬ P.past decided) :
    ∃ decided', (kind.form inside).recognize ctx s' = some decided' ∧ P.rel decided decided' := by
  cases kind with
  | field => exact exists_recognizeField hs hrec h
  | method => exact exists_recognizeMethod hs hrec h
  | nested => exact exists_recognizeClass hs hrec h
  | staticBlock => exact exists_recognizeStatic hs hrec h
  | instanceBlock => exact exists_recognizeInstance hs hrec h
  | constructor => exact exists_recognizeConstructor hs hrec h

theorem skipAnnotations (hskip : skipAnnotations s = some t) (h : ¬ P.past t) :
    ∃ t', Unnest.skipAnnotations s' = some t' ∧ P.rel t t' := by
  induction hn : s.rest.length using Nat.strong_induction_on generalizing s s' with
  | _ n ih =>
    subst hn
    have hpast : ¬ P.past s := fun hpast => h (P.past_next.skipAnnotations hskip hpast)
    have hlook := P.look hs hpast
    cases hsign : s.isAt .atSign with
    | true =>
      rcases hannot : s.skipAnnot with ⟨_ | _, u⟩
      · have hnone : Unnest.skipAnnotations s = none := by
          unfold Unnest.skipAnnotations
          rw [Cursor.iterate_of_none (by rw [hannot])]
          simp [hsign]
        rw [hnone] at hskip
        cases hskip
      · rw [skipAnnotations_of_annot hannot] at hskip
        have hpast' : ¬ P.past u := fun hpast => h (P.past_next.skipAnnotations hskip hpast)
        obtain ⟨u', hannot', hu⟩ := skipAnnot hs hannot hpast'
        rw [skipAnnotations_of_annot hannot']
        exact ih _ (Cursor.length_rest_skipAnnot_lt hannot) hu hskip rfl
    | false =>
      rw [skipAnnotations_of_not_at hsign] at hskip
      cases hskip
      exact ⟨s', skipAnnotations_of_not_at (by rw [hlook.isAt, hsign]), hs⟩

theorem exists_recognizeConstant {ctx : BodyContext} (hrec : recognizeConstant ctx s = some decided)
    (h : ¬ P.past decided) :
    ∃ decided', recognizeConstant ctx s' = some decided' ∧ P.rel decided decided' := by
  unfold recognizeConstant at hrec ⊢
  split_ifs at hrec ⊢ with hctx
  obtain ⟨u, hannot, hrec⟩ := Option.bind_eq_some_iff.mp hrec
  change (if u.isAt .ident then
      if !((u.next.skipGroup .round).skipGroup .curly).hasNext ||
          ((u.next.skipGroup .round).skipGroup .curly).isAt .comma ||
          ((u.next.skipGroup .round).skipGroup .curly).isAt .semi then
        some ((u.next.skipGroup .round).skipGroup .curly)
      else none
    else none) = some decided at hrec
  split_ifs at hrec with hi hend
  cases hrec
  have hpast₂ : ¬ P.past (u.next.skipGroup .round) :=
    fun hpast => h (P.past_next.skipGroup .curly hpast)
  have hpast₁ : ¬ P.past u.next := fun hpast => hpast₂ (P.past_next.skipGroup .round hpast)
  obtain ⟨u', hannot', hu⟩ := skipAnnotations hs hannot (mt (P.past_next u) hpast₁)
  have hrel := skipGroup (skipGroup (next_of_isAt hu hpast₁ hi) hpast₂) h
  have hlook := P.look hrel h
  refine ⟨(u'.next.skipGroup .round).skipGroup .curly, ?_, hrel⟩
  rw [hannot', Option.bind_some]
  change (if u'.isAt .ident then
      if !((u'.next.skipGroup .round).skipGroup .curly).hasNext ||
          ((u'.next.skipGroup .round).skipGroup .curly).isAt .comma ||
          ((u'.next.skipGroup .round).skipGroup .curly).isAt .semi then
        some ((u'.next.skipGroup .round).skipGroup .curly)
      else none
    else none) = _
  rw [(look_of_next hu hpast₁).isAt, if_pos hi, hlook.hasNext, hlook.isAt, hlook.isAt, if_pos hend]

end Forms

/-! ### Ranges that share everything -/

/-- The two ranges in the other order. -/
def flip (P : Pace) (h : ∀ s, ¬ P.past s) : Pace where
  rel s s' := P.rel s' s
  past _ := False
  look hs _ := (P.look hs (h _)).symm
  next hs _ hnext := P.next hs (h _) (by rwa [(P.look hs (h _)).hasNext] at hnext)
  lt hs ht _ _ := (P.lt hs ht (h _) (h _)).symm
  past_next := Cursor.lasting_false
  past_at _ _ := id

section Steady

variable (hsteady : ∀ s, ¬ P.past s) (hs : P.rel s s')
include hsteady hs

theorem isSome_recognize (inside : Inside) (kind : FormKind) (ctx : BodyContext) :
    ((kind.form inside).recognize ctx s').isSome = ((kind.form inside).recognize ctx s).isSome := by
  rw [Bool.eq_iff_iff, Option.isSome_iff_exists, Option.isSome_iff_exists]
  constructor
  · rintro ⟨decided, hrec⟩
    obtain ⟨decided', hrec', -⟩ := exists_recognize (P := P.flip hsteady) hs hrec id
    exact ⟨decided', hrec'⟩
  · rintro ⟨decided, hrec⟩
    obtain ⟨decided', hrec', -⟩ := exists_recognize hs hrec (hsteady _)
    exact ⟨decided', hrec'⟩

theorem isSome_recognizeConstant (ctx : BodyContext) :
    (recognizeConstant ctx s').isSome = (recognizeConstant ctx s).isSome := by
  rw [Bool.eq_iff_iff, Option.isSome_iff_exists, Option.isSome_iff_exists]
  constructor
  · rintro ⟨decided, hrec⟩
    obtain ⟨decided', hrec', -⟩ := exists_recognizeConstant (P := P.flip hsteady) hs hrec id
    exact ⟨decided', hrec'⟩
  · rintro ⟨decided, hrec⟩
    obtain ⟨decided', hrec', -⟩ := exists_recognizeConstant hs hrec (hsteady _)
    exact ⟨decided', hrec'⟩

theorem isAt_skipModifiers {kind : TokenKind} (hk : kind ≠ .atSign) :
    s'.skipModifiers.isAt kind = s.skipModifiers.isAt kind := by
  have hforth : ∀ {P : Pace} {s s' : Cursor}, (∀ s, ¬ P.past s) → P.rel s s' →
      s.skipModifiers.isAt kind = true → s'.skipModifiers.isAt kind = true := by
    intro P s s' hsteady hs hat
    have hrel := skipModifiers hs (hsteady _) (Cursor.isAt_ne hat hk)
    rw [(P.look hrel (hsteady _)).isAt, hat]
  rw [Bool.eq_iff_iff]
  exact ⟨hforth (P := P.flip hsteady) (fun _ => id) hs, hforth hsteady hs⟩

theorem isAtTypeDecl : isAtTypeDecl s' = isAtTypeDecl s := by
  unfold Parser.isAtTypeDecl
  simp only [ne_eq, reduceCtorEq, not_false_eq_true, isAt_skipModifiers hsteady hs]

theorem isAt_dot_and_peek? (kind : TokenKind) :
    (s'.isAt .dot && (s'.peek? 1).any (·.is kind)) =
    (s.isAt .dot && (s.peek? 1).any (·.is kind)) := by
  have hpeek : ∀ {s : Cursor}, s.isAt .dot = true → s.peek? 1 = s.next.current? := by
    intro s hdot
    obtain ⟨t, ht, hk⟩ := Cursor.isAt_iff.mp hdot
    exact Cursor.peek?_one ht (by simp [Element.isComment, Element.is, hk])
  have hlook := P.look hs (hsteady s)
  cases hdot : s.isAt .dot with
  | false => rw [hlook.isAt, hdot, Bool.false_and, Bool.false_and]
  | true =>
    have hdot' : s'.isAt .dot = true := by rw [hlook.isAt, hdot]
    have hnext := P.look (P.next hs (hsteady s) (Cursor.hasNext_of_isAt hdot)) (hsteady _)
    rw [hdot', hpeek hdot, hpeek hdot', Bool.true_and, Bool.true_and]
    exact hnext.isAt kind

end Steady

/-! ### Files -/

section Files

variable (hsteady : ∀ s, ¬ P.past s)
include hsteady

theorem mirrors_qualifiedName : P.Mirrors qualifiedName qualifiedName := by
  refine mirrors_bind (mirrors_expect _ _) fun first => mirrors_bind (mirrors_many ?_) fun _ =>
    mirrors_pure rfl
  refine mirrors_get hsteady fun s s' hs => ?_
  rw [isAt_dot_and_peek? hsteady hs]
  refine mirrors_ite (mirrors_bind mirrors_advance fun _ => ?_) (mirrors_pure rfl)
  refine mirrors_bind_rel mirrors_current .refl fun part part' hpart => ?_
  rw [hpart.firstToken]
  exact mirrors_bind mirrors_advance fun _ => mirrors_pure rfl

theorem mirrors_packageDecl : P.Mirrors packageDecl packageDecl := by
  have hname : P.Mirrors (do let _ ← expect .kwPackage (lit "'package'"); let name ← qualifiedName
                             let _ ← expect .semi (lit "';' after package name"); return name)
      (do let _ ← expect .kwPackage (lit "'package'"); let name ← qualifiedName
          let _ ← expect .semi (lit "';' after package name"); return name) := by
    refine mirrors_bind (mirrors_expect _ _) fun _ => ?_
    refine mirrors_bind (mirrors_qualifiedName hsteady) fun name => ?_
    exact mirrors_bind (mirrors_expect _ _) fun _ => mirrors_pure rfl
  refine ⟨fun {s} hs => absurd hs (hsteady s), fun {s s'} hs => ?_⟩
  unfold packageDecl
  rw [get_bind, get_bind]
  simp only [isAt_skipModifiers hsteady hs (show TokenKind.kwPackage ≠ .atSign by decide)]
  split_ifs with hpackage
  · exact hname.meet (skipModifiers hs (hsteady _) (Cursor.isAt_ne hpackage (by decide)))
  · exact (mirrors_pure rfl).meet hs

theorem mirrors_importDecl : P.Mirrors importDecl importDecl := by
  unfold importDecl
  refine mirrors_bind (mirrors_expect _ _) fun _ => mirrors_look fun s s' hs => ?_
  rw [hs.isAt]
  refine mirrors_optional mirrors_advance fun _ =>
    mirrors_bind (mirrors_qualifiedName hsteady) fun name => ?_
  refine mirrors_look fun t t' ht => ?_
  rw [ht.isAt]
  refine mirrors_ite (mirrors_bind mirrors_advance fun _ => ?_) ?_
  · refine mirrors_bind_rel mirrors_current .refl fun e e' he => ?_
    rw [he.token?]
    refine mirrors_optional (mirrors_fail _) fun _ => mirrors_bind mirrors_advance fun _ => ?_
    exact mirrors_bind (mirrors_expect _ _) fun _ => mirrors_pure rfl
  · exact mirrors_bind (mirrors_expect _ _) fun _ => mirrors_pure rfl

/-- The files in two ranges are the same, but for what `v` does not show of their classes. -/
theorem mirrors_file {γ : Type} {v : TypeDecl → γ} {inside inside' : Inside}
    (hdecl : P.MirrorsWith P.past (fun d d' => v d' = v d) (typeDecl inside) (typeDecl inside'))
    (hspan : ∀ {d d' s s' t t'}, v d' = v d → P.rel s s' → P.rel t t' →
      v { d' with head.span := ⟨s'.pos, t'.pos⟩ } = v { d with head.span := ⟨s.pos, t.pos⟩ }) :
    P.MirrorsWith P.past
    (fun f f' => f'.types.map v = f.types.map v ∧ f' = { f with types := f'.types })
      (file inside) (file inside') := by
  have htopLevel : P.MirrorsWith P.past (fun d d' => d'.map v = d.map v) (topLevel inside)
      (topLevel inside') := by
    refine mirrors_get hsteady fun s s' hs => ?_
    rw [(P.look hs (hsteady s)).isAt, isAtTypeDecl hsteady hs]
    refine mirrors_ite (mirrors_bind mirrors_advance fun _ => mirrors_pure rfl)
      (mirrors_ite ?_ (mirrors_fail _))
    refine mirrors_bind_steady hsteady hdecl fun d d' hd => ?_
    refine mirrors_get hsteady fun t t' ht => mirrors_pure ?_
    exact congrArg some (hspan hd hs ht)
  refine mirrors_look fun s s' hs => ?_
  rw [hs.here]
  refine mirrors_bind (mirrors_packageDecl hsteady) fun package => ?_
  refine mirrors_bind (mirrors_many (mirrors_isAt _ ?_ (mirrors_pure rfl))) fun imports => ?_
  · exact mirrors_bind (mirrors_importDecl hsteady) fun _ => mirrors_pure rfl
  refine mirrors_bind_steady hsteady (mirrors_many_map (v := Option.map v)
    (mirrors_test (fun _ _ hs => hs.hasNext) ?_ (mirrors_pure rfl))) fun types types' htypes =>
    mirrors_pure ⟨?_, rfl⟩
  · refine mirrors_bind_steady hsteady htopLevel fun d d' hd => mirrors_pure ?_
    rw [Option.map_some, Option.map_some, hd]
  · have hfilter : ∀ types : List (Option TypeDecl),
        (types.filterMap id).map v = (types.map (Option.map v)).filterMap id := by
      intro types
      rw [List.map_filterMap, List.filterMap_map]
      rfl
    simp only [hfilter, htypes]

end Files

end Pace

end Unnest
