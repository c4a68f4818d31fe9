import Unnest.Proofs.Heads
import Mathlib.Data.List.TakeWhile
import Mathlib.Tactic.Common

/-!
# Reading ends where skipping ends

The syntax in front of a member is written down twice: once as functions that skip over it and once
as parsers that read it. Whenever a parser succeeds, it leaves the cursor where its twin does.

* `gives_annotationText`, `gives_modifiers`, `gives_dims`: annotations, modifiers and dimensions;
* `gives_typeRef`: a type behind its annotations.
-/

namespace Unnest

open Unnest.Parser

namespace Cursor

variable {s s' : Cursor}

/-! ### Cursors and tests -/

theorem isAt_unique {kind kind' : TokenKind} (h : s.isAt kind = true) (h' : s.isAt kind' = true) :
    kind = kind' := by
  obtain ⟨t, ht, rfl⟩ := isAt_iff.mp h
  obtain ⟨u, hu, rfl⟩ := isAt_iff.mp h'
  rw [ht] at hu
  cases hu
  rfl

theorem isAt_ne {kind kind' : TokenKind} (h : s.isAt kind = true) (hne : kind ≠ kind') :
    s.isAt kind' = false := by
  rw [Bool.eq_false_iff]
  exact fun h' => hne (isAt_unique h h')

theorem isAt_of_current {t : Token} {kind : TokenKind} (ht : s.current? = some (.token t))
    (hk : t.kind = kind) : s.isAt kind = true :=
  isAt_iff.mpr ⟨t, ht, hk⟩

theorem isAtGroup_of_current {g : Group} {kind : GroupKind} (hg : s.current? = some (.group g))
    (hk : g.kind = kind) : s.isAtGroup kind = true :=
  isAtGroup_iff.mpr ⟨g, hg, hk⟩

theorem isAtGroup_of_groupAt?_eq_none {kind : GroupKind} (h : s.groupAt? kind = none) :
    s.isAtGroup kind = false := by
  rw [Bool.eq_false_iff]
  intro h'
  obtain ⟨g, hg, hk⟩ := isAtGroup_iff.mp h'
  simp [groupAt?, hg, Element.isGroup, Element.group?, hk] at h

theorem length_rest_next_lt_of_isAt {kind : TokenKind} (h : s.isAt kind = true) :
    s.next.rest.length < s.rest.length :=
  length_rest_next_lt (hasNext_of_isAt h)

theorem peek?_one {e : Element} (h : s.current? = some e) (he : e.isComment = false) :
    s.peek? 1 = s.next.current? := by
  unfold current? at h
  obtain ⟨es, hes⟩ : ∃ es, s.rest = e :: es := by
    cases hr : s.rest with
    | nil => rw [hr] at h; simp at h
    | cons e' es => rw [hr] at h; simp at h; exact ⟨es, by rw [h]⟩
  have hnext : s.next.current? = (es.dropWhile (·.isComment)).head? := by
    simp [current?, next, hes, settle]
  rw [hnext, ← List.find?_not_eq_head?_dropWhile, ← List.head?_filter, List.head?_eq_getElem?]
  simp [peek?, hes, he]

/-! ### Iteration -/

theorem iterate_of_none {step : Cursor → Option Cursor} (h : step s = none) :
    s.iterate step = s := by
  rw [iterate, h]

theorem iterate_of_some {step : Cursor → Option Cursor} (h : step s = some s')
    (hlt : s'.rest.length < s.rest.length) : s.iterate step = s'.iterate step := by
  rw [iterate, h]
  simp only [hlt, if_true]

/-- To iterate again changes nothing, if every step moves on. -/
theorem iterate_iterate {step : Cursor → Option Cursor}
    (hlt : ∀ s s', step s = some s' → s'.rest.length < s.rest.length) (s : Cursor) :
    (s.iterate step).iterate step = s.iterate step := by
  induction s using iterate.induct step with
  | case1 s h => rw [iterate_of_none h, iterate_of_none h]
  | case2 s s' h hlt ih =>
    rw [iterate_of_some h hlt]
    exact ih
  | case3 s s' h hnot => exact absurd (hlt s s' h) hnot

/-! ### Annotations and modifiers -/

theorem skipParts_of_dot (h : s.isAt .dot = true) (hi : s.next.isAt .ident = true) :
    s.skipParts = s.next.next.skipParts := by
  rw [skipParts]
  simp [h, hi]

theorem skipParts_of_bare_dot (h : s.isAt .dot = true) (hi : s.next.isAt .ident = false) :
    s.skipParts = (false, s.next) := by
  rw [skipParts]
  simp [h, hi]

theorem skipParts_of_not_dot (h : s.isAt .dot = false) : s.skipParts = (true, s) := by
  rw [skipParts]
  simp [h]

theorem length_rest_skipParts_le (s : Cursor) : s.skipParts.2.rest.length ≤ s.rest.length := by
  induction s using skipParts.induct with
  | case1 s h hi ih =>
    rw [skipParts_of_dot h hi]
    have h₁ := length_rest_next_le s
    have h₂ := length_rest_next_le s.next
    omega
  | case2 s h hi =>
    rw [skipParts_of_bare_dot h (by simpa using hi)]
    exact length_rest_next_le s
  | case3 s h =>
    rw [skipParts_of_not_dot (by simpa using h)]

theorem skipAnnot_of_parts (h : s.isAt .atSign = true) (hi : s.next.isAt .ident = true)
    (hp : s.next.next.skipParts = (true, s')) :
    s.skipAnnot = (true, if s'.isAtGroup .round then s'.next else s') := by
  unfold skipAnnot
  simp only [h, hi, if_true, hp]

theorem isAt_ident_of_skipAnnot (h : s.skipAnnot = (true, s')) : s.next.isAt .ident = true := by
  unfold skipAnnot at h
  split_ifs at h with hat hi
  · exact hi
  · cases h
  · cases h

theorem length_rest_skipAnnot_lt (h : s.skipAnnot = (true, s')) :
    s'.rest.length < s.rest.length := by
  unfold skipAnnot at h
  split_ifs at h with hat hi
  swap; · simp at h
  swap; · simp at h
  have h₁ := length_rest_next_lt_of_isAt hat
  have h₂ := length_rest_next_le s.next
  have h₃ := length_rest_skipParts_le s.next.next
  split at h
  · simp at h
  · next s₁ hp =>
    rw [hp] at h₃
    have h₄ : s'.rest.length ≤ s₁.rest.length := by
      simp only [Prod.mk.injEq, true_and] at h
      rw [← h]
      split_ifs
      · exact length_rest_next_le s₁
      · exact le_rfl
    simp only at h₃
    omega

theorem skipModifiers_of_annot (h : s.isAt .atSign = true) (ha : s.skipAnnot = (true, s')) :
    s.skipModifiers = s'.skipModifiers :=
  iterate_of_some (by simp only [h, if_true, ha]) (length_rest_skipAnnot_lt ha)

theorem skipModifiers_of_modifier {t : Token} (ht : s.current? = some (.token t))
    (hm : t.kind.isModifier = true) : s.skipModifiers = s.next.skipModifiers := by
  have hat : s.isAt .atSign = false := by
    rw [Bool.eq_false_iff]
    intro h
    obtain ⟨u, hu, hk⟩ := isAt_iff.mp h
    rw [ht] at hu
    cases hu
    rw [hk] at hm
    exact absurd hm (by decide)
  refine iterate_of_some ?_ (length_rest_next_lt (hasNext_iff.mpr ⟨_, ht⟩))
  simp [hat, ht, Element.token?, hm]

theorem skipModifiers_of_bare_at (h : s.isAt .atSign = true) (hi : s.next.isAt .ident = false) :
    s.skipModifiers = s :=
  iterate_of_none (by simp [h, skipAnnot, hi])

theorem skipModifiers_of_other (h : s.isAt .atSign = false)
    (hm : s.current?.any (fun e => e.token?.any (·.kind.isModifier)) = false) :
    s.skipModifiers = s :=
  iterate_of_none (by simp [h, hm])

theorem skipModifiers_skipModifiers (s : Cursor) :
    s.skipModifiers.skipModifiers = s.skipModifiers := by
  unfold skipModifiers
  refine iterate_iterate (fun s s' h => ?_) s
  split_ifs at h with hat hm
  · split at h
    · next s₁ ha =>
      cases h
      exact length_rest_skipAnnot_lt ha
    · simp at h
  · cases h
    refine length_rest_next_lt (hasNext_iff.mpr ?_)
    rcases hs : s.current? with _ | e
    · simp [hs] at hm
    · exact ⟨e, rfl⟩

/-! ### Dimensions and types -/

theorem skipDims_of_pair (h : s.isAtEmptyGroup .square = true) : s.skipDims = s.next.skipDims := by
  obtain ⟨g, hg, -⟩ := isAtEmptyGroup_iff.mp h
  exact iterate_of_some (by simp only [h, if_true]) (length_rest_next_lt (hasNext_iff.mpr ⟨_, hg⟩))

theorem skipDims_of_other (h : s.isAtEmptyGroup .square = false) : s.skipDims = s :=
  iterate_of_none (by simp [h])

theorem moreParts_of_dot (h : s.isAt .dot = true) (hi : s.next.isAt .ident = true) :
    s.moreParts = s.next.next.skipAngle.moreParts.cons
      (s.next.here.text, s.next.next.groupAt? .angle) := by
  rw [moreParts]
  simp [h, hi]

theorem moreParts_of_bare_dot (h : s.isAt .dot = true) (hi : s.next.isAt .ident = false) :
    s.moreParts = ⟨false, [], s.next⟩ := by
  rw [moreParts]
  simp [h, hi]

theorem moreParts_of_not_dot (h : s.isAt .dot = false) : s.moreParts = ⟨true, [], s⟩ := by
  rw [moreParts]
  simp [h]

end Cursor

/-! ### The twins -/

section Twins

variable {s : Cursor}

theorem gives_annotationText :
    Gives annotationText s (fun _ s' => s.skipAnnot = (true, s')) fun _ => True := by
  unfold annotationText
  rw [gives_bind, gives_expect]
  refine ⟨fun sign ht hk => ?_, fun _ => trivial⟩
  have hat := Cursor.isAt_of_current ht hk
  rw [gives_bind, gives_expect]
  refine ⟨fun first ht hk => ?_, fun _ => trivial⟩
  have hi := Cursor.isAt_of_current ht hk
  refine (gives_many_until (fun s' => s'.skipParts = s.next.next.skipParts)
    (fun s' => s.next.next.skipParts = (true, s')) (A := fun _ => True) (fun s₁ h₁ => ?_) rfl).bind
    fun parts s₁ h₁ => ?_
  · rw [gives_get_ite]
    refine ⟨fun hdot => ?_, fun hdot => ?_⟩
    · rw [gives_bind, gives_advance]
      refine ⟨fun _ => ?_, fun _ => trivial⟩
      rw [gives_bind, gives_expect]
      refine ⟨fun part ht hk => ?_, fun _ => trivial⟩
      rw [gives_pure]
      refine ⟨by simp, fun _ _ => ⟨trivial, ?_, Or.inl ?_⟩⟩
      · rw [← h₁, Cursor.skipParts_of_dot hdot (Cursor.isAt_of_current ht hk)]
      · have h₂ := Cursor.length_rest_next_lt_of_isAt hdot
        have h₃ := Cursor.length_rest_next_le s₁.next
        omega
    · rw [gives_pure]
      refine ⟨fun _ => ?_, by simp⟩
      rw [← h₁, Cursor.skipParts_of_not_dot (by simpa using hdot)]
  · have hskip := Cursor.skipAnnot_of_parts hat hi h₁.1
    rw [gives_bind, gives_get]
    split
    · next hg =>
      rw [gives_pure, hskip, Cursor.isAtGroup_of_groupAt?_eq_none hg]
      rfl
    · next g hg =>
      obtain ⟨hg, hk⟩ := Cursor.groupAt?_eq_some hg
      rw [gives_bind, gives_advance]
      refine ⟨fun _ => gives_pure.mpr ?_, fun _ => trivial⟩
      rw [hskip, if_pos (Cursor.isAtGroup_of_current hg hk)]

/-- A mark is a step of skipping modifiers; without one the skipping ends as well. -/
theorem gives_mark :
    Gives mark s (fun m s' => (m = none → s' = s ∧ s.skipModifiers = s) ∧
      ∀ m', m = some m' → s'.skipModifiers = s.skipModifiers ∧ s'.rest.length < s.rest.length)
      fun _ => True := by
  unfold mark
  rw [gives_get_ite]
  refine ⟨fun hat => ?_, fun hat => ?_⟩
  · obtain ⟨t, ht, hk⟩ := Cursor.isAt_iff.mp hat
    have hpeek : s.peek? 1 = s.next.current? :=
      Cursor.peek?_one ht (by simp [Element.isComment, Element.is, hk])
    rw [gives_ite, hpeek]
    refine ⟨fun _ => ?_, fun hi => gives_pure.mpr ⟨fun _ => ⟨rfl, ?_⟩, by simp⟩⟩
    · refine gives_annotationText.bind fun text s₁ h₁ => ?_
      rw [gives_pure]
      refine ⟨by simp, fun _ _ => ⟨?_, Cursor.length_rest_skipAnnot_lt h₁⟩⟩
      rw [Cursor.skipModifiers_of_annot hat h₁]
    · exact Cursor.skipModifiers_of_bare_at hat (by simpa [Cursor.isAt] using hi)
  · have hat : s.isAt .atSign = false := by simpa using hat
    split
    · next t ht =>
      split
      · next m hm =>
        rw [gives_bind, gives_advance]
        refine ⟨fun hn => gives_pure.mpr ⟨by simp, fun _ _ => ⟨?_, ?_⟩⟩, fun _ => trivial⟩
        · rw [Cursor.skipModifiers_of_modifier ht (by rw [hm]; rfl)]
        · exact Cursor.length_rest_next_lt hn
      · next hm =>
        refine gives_pure.mpr ⟨fun _ => ⟨rfl, Cursor.skipModifiers_of_other hat ?_⟩, by simp⟩
        cases hk : t.kind
        all_goals simp_all [Element.token?, TokenKind.isModifier]
    · next hne =>
      refine gives_pure.mpr ⟨fun _ => ⟨rfl, Cursor.skipModifiers_of_other hat ?_⟩, by simp⟩
      rcases hs : s.current? with _ | t | g
      · rfl
      · exact absurd hs (hne t)
      · rfl

theorem gives_modifiers : Gives modifiers s (fun _ s' => s' = s.skipModifiers) fun _ => True := by
  unfold modifiers
  refine (gives_many_until (fun s' => s'.skipModifiers = s.skipModifiers)
    (fun s' => s' = s.skipModifiers) (A := fun _ => True) (fun s₁ h₁ => ?_) rfl).bind
    fun _ _ h => gives_pure.mpr h.1
  refine gives_mark.mono (fun m s₂ h₂ => ⟨fun hm => ?_, fun m' hm => ?_⟩) fun _ => id
  · obtain ⟨rfl, h₃⟩ := h₂.1 hm
    rw [← h₁, h₃]
  · obtain ⟨h₃, hlt⟩ := h₂.2 m' hm
    exact ⟨trivial, h₃.trans h₁, Or.inl hlt⟩

theorem gives_dims {E : SourceError → Prop} : Gives dims s (fun _ s' => s' = s.skipDims) E := by
  unfold dims
  refine (gives_many_until (fun s' => s'.skipDims = s.skipDims)
    (fun s' => s' = s.skipDims) (A := fun _ => True) (fun s₁ h₁ => ?_) rfl).bind
    fun _ _ h => gives_pure.mpr h.1
  rw [gives_get_ite]
  refine ⟨fun hpair => ?_, fun hpair => ?_⟩
  · rw [gives_bind, gives_advance]
    refine ⟨fun hn => gives_pure.mpr ⟨by simp, fun _ _ => ⟨trivial, ?_, Or.inl ?_⟩⟩, fun hn => ?_⟩
    · rw [← h₁, Cursor.skipDims_of_pair hpair]
    · exact Cursor.length_rest_next_lt hn
    · obtain ⟨g, hg, -⟩ := Cursor.isAtEmptyGroup_iff.mp hpair
      rw [Cursor.hasNext_iff.mpr ⟨_, hg⟩] at hn
      cases hn
  · refine gives_pure.mpr ⟨fun _ => ?_, by simp⟩
    rw [← h₁, Cursor.skipDims_of_other (by simpa using hpair)]

theorem gives_dropAnnotations (hat : s.isAt .atSign = false) :
    Gives dropAnnotations s (fun _ s' => s' = s) fun _ => True := by
  unfold dropAnnotations
  refine (gives_many_until (fun s' => s' = s) (fun s' => s' = s) (A := fun _ => True)
    (fun s₁ h₁ => ?_) rfl).bind fun _ _ h => gives_pure.mpr h.1
  rw [gives_bind, gives_get, gives_ite, h₁]
  refine ⟨fun h => ?_, fun _ => gives_pure.mpr ⟨fun _ => rfl, by simp⟩⟩
  rw [hat] at h
  simp at h

theorem gives_angleArgs {args : Group → Except SourceError (List TypeRef)} :
    Gives (typeWith.angleArgs args) s (fun _ s' => s' = s.skipAngle) fun _ => True := by
  unfold typeWith.angleArgs Cursor.skipAngle
  rw [gives_get_ite]
  refine ⟨fun h => ?_, fun h => ?_⟩
  · rw [gives_bind, gives_expectGroup, if_pos h]
    refine ⟨fun g hg hk => ?_, fun _ => trivial⟩
    rw [gives_bind, gives_ofExcept]
    exact ⟨fun _ _ => gives_pure.mpr rfl, fun _ _ => trivial⟩
  · rw [gives_pure, if_neg h]

theorem gives_typeWith {args : Group → Except SourceError (List TypeRef)}
    (hat : s.isAt .atSign = false) :
    Gives (typeWith args) s (fun _ s' =>
      (s.isAt .kwVoid = true ∧ s' = s.next.skipDims) ∨ s.skipType = (true, s')) fun _ => True := by
  unfold typeWith
  refine (gives_dropAnnotations hat).bind fun _ s₁ h₁ => ?_
  rw [gives_bind, gives_get, gives_ite, h₁]
  refine ⟨fun hprim => ?_, fun hprim => ?_⟩
  · simp only [gives_bind, gives_advance, gives_pure]
    refine ⟨fun _ => gives_dims.mono (fun _ s₂ h₂ => ?_) fun _ => id, fun _ => trivial⟩
    rcases Bool.or_eq_true_iff.mp hprim with h | h
    · right
      rw [h₂]
      simp [Cursor.skipType, h]
    · exact Or.inl ⟨h, h₂⟩
  · have hprim : s.isAt .primitive = false ∧ s.isAt .kwVoid = false := by simpa using hprim
    rw [gives_bind, gives_expect]
    refine ⟨fun first ht hk => ?_, fun _ => trivial⟩
    have hi := Cursor.isAt_of_current ht hk
    refine gives_angleArgs.bind fun _ s₂ h₂ => ?_
    rw [gives_bind, h₂]
    refine (gives_many_until
      (fun s' => s'.moreParts.isWhole = s.next.skipAngle.moreParts.isWhole ∧
        s'.moreParts.cursor = s.next.skipAngle.moreParts.cursor)
      (fun s' => s.next.skipAngle.moreParts.isWhole = true ∧
        s.next.skipAngle.moreParts.cursor = s') (A := fun _ => True) (fun s₃ h₃ => ?_)
        ⟨rfl, rfl⟩).mono
      (fun _ s₃ h₃ => ?_) fun _ => id
    · rw [gives_get_ite]
      refine ⟨fun hdot => ?_, fun hdot => ?_⟩
      · rw [gives_bind, gives_advance]
        refine ⟨fun _ => ?_, fun _ => trivial⟩
        rw [gives_bind, gives_expect]
        refine ⟨fun part ht hk => ?_, fun _ => trivial⟩
        have hmore := Cursor.moreParts_of_dot hdot (Cursor.isAt_of_current ht hk)
        refine gives_angleArgs.bind fun _ s₄ h₄ => ?_
        rw [gives_pure, h₄]
        refine ⟨by simp, fun _ _ => ⟨trivial, ⟨?_, ?_⟩, Or.inl ?_⟩⟩
        · rw [← h₃.1, hmore]
          rfl
        · rw [← h₃.2, hmore]
          rfl
        · have h₅ := Cursor.length_rest_next_lt_of_isAt hdot
          have h₆ := Cursor.length_rest_next_le s₃.next
          have h₇ := Cursor.length_rest_skipAngle_le s₃.next.next
          omega
      · have hdot : s₃.isAt .dot = false := by simpa using hdot
        rw [Cursor.moreParts_of_not_dot hdot] at h₃
        exact gives_pure.mpr ⟨fun _ => ⟨h₃.1.symm, h₃.2.symm⟩, by simp⟩
    · refine gives_dims.bind fun _ s₄ h₄ => ?_
      rw [gives_pure]
      right
      simp [Cursor.skipType, hprim.1, hi, Cursor.typeName, NameScan.cons, h₃.1.1, h₃.1.2, h₄]

theorem gives_typeRef (hat : s.isAt .atSign = false) :
    Gives typeRef s (fun _ s' =>
      (s.isAt .kwVoid = true ∧ s' = s.next.skipDims) ∨ s.skipType = (true, s')) fun _ => True :=
  gives_typeWith hat

theorem gives_typeParams : Gives typeParams s (fun _ s' => s' = s.skipAngle) fun _ => True := by
  unfold typeParams Cursor.skipAngle
  rw [gives_get_ite]
  refine ⟨fun h => ?_, fun h => ?_⟩
  · rw [gives_bind, gives_expectGroup, if_pos h]
    refine ⟨fun g hg hk => ?_, fun _ => trivial⟩
    exact gives_ofExcept.mpr ⟨fun _ _ => rfl, fun _ _ => trivial⟩
  · rw [gives_pure, if_neg h]

end Twins

end Unnest
