import Unnest.Proofs.Extent

/-!
# Moving on

Skipping, recognising and reading a member move a cursor by `Cursor.next` and by nothing else. So a
property of cursors that lasts when the cursor moves on holds wherever these walks end (`Lasting`).
The property to be used most says that a cursor stands further on in the same range
(`Cursor.Ahead`).

* `Cursor.Lasting.parse`: what holds behind the first element of a member holds behind the member;
* `Cursor.lasting_over`, `Cursor.lasting_settled`, `Cursor.lasting_length_lt`: properties that last.
-/

namespace Unnest

open Unnest.Parser

namespace Cursor

/-! ### Properties that last -/

theorem eq_next_of_advance {s s' : Cursor} (h : advance s = .ok () s') : s' = s.next := by
  unfold advance at h
  split_ifs at h
  cases h
  rfl

theorem iterate_keeps {I : Cursor → Prop} {step : Cursor → Option Cursor} {s : Cursor}
    (hstep : ∀ {s s' : Cursor}, I s → step s = some s' → I s') (hs : I s) : I (s.iterate step) := by
  induction s using Cursor.iterate.induct step with
  | case1 s h => rwa [iterate_of_none h]
  | case2 s s' h hlt ih =>
    rw [iterate_of_some h hlt]
    exact ih (hstep hs h)
  | case3 s s' h hlt =>
    unfold Cursor.iterate
    simp only [h, hlt, if_false]
    exact hstep hs h

/-- A property that still holds when the cursor has moved on. -/
def Lasting (I : Cursor → Prop) : Prop := ∀ s : Cursor, I s → I s.next

namespace Lasting

variable {I : Cursor → Prop} {s : Cursor}

theorem behind (h : Lasting I) : Lasting fun s => I s.next := fun s hs => h s.next hs

variable (h : Lasting I)
include h

theorem skipParts (hs : I s) : I s.skipParts.2 := by
  induction s using Cursor.skipParts.induct with
  | case1 s hdot hi ih =>
    rw [Cursor.skipParts]
    simp only [hdot, hi, dite_true, if_true]
    exact ih (h _ (h _ hs))
  | case2 s hdot hi =>
    rw [Cursor.skipParts]
    simp only [hdot, hi, dite_true]
    exact h _ hs
  | case3 s hdot =>
    rw [Cursor.skipParts]
    simp only [hdot]
    exact hs

theorem skipAnnot (hs : I s) : I s.skipAnnot.2 := by
  have hparts := h.skipParts (h _ (h _ hs))
  unfold Cursor.skipAnnot
  split_ifs
  · split
    · next s' h' =>
      rw [h'] at hparts
      exact hparts
    · next s' h' =>
      rw [h'] at hparts
      split_ifs
      · exact h _ hparts
      · exact hparts
  · exact h _ hs
  · exact hs

theorem skipModifiers (hs : I s) : I s.skipModifiers := by
  refine iterate_keeps (fun {s s'} hs hstep => ?_) hs
  split_ifs at hstep
  · split at hstep
    · next hannot =>
      cases hstep
      have := h.skipAnnot hs
      rwa [hannot] at this
    · cases hstep
  · cases hstep
    exact h _ hs

theorem skipDims (hs : I s) : I s.skipDims := by
  refine iterate_keeps (fun {s s'} hs hstep => ?_) hs
  split_ifs at hstep
  cases hstep
  exact h _ hs

theorem skipAngle (hs : I s) : I s.skipAngle := by
  unfold Cursor.skipAngle
  split_ifs
  · exact h _ hs
  · exact hs

theorem skipGroup (kind : GroupKind) (hs : I s) : I (s.skipGroup kind) := by
  unfold Cursor.skipGroup
  split_ifs
  · exact h _ hs
  · exact hs

theorem moreParts (hs : I s) : I s.moreParts.cursor := by
  induction s using Cursor.moreParts.induct with
  | case1 s hdot hi behind ih =>
    rw [moreParts_of_dot hdot hi]
    exact ih (h.skipAngle (h _ (h _ hs)))
  | case2 s hdot hi =>
    rw [moreParts_of_bare_dot hdot (by simpa using hi)]
    exact h _ hs
  | case3 s hdot =>
    rw [moreParts_of_not_dot (by simpa using hdot)]
    exact hs

theorem typeName (hs : I s) : I s.typeName.cursor := h.moreParts (h.skipAngle (h _ hs))

theorem skipType (hs : I s) : I s.skipType.2 := by
  unfold Cursor.skipType
  simp only
  split_ifs
  · exact h.skipDims (h _ hs)
  · exact h.skipDims (h.typeName hs)
  · exact h.typeName hs
  · exact hs

theorem skipThrough (p : Element → Bool) (hs : I s) : I (s.skipThrough p).2 := by
  induction s using Cursor.skipThrough.induct p with
  | case1 s hnext hp =>
    rw [Cursor.skipThrough]
    simp only [hnext, hp, dite_true, if_true]
    exact h _ hs
  | case2 s hnext hp ih =>
    rw [Cursor.skipThrough]
    simp only [hnext, hp, dite_true]
    exact ih (h _ hs)
  | case3 s hnext =>
    rw [Cursor.skipThrough]
    simp only [hnext]
    exact hs

theorem through (p : Element → Bool) (hnext : s.hasNext = true) (hs : I s.next) :
    I (s.skipThrough p).2 := by
  rw [Cursor.skipThrough]
  simp only [hnext, dite_true]
  split_ifs
  · exact hs
  · exact h.skipThrough p hs

theorem skipAnnotations {s' : Cursor} (hskip : Unnest.skipAnnotations s = some s') (hs : I s) :
    I s' := by
  unfold Unnest.skipAnnotations at hskip
  simp only at hskip
  split_ifs at hskip
  cases hskip
  refine iterate_keeps (fun {s s'} hs hstep => ?_) hs
  split at hstep
  · next hannot =>
    cases hstep
    have := h.skipAnnot hs
    rwa [hannot] at this
  · cases hstep

/-! ### Members -/

theorem finish {inside : Inside} {form : MemberForm} {ctx : BodyContext} {decided s' : Cursor}
    (hform : form ∈ constantForm inside :: memberForms inside)
    (hrec : form.recognize ctx s = some decided) (hfinish : form.finish decided = .ok () s')
    (hs : I s.next) : I s' := by
  -- every form passes over one element before the point that decides, or is decided at once
  rcases MemberForm.eq_of_mem hform with rfl | rfl | rfl | rfl | rfl | rfl | rfl
  · obtain ⟨s₁, hannot, -, rfl⟩ := recognizeConstant_eq_some hrec
    have h₁ := h.skipGroup .curly (h.skipGroup .round (h.behind.skipAnnotations hannot hs))
    change EStateM.Result.ok () (if Cursor.isAt _ .comma then _ else _) = _ at hfinish
    split_ifs at hfinish
    · cases hfinish
      exact h _ h₁
    · cases hfinish
      exact h₁
  · obtain ⟨s₁, htype, -, -, rfl⟩ := recognizeField_eq_some hrec
    have h₁ := h.behind.skipType (h.behind.skipModifiers hs)
    rw [htype] at h₁
    cases hfinish
    exact h.skipThrough _ h₁
  · obtain ⟨s₁, htype, -, -, -, rfl⟩ := recognizeMethod_eq_some hrec
    have h₂ := h.behind.skipModifiers (h.behind.skipAngle (h.behind.skipModifiers hs))
    have h₁ : I s₁.next := by
      rcases htype with ⟨-, rfl⟩ | htype
      · exact h _ h₂
      · have := h.behind.skipType h₂
        rwa [htype] at this
    cases hfinish
    exact h.skipThrough _ (h.skipDims (h _ h₁))
  · obtain ⟨-, -, rfl⟩ := recognizeClass_eq_some hrec
    cases hfinish
    exact h.skipThrough _ (h.behind.skipModifiers hs)
  · obtain ⟨-, -, rfl⟩ := recognizeStatic_eq_some hrec
    rw [eq_next_of_advance hfinish]
    exact h _ hs
  · obtain ⟨-, rfl⟩ := recognizeInstance_eq_some hrec
    rw [eq_next_of_advance hfinish]
    exact hs
  · obtain ⟨-, -, -, rfl⟩ := recognizeConstructor_eq_some hrec
    cases hfinish
    exact h.skipThrough _ (h _ (h.behind.skipAngle (h.behind.skipModifiers hs)))

/-- **What holds behind the first element of a member** holds behind the member. -/
theorem parse {inside : Inside} {form : MemberForm} {ctx : BodyContext} {decided s' : Cursor}
    {node : Node} (hform : form ∈ constantForm inside :: memberForms inside)
    (hrec : form.recognize ctx s = some decided) (hparse : form.parse ctx s = .ok node s')
    (hs : I s.next) : I s' :=
  h.finish hform hrec ((agrees_of_mem hform ctx s decided hrec).ok hparse) hs

end Lasting

/-! ### Further on in a range -/

variable {s t : Cursor}

/-- The cursor `t` stands in the range of `s`, at `s` or behind it. -/
def Ahead (s t : Cursor) : Prop :=
  ∃ k ≤ s.rest.length, t = { s with pos := s.pos + k, rest := s.rest.drop k }

theorem Ahead.refl (s : Cursor) : s.Ahead s := ⟨0, Nat.zero_le _, rfl⟩

theorem Ahead.settle (h : s.Ahead t) : s.Ahead t.settle := by
  obtain ⟨k, hk, rfl⟩ := h
  have hlen := (List.takeWhile_sublist (l := s.rest.drop k) (·.isComment)).length_le
  have hsplit : (s.rest.drop k).takeWhile (·.isComment) ++ (s.rest.drop k).dropWhile (·.isComment) =
      s.rest.drop k := List.takeWhile_append_dropWhile
  rw [List.length_drop] at hlen
  refine ⟨k + ((s.rest.drop k).takeWhile (·.isComment)).length, by omega, ?_⟩
  have hdrop := congrArg (List.drop ((s.rest.drop k).takeWhile (·.isComment)).length) hsplit
  rw [List.drop_left, List.drop_drop] at hdrop
  simp only [Cursor.settle, hdrop, Nat.add_assoc]

theorem lasting_ahead (s : Cursor) : Lasting s.Ahead := by
  rintro t ⟨k, hk, rfl⟩
  unfold Cursor.next
  simp only
  split
  · exact ⟨k, hk, rfl⟩
  · next e es hes =>
    refine Ahead.settle ⟨k + 1, ?_, ?_⟩
    · have hlen := congrArg List.length hes
      simp only [List.length_drop, List.length_cons] at hlen
      omega
    · rw [← List.drop_drop, hes]
      rfl

/-- The cursor stands in the list `es`, at the element with its position. -/
def Over (es : List Element) (s : Cursor) : Prop := s.rest = es.drop s.pos

theorem Over.settle {es : List Element} (h : s.Over es) : s.settle.Over es := by
  unfold Over at h ⊢
  unfold Cursor.settle
  simp only
  rw [← List.drop_drop, ← h]
  have hsplit : s.rest.takeWhile (·.isComment) ++ s.rest.dropWhile (·.isComment) = s.rest :=
    List.takeWhile_append_dropWhile
  have hdrop := congrArg (List.drop (s.rest.takeWhile (·.isComment)).length) hsplit
  rwa [List.drop_left] at hdrop

theorem lasting_over (es : List Element) : Lasting (Over es) := by
  intro s h
  unfold Cursor.next
  split
  · exact h
  · next e rest hrest =>
    refine Over.settle ?_
    unfold Over at h ⊢
    rw [hrest] at h
    simp only
    rw [← List.drop_drop, ← h]
    rfl

theorem pos_lt_next (h : s.hasNext = true) : s.pos < s.next.pos := by
  unfold Cursor.next
  split
  · next hrest => simp [hasNext, hrest] at h
  · simp only [Cursor.settle]
    omega

/-- No comment stands at the cursor. -/
def Settled (s : Cursor) : Prop := ∀ e, s.current? = some e → e.isComment = false

theorem settled_settle (s : Cursor) : s.settle.Settled := by
  intro e he
  have := List.head?_dropWhile_not (fun e : Element => e.isComment) s.rest
  unfold current? Cursor.settle at he
  simp only at he
  rw [he] at this
  simpa using this

theorem lasting_settled : Lasting Settled := by
  intro s hs
  unfold Cursor.next
  split
  · exact hs
  · exact settled_settle _

theorem lasting_false : Lasting fun _ => False := fun _ => id

theorem lasting_length_lt (n : Nat) : Lasting fun s => s.rest.length < n :=
  fun s hs => Nat.lt_of_le_of_lt s.length_rest_next_le hs

end Cursor

end Unnest
