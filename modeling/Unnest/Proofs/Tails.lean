import Unnest.Proofs.TwinRuns

/-!
# Ranges with the same beginning

Two ranges may begin with the same elements and go on differently. A parser cannot tell them apart
until it gets to where they part, and a member that ends there or in front of it is closed by its
own semicolon or braces, so it is read alike in both.

* `Cursor.extend`: the cursor over a range with more elements behind it;
* `Pace.fork`: two ranges that go on differently behind the same beginning.
-/

namespace Unnest

open Unnest.Parser

namespace Cursor

variable {more : List Element} {s : Cursor}

/-- The cursor with more elements behind its range. -/
def extend (s : Cursor) (more : List Element) : Cursor :=
  { s with rest := s.rest ++ more, stop := s.stop + more.length }

theorem extend_nil (s : Cursor) : s.extend [] = s := by
  simp [extend]

theorem length_rest_extend : (s.extend more).rest.length = s.rest.length + more.length := by
  simp [extend]

theorem hasNext_iff_length : s.hasNext = true ↔ 0 < s.rest.length := by
  cases h : s.rest <;> simp [hasNext, h]

theorem hasNext_of_lt_extend (h : more.length < (s.extend more).rest.length) :
    s.hasNext = true := by
  rw [length_rest_extend] at h
  exact hasNext_iff_length.mpr (by omega)

theorem current?_extend (h : s.hasNext = true) : (s.extend more).current? = s.current? := by
  obtain ⟨e, he⟩ := hasNext_iff.mp h
  unfold current? extend
  unfold current? at he
  simp [List.head?_append, he]

/-- Comments in front of the elements that are added may be passed over before or afterwards. -/
theorem settle_extend_settle (s : Cursor) (more : List Element) :
    (s.settle.extend more).settle = (s.extend more).settle := by
  obtain ⟨pos, rest, stop, closing⟩ := s
  induction rest generalizing pos with
  | nil => rfl
  | cons e es ih =>
    cases he : e.isComment with
    | false => simp [settle, extend, he]
    | true =>
      have hrest := ih (pos + 1)
      simp only [settle, extend, List.cons_append, List.takeWhile_cons, List.dropWhile_cons, he,
        if_true, List.length_cons, Cursor.mk.injEq, and_true] at hrest ⊢
      exact ⟨by omega, hrest.2⟩

theorem settle_of_settled (h : s.Settled) : s.settle = s := by
  obtain ⟨pos, rest, stop, closing⟩ := s
  cases rest with
  | nil => rfl
  | cons e es => simp [settle, h e rfl]

theorem settled_extend (h : s.Settled) (hnext : s.hasNext = true) : (s.extend more).Settled := by
  intro e he
  rw [current?_extend hnext] at he
  exact h e he

theorem settle_extend (hmore : ∀ e, more.head? = some e → e.isComment = false) (s : Cursor) :
    (s.extend more).settle = s.settle.extend more := by
  rw [← settle_extend_settle]
  refine settle_of_settled fun e he => ?_
  by_cases hnext : s.settle.hasNext = true
  · exact settled_extend (settled_settle s) hnext e he
  · have hrest : s.settle.rest = [] := by simpa [hasNext] using hnext
    exact hmore e (by simpa [current?, extend, hrest] using he)

theorem next_extend (hmore : ∀ e, more.head? = some e → e.isComment = false)
    (h : s.hasNext = true) :
    (s.extend more).next = s.next.extend more := by
  obtain ⟨pos, rest, stop, closing⟩ := s
  cases rest with
  | nil => cases h
  | cons e es => exact settle_extend hmore { pos := pos + 1, rest := es, stop, closing }

/-- Moving on over an element in front of what was added, whatever that is. -/
theorem next_extend_settle (h : s.hasNext = true) (more : List Element) :
    (s.extend more).next = (s.next.extend more).settle := by
  obtain ⟨pos, rest, stop, closing⟩ := s
  cases rest with
  | nil => cases h
  | cons e es =>
    exact (settle_extend_settle { pos := pos + 1, rest := es, stop, closing } more).symm

/-- No more than `n` elements are left, apart from `@`s in front of them. -/
inductive Spent (n : Nat) : Cursor → Prop
  | behind {s : Cursor} (h : s.rest.length ≤ n) : Spent n s
  | sign {s : Cursor} (hat : s.isAt .atSign = true) (h : Spent n s.next) : Spent n s

theorem lasting_spent (n : Nat) : Lasting (Spent n) := by
  intro s h
  cases h with
  | behind h => exact .behind (s.length_rest_next_le.trans h)
  | sign _ h => exact h

end Cursor

/-! ### The pace -/

namespace Pace

variable {levels : Nat} {more more' : List Element} {s s' b : Cursor}

/-- The cursors `s` and `s'` stand in the same beginning, behind which there are `more` and
`more'`. -/
def Fork (levels : Nat) (more more' : List Element) (s s' : Cursor) : Prop :=
  ∃ b : Cursor, b.Settled ∧ b.Shallow levels ∧ s = b.extend more ∧ s' = (b.extend more').settle

/-- In front of the place where the ranges part, both cursors stand at the same element. -/
theorem Fork.exists_base (h : Fork levels more more' s s') (hspent : ¬ s.Spent more.length) :
    ∃ b : Cursor, b.Settled ∧ b.Shallow levels ∧ b.hasNext = true ∧ s = b.extend more ∧
      s' = b.extend more' := by
  obtain ⟨b, hsettled, hshallow, rfl, rfl⟩ := h
  have hnext : b.hasNext = true :=
    Cursor.hasNext_of_lt_extend (Nat.lt_of_not_le fun hle => hspent (.behind hle))
  exact ⟨b, hsettled, hshallow, hnext, rfl,
    Cursor.settle_of_settled (Cursor.settled_extend hsettled hnext)⟩

/-- Two ranges that go on differently behind the same beginning. The first one does not go on with a
comment. -/
def fork (levels : Nat) (more more' : List Element)
    (hmore : ∀ e, more.head? = some e → e.isComment = false) :
    Pace where
  rel := Fork levels more more'
  past := Cursor.Spent more.length
  look := by
    intro s s' hs hspent
    obtain ⟨b, -, -, hnext, rfl, rfl⟩ := hs.exists_base hspent
    exact .of_eq (by rw [Cursor.current?_extend hnext, Cursor.current?_extend hnext]) rfl
  next := by
    intro s s' hs hspent _
    obtain ⟨b, -, hshallow, hnext, rfl, rfl⟩ := hs.exists_base hspent
    refine ⟨b.next, ?_, hshallow.next, Cursor.next_extend hmore hnext,
      Cursor.next_extend_settle hnext more'⟩
    unfold Cursor.next
    split
    · next hrest => simp [Cursor.hasNext, hrest] at hnext
    · exact Cursor.settled_settle _
  lt := by
    intro s s' t t' hs ht hspent hspent'
    obtain ⟨b, -, -, -, rfl, rfl⟩ := hs.exists_base hspent
    obtain ⟨c, -, -, -, rfl, rfl⟩ := ht.exists_base hspent'
    simp only [Cursor.length_rest_extend]
    omega
  past_next := Cursor.lasting_spent more.length
  past_at _ := .sign

theorem limit_fork (hmore : ∀ e, more.head? = some e → e.isComment = false) :
    (fork levels more more' hmore).Limit (fun e e' => e = e' ∧ e.depth ≤ levels) fun s =>
    s.rest.length < more.length where
  lasting := Cursor.lasting_length_lt _
  past_of_over h := .behind h.le
  over_of_past := by
    intro s hspent hnext hat
    cases hspent with
    | behind hle => exact (Cursor.length_rest_next_lt hnext).trans_le hle
    | sign hsign _ =>
      rw [hat] at hsign
      cases hsign
  pass := by
    intro s s' e e' hs hspent he he'
    obtain ⟨b, -, hshallow, hnext, rfl, rfl⟩ := Fork.exists_base hs hspent
    rw [Cursor.current?_extend hnext] at he he'
    exact Or.inr ⟨Option.some.inj (he.symm.trans he'), hshallow e (Cursor.mem_rest_of_current he)⟩

end Pace

end Unnest
