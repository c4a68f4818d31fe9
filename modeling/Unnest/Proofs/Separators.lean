import Unnest.Text.Basic
import Mathlib.Data.List.TakeWhile
import Mathlib.Tactic.Common

/-!
# Texts cut at separators

A text that holds a separator has a part in front of the last one and a part behind it, and both are
determined by the text. The parts between all separators come one after the other.

* `Text.append_separator_inj`: the two parts at the last separator;
* `Text.splitOn_append`: the parts of a text that goes on behind a separator.
-/

namespace Unnest.Text

variable {sep : UInt8} {a b s s' : Text}

/-! ### The last separator -/

theorem bne_of_mem_reverse (hs : sep ∉ s) : ∀ b ∈ s.reverse, (b != sep) = true := by
  intro b hb
  rw [bne_iff_ne]
  rintro rfl
  exact hs (List.mem_reverse.mp hb)

theorem afterLast_of_notMem (hs : sep ∉ s) : afterLast sep s = s := by
  rw [afterLast, List.takeWhile_eq_self_iff.mpr (bne_of_mem_reverse hs), List.reverse_reverse]

theorem afterLast_append (hs : sep ∉ s) : afterLast sep (a ++ sep :: s) = s := by
  rw [afterLast, List.reverse_append, List.reverse_cons, List.append_assoc,
    List.takeWhile_append_of_pos (bne_of_mem_reverse hs)]
  simp

theorem notMem_afterLast : sep ∉ afterLast sep s := by
  intro h
  have := List.mem_takeWhile_imp (List.mem_reverse.mp h)
  simp at this

/-- A text has no separator, or it goes up to one and then on with what is behind the last one. -/
theorem eq_append_afterLast (sep : UInt8) (s : Text) :
    (sep ∉ s ∧ afterLast sep s = s) ∨ ∃ a, s = a ++ sep :: afterLast sep s := by
  by_cases hs : sep ∈ s
  · obtain ⟨front, back, hsplit, hback⟩ := List.eq_append_cons_of_mem (List.mem_reverse.mpr hs)
    have hsplit' : s = back.reverse ++ sep :: front.reverse := by
      rw [← List.reverse_reverse s, hsplit]
      simp
    refine Or.inr ⟨back.reverse, ?_⟩
    rw [hsplit', afterLast_append (by simpa using hback)]
  · exact Or.inl ⟨hs, afterLast_of_notMem hs⟩

theorem append_separator_inj (hs : sep ∉ s) (hs' : sep ∉ s') (h : a ++ sep :: s = b ++ sep :: s') :
    a = b ∧ s = s' := by
  have hback : s = s' := by rw [← afterLast_append (a := a) hs, h, afterLast_append hs']
  subst hback
  exact ⟨List.append_cancel_right h, rfl⟩

/-! ### All separators -/

theorem splitOn_ne_nil (sep : UInt8) (s : Text) : splitOn sep s ≠ [] := by
  cases s with
  | nil => simp [splitOn]
  | cons b s =>
    rw [splitOn]
    split
    · simp
    · split <;> simp

theorem splitOn_of_notMem (hs : sep ∉ s) : splitOn sep s = [s] := by
  induction s with
  | nil => rfl
  | cons b s ih =>
    simp only [List.mem_cons, not_or] at hs
    rw [splitOn, if_neg (by simpa using Ne.symm hs.1), ih hs.2]

theorem splitOn_append : splitOn sep (a ++ sep :: s) = splitOn sep a ++ splitOn sep s := by
  induction a with
  | nil => simp [splitOn]
  | cons b a ih =>
    rw [List.cons_append, splitOn, splitOn]
    split
    · rw [ih, List.cons_append]
    · obtain ⟨p, ps, hp⟩ := List.exists_cons_of_ne_nil (splitOn_ne_nil sep a)
      rw [ih, hp]
      rfl

end Unnest.Text
