import Unnest.Proofs.Positions

/-!
# What follows a number

A number that runs into a name is refused: `1x` is no token, nor are `0xg`, `1e` and `2.5z`. The
scan of a decimal number leaves before this is checked when it comes to the suffix of a
floating-point number, so `1fabc` is the number `1f` with the name `abc` behind it. That suffix is
the only way to get there.

* `Lexes.end_of_number`: what can follow a number;
* `lex_numbers_end`: the byte behind a number of a source.
-/

namespace Unnest

open Text Lexeme

variable {t : Token} {tokens : List Token}

/-- From a token in one line on, the line holds the token and what is left of the line behind it. -/
theorem Stands.drop_line {ls : List Text} {front back : Text} (hls : ∀ l ∈ ls, newline ∉ l)
    (h : Stands (unlines ls) t front back) (hnew : newline ∉ t.text) :
    ∃ l, ls[front.count newline]? = some l ∧
      l.drop (lastWidth front) = t.text ++ firstLine back := by
  obtain ⟨l, below, hdrop, htext⟩ := h.exists_line hls
  have hl : ls[front.count newline]? = some l := by rw [← List.head?_drop, hdrop, List.head?_cons]
  have hnot : newline ∉ l.drop (lastWidth front) := fun hmem =>
    hls l (List.mem_of_getElem? hl) (List.mem_of_mem_drop hmem)
  have hfirst := congrArg firstLine htext
  rw [unlines_cons, firstLine_append hnew, firstLine_append_newline hnot] at hfirst
  exact ⟨l, hl, hfirst.symm⟩

theorem Lexes.end_of_number {kind : TokenKind} {rest text : Text} (h : Lexes kind rest text)
    (hkind : kind = .intLit ∨ kind = .floatLit) :
    newline ∉ text ∧ (EndsName rest ∨
      kind = .floatLit ∧ ∃ x, text.getLast? = some x ∧ isFloatSuffix x = true) := by
  cases h with
  | @short c more hc hblank hmore h =>
    have hnew : newline ∉ c :: more := by
      rw [List.mem_cons]
      rintro (hmem | hmem)
      · exact hc hmem.symm
      · exact hmore hmem
    refine ⟨hnew, ?_⟩
    rcases lexeme_cases h with hword | ⟨hstart, hnumber⟩ | hmark
    · obtain ⟨-, hends, -⟩ := (word_iff hword).mp h
      exact Or.inl hends
    · exact Lexeme.end_of_number hstart hnumber
    · rcases hkind with rfl | rfl
      · exact absurd hmark (by decide)
      · exact absurd hmark (by decide)
  | long hcomment =>
    subst hcomment
    rcases hkind with hkind | hkind <;> cases hkind

/-- **What follows a number.** In a source that can be scanned, a number stands in its line where
its line and column say, and the byte behind it is no byte of a name, unless the number is a
floating-point one that ends with its suffix. -/
theorem lex_numbers_end {source : Source} (h : lex source = .ok tokens) (ht : t ∈ tokens)
    (hkind : t.kind = .intLit ∨ t.kind = .floatLit) :
    ∃ (n k : Nat) (l : Text), t.line = n + 1 ∧ t.col = k + 1 ∧ (lines source.text)[n]? = some l ∧
      t.text <+: l.drop k ∧
      ∀ b, l[k + t.text.length]? = some b → isNameByte b = true →
        t.kind = .floatLit ∧ ∃ x, t.text.getLast? = some x ∧ isFloatSuffix x = true := by
  have heof : t.kind ≠ .eof := by
    intro heof
    rw [heof] at hkind
    rcases hkind with hkind | hkind <;> cases hkind
  obtain ⟨front, back, hstands⟩ := exists_stands_of_lex h ht heof
  obtain ⟨hnew, hends⟩ := hstands.lexes.end_of_number hkind
  obtain ⟨l, hl, hdrop⟩ := hstands.drop_line (fun l hl => newline_notMem_of_mem_lines hl) hnew
  refine ⟨front.count newline, lastWidth front, l, ?_, ?_, hl, ?_, ?_⟩
  · rw [hstands.line]
    omega
  · rw [hstands.col, colBehind_one]
    omega
  · rw [hdrop]
    exact List.prefix_append _ _
  · intro b hb hname
    have hhead : (firstLine back).head? = some b := by
      rw [← List.getElem?_drop, hdrop, List.getElem?_append_right (Nat.le_refl _), Nat.sub_self,
        ← List.head?_eq_getElem?] at hb
      exact hb
    rcases hends with hends | hsuffix
    · rw [hends b hhead] at hname
      cases hname
    · exact hsuffix

/-- A long integer at the end of a line, and a floating-point number without a suffix in front of a
mark. -/
theorem lex_numbers_end_long :
    ∃ tokens t, lex ⟨lit "T", lit "1_0L\n2.e1;"⟩ = .ok tokens ∧ t ∈ tokens ∧ t.kind = .floatLit ∧
      t.text = lit "2.e1" ∧
      ∃ (n k : Nat) (l : Text), t.line = n + 1 ∧ t.col = k + 1 ∧
        (lines (lit "1_0L\n2.e1;"))[n]? = some l ∧ t.text <+: l.drop k ∧
        ∀ b, l[k + t.text.length]? = some b → isNameByte b = true →
          t.kind = .floatLit ∧ ∃ x, t.text.getLast? = some x ∧ isFloatSuffix x = true := by
  have h : lex ⟨lit "T", lit "1_0L\n2.e1;"⟩ = .ok [⟨.intLit, lit "1_0L", lit "T", 1, 1, true⟩,
      ⟨.floatLit, lit "2.e1", lit "T", 2, 1, true⟩, ⟨.semi, lit ";", lit "T", 2, 5, false⟩,
      .ofEnd (lit "T") 2] := by decide +kernel
  refine ⟨_, ⟨.floatLit, lit "2.e1", lit "T", 2, 1, true⟩, h, ?_, rfl, rfl, ?_⟩
  · exact List.mem_cons_of_mem _ List.mem_cons_self
  · exact lex_numbers_end h (List.mem_cons_of_mem _ List.mem_cons_self) (Or.inr rfl)

/-- A name can follow a number directly: the suffix of `1f` ends the number, and `abc` is a token of
its own. -/
theorem name_behind_number :
    lex ⟨lit "T", lit "1fabc"⟩ = .ok [⟨.floatLit, lit "1f", lit "T", 1, 1, true⟩,
        ⟨.ident, lit "abc", lit "T", 1, 3, false⟩, .ofEnd (lit "T") 1] ∧
      (lines (lit "1fabc"))[0]? = some (lit "1fabc") ∧
      (lit "1fabc")[0 + (lit "1f").length]? = some (chr 'a') ∧ isNameByte (chr 'a') = true := by
  decide +kernel

end Unnest
