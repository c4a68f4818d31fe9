import Unnest.Report.Diagnostic
import Unnest.Proofs.ErrorPlaces
import Unnest.Proofs.LineBreaks
import Unnest.Proofs.Positions
import Unnest.Proofs.Readings

/-!
# Excerpts

The report of an error shows a line of the source, which it looks up by its number without splitting
the source into lines. The line that it finds is the one that the scan has read, so the token of the
error stands above the caret. The end of a source stands in no line: an error there shows the last
line from its beginning.

* `SourceError.showsLine_of_getElem?`: a report with an excerpt;
* `SourceError.diagnostic_shows_tokens`: the reports of all errors in a source.
-/

namespace Unnest

open Text Lexeme

namespace Text

variable {s a : Text}

/-! ### Lines by their numbers -/

theorem belowFirst_of_notMem (h : newline ∉ s) : belowFirst s = [] := by
  have := belowFirst_append h []
  rwa [List.append_nil] at this

theorem afterNewline?_eq (s : Text) :
    afterNewline? s = if newline ∈ s then some (belowFirst s) else none := by
  induction s with
  | nil => rfl
  | cons b s ih =>
    rw [afterNewline?]
    by_cases hb : b = newline
    · subst hb
      rw [if_pos (by simp), if_pos List.mem_cons_self, belowFirst_newline]
    · rw [if_neg (by simpa using hb), ih, belowFirst_cons hb]
      simp [Ne.symm hb]

theorem lineBelow?_eq (k : Nat) (s : Text) : lineBelow? k s = (lines s)[k]? := by
  induction k generalizing s with
  | zero =>
    cases s with
    | nil => rfl
    | cons b s =>
      rw [lines_eq, if_neg (List.cons_ne_nil b s)]
      rfl
  | succ k ih =>
    rw [lineBelow?, afterNewline?_eq]
    split_ifs with hnew
    · have hs : s ≠ [] := List.ne_nil_of_mem hnew
      rw [lines_eq, if_neg hs, List.getElem?_cons_succ, ← ih]
      rfl
    · -- without a newline there is one line at most
      rw [lines_eq, belowFirst_of_notMem hnew]
      split_ifs <;> rfl

/-- **The line that is looked up** is the line that is read. -/
theorem line?_eq (s : Text) (k : Int) :
    line? s k = if k ≤ 0 then none else (lines s)[k.toNat - 1]? := by
  rw [line?, lineBelow?_eq]

theorem line?_succ (s : Text) (n : Nat) : line? s (n + 1 : Nat) = (lines s)[n]? := by
  rw [line?_eq, if_neg (by omega)]
  rfl

theorem firstLine_append_of_mem (h : newline ∈ a) (s : Text) :
    firstLine (a ++ s) = firstLine a := by
  unfold firstLine
  rw [List.takeWhile_append, if_neg]
  intro hlen
  have hall : firstLine a = a := (List.takeWhile_prefix _).eq_of_length hlen
  exact newline_notMem_firstLine a (hall.symm ▸ h)

end Text

/-! ### Carets -/

/-- The byte below the byte `i` of a line: a tab below a tab, a space below anything else. -/
def underline (l : Text) (i : Nat) : UInt8 := if l[i]? = some (chr '\t') then chr '\t' else chr ' '

theorem caretBelow_eq (k : Nat) (l : Text) :
    caretBelow k l = (List.range k).map (underline l) ++ lit "^" := by
  induction k generalizing l with
  | zero => rfl
  | succ k ih =>
    rw [List.range_succ_eq_map, List.map_cons, List.map_map, List.cons_append]
    cases l with
    | nil =>
      rw [caretBelow, ih]
      rfl
    | cons b l =>
      rw [caretBelow, ih]
      have hhead : (if (b == chr '\t') = true then b else chr ' ') = underline (b :: l) 0 := by
        by_cases hb : b = chr '\t' <;> simp [underline, hb]
      rw [hhead]
      rfl

theorem excerpt_nil (line col : Int) : excerpt [] line col = [] := by
  rw [excerpt, line?_eq]
  split_ifs <;> rfl

namespace SourceError

variable {e : SourceError} {s l : Text} {n k : Nat}

/-- The report shows the line `l` and below it a caret. Behind the margin, `k` bytes stand in front
of the caret: a tab where the line has a tab, and a space everywhere else. -/
def ShowsLine (e : SourceError) (s l : Text) (k : Nat) : Prop :=
  ∃ pad : Text, pad.length = k ∧
    (∀ i < k, pad[i]? = some (if l[i]? = some (chr '\t') then chr '\t' else chr ' ')) ∧
    ∀ color, e.diagnostic s color =
      e.diagnostic [] color ++ (lit "  " ++ l ++ lit "\n  " ++ pad ++ lit "^\n")

theorem diagnostic_of_line?_none (h : line? s e.line = none) (color : Bool) :
    e.diagnostic s color = e.diagnostic [] color := by
  have hs : excerpt s e.line e.col = [] := by
    rw [excerpt, h]
    split_ifs <;> rfl
  rw [diagnostic, diagnostic, excerpt_nil, hs]

theorem showsLine_of_getElem? (hline : e.line = (n + 1 : Nat)) (hcol : e.col = (k + 1 : Nat))
    (hl : (lines s)[n]? = some l) : e.ShowsLine s l k := by
  refine ⟨(List.range k).map (underline l), by simp, fun i hi => by simp [hi, underline],
    fun color => ?_⟩
  have hs : excerpt s e.line e.col =
      lit "  " ++ l ++ lit "\n  " ++ (List.range k).map (underline l) ++ lit "^\n" := by
    have hwidth : e.col.toNat - 1 = k := by omega
    rw [excerpt, if_neg (by omega), hline, line?_succ, hl, hwidth]
    simp only [caretBelow_eq, List.append_assoc]
    rfl
  rw [diagnostic, diagnostic, excerpt_nil, hs, List.append_nil]

/-! ### Errors in a source -/

variable {source : Source} {tokens : List Token} {t : Token}

theorem exists_line_of_lex (h : lex source = .ok tokens) (ht : t ∈ tokens) (hkind : t.kind ≠ .eof) :
    ∃ (n k : Nat) (l : Text), t.line = (n + 1 : Nat) ∧ t.col = (k + 1 : Nat) ∧
      source.text.lines[n]? = some l ∧
      (t.text <+: l.drop k ∨ t.kind = .comment ∧ newline ∈ t.text ∧
        firstLine t.text = l.drop k) := by
  obtain ⟨front, back, hstands⟩ := exists_stands_of_lex h ht hkind
  obtain ⟨l, below, hdrop, htext⟩ := hstands.exists_line fun _ => newline_notMem_of_mem_lines
  rw [unlines_cons] at htext
  have hl : source.text.lines[front.count newline]? = some l := by
    rw [← List.head?_drop, hdrop, List.head?_cons]
  refine ⟨front.count newline, lastWidth front, l, ?_, ?_, hl, ?_⟩
  · rw [hstands.line, Nat.add_comm]
  · rw [hstands.col, colBehind_one, Nat.add_comm]
  by_cases hnew : newline ∈ t.text
  · have hdropped : newline ∉ l.drop (lastWidth front) := fun hmem =>
      newline_notMem_of_mem_lines (List.mem_of_getElem? hl) (List.mem_of_mem_drop hmem)
    refine Or.inr ⟨(hstands.lexes.isBlockComment hnew).1, hnew, ?_⟩
    rw [← firstLine_append_of_mem hnew back, htext, firstLine_append_newline hdropped]
  · exact Or.inl (prefix_of_append_newline htext hnew)

theorem eq_ofEnd_of_lex (h : lex source = .ok tokens) (ht : t ∈ tokens) (hkind : t.kind = .eof) :
    t = .ofEnd source.name (if source.text.lines.isEmpty then 1 else source.text.lines.length) := by
  obtain ⟨ts, hscan, rfl⟩ := lex_eq_ok_iff_scanLines.mp h
  have hunclosed : Unclosed (scanLines source.name 1 none source.text.lines).tokens :=
    scanLines_unclosed (by simp) _
  rw [hscan] at hunclosed
  rcases List.mem_append.mp ht with ht | ht
  · exact absurd hkind (hunclosed t ht)
  · exact List.mem_singleton.mp ht

theorem showsLine_at_end (h : lex source = .ok tokens) (ht : t ∈ tokens) (hkind : t.kind = .eof)
    (hline : e.line = t.line) (hcol : e.col = t.col) :
    (source.text.lines = [] ∧ ∀ color, e.diagnostic source.text color = e.diagnostic [] color) ∨
      ∃ l, source.text.lines.getLast? = some l ∧ e.ShowsLine source.text l 0 := by
  rw [eq_ofEnd_of_lex h ht hkind] at hline hcol
  rcases List.eq_nil_or_concat' source.text.lines with hnil | ⟨ls, l, hlines⟩
  · refine Or.inl ⟨hnil, diagnostic_of_line?_none ?_⟩
    rw [line?_eq, hnil]
    split_ifs <;> rfl
  · refine Or.inr ⟨l, by rw [hlines, List.getLast?_concat], ?_⟩
    refine showsLine_of_getElem? (n := ls.length) ?_ hcol
      (by rw [hlines, List.getElem?_concat_length])
    rw [hline, hlines]
    simp [Token.ofEnd]

/-- **The reports of the errors in a source.** A line that a report looks up is the line with that
number that is read from the source, and there is none exactly where the source has no such line. So
the report of an error at a token shows the line of the token, with the text of the token above the
caret; of a comment over several lines this is the first line. Only the end of a source is not to be
seen: an error there shows the last line with the caret below its first byte, or no line if there is
none. All errors that the source itself gives rise to are of this sort. -/
theorem diagnostic_shows_tokens (source : Source) :
    (∀ k, line? source.text k = if k ≤ 0 then none else source.text.lines[k.toNat - 1]?) ∧
    (∀ tokens, lex source = .ok tokens →
      ∀ t ∈ tokens, ∀ e : SourceError, e.line = t.line → e.col = t.col →
      (t.kind ≠ .eof → ∃ (n k : Nat) (l : Text), t.line = (n + 1 : Nat) ∧ t.col = (k + 1 : Nat) ∧
        source.text.lines[n]? = some l ∧
        (t.text <+: l.drop k ∨ t.kind = .comment ∧ newline ∈ t.text ∧ firstLine t.text = l.drop k) ∧
        e.ShowsLine source.text l k) ∧
      (t.kind = .eof →
        (source.text.lines = [] ∧ ∀ color, e.diagnostic source.text color = e.diagnostic [] color) ∨
          ∃ l, source.text.lines.getLast? = some l ∧ e.ShowsLine source.text l 0)) ∧
    ∀ e, File.ofSource source = .error e →
      (∃ (n k : Nat) (l : Text), e.line = (n + 1 : Nat) ∧ e.col = (k + 1 : Nat) ∧
        source.text.lines[n]? = some l ∧ e.text ≠ [] ∧ e.text <+: l.drop k ∧
        e.ShowsLine source.text l k) ∨
      ∃ tokens t, lex source = .ok tokens ∧ t ∈ tokens ∧ t.kind = .eof ∧ e = t.error e.cause := by
  refine ⟨line?_eq source.text,
    fun tokens h t ht e hline hcol => ⟨fun hkind => ?_, fun hkind => ?_⟩, fun e he => ?_⟩
  · obtain ⟨n, k, l, hn, hk, hl, htext⟩ := exists_line_of_lex h ht hkind
    exact ⟨n, k, l, hn, hk, hl, htext, showsLine_of_getElem? (hline.trans hn) (hcol.trans hk) hl⟩
  · exact showsLine_at_end h ht hkind hline hcol
  · rcases points_or_atEnd_of_ofSource he
      with ⟨-, hne, n, k, l, hn, hk, hl, htext⟩ | ⟨ts, line, cause, hlex, rfl⟩
    · exact Or.inl ⟨n, k, l, hn, hk, hl, hne, htext, showsLine_of_getElem? hn hk hl⟩
    · exact Or.inr ⟨_, _, hlex, List.mem_append_right ts List.mem_cons_self, rfl, rfl⟩

example : (SourceError.ofPlace (.reported (lit "bad")) ⟨lit "T", 1, 3⟩ (lit "x")).diagnostic
    (lit "\t\tx\r\n") false =
    lit "T:1:3: error: bad ('x')\n  \t\tx\n  \t\t^\n" := by decide +kernel

/-- A closing bracket of the wrong kind, behind a comment over two lines and a tab. -/
def tabbed : Source := ⟨lit "T", lit "class A \x7b\r\n\tint a; /* x\r\n y */\t)\r\n"⟩

theorem diagnostic_shows_tokens_tabbed :
    ∃ e, File.ofSource tabbed = .error e ∧ e.text = lit ")" ∧
      ∃ (n k : Nat) (l : Text), e.line = (n + 1 : Nat) ∧
      e.col = (k + 1 : Nat) ∧ tabbed.text.lines[n]? = some l ∧ e.text ≠ [] ∧ e.text <+: l.drop k ∧
      e.ShowsLine tabbed.text l k := by
  have hmap : (File.ofSource tabbed).map (fun _ => ()) =
      .error ⟨.mismatchedClosing (lit "\x7b") 1 9, lit "T", 3, 7, lit ")"⟩ := by
    decide +kernel
  have herror := Except.map_eq_error.mp hmap
  refine ⟨_, herror, rfl, ?_⟩
  rcases (diagnostic_shows_tokens tabbed).2.2 _ herror
    with hplace | ⟨tokens, t, hlex, ht, hkind, he⟩
  · exact hplace
  · rw [eq_ofEnd_of_lex hlex ht hkind] at he
    exact absurd (congrArg SourceError.text he) (by decide)

/-- A source that ends where a class body is expected. -/
def headOnly : Source := ⟨lit "T", lit "class A"⟩

/-- The error is raised at the last token, and the report shows a line that does not hold its
text. -/
theorem diagnostic_at_end_hides_token :
    ∃ tokens t e, lex headOnly = .ok tokens ∧ t ∈ tokens ∧ File.ofSource headOnly = .error e ∧
      e = t.error e.cause ∧ t.text = lit "<EOF>" ∧ t.line = 1 ∧ t.col = 1 ∧
      e.diagnostic headOnly.text false =
      lit "T:1:1: error: expected class body ('<EOF>')\n  class A\n  ^\n" ∧
      ¬ lit "<EOF>" <:+: lit "  class A\n" := by
  have hmap : (File.ofSource headOnly).map (fun _ => ()) =
      .error ⟨.expected (lit "class body"), lit "T", 1, 1, lit "<EOF>"⟩ := by
    decide +kernel
  refine ⟨_, .ofEnd (lit "T") 1, ⟨.expected (lit "class body"), lit "T", 1, 1, lit "<EOF>"⟩,
    rfl, ?_, Except.map_eq_error.mp hmap, rfl, rfl, rfl, rfl, ?_, ?_⟩
  · decide +kernel
  · decide +kernel
  · decide +kernel

end SourceError

end Unnest
