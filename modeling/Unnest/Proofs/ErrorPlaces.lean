import Unnest.Proofs.CommentFree
import Unnest.Proofs.Codes
import Unnest.Proofs.Scanning

/-!
# Where errors point to

An error carries a place and the text that was found there. Whether a source cannot be scanned,
grouped or read, the place is one of the source, and the text stands there. Every error of the
grouping and of the reading is raised at a token that is no comment, and such a token stands in a
single line.

* `raisedAt_of_ofTokens`, `raisedAt_of_ofGroup`: the errors of a tree are raised at tokens;
* `File.error_points_to_text`: where the errors of a source point to.
-/

namespace Unnest

open Text Lexeme

/-! ### Scanning -/

/-- The text of the error stands in the lines of a source, at the line and the column of the
error. -/
def SourceError.Points (file : Text) (ls : List Text) (e : SourceError) : Prop :=
  e.file = file ∧ e.text ≠ [] ∧
    ∃ (n k : Nat) (l : Text), e.line = (n + 1 : Nat) ∧ e.col = (k + 1 : Nat) ∧ ls[n]? = some l ∧
      e.text <+: l.drop k

section Scanning

variable {file : Text} {ls : List Text} {n k : Nat} {l s : Text} {scan : LineScan} {t : Token}

/-- An error at the token points to its text. This leaves out comments, which may span lines. -/
def Token.Points (file : Text) (ls : List Text) (t : Token) : Prop :=
  t.kind ≠ .comment → ∀ cause, (t.error cause).Points file ls

/-- An open comment is a comment that begins with `/*`. -/
structure Token.OpenAt (file : Text) (ls : List Text) (t : Token) : Prop where
  kind : t.kind = .comment
  points : ∀ cause, (SourceError.ofPlace cause t.place (lit "/*")).Points file ls

/-- What the scan of a line gives points to the lines. -/
structure LineScan.Points (file : Text) (ls : List Text) (scan : LineScan) : Prop where
  tokens : ∀ t ∈ scan.tokens, t.Points file ls
  pending : ∀ t, scan.ending = .inComment t → t.OpenAt file ls
  failed : ∀ e, scan.ending = .failed e → e.Points file ls

theorem LineScan.Points.cons (h : scan.Points file ls) (ht : t.Points file ls) :
    (scan.cons t).Points file ls where
  tokens := List.forall_mem_cons.mpr ⟨ht, h.tokens⟩
  pending := h.pending
  failed := h.failed

theorem scanFrom_points (hl : ls[n]? = some l) (hs : l.drop k = s) (skip : Nat) (space : Bool) :
    (scanFrom file (n + 1) skip space (k + 1) s).Points file ls := by
  induction s generalizing k skip space with
  | nil => exact ⟨by simp [scanFrom], by simp [scanFrom], by simp [scanFrom]⟩
  | cons c cs ih =>
    have hcs : l.drop (k + 1) = cs := by rw [← List.drop_drop, hs, List.drop_one, List.tail_cons]
    -- whatever text stands in front of `c :: cs` stands at this column
    have hpoints : ∀ text, text ≠ [] → text <+: c :: cs → ∀ cause,
        (SourceError.ofPlace cause { file, line := (n + 1 : Nat), col := (k + 1 : Nat) }
          text).Points file ls :=
      fun text hne htext cause => ⟨rfl, hne, n, k, l, rfl, rfl, hl, hs ▸ htext⟩
    cases skip with
    | succ skip =>
      rw [scanFrom]
      exact ih hcs skip space
    | zero =>
      rw [scanFrom]
      split_ifs
      · exact ih hcs 0 true
      split
      · next kind more _ =>
        refine (ih hcs more false).cons fun _ => hpoints _ (List.cons_ne_nil _ _) ?_
        exact List.cons_prefix_cons.mpr ⟨rfl, List.take_prefix more cs⟩
      · next hopen =>
        obtain ⟨cs', rfl, rfl, -⟩ := exists_of_openComment hopen
        refine ⟨by simp, ?_, by simp⟩
        rintro _ ⟨⟩
        exact ⟨rfl, hpoints _ (by decide) (List.prefix_append (lit "/*") cs')⟩
      · refine ⟨by simp, by simp, ?_⟩
        rintro _ ⟨⟩
        exact hpoints [c] (List.cons_ne_nil _ _) (List.prefix_append [c] cs) _

theorem scanLine_points (hl : ls[n]? = some l) {pending : Option Token}
    (hpending : ∀ t, pending = some t → t.OpenAt file ls) :
    (scanLine file (n + 1) pending l).Points file ls := by
  unfold scanLine
  split
  · exact scanFrom_points hl l.drop_zero 0 true
  next comment =>
  have hcomment := hpending comment rfl
  split
  · refine ⟨by simp, ?_, by simp⟩
    rintro _ ⟨⟩
    exact ⟨hcomment.kind, hcomment.points⟩
  · next inside _ =>
    refine (scanFrom_points hl l.drop_zero (inside + 2) true).cons fun hkind => ?_
    exact absurd hcomment.kind hkind

/-- **The scan of a source** gives tokens that point to their text, and so does the error that stops
it. -/
theorem scanLines_points {rest : List Text} (hrest : ls.drop n = rest) {pending : Option Token}
    (hpending : ∀ t, pending = some t → t.OpenAt file ls) :
    (∀ t ∈ (scanLines file (n + 1) pending rest).tokens, t.Points file ls) ∧
      ∀ e, (scanLines file (n + 1) pending rest).error = some e → e.Points file ls := by
  induction rest generalizing n pending with
  | nil =>
    cases pending with
    | none => exact ⟨by simp [scanLines], by simp [scanLines]⟩
    | some comment =>
      refine ⟨by simp [scanLines], ?_⟩
      rintro _ ⟨⟩
      exact (hpending comment rfl).points _
  | cons l rest ih =>
    have hl : ls[n]? = some l := by rw [← List.head?_drop, hrest, List.head?_cons]
    have hdrop : ls.drop (n + 1) = rest := by
      rw [← List.drop_drop, hrest, List.drop_one, List.tail_cons]
    have hscan := scanLine_points hl hpending
    unfold scanLines
    simp only
    split
    · next e he => exact ⟨hscan.tokens, by simpa using hscan.failed e he⟩
    · have hnone : ∀ t : Token, none = some t → t.OpenAt file ls := by simp
      obtain ⟨htokens, herror⟩ := ih hdrop hnone
      exact ⟨List.forall_mem_append.mpr ⟨hscan.tokens, htokens⟩, herror⟩
    · next comment hcomment =>
      have hopen : ∀ t, some comment = some t → t.OpenAt file ls := by
        rintro _ ⟨⟩
        exact hscan.pending comment hcomment
      obtain ⟨htokens, herror⟩ := ih hdrop hopen
      exact ⟨List.forall_mem_append.mpr ⟨hscan.tokens, htokens⟩, herror⟩

end Scanning

/-! ### Grouping -/

theorem TokenKind.ne_comment_of_opens? {kind : TokenKind} {k : GroupKind}
    (h : kind.opens? = some k) :
    kind ≠ .comment := by
  rintro rfl
  cases h

theorem TokenKind.ne_comment_of_closes? {kind : TokenKind} {k : GroupKind}
    (h : kind.closes? = some k) :
    kind ≠ .comment := by
  rintro rfl
  cases h

/-- The error is raised at a token of the list that is no comment. -/
def SourceError.RaisedAt (tokens : List Token) (e : SourceError) : Prop :=
  ∃ t ∈ tokens, t.kind ≠ .comment ∧ ∃ cause, e = t.error cause

namespace Nest

/-- The opening brackets of the open groups. -/
def openings (nest : Nest) : List Token := nest.frames.map Frame.opening

theorem openings_add (nest : Nest) (e : Element) : (nest.add e).openings = nest.openings := by
  unfold add openings
  split
  · next h => rw [h]
  · next h => simp [h]

theorem openings_leave (nest : Nest) (closing : Token) :
    (nest.leave closing).openings = nest.openings.tail := by
  unfold leave
  split
  · next h => simp [openings, h]
  · next f fs h =>
    rw [openings_add]
    simp [openings, h]

variable {nest next : Nest} {index : Nat} {t : Token} {rest tokens : List Token} {e : SourceError}

theorem openings_step (h : nest.step index t rest = .ok next) :
    ∀ u ∈ next.openings, u ∈ nest.openings ∨ u = t ∧ u.kind ≠ .comment := by
  intro u hu
  rcases step_cases h with ⟨kind, hopens, rfl⟩ | ⟨d, hlt, -, rfl⟩ | ⟨f, fs, -, rfl, -⟩ | ⟨-, rfl⟩
  · rcases List.mem_cons.mp hu with rfl | hu
    · exact Or.inr ⟨rfl, TokenKind.ne_comment_of_opens? hopens⟩
    · exact Or.inl hu
  · rcases List.mem_cons.mp hu with rfl | hu
    · exact Or.inr ⟨rfl, by simp [hlt]⟩
    · exact Or.inl hu
  · rw [openings_leave] at hu
    exact Or.inl (List.mem_of_mem_tail hu)
  · rw [openings_add] at hu
    exact Or.inl hu

theorem step_eq_error (h : nest.step index t rest = .error e) :
    t.kind ≠ .comment ∧ ∃ cause, e = t.error cause := by
  unfold step at h
  split at h
  · cases h
  split at h
  · cases h
  split_ifs at h
  split at h
  · next kind hcloses =>
    refine ⟨TokenKind.ne_comment_of_closes? hcloses, ?_⟩
    unfold leaveWith at h
    split at h
    · cases h
      exact ⟨_, rfl⟩
    · split_ifs at h
      cases h
      exact ⟨_, rfl⟩
  · cases h

theorem raisedAt_of_finish (hopen : ∀ u ∈ nest.openings, u ∈ tokens ∧ u.kind ≠ .comment)
    (h : nest.finish t = .error e) : e.RaisedAt tokens := by
  unfold finish at h
  split at h
  · cases h
  · next f fs hf =>
    cases h
    obtain ⟨hmem, hkind⟩ := hopen f.opening (by simp [openings, hf])
    exact ⟨f.opening, hmem, hkind, _, rfl⟩

theorem raisedAt_of_run (hopen : ∀ u ∈ nest.openings, u ∈ tokens ∧ u.kind ≠ .comment)
    (hrest : rest ⊆ tokens) (h : nest.run index rest = .error e) : e.RaisedAt tokens := by
  induction rest generalizing nest index with
  | nil => exact raisedAt_of_finish hopen h
  | cons t ts ih =>
    obtain ⟨ht, hts⟩ := List.cons_subset.mp hrest
    unfold run at h
    split_ifs at h
    · exact raisedAt_of_finish hopen h
    split at h
    · next next hstep =>
      refine ih (fun u hu => ?_) hts h
      rcases openings_step hstep u hu with hu | ⟨rfl, hkind⟩
      · exact hopen u hu
      · exact ⟨ht, hkind⟩
    · next e' hstep =>
      cases h
      obtain ⟨hkind, hcause⟩ := step_eq_error hstep
      exact ⟨t, ht, hkind, hcause⟩

theorem closing_of_run {root : Group} (h : nest.run index rest = .ok root)
    (heof : ∃ t ∈ rest, t.kind = .eof) : root.closing ∈ rest ∧ root.closing.kind = .eof := by
  induction rest generalizing nest index with
  | nil =>
    obtain ⟨t, ht, -⟩ := heof
    cases ht
  | cons t ts ih =>
    unfold run at h
    split_ifs at h with ht
    · unfold finish at h
      split at h
      · cases h
        exact ⟨List.mem_cons_self, ht⟩
      · cases h
    split at h
    · next next hstep =>
      obtain ⟨u, hu, hk⟩ := heof
      have hu : u ∈ ts := by
        rcases List.mem_cons.mp hu with rfl | hu
        · exact absurd hk ht
        · exact hu
      obtain ⟨hmem, hkind⟩ := ih h ⟨u, hu, hk⟩
      exact ⟨List.mem_cons_of_mem _ hmem, hkind⟩
    · cases h

end Nest

theorem raisedAt_of_ofTokens {tokens : List Token} {e : SourceError}
    (h : Group.ofTokens tokens = .error e) :
    e.RaisedAt tokens :=
  Nest.raisedAt_of_run (by simp [Nest.openings]) (List.Subset.refl _) h

/-! ### Reading -/

section Reading

variable {tokens : List Token} {root : Group}

theorem brackets_of_holds (hroot : Group.ofTokens tokens = .ok root) {g : Group}
    (hg : root.Holds (.group g)) :
    (g.opening ∈ tokens ∧ g.opening.kind ≠ .comment) ∧ g.closing ∈ tokens ∧
    g.closing.kind ≠ .comment := by
  obtain ⟨-, hflat, hgrouped⟩ := grouped_of_ofTokens hroot
  obtain ⟨⟨i, j, _⟩, hp, rfl⟩ := hg
  obtain ⟨back, hback⟩ : flattenAll root.children <+: tokens := hflat ▸ List.takeWhile_prefix _
  have hget : ∀ {i : Nat} {t : Token}, (flattenAll root.children)[i]? = some t →
      tokens[i]? = some t := by
    intro i t ht
    rw [← hback, List.getElem?_append_left (List.getElem?_eq_some_iff.mp ht).1, ht]
  obtain ⟨hopening, hclosing⟩ := getElem?_of_placed hp
  have hplaced : ({ roots := root.children.reverse } : Nest).placed = root.placed := by
    simp [Nest.placed, Nest.placedFrames, Group.placed]
  refine ⟨⟨List.mem_of_getElem? (hget hopening), ?_⟩, List.mem_of_getElem? (hget hclosing), ?_⟩
  · rcases hgrouped.closed i j g (hplaced ▸ hp) with ⟨-, -, d, ⟨⟨t, ht, hlt⟩, -⟩, -⟩ | ⟨hopens, -⟩
    · rw [hget hopening] at ht
      cases ht
      simp [hlt]
    · exact TokenKind.ne_comment_of_opens? hopens
  · rcases hgrouped.closed i j g (hplaced ▸ hp) with ⟨-, hgt, -⟩ | ⟨-, hcloses⟩
    · simp [hgt]
    · exact TokenKind.ne_comment_of_closes? hcloses

theorem mem_of_holds (hroot : Group.ofTokens tokens = .ok root) {t : Token}
    (ht : root.Holds (.token t)) :
    t ∈ tokens := by
  obtain ⟨-, hflat, -⟩ := grouped_of_ofTokens hroot
  obtain ⟨front, back, hsplit⟩ := ht.exists_flatten
  have hmem : t ∈ flattenAll root.children := by
    rw [hsplit]
    simp [Element.flatten]
  rw [hflat] at hmem
  exact List.takeWhile_subset _ hmem

/-- The invariant of a tree without its comments: errors are raised at tokens of the source. -/
def ElementInvariant.bare (hroot : Group.ofTokens tokens = .ok root) : ElementInvariant where
  element := fun e => ∃ x, root.Holds x ∧ x.isComment = false ∧ e = x.uncommented
  closing := fun t => t ∈ tokens ∧ t.kind ≠ .comment
  error := SourceError.RaisedAt tokens
  closing_of_group := by
    rintro g ⟨_ | g', hg, -, he⟩
    · cases he
    · rw [Element.uncommented_group] at he
      cases he
      exact (brackets_of_holds hroot hg).2
  children := by
    rintro g ⟨_ | g', hg, -, he⟩ c hc
    · cases he
    · rw [Element.uncommented_group] at he
      cases he
      simp only [Group.uncommented, uncommentedAll_eq, List.mem_map, List.mem_filter] at hc
      obtain ⟨x, ⟨hx, hcomment⟩, rfl⟩ := hc
      exact ⟨x, hg.children x hx, by simpa using hcomment, rfl⟩
  error_at := by
    rintro _ cause ⟨t | g, hx, hcomment, rfl⟩ -
    · exact ⟨t, mem_of_holds hroot hx, by simpa [Element.is] using hcomment, cause, rfl⟩
    · obtain ⟨⟨hmem, hkind⟩, -⟩ := brackets_of_holds hroot hx
      exact ⟨g.opening, hmem, hkind, cause, by rw [Element.firstToken_uncommented]; rfl⟩
  error_closing := fun ht _ => ⟨_, ht.1, ht.2, _, rfl⟩

theorem ElementInvariant.bare_cursor (hroot : Group.ofTokens tokens = .ok root)
    (heof : ∃ t ∈ tokens, t.kind = .eof) : (bare hroot).cursor (.ofGroup root.uncommented) := by
  obtain ⟨hmem, hkind⟩ := Nest.closing_of_run hroot heof
  have hclosing : root.closing.kind ≠ .comment := by simp [hkind]
  refine ⟨⟨hmem, hclosing⟩, fun e he => ?_⟩
  have he : e ∈ uncommentedAll root.children := Cursor.rest_settle_subset _ he
  rw [uncommentedAll_eq] at he
  obtain ⟨x, hx, rfl⟩ := List.mem_map.mp he
  obtain ⟨hx, hcomment⟩ := List.mem_filter.mp hx
  exact ⟨x, exists_placed_of_mem hx 0, by simpa using hcomment, rfl⟩

theorem raisedAt_of_ofGroup (hroot : Group.ofTokens tokens = .ok root)
    (heof : ∃ t ∈ tokens, t.kind = .eof) {e : SourceError} (h : File.ofGroup root = .error e) :
    e.RaisedAt tokens := by
  -- comments have no say in the error, and without them every element is a place for it
  rcases Except.eq_error_or_eq_ok (File.essence_ofGroup root) with ⟨e', he, hbare⟩ | ⟨f, -, hf, -⟩
  · rw [h] at he
    cases he
    exact (ElementInvariant.bare hroot).error_of_ofGroup
      (ElementInvariant.bare_cursor hroot heof) hbare
  · rw [h] at hf
    cases hf

end Reading

/-! ### Sources -/

section Sources

variable {source : Source} {e : SourceError}

theorem points_of_scanLines (source : Source) :
    (∀ t ∈ (scanLines source.name 1 none source.text.lines).tokens,
      t.Points source.name source.text.lines) ∧
      ∀ e, (scanLines source.name 1 none source.text.lines).error = some e →
        e.Points source.name source.text.lines := by
  have hnone : ∀ t : Token, none = some t → t.OpenAt source.name source.text.lines := by simp
  exact scanLines_points (n := 0) source.text.lines.drop_zero hnone

theorem points_of_lex {tokens : List Token} (h : lex source = .ok tokens) :
    ∃ ts line, tokens = ts ++ [.ofEnd source.name line] ∧
      ∀ t ∈ ts, t.Points source.name source.text.lines := by
  obtain ⟨ts, hts, rfl⟩ := lex_eq_ok_iff_scanLines.mp h
  have hpoints := (points_of_scanLines source).1
  rw [hts] at hpoints
  exact ⟨ts, _, rfl, hpoints⟩

theorem SourceError.RaisedAt.points_or_atEnd {tokens : List Token} (h : e.RaisedAt tokens)
    (hlex : lex source = .ok tokens) :
    e.Points source.name source.text.lines ∨
      ∃ ts line cause, lex source = .ok (ts ++ [.ofEnd source.name line]) ∧
        e = (Token.ofEnd source.name line).error cause := by
  obtain ⟨ts, line, rfl, hpoints⟩ := points_of_lex hlex
  obtain ⟨t, ht, hkind, cause, rfl⟩ := h
  rcases List.mem_append.mp ht with ht | ht
  · exact Or.inl (hpoints t ht hkind cause)
  · rw [List.mem_singleton.mp ht]
    exact Or.inr ⟨ts, line, cause, hlex, rfl⟩

theorem points_or_atEnd_of_ofSource (h : File.ofSource source = .error e) :
    e.Points source.name source.text.lines ∨
      ∃ ts line cause, lex source = .ok (ts ++ [.ofEnd source.name line]) ∧
        e = (Token.ofEnd source.name line).error cause := by
  rcases Except.bind_eq_error.mp h with h | ⟨root, hroot, h⟩
  · rcases Except.bind_eq_error.mp h with h | ⟨tokens, hlex, h⟩
    · exact Or.inl ((points_of_scanLines source).2 e (lex_eq_error_iff_scanLines.mp h))
    · exact (raisedAt_of_ofTokens h).points_or_atEnd hlex
  · obtain ⟨tokens, hlex, hroot⟩ := Except.bind_eq_ok.mp hroot
    have heof : ∃ t ∈ tokens, t.kind = .eof := by
      obtain ⟨ts, line, rfl, -⟩ := points_of_lex hlex
      exact ⟨.ofEnd source.name line, List.mem_append_right _ List.mem_cons_self, rfl⟩
    exact (raisedAt_of_ofGroup hroot heof h).points_or_atEnd hlex

end Sources

/-- **Errors point to the source.** Whether a source cannot be scanned, grouped or read, its error
names the source. It is raised at the token behind the source, or else its text stands at its line
and column. -/
theorem File.error_points_to_text {source : Source} {e : SourceError}
    (h : File.ofSource source = .error e) :
    e.file = source.name ∧
    ((∃ tokens last, lex source = .ok (tokens ++ [last]) ∧ last.kind = .eof ∧
      last.text = lit "<EOF>" ∧
        e = last.error e.cause) ∨
      e.text ≠ [] ∧ ∃ (n k : Nat) (l : Text), e.line = (n + 1 : Nat) ∧ e.col = (k + 1 : Nat) ∧
        source.text.lines[n]? = some l ∧ e.text <+: l.drop k) := by
  rcases points_or_atEnd_of_ofSource h with ⟨hfile, htext⟩ | ⟨ts, line, cause, hlex, rfl⟩
  · exact ⟨hfile, Or.inr htext⟩
  · exact ⟨rfl, Or.inl ⟨ts, _, hlex, rfl, rfl, rfl⟩⟩

/-- A field whose anonymous class holds something that is no member, behind a comment over two
lines. -/
def noMemberBehindComment : Source :=
  ⟨lit "T", lit "class A \x7b\n  /* x\n y */ int f = new B() \x7b = \x7d;\n\x7d"⟩

theorem File.error_points_to_text_behind_comment :
    File.ofSource noMemberBehindComment = .error ⟨.noMember [], lit "T", 3, 25, lit "="⟩ ∧
      ∃ (n k : Nat) (l : Text), (3 : Int) = (n + 1 : Nat) ∧ (25 : Int) = (k + 1 : Nat) ∧
        noMemberBehindComment.text.lines[n]? = some l ∧ lit "=" <+: l.drop k := by
  have herror : File.ofSource noMemberBehindComment =
      .error ⟨.noMember [], lit "T", 3, 25, lit "="⟩ := by
    have hmap : (File.ofSource noMemberBehindComment).map (fun _ => ()) =
        .error ⟨.noMember [], lit "T", 3, 25, lit "="⟩ := by
      decide +kernel
    cases h : File.ofSource noMemberBehindComment with
    | ok f =>
      rw [h] at hmap
      cases hmap
    | error e =>
      rw [h] at hmap
      cases hmap
      rfl
  refine ⟨herror, ?_⟩
  rcases (File.error_points_to_text herror).2 with ⟨ts, last, -, -, htext, he⟩ | ⟨-, hplace⟩
  · have htext' : lit "=" = lit "<EOF>" := (congrArg SourceError.text he).trans htext
    exact absurd htext' (by decide)
  · exact hplace

end Unnest
