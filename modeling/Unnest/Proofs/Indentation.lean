import Unnest.Proofs.Creations
import Unnest.Proofs.OpaqueBodies
import Unnest.Proofs.Positions
import Unnest.Proofs.Rescan
import Unnest.Proofs.Separators
import Mathlib

/-!
# Indentation

A block is written token by token, and whether a token begins a line is found out twice: from the
lines of the tokens when the margin is looked for, and from what the pen has seen when the token is
written. For tokens of a source both agree. A line is broken exactly in front of the tokens that
stand on a later line than the one before, and every line is indented by as much as its first token
stood to the right of the leftmost one.

* `Laid.inOrder`: what is known of the tokens of a source;
* `Code.block_keeps_indentation`: a whole block.
-/

namespace Unnest

open Text Lexeme

/-! ### Tokens in order -/

/-- The second token may stand behind the first one in a source. -/
structure Token.Precedes (t u : Token) : Prop where
  line : t.endLine ≤ u.line
  comment : t.isLineComment = true → t.endLine < u.line

/-- The last line of a token is more than white space. -/
def Token.IsSeen (t : Token) : Prop := ∃ b ∈ afterLast newline t.text, b ≠ chr ' '

/-- Tokens as they stand in a source, some of them left out. -/
structure InOrder (ts : List Token) : Prop where
  precedes : ts.Pairwise Token.Precedes
  seen : ∀ t ∈ ts, t.IsSeen

theorem InOrder.sublist {ts us : List Token} (h : InOrder ts) (hsub : us.Sublist ts) : InOrder us :=
  ⟨h.precedes.sublist hsub, fun t ht => h.seen t (hsub.subset ht)⟩

section Sources

variable {kind : TokenKind} {rest text file done s : Text} {space : Bool} {ts : List Token}
  {t u : Token}

theorem Lexes.eq_nil_of_lineComment (h : Lexes kind rest text) (hstarts : lit "//" <+: text) :
    rest = [] := by
  have hlit : lit "//" = [chr '/', chr '/'] := by decide
  obtain ⟨back, hback⟩ := hstarts
  rw [hlit, List.cons_append, List.cons_append] at hback
  cases h with
  | short hc hblank hmore h =>
    obtain ⟨rfl, rfl⟩ := List.cons.inj hback
    rw [List.cons_append, lexeme_slash, List.head?_cons, if_pos rfl] at h
    have hlen := (Lexeme.token.inj h).2
    simp only [List.nil_append, List.length_cons, List.length_append] at hlen
    exact List.eq_nil_of_length_eq_zero (by omega)
  | long hkind hc hblank hl h htail =>
    obtain ⟨l, rfl, rfl, -⟩ := exists_of_openComment h
    exact absurd (List.cons.inj (List.cons.inj hback).2).1 (by decide)

theorem Lexes.exists_not_space (h : Lexes kind rest text) :
    ∃ b ∈ afterLast newline text, b ≠ chr ' ' := by
  rcases eq_append_afterLast newline text with ⟨hnew, htext⟩ | ⟨a, htext⟩
  · rw [htext]
    cases h with
    | @short c more hc hblank hmore h =>
      refine ⟨c, List.mem_cons_self, ?_⟩
      rintro rfl
      cases hblank
    | long hkind hc hblank hl h htail => simp at hnew
  · -- only a comment reaches over a line end, and it ends with a slash
    obtain ⟨-, inside, hcomment, -⟩ := h.isBlockComment (by rw [htext]; simp)
    have hlast : text.getLast? = some (chr '/') := by
      rw [hcomment, List.getLast?_append]
      rfl
    rw [htext, List.getLast?_append, List.getLast?_cons] at hlast
    cases hbelow : (afterLast newline text).getLast? with
    | none =>
      rw [hbelow] at hlast
      exact absurd (Option.some.inj hlast) (by decide)
    | some b =>
      rw [hbelow] at hlast
      cases hlast
      exact ⟨_, List.mem_of_getLast? hbelow, by decide⟩

theorem le_line_of_behind_le {a : Text} (h : behind a ≤ t.start) :
    (1 + a.count newline : Int) ≤ t.line := by
  rcases Prod.Lex.toLex_le_toLex.mp h with hlt | ⟨heq, -⟩
  · exact le_of_lt hlt
  · exact le_of_eq heq

theorem endLine_tokenBehind (kind : TokenKind) (text : Text) :
    (tokenBehind file done space kind text).endLine = 1 + ((done ++ text).count newline : Int) := by
  rw [List.count_append]
  simp only [Token.endLine, tokenBehind]
  push_cast
  rw [add_assoc]
  rfl

theorem Laid.lt_line (h : Laid file done space s ts) (hs : firstLine s = []) (ht : t ∈ ts) :
    (1 + done.count newline : Int) < t.line := by
  cases h with
  | nil => cases ht
  | lineEnd h =>
    have hle := le_line_of_behind_le (h.behind_le_start ht)
    rw [List.count_append] at hle
    simp at hle
    omega
  | @blank done rest space c ts hc h =>
    have hne : c ≠ newline := by
      rintro rfl
      rw [isBlank_newline] at hc
      cases hc
    rw [firstLine_cons hne] at hs
    cases hs
  | @token done rest text space kind ts hlexes h =>
    obtain ⟨c, more, rfl, hc⟩ := hlexes.exists_cons
    rw [List.cons_append, firstLine_cons hc] at hs
    cases hs

/-- **The tokens of a source** are in order. -/
theorem Laid.inOrder (h : Laid file done space s ts) : InOrder ts := by
  induction h with
  | nil => exact ⟨List.Pairwise.nil, by simp⟩
  | lineEnd h ih => exact ih
  | blank hc h ih => exact ih
  | @token done rest text space kind ts hlexes h ih =>
    refine ⟨List.Pairwise.cons (fun u hu => ⟨?_, fun hcomment => ?_⟩) ih.precedes,
      List.forall_mem_cons.mpr ⟨hlexes.exists_not_space, ih.seen⟩⟩
    · rw [endLine_tokenBehind]
      exact le_line_of_behind_le (h.behind_le_start hu)
    · rw [endLine_tokenBehind]
      rw [Token.isLineComment, Bool.and_eq_true, beq_iff_eq, List.isPrefixOf_iff_prefix] at hcomment
      exact h.lt_line (hlexes.eq_nil_of_lineComment hcomment.2) hu

end Sources

/-! ### Tokens that begin lines -/

/-- The token stands on a later line than the one in front of it, or it is the first one. -/
def BeginsLine (front : List Token) (t : Token) : Prop :=
  ∀ p, front.getLast? = some p → p.endLine < t.line

theorem beginsLine_nil (t : Token) : BeginsLine [] t := by simp [BeginsLine]

theorem beginsLine_concat {front : List Token} {p t : Token} : BeginsLine (front ++ [p]) t ↔
    p.endLine < t.line := by
  simp [BeginsLine]

theorem mem_startersAfter {p x : Token} {ts : List Token} : x ∈ startersAfter p.endLine ts ↔
    ∃ front back, ts = front ++ x :: back ∧ BeginsLine (p :: front) x := by
  induction ts generalizing p with
  | nil => simp [startersAfter]
  | cons t ts ih =>
    have hsplit : (∃ front back, t :: ts = front ++ x :: back ∧ BeginsLine (p :: front) x) ↔
        x = t ∧ p.endLine < t.line ∨ ∃ front back, ts = front ++ x :: back ∧
        BeginsLine (t :: front) x := by
      constructor
      · rintro ⟨_ | ⟨u, front⟩, back, heq, hbegins⟩
        · cases heq
          exact Or.inl ⟨rfl, hbegins p rfl⟩
        · obtain ⟨rfl, hts⟩ := List.cons.inj heq
          refine Or.inr ⟨front, back, hts, fun q hq => hbegins q ?_⟩
          rw [List.getLast?_cons_cons]
          exact hq
      · rintro (⟨rfl, hlt⟩ | ⟨front, back, rfl, hbegins⟩)
        · exact ⟨[], ts, rfl, by simpa [BeginsLine] using hlt⟩
        · refine ⟨t :: front, back, rfl, fun q hq => hbegins q ?_⟩
          rw [List.getLast?_cons_cons] at hq
          exact hq
    rw [hsplit, ← ih, startersAfter]
    split_ifs with hlt
    · simp [hlt]
    · simp [hlt]

theorem mem_lineStarters {x : Token} {ts : List Token} : x ∈ lineStarters true ts ↔
    ∃ front back, ts = front ++ x :: back ∧ BeginsLine front x := by
  cases ts with
  | nil => simp [lineStarters]
  | cons t ts =>
    rw [lineStarters, if_pos rfl, List.mem_cons, mem_startersAfter]
    constructor
    · rintro (rfl | ⟨front, back, rfl, hbegins⟩)
      · exact ⟨[], ts, rfl, beginsLine_nil x⟩
      · exact ⟨t :: front, back, rfl, hbegins⟩
    · rintro ⟨_ | ⟨u, front⟩, back, heq, hbegins⟩
      · cases heq
        exact Or.inl rfl
      · obtain ⟨rfl, hts⟩ := List.cons.inj heq
        exact Or.inr ⟨front, back, hts, hbegins⟩

/-- The columns of the tokens that begin a line. -/
def startCols (ts : List Token) : Set Int :=
  {col | ∃ front t back, ts = front ++ t :: back ∧ BeginsLine front t ∧ col = t.col}

theorem isLeast_marginOf {ts : List Token} (h : ts ≠ []) :
    IsLeast (startCols ts) (marginOf true ts) := by
  have hcols : ∀ col, col ∈ (lineStarters true ts).map (·.col) ↔ col ∈ startCols ts := by
    intro col
    simp only [List.mem_map, mem_lineStarters]
    constructor
    · rintro ⟨t, ⟨front, back, hts, hbegins⟩, rfl⟩
      exact ⟨front, t, back, hts, hbegins, rfl⟩
    · rintro ⟨front, t, back, hts, hbegins, rfl⟩
      exact ⟨t, ⟨front, back, hts, hbegins⟩, rfl⟩
  cases hmin : ((lineStarters true ts).map (·.col)).min? with
  | none =>
    rw [List.min?_eq_none_iff, List.map_eq_nil_iff] at hmin
    cases ts with
    | nil => exact absurd rfl h
    | cons t ts => cases hmin
  | some m =>
    obtain ⟨hmem, hle⟩ := List.min?_eq_some_iff.mp hmin
    rw [marginOf, hmin]
    exact ⟨(hcols m).mp hmem, fun col hcol => hle col ((hcols col).mpr hcol)⟩

/-! ### Writing tokens -/

/-- The tokens with the white space that the pen writes in front of each. -/
def spacedTokens (l : Layout) : Pen → List Token → List (Text × Token)
  | _, [] => []
  | pen, t :: ts => (pen.gap l t.line t.col t.spaceBefore, t) ::
    spacedTokens l (pen.afterToken t) ts

/-- The text of tokens with white space in front of each. -/
def written (ws : List (Text × Token)) : Text := ws.flatMap fun w => w.1 ++ w.2.text

theorem writePieces_tokens (l : Layout) (pen : Pen) (ts : List Token) :
    ∃ pen', writePieces l pen (ts.map .token) = .ok (written (spacedTokens l pen ts), pen') := by
  induction ts generalizing pen with
  | nil => exact ⟨pen, by rw [List.map_nil, writePieces]; rfl⟩
  | cons t ts ih =>
    obtain ⟨pen', hwrite⟩ := ih (pen.afterToken t)
    refine ⟨pen', ?_⟩
    rw [List.map_cons, writePieces, hwrite]
    simp [written, spacedTokens, bind, Except.bind, pure, Except.pure]

theorem map_snd_spacedTokens (l : Layout) (pen : Pen) (ts : List Token) :
    (spacedTokens l pen ts).map Prod.snd = ts := by
  induction ts generalizing pen with
  | nil => rfl
  | cons t ts ih => rw [spacedTokens, List.map_cons, ih]

theorem gap_of_spacedTokens {l : Layout} {pen : Pen} {ts : List Token}
    {front back : List (Text × Token)} {gap : Text} {t : Token}
    (h : spacedTokens l pen ts = front ++ (gap, t) :: back) :
    gap = ((front.map Prod.snd).foldl Pen.afterToken pen).gap l t.line t.col t.spaceBefore := by
  induction ts generalizing pen front with
  | nil => simp [spacedTokens] at h
  | cons u ts ih =>
    rw [spacedTokens] at h
    cases front with
    | nil =>
      obtain ⟨hfirst, -⟩ := List.cons.inj h
      cases hfirst
      rfl
    | cons w front =>
      obtain ⟨rfl, hrest⟩ := List.cons.inj h
      have hgap := ih hrest
      exact hgap

/-! ### Lines of a block -/

theorem mem_afterLast_append {a s g : Text} {b : UInt8} (hb : b ∈ afterLast newline s)
    (hg : newline ∉ g) :
    b ∈ afterLast newline (a ++ (s ++ g)) := by
  rcases eq_append_afterLast newline s with ⟨hs, heq⟩ | ⟨s', hs⟩
  · have hnot : newline ∉ s ++ g := by simp [hs, hg]
    rw [heq] at hb
    rcases eq_append_afterLast newline a with ⟨ha, -⟩ | ⟨a', ha⟩
    · rw [afterLast_of_notMem (by simp [ha, hs, hg])]
      simp [hb]
    · have hbehind : newline ∉ afterLast newline a ++ (s ++ g) := by
        rw [List.mem_append, not_or]
        exact ⟨notMem_afterLast, hnot⟩
      rw [ha, List.append_assoc, List.cons_append, afterLast_append hbehind]
      simp [hb]
  · have hbehind : newline ∉ afterLast newline s ++ g := by
      rw [List.mem_append, not_or]
      exact ⟨notMem_afterLast, hg⟩
    rw [hs, List.append_assoc, ← List.append_assoc a, List.cons_append, afterLast_append hbehind]
    exact List.mem_append_left _ hb

theorem written_concat (front : List (Text × Token)) (gap : Text) (t : Token) :
    written (front ++ [(gap, t)]) = written front ++ gap ++ t.text := by
  simp [written]

theorem gap_afterToken {p t : Token} (h : p.Precedes t) (l : Layout) (pen : Pen) :
    p.endLine < t.line ∧ (pen.afterToken p).gap l t.line t.col t.spaceBefore =
    newline :: l.margins t.col ∨
      ¬ p.endLine < t.line ∧ newline ∉ (pen.afterToken p).gap l t.line t.col t.spaceBefore := by
  have hcases : _ ∨ _ := @gap_cases l (pen.afterToken p) t.line t.col t.spaceBefore rfl
  rcases hcases with ⟨heq, hbreak⟩ | ⟨heq, -, hle, -⟩ | ⟨heq, -, hle, -⟩
  · exact Or.inl ⟨hbreak.elim h.comment id, heq⟩
  · rw [heq]
    exact Or.inr ⟨not_lt.mpr hle, by decide⟩
  · rw [heq]
    exact Or.inr ⟨not_lt.mpr hle, by simp⟩

section Block

variable {l : Layout} {ts : List Token} {front back : List (Text × Token)} {gap : Text} {t : Token}

theorem newline_notMem_margins (hindent : ∀ b ∈ l.indent, b = chr ' ') (col : Int) :
    newline ∉ l.margins col :=
  fun hmem => absurd (mem_margins hindent hmem) (by decide)

/-- **One token of a block**: it begins a line, and only the margin stands in front of it, or it
does not, and another token stands in front of it on the line. -/
theorem InOrder.lineStart (h : InOrder ts) (hblock : l.isBlock = true)
    (hindent : ∀ b ∈ l.indent, b = chr ' ')
    (hsplit : spacedTokens l {} ts = front ++ (gap, t) :: back) :
    BeginsLine (front.map Prod.snd) t ∧ afterLast newline (written front ++ gap) = l.margins t.col ∨
      ¬ BeginsLine (front.map Prod.snd) t ∧
      ∃ b ∈ afterLast newline (written front ++ gap), b ≠ chr ' ' := by
  have hgap := gap_of_spacedTokens hsplit
  have hmargins := newline_notMem_margins hindent t.col
  rcases List.eq_nil_or_concat' front with rfl | ⟨front, ⟨gap', p⟩, rfl⟩
  · have hfirst : gap = l.margins t.col := by
      rw [hgap, List.map_nil, List.foldl_nil, Pen.gap, hblock]
      rfl
    refine Or.inl ⟨beginsLine_nil t, ?_⟩
    rw [hfirst]
    exact afterLast_of_notMem hmargins
  · have htokens : ts = front.map Prod.snd ++ p :: t :: back.map Prod.snd := by
      rw [← map_snd_spacedTokens l {} ts, hsplit]
      simp
    have hprecedes : p.Precedes t := by
      have hpairs := h.precedes
      rw [htokens, List.pairwise_append, List.pairwise_cons] at hpairs
      exact hpairs.2.1.1 t List.mem_cons_self
    obtain ⟨b, hb, hne⟩ := h.seen p (by rw [htokens]; simp)
    rw [List.map_append, List.foldl_append] at hgap
    rw [List.map_append, List.map_singleton, beginsLine_concat, written_concat,
      List.append_assoc _ p.text]
    rcases gap_afterToken hprecedes l ((front.map Prod.snd).foldl Pen.afterToken {})
      with ⟨hlt, heq⟩ | ⟨hlt, hnew⟩
    · refine Or.inl ⟨hlt, ?_⟩
      rw [hgap.trans heq, ← List.append_assoc]
      exact afterLast_append hmargins
    · refine Or.inr ⟨hlt, b, mem_afterLast_append hb ?_, hne⟩
      rw [hgap]
      exact hnew

end Block

/-! ### Code without creations -/

theorem Covers.eq_tokens {named : Option Text → Prop} {ps : List Piece} {ts tail : List Token}
    (h : Covers named ps ts tail) (hnone : ps.filterMap (·.creation?) = []) :
    ∃ xs, ts = xs ++ tail ∧ ps = xs.map .token := by
  induction h with
  | nil => exact ⟨[], rfl, rfl⟩
  | @token t ps ts tail h ih =>
    obtain ⟨xs, rfl, rfl⟩ := ih hnone
    exact ⟨t :: xs, rfl, rfl⟩
  | creation => cases hnone

theorem flattenAll_sublist {es es' : List Element} (h : es.Sublist es') :
    (flattenAll es).Sublist (flattenAll es') := by
  induction h with
  | slnil => exact .refl _
  | cons e h ih => exact ih.trans (List.sublist_append_right _ _)
  | cons_cons e h ih => exact (List.Sublist.refl e.flatten).append ih

/-- The group is the tree itself or one of the groups in it. -/
def Group.Has (root g : Group) : Prop := g = root ∨ root.Holds (.group g)

namespace Group.Has

variable {root g : Group}

theorem children (h : root.Has g) : ∀ e ∈ g.children, root.Holds e := by
  rcases h with rfl | h
  · exact fun e he => exists_placed_of_mem he 0
  · exact h.children

theorem sublist (h : root.Has g) : (flattenAll g.children).Sublist (flattenAll root.children) := by
  rcases h with rfl | h
  · exact .refl _
  · obtain ⟨front, back, hflat⟩ := h.exists_flatten
    have hgroup : (flattenAll g.children).Sublist (Element.group g).flatten := by
      rw [Element.flatten_group]
      exact (List.sublist_append_left _ _).trans (List.sublist_cons_self _ _)
    rw [hflat]
    exact hgroup.trans ((List.sublist_append_left _ _).trans (List.sublist_append_right _ _))

end Group.Has

/-- The code was built from a group of the tree: from all of its elements, or from some of them, as
the initializers of fields are. -/
inductive Code.BuiltFrom (root : Group) (c : Code) : Prop
  | group {g : Group} {levels : Nat} (hg : root.Has g) (hlevels : depthAll g.children < levels)
    (h : Code.ofGroup (insideAt levels) g = .ok c) : BuiltFrom root c
  | elements {g : Group} {levels : Nat} {es : List Element} (hg : root.Has g)
    (hlevels : depthAll g.children ≤ levels) (hes : es.Sublist g.children)
    (h : Code.ofElements (insideAt levels) es = .ok c) : BuiltFrom root c

section Building

variable {root : Group} {c : Code} {f : File}

/-- **Code without creations** is made of tokens of its source, in their order. -/
theorem Code.BuiltFrom.exists_tokens {tokens : List Token}
    (hroot : Group.ofTokens tokens = .ok root) (h : c.BuiltFrom root) (hplain : c.creations = []) :
    ∃ ts : List Token, c.pieces = ts.map .token ∧ ts.Sublist (flattenAll root.children) := by
  have hclosing : ∀ g, root.Holds (.group g) → g.closing.kind.isClosing = true :=
    fun g hg => hg.isClosing hroot
  cases h with
  | @group g levels hg hlevels h =>
    unfold Code.ofGroup at h
    obtain ⟨pieces, hpieces, hc⟩ := Except.bind_eq_ok.mp h
    cases hc
    have hes : ∀ e ∈ g.children, root.Holds e ∧ e.depth < levels := fun e he =>
      ⟨hg.children e he, Nat.lt_of_le_of_lt (depth_le_of_mem he) hlevels⟩
    obtain ⟨ts, hts, rfl⟩ :=
      (((covering_insideAt hclosing levels).pieces hes hpieces).1 []).eq_tokens hplain
    rw [List.append_nil, List.append_nil] at hts
    exact ⟨ts, rfl, hts ▸ hg.sublist⟩
  | @elements g levels es hg hlevels hsub h =>
    unfold Code.ofElements at h
    obtain ⟨pieces, hpieces, hc⟩ := Except.bind_eq_ok.mp h
    cases hc
    have hes : ∀ e ∈ es, root.Holds e ∧ e.depth ≤ levels := fun e he =>
      ⟨hg.children e (hsub.subset he), (depth_le_of_mem (hsub.subset he)).trans hlevels⟩
    obtain ⟨ts, hts, rfl⟩ :=
      (((covering_insideAt hclosing levels).piecesWith hclosing hes hpieces).1 []).eq_tokens hplain
    rw [List.append_nil, List.append_nil, List.drop_zero] at hts
    exact ⟨ts, rfl, hts ▸ (flattenAll_sublist hsub).trans hg.sublist⟩

theorem Node.FromTree.code_part {x : Node} (hx : x.FromTree root) (hc : .code c ∈ x.parts) :
    (∃ head declarators, x = .member (.field head declarators) ∧
      ∃ v ∈ declarators, v.init = some c) ∨
      ∃ levels, (ElementInvariant.inTree root levels).FromGroup (insideAt levels) c := by
  cases x with
  | file f => cases hc
  | type d => cases hc
  | parameter p => cases hc
  | code c =>
    obtain ⟨a, -, ha⟩ := mem_parts_code.mp hc
    cases ha
  | anonymous a =>
    obtain ⟨levels, hargs, -⟩ := hx
    rcases List.mem_append.mp hc with hc | hc
    · obtain ⟨c', hc', heq⟩ := List.mem_map.mp hc
      cases heq
      exact Or.inr ⟨levels, hargs c (Option.mem_toList.mp hc')⟩
    · obtain ⟨m, -, hm⟩ := List.mem_map.mp hc
      cases hm
  | member m =>
    obtain ⟨levels, ms, hms, hm⟩ := hx
    obtain ⟨k, hread⟩ := readBy_of_membersFrom hms hm
    cases m with
    | field head declarators =>
      obtain ⟨v, hv, hcode⟩ := List.mem_filterMap.mp hc
      obtain ⟨c', hinit, heq⟩ := Option.map_eq_some_iff.mp hcode
      cases heq
      exact Or.inl ⟨head, declarators, rfl, v, hv, hinit⟩
    | method head body =>
      obtain ⟨c', hc', heq⟩ := List.mem_map.mp hc
      cases heq
      exact Or.inr ⟨k, hread c (Option.mem_toList.mp hc')⟩
    | constructor head body =>
      cases List.mem_singleton.mp hc
      exact Or.inr ⟨k, hread⟩
    | nested head members =>
      obtain ⟨m, -, hm⟩ := List.mem_map.mp hc
      cases hm
    | initializer head body =>
      cases List.mem_singleton.mp hc
      exact Or.inr ⟨k, hread⟩
    | constant head args body =>
      rcases List.mem_append.mp hc with hc | hc
      · obtain ⟨c', hc', heq⟩ := List.mem_map.mp hc
        cases heq
        exact Or.inr ⟨k, hread.1 c (Option.mem_toList.mp hc')⟩
      · obtain ⟨a, -, ha⟩ := List.mem_map.mp hc
        cases ha

/-- **All code of a file** was built from its tree. -/
theorem File.builtFrom_of_within (hf : File.ofGroup root = .ok f) (h : f.Within (.code c)) :
    c.BuiltFrom root := by
  obtain ⟨d, hd, m, hm, hwithin⟩ := h
  rcases Relation.ReflTransGen.cases_tail hwithin with heq | ⟨x, hx, hc⟩
  · cases heq
  rcases ((Node.fromTree_of_mem hf hd hm).within hx).code_part hc
    with ⟨head, declarators, rfl, v, hv, hinit⟩ | ⟨levels, g, ⟨hg, hdepth⟩, hc⟩
  · obtain ⟨levels, g, hg, hlevels, front, equal, run, back, hsplit, -, -, hc⟩ :=
      fromRun_of_initializes hf ⟨d, hd, m, hm, head, declarators, hx, v, hv, hinit⟩
    refine .elements (Or.inr hg) hlevels (List.filter_sublist.trans ?_) hc
    rw [hsplit]
    exact (List.sublist_append_left _ _).trans
      ((List.sublist_cons_self _ _).trans (List.sublist_append_right _ _))
  · exact .group (Or.inr hg) (hg.below hdepth).2 hc

theorem Member.code_mem_parts {m : Member} (h : m.body? = some c) :
    .code c ∈ (Node.member m).parts := by
  cases m with
  | method head body =>
    cases h
    exact List.mem_cons_self
  | constructor head body =>
    cases h
    exact List.mem_cons_self
  | initializer head body =>
    cases h
    exact List.mem_cons_self
  | field => cases h
  | nested => cases h
  | constant => cases h

theorem labelPieces_of_plain {top : Text} {n : Nat} {ps : List Piece}
    (h : (labelPieces top n ps).1.filterMap (·.creation?) = []) :
    (labelPieces top n ps).1 = ps := by
  induction ps with
  | nil => rfl
  | cons p ps ih =>
    cases p with
    | token t => exact congrArg (.token t :: ·) (ih h)
    | creation a => cases h

theorem File.builtFrom_of_labelled (hf : File.ofGroup root = .ok f)
    (h : f.labelled.Within (.code c)) (hplain : c.creations = []) : c.BuiltFrom root := by
  obtain ⟨top, y, hy, hlabelled⟩ := exists_within_of_labelled h
  cases hlabelled with
  | code n place pieces =>
    rw [labelPieces_of_plain hplain]
    exact builtFrom_of_within hf hy

end Building

theorem inOrder_of_ofSource {source : Source} {root : Group}
    (h : Group.ofSource source = .ok root) :
    InOrder (flattenAll root.children) := by
  obtain ⟨tokens, hlex, hroot⟩ := Except.bind_eq_ok.mp h
  obtain ⟨ts, hscan, rfl⟩ := lex_eq_ok_iff_scanLines.mp hlex
  obtain ⟨back, rfl⟩ := exists_append_of_ofTokens rfl hroot
  rw [← splitLines_unlines fun _ => newline_notMem_of_mem_lines, scanLines_splitLines] at hscan
  have hlaid : Laid source.name [] true _ _ := laid_of_scanText hscan
  exact hlaid.inOrder.sublist (List.sublist_append_left _ _)

/-! ### Blocks -/

theorem dropTokens_map_token (skip : Nat) (ts : List Token) :
    dropTokens skip (ts.map .token) = (ts.drop skip).map .token := by
  induction skip generalizing ts with
  | zero => cases ts <;> rfl
  | succ skip ih =>
    cases ts with
    | nil => rfl
    | cons t ts => exact ih ts

theorem filterMap_token?_tokens (ts : List Token) :
    (ts.map Piece.token).filterMap (·.token?) = ts := by
  rw [List.filterMap_map]
  exact List.filterMap_some

theorem layOut_tokens (indent : Text) (ts : List Token) : layOut indent true (ts.map .token) =
    .ok (written (spacedTokens ⟨indent, true, marginOf true ts⟩ {} ts)) := by
  obtain ⟨pen, hwrite⟩ := writePieces_tokens ⟨indent, true, marginOf true ts⟩ {} ts
  rw [layOut, filterMap_token?_tokens, hwrite]
  rfl

theorem margins_eq_spaces {n : Nat} {m col : Int} (h : m ≤ col) :
    ∃ k, Layout.margins ⟨Text.spaces n, true, m⟩ col = Text.spaces k ∧
      (k : Int) = n + (col - m) := by
  refine ⟨n + (col - m).toNat, ?_, ?_⟩
  · rw [Layout.margins, Text.spaces, Text.spaces, Text.spaces, List.replicate_append_replicate]
  · rw [Nat.cast_add, Int.toNat_of_nonneg (Int.sub_nonneg.mpr h)]

/-- **A block keeps the indentation of its source.** Its tokens are written with white space in
front of each. Only spaces stand in front of a token on its line exactly if it is the first one or
stands in the source on a later line than the one before it ends on. These are as many spaces as the
block is indented by and, beyond that, as many as the token stands right of the leftmost of these
tokens. -/
theorem Code.block_keeps_indentation {source : Source} {root : Group} {c : Code}
    (hroot : Group.ofSource source = .ok root) (hc : c.BuiltFrom root) (hplain : c.creations = [])
    (depth width skip : Nat) : ∃ (ws : List (Text × Token)) (m : Int),
      ws.map Prod.snd = (c.pieces.filterMap (·.token?)).drop skip ∧
      c.block (Text.spaces (depth * width)) skip = .ok (written ws) ∧
      (ws ≠ [] → IsLeast (startCols (ws.map Prod.snd)) m) ∧
      ∀ front gap t back, ws = front ++ (gap, t) :: back →
        (∀ b ∈ gap, b = chr ' ' ∨ b = newline) ∧
        ((∀ b ∈ afterLast newline (written front ++ gap), b = chr ' ') ↔
          BeginsLine (front.map Prod.snd) t) ∧
        (BeginsLine (front.map Prod.snd) t →
          ∃ n, afterLast newline (written front ++ gap) = Text.spaces n ∧
            (n : Int) = depth * width + (t.col - m)) := by
  obtain ⟨tokens, -, htree⟩ := Except.bind_eq_ok.mp hroot
  obtain ⟨us, hpieces, hsub⟩ := hc.exists_tokens htree hplain
  have horder : InOrder (us.drop skip) :=
    (inOrder_of_ofSource hroot).sublist ((List.drop_sublist skip us).trans hsub)
  generalize hts : us.drop skip = ts at horder
  have hindent : ∀ b ∈ Text.spaces (depth * width), b = chr ' ' := fun b => List.eq_of_mem_replicate
  refine ⟨spacedTokens ⟨Text.spaces (depth * width), true, marginOf true ts⟩ {} ts,
    marginOf true ts, ?_, ?_, ?_, fun front gap t back hsplit => ⟨fun b hb => ?_, ?_⟩⟩
  · rw [map_snd_spacedTokens, hpieces, filterMap_token?_tokens, hts]
  · rw [Code.block, hpieces, dropTokens_map_token, hts, layOut_tokens]
  · intro hne
    rw [map_snd_spacedTokens]
    refine isLeast_marginOf ?_
    rintro rfl
    exact hne rfl
  · rw [gap_of_spacedTokens hsplit] at hb
    exact mem_gap hindent hb
  · rcases horder.lineStart rfl hindent hsplit with ⟨hbegins, hline⟩ | ⟨hbegins, b, hb, hne⟩
    · have htokens : ts = front.map Prod.snd ++ t :: back.map Prod.snd := by
        rw [← map_snd_spacedTokens _ {} ts, hsplit]
        simp
      have hleast : IsLeast (startCols ts) (marginOf true ts) :=
        isLeast_marginOf (by rw [htokens]; simp)
      have hle : marginOf true ts ≤ t.col := hleast.2 ⟨_, t, _, htokens, hbegins, rfl⟩
      obtain ⟨n, hn, hcount⟩ := @margins_eq_spaces (depth * width) _ _ hle
      rw [hline]
      refine ⟨iff_of_true (fun b hb => mem_margins hindent hb) hbegins, fun _ => ⟨n, hn, ?_⟩⟩
      rw [hcount, Nat.cast_mul]
    · exact ⟨iff_of_false (fun hall => hne (hall b hb)) hbegins, fun h => absurd h hbegins⟩

/-- A method with comments at the end of a line and over a line end, and with a line left of the
first one. -/
def unevenLines : Source :=
  ⟨lit "T",
    lit "class A \x7b\n void f() \x7b\n      a(); // x\n    b(/* y\n z */ c);\n  \x7d\n\x7d\n"⟩

theorem block_keeps_indentation_uneven :
    ∃ root, ∃ c : Code, ∃ ws m, Group.ofSource unevenLines = .ok root ∧
    c.BuiltFrom root ∧ c.creations = [] ∧ IsLeast (startCols (ws.map Prod.snd)) m ∧
      c.block (Text.spaces (1 * 2)) 0 = .ok (written ws) ∧
      written ws = lit "    a(); // x\n  b(/* y\n z */ c);" := by
  have hview : (File.ofSource unevenLines).map
      (fun f => f.labelled.types.any fun d => d.members.any fun m =>
      m.body?.any fun c => c.creations.isEmpty && (c.block (Text.spaces (1 * 2)) 0).toOption ==
        some (lit "    a(); // x\n  b(/* y\n z */ c);")) = .ok true := by
    cbv
  obtain ⟨f, hf, hview⟩ := Except.map_eq_ok.mp hview
  obtain ⟨d, hd, hview⟩ := List.any_eq_true.mp hview
  obtain ⟨m, hm, hview⟩ := List.any_eq_true.mp hview
  obtain ⟨c, hbody, hview⟩ := (Option.any_eq_true _ _).mp hview
  rw [Bool.and_eq_true, List.isEmpty_iff, beq_iff_eq] at hview
  obtain ⟨hplain, htext⟩ := hview
  obtain ⟨root, hroot, hfile⟩ := Except.bind_eq_ok.mp hf
  have hbuilt : c.BuiltFrom root :=
    File.builtFrom_of_labelled hfile ⟨d, hd, m, hm, .single (Member.code_mem_parts hbody)⟩ hplain
  obtain ⟨ws, margin, -, hblock, hleast, -⟩ :=
    Code.block_keeps_indentation hroot hbuilt hplain 1 2 0
  rw [hblock] at htext
  have hwritten := Option.some.inj htext
  refine ⟨root, c, ws, margin, hroot, hbuilt, hplain, hleast ?_, hblock, hwritten⟩
  rintro rfl
  exact absurd hwritten (by decide)

end Unnest
