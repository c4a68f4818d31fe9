import Unnest.Proofs.Scanning
import Unnest.Proofs.Codes
import Unnest.Header.Layout

/-!
# Reading printed code again

Printed code has the tokens of the code it was printed from, with `new Name(arguments)` for each
creation of an anonymous class: scanning it again gives these and nothing else.

White space is not printed as it was, so what stands behind a token in the print is not what stood
behind it in the source. `Continues` compares the two, and `Lexeme.lexeme_stable` says that the
token still ends where it did. The proof walks along the pieces of the code and the source at the
same time (`StandsFor`), and carries along the pen, which says what was printed last.

* `spelledPieces`: the kinds and texts that printed pieces are to be read as;
* `lex_block`: a whole block.
-/

namespace Unnest

open Text Lexeme

/-! ### What is to be read -/

mutual

def spelledPieces : List Piece → List (TokenKind × Text)
  | [] => []
  | .token t :: ps => t.spelling :: spelledPieces ps
  | .creation a :: ps => a.spelled ++ spelledPieces ps

/-- The kinds and texts of the tokens of a printed creation. -/
def Anonymous.spelled : Anonymous → List (TokenKind × Text)
  | ⟨_, _, none, _, _, label⟩ =>
    [(.kwNew, lit "new"), (.ident, label.getD []), (.lparen, lit "("), (.rparen, lit ")")]
  | ⟨_, _, some ⟨_, args⟩, _, _, label⟩ =>
    (.kwNew, lit "new") :: (.ident, label.getD []) :: (.lparen, lit "(") ::
      (spelledPieces args ++ [(.rparen, lit ")")])

end

/-- Whether a token is a floating-point number that ends in its point. -/
def Token.endsInPoint (t : Token) : Bool := t.kind == .floatLit && t.text.getLast? == some (chr '.')

mutual

/-- Whether a creation stands directly behind a number that ends in its point, the arguments of
creations included; `behind` says whether the pieces stand behind such a number. -/
def createsBehindPoint (behind : Bool) : List Piece → Bool
  | [] => false
  | .token t :: ps => createsBehindPoint t.endsInPoint ps
  | .creation a :: ps => behind || a.createsBehindPoint || createsBehindPoint false ps

/-- The same for the arguments of a creation. -/
def Anonymous.createsBehindPoint : Anonymous → Bool
  | ⟨_, _, none, _, _, _⟩ => false
  | ⟨_, _, some ⟨_, args⟩, _, _, _⟩ => Unnest.createsBehindPoint false args

end

variable {behind : Bool} {ps : List Piece} {ts tail : List Token} {b : UInt8} {c : UInt8}
  {l : Layout} {last : Token} {root : Group} {scanned : List Token}

theorem createsBehindPoint_creation {a : Anonymous}
    (h : createsBehindPoint behind (.creation a :: ps) = false) :
    behind = false ∧ a.createsBehindPoint = false ∧ createsBehindPoint false ps = false := by
  rw [createsBehindPoint, Bool.or_eq_false_iff, Bool.or_eq_false_iff] at h
  exact ⟨h.1.1, h.1.2, h.2⟩

theorem createsBehindPoint_weaken (h : createsBehindPoint behind ps = false) :
    createsBehindPoint false ps = false := by
  rcases ps with _ | ⟨t | a, ps⟩
  · rfl
  · exact h
  · rw [(createsBehindPoint_creation h).1] at h
    exact h

theorem createsBehindPoint_dropTokens (h : createsBehindPoint behind ps = false) (skip : Nat) :
    createsBehindPoint false (dropTokens skip ps) = false := by
  induction skip, ps using dropTokens.induct generalizing behind with
  | case1 n t ps ih =>
    rw [dropTokens]
    exact ih h
  | case2 n ps hps =>
    rw [dropTokens.eq_def]
    split
    · next n' t ps' => exact absurd rfl (hps n' t ps' rfl)
    · exact createsBehindPoint_weaken h

theorem Covers.exists_dropTokens {named : Option Text → Prop} (h : Covers named ps ts tail)
    (skip : Nat) :
    ∃ xs ts', ts = xs ++ ts' ∧ Covers named (dropTokens skip ps) ts' tail := by
  induction skip generalizing ps ts with
  | zero =>
    have hzero : dropTokens 0 ps = ps := by simp [dropTokens]
    refine ⟨[], ts, rfl, ?_⟩
    rwa [hzero]
  | succ skip ih =>
    cases h with
    | nil => exact ⟨[], _, rfl, .nil⟩
    | @token t ps ts tail h =>
      obtain ⟨xs, ts', rfl, h'⟩ := ih h
      exact ⟨t :: xs, ts', rfl, h'⟩
    | creation hnew hclosing hlabel hargs h =>
      exact ⟨[], _, rfl, .creation hnew hclosing hlabel hargs h⟩

/-! ### Names of classes -/

/-- The label is a name that is read as one identifier. -/
def IsLabel (label : Option Text) : Prop :=
  ∃ c more, label = some (c :: more) ∧ isNameStart c = true ∧ (∀ b ∈ more, isNameByte b = true) ∧
    TokenKind.ofWord (c :: more) = .ident

theorem isDigit_of_mem_decimal {n : Nat} (hb : b ∈ Text.decimal n) :
    isDigit b = true := by
  have hdigit : ∀ m < 10, isDigit (chr '0' + m.toUInt8) = true := by decide
  induction n using Text.decimal.induct with
  | case1 n hn =>
    rw [Text.decimal, if_pos hn, List.mem_singleton] at hb
    rw [hb]
    exact hdigit n hn
  | case2 n hn ih =>
    rw [Text.decimal, if_neg hn] at hb
    rcases List.mem_append.mp hb with hb | hb
    · exact ih hb
    · rw [List.mem_singleton] at hb
      rw [hb]
      exact hdigit _ (Nat.mod_lt n (by decide))

theorem ofWord_of_underscore {word : Text} (h : chr '_' ∈ word) :
    TokenKind.ofWord word = .ident := by
  have hreserved : ∀ entry ∈ TokenKind.reserved, chr '_' ∉ lit entry.1 := by decide
  unfold TokenKind.ofWord
  have hnone : TokenKind.reserved.find? (fun entry => lit entry.1 == word) = none := by
    refine List.find?_eq_none.mpr fun entry hentry heq => hreserved entry hentry ?_
    rw [beq_iff_eq] at heq
    rw [heq]
    exact h
  rw [hnone]

theorem isLabel_anonymousName {top rest : Text} (h : Lexes .ident rest top) (n : Nat) :
    IsLabel (some (anonymousName top n)) := by
  cases h with
  | long hkind => cases hkind
  | @short c more hc hblank hmore h =>
    obtain ⟨hstart, hbytes⟩ := bytes_of_ident h
    refine ⟨c, more ++ lit "_" ++ Text.decimal n, rfl, hstart,
      fun b hb => ?_, ofWord_of_underscore ?_⟩
    · rcases List.mem_append.mp hb with hb | hb
      · rcases List.mem_append.mp hb with hb | hb
        · exact hbytes b hb
        · have hunder : ∀ b ∈ lit "_", isNameByte b = true := List.all_eq_true.mp (by decide)
          exact hunder b hb
      · exact isNameByte_of_isDigit (isDigit_of_mem_decimal hb)
    · have hunder : chr '_' ∈ lit "_" := by decide
      exact List.mem_cons_of_mem _ (List.mem_append_left _ (List.mem_append_right _ hunder))

theorem lexes_word {kind : TokenKind} {more rest : Text} (hc : isNameStart c = true)
    (hmore : ∀ b ∈ more, isNameByte b = true) (hword : TokenKind.ofWord (c :: more) = kind)
    (hrest : EndsName rest) : Lexes kind rest (c :: more) := by
  have hblank : isBlank c = false := by
    by_contra hblank
    simp only [isBlank, Bool.not_eq_false, Bool.or_eq_true, beq_iff_eq] at hblank
    rcases hblank with (rfl | rfl) | rfl <;> revert hc <;> decide
  have hnewline : newline ∉ more := by
    intro hmem
    have := hmore _ hmem
    revert this
    decide
  refine .short (ne_of_class (by decide) hc) hblank hnewline ?_
  exact (word_iff hc).mpr ⟨hmore, hrest, hword.symm⟩

/-! ### White space -/

section Gaps

variable {l : Layout} {pen : Pen} {b : UInt8} {line col : Int} {space : Bool} {s : Text}
  {spellings : List (TokenKind × Text)}

theorem mem_margins (hl : ∀ b ∈ l.indent, b = chr ' ') (hb : b ∈ l.margins col) : b = chr ' ' := by
  rcases List.mem_append.mp hb with hb | hb
  · exact hl b hb
  · exact List.eq_of_mem_replicate hb

theorem spelled_margins (hl : ∀ b ∈ l.indent, b = chr ' ') (h : Spelled s spellings) (col : Int) :
    Spelled (l.margins col ++ s) spellings := by
  refine h.blanks fun b hb => ?_
  rw [mem_margins hl hb]
  rfl

theorem spelled_gap (hl : ∀ b ∈ l.indent, b = chr ' ') (h : Spelled s spellings) :
    Spelled (pen.gap l line col space ++ s) spellings := by
  have hspace : ∀ b ∈ lit " ", isBlank b = true := List.all_eq_true.mp (by decide)
  unfold Pen.gap
  split_ifs
  · exact spelled_margins hl h col
  · exact h
  · exact (spelled_margins hl h col).newline
  · exact h.blanks hspace
  · exact h

theorem mem_gap (hl : ∀ b ∈ l.indent, b = chr ' ') (hb : b ∈ pen.gap l line col space) :
    b = chr ' ' ∨ b = newline := by
  have hspace : lit " " = [chr ' '] := by decide
  unfold Pen.gap at hb
  split_ifs at hb
  · exact Or.inl (mem_margins hl hb)
  · cases hb
  · rcases List.mem_cons.mp hb with rfl | hb
    · exact Or.inr rfl
    · exact Or.inl (mem_margins hl hb)
  · rw [hspace, List.mem_singleton] at hb
    exact Or.inl hb
  · cases hb

theorem return_notMem_gap (hl : ∀ b ∈ l.indent, b = chr ' ') :
    chr '\r' ∉ pen.gap l line col space := by
  intro hmem
  rcases mem_gap hl hmem with h | h
  · exact absurd h (by decide)
  · exact absurd h (by decide)

theorem return_notMem_closingGap (hl : ∀ b ∈ l.indent, b = chr ' ') :
    chr '\r' ∉ pen.closingGap l := by
  unfold Pen.closingGap
  split_ifs
  · intro hmem
    rcases List.mem_cons.mp hmem with h | h
    · exact absurd h (by decide)
    · exact absurd (hl _ h) (by decide)
  · simp

/-- The white space behind something: a line break, a space or nothing. -/
theorem gap_cases (hpen : pen.started = true) :
    pen.gap l line col space = newline :: l.margins col ∧ (pen.mustBreak = true ∨ pen.line < line) ∨
    pen.gap l line col space = [chr ' '] ∧ pen.mustBreak = false ∧ line ≤ pen.line ∧ space = true ∨
    pen.gap l line col space = [] ∧ pen.mustBreak = false ∧ line ≤ pen.line ∧ space = false := by
  unfold Pen.gap
  rw [hpen]
  by_cases hbreak : (decide (pen.line < line) || pen.mustBreak) = true
  · have hbreak' := hbreak
    simp only [Bool.or_eq_true, decide_eq_true_eq] at hbreak'
    exact Or.inl ⟨by simp [hbreak], hbreak'.symm⟩
  · have hbreak' := hbreak
    simp only [Bool.or_eq_true, decide_eq_true_eq, not_or, Int.not_lt, Bool.not_eq_true] at hbreak'
    obtain ⟨hline, hmust⟩ := hbreak'
    cases space with
    | true => exact Or.inr (Or.inl ⟨by simp [hbreak]; rfl, hmust, hline, rfl⟩)
    | false => exact Or.inr (Or.inr ⟨by simp [hbreak], hmust, hline, rfl⟩)

theorem spaceBeforeNew_eq (pen : Pen) : pen.spaceBeforeNew = !isTight pen.last := by
  simp [Pen.spaceBeforeNew, isTight, bne]

end Gaps

/-! ### Behind a token -/

/-- The bytes that may newly stand behind the text `front` with the pieces `ps` behind it: those
that it does not go on with, and the first of `new`, unless a space is written in front of it. -/
def Quiet (front : Text) (pen : Pen) (ps : List Piece) (b : UInt8) : Prop :=
  absorbs front b = false ∨ b = chr 'n' ∧ pen.spaceBeforeNew = false ∧
    ∃ a rest, ps = .creation a :: rest

/-- The text `front`, which the pen has written last, goes on with `x`, where the source went on
with `s`. -/
structure Continues (front : Text) (pen : Pen) (ps : List Piece) (space : Bool) (s x : Text) :
    Prop where
  sees : Sees (Quiet front pen ps) (firstLine s) (firstLine x)
  breaks : pen.mustBreak = true → firstLine x = []
  points : pen.mustBreak = false → space = false → s.head? = some (chr '.') →
    x.head? = some (chr '.')

variable {front : Text} {pen : Pen} {ps : List Piece} {space : Bool} {s x : Text}

theorem quiet_space : Quiet front pen ps (chr ' ') :=
  Or.inl (absorbs_of_delimiter (by decide) (by decide) (by decide) front)

theorem quiet_rparen : Quiet front pen ps (chr ')') :=
  Or.inl (absorbs_of_delimiter (by decide) (by decide) (by decide) front)

theorem head?_of_firstLine (h : (firstLine x).head? = some b) : x.head? = some b := by
  cases x with
  | nil => cases h
  | cons y x =>
    by_cases hy : y = newline
    · subst hy
      rw [firstLine_newline] at h
      cases h
    · rw [firstLine_cons hy] at h
      exact h

theorem head?_firstLine (hb : b ≠ newline) (h : x.head? = some b) :
    (firstLine x).head? = some b := by
  cases x with
  | nil => cases h
  | cons y x =>
    cases h
    rw [firstLine_cons hb]
    rfl

theorem continues_of_head
    (hx : firstLine x = [] ∨ pen.mustBreak = false ∧ ∃ b, x.head? = some b ∧ Quiet front pen ps b)
    (hpoint : pen.mustBreak = false → space = false → s.head? ≠ some (chr '.')) :
    Continues front pen ps space s x := by
  have hquiet : ∀ b, (firstLine x).head? = some b → Quiet front pen ps b := by
    intro b hb
    rcases hx with hx | ⟨-, b', hb', hquiet⟩
    · rw [hx] at hb
      cases hb
    · rw [head?_of_firstLine hb] at hb'
      cases hb'
      exact hquiet
  refine ⟨⟨fun b hb => Or.inr (hquiet b hb), fun hnot hb => absurd (hquiet _ hb) hnot⟩,
    fun hbreak => ?_, fun hbreak hspace hhead => ?_⟩
  · rcases hx with hx | ⟨hmust, -⟩
    · exact hx
    · rw [hmust] at hbreak
      cases hbreak
  · exact absurd hhead (hpoint hbreak hspace)

theorem continues_of_text {more rest y : Text} (hc : c ≠ newline)
    (hbreak : pen.mustBreak = false)
    (hpoint : c = chr '.' → more = [] → (rest.head? = some (chr '.') ↔ y.head? = some (chr '.'))) :
    Continues front pen ps space (c :: more ++ rest) (c :: more ++ y) := by
  refine ⟨⟨fun b hb => Or.inl ?_, fun _ hb => ?_⟩, fun h => ?_, fun _ _ h => h⟩
  · rw [List.cons_append, firstLine_cons hc] at hb ⊢
    exact hb
  · rw [List.cons_append, firstLine_cons hc] at hb ⊢
    rw [List.cons_append, firstLine_cons hc, List.tail_cons, List.tail_cons]
    have hne : chr '.' ≠ newline := by decide
    have hiff : ∀ z, (firstLine z).head? = some (chr '.') ↔ z.head? = some (chr '.') :=
      fun z => ⟨head?_of_firstLine, head?_firstLine hne⟩
    rw [hiff, hiff]
    cases more with
    | nil => exact hpoint (Option.some.inj hb) rfl
    | cons d more => exact Iff.rfl
  · rw [hbreak] at h
    cases h

/-- **A token** is still the token it was. -/
theorem lexes_of_continues {t : Token} (h : Lexes t.kind (firstLine s) t.text)
    (hfloat : createsBehindPoint behind (.token t :: ps) = false)
    (hx : Continues t.text (pen.afterToken t) ps space s x) :
    Lexes t.kind (firstLine x) t.text := by
  obtain ⟨kind, text, file, line, col, spaceBefore⟩ := t
  change Lexes kind (firstLine s) text at h
  change Lexes kind (firstLine x) text
  cases h with
  | long hkind hc hblank hl h htail => exact .long hkind hc hblank hl h htail
  | @short c more hc hblank hmore h =>
    refine .short hc hblank hmore (lexeme_stable hx.sees ?_ ?_ h)
    · rintro b (hb | ⟨rfl, htight, a, rest, rfl⟩)
      · exact hb
      -- a word or a number is set off from `new` by a space, since it does not end tightly
      have hother : ¬ (isNameStart c = true ∨ StartsNumber c (more ++ firstLine s)) := by
        intro hstart
        rw [spaceBeforeNew_eq] at htight
        have hlast : (pen.afterToken ⟨kind, c :: more, file, line, col, spaceBefore⟩).last =
            more.getLastD c := by
          rw [Pen.afterToken, List.getLastD_cons]
        have hpoint : kind = .floatLit → more.getLastD c ≠ chr '.' := by
          intro hkind hlast'
          have hends := (createsBehindPoint_creation hfloat).1
          rw [Token.endsInPoint, hkind, List.getLast?_cons, ← List.getLastD_eq_getLast?, hlast']
            at hends
          cases hends
        have := not_isTight_of_mem hstart h List.getLastD_mem_cons hpoint
        rw [hlast, this] at htight
        cases htight
      obtain ⟨hname, hnumber⟩ := not_or.mp hother
      exact absorbs_mark_of_notMem (by simpa using hname) (fun hstart => hnumber (hstart.append _))
        (by decide)
        (by decide)
    · intro hslash hslash'
      refine hx.breaks ?_
      cases more with
      | nil => cases hslash'
      | cons d more =>
        cases hslash'
        rw [hslash, List.cons_append, lexeme_slash, List.head?_cons, if_pos rfl] at h
        cases (Lexeme.token.inj h).1
        rw [hslash]
        have hstarts : (lit "//").isPrefixOf (chr '/' :: chr '/' :: more) = true := by
          have hlit : lit "//" = [chr '/', chr '/'] := by decide
          rw [hlit]
          simp
        simpa [Pen.afterToken, Token.isLineComment] using hstarts

/-! ### Pieces -/

theorem lexes_new {rest : Text} (h : EndsName rest) : Lexes .kwNew rest (lit "new") := by
  have hlit : lit "new" = chr 'n' :: [chr 'e', chr 'w'] := by decide
  rw [hlit]
  refine .short (by decide) (by decide) (by decide) ?_
  exact (word_iff (by decide)).mpr ⟨List.all_eq_true.mp (by decide), h, by decide⟩

theorem lexes_punctuation {kind : TokenKind} (h : kindOf? punctuation c = some kind)
    (hc : c ≠ newline) (hblank : isBlank c = false) (rest : Text) : Lexes kind rest [c] :=
  .short hc hblank (by simp) (lexeme_punctuation h _)

theorem spelled_closingGap (hl : ∀ b ∈ l.indent, b = chr ' ')
    {spellings : List (TokenKind × Text)} (h : Spelled s spellings) :
    Spelled (pen.closingGap l ++ s) spellings := by
  unfold Pen.closingGap
  split_ifs
  · refine Spelled.newline (h.blanks fun b hb => ?_)
    rw [hl b hb]
    rfl
  · exact h

theorem spelled_opening {more : Text} (hc : isNameStart c = true)
    (hmore : ∀ b ∈ more, isNameByte b = true) (hword : TokenKind.ofWord (c :: more) = .ident)
    {spellings : List (TokenKind × Text)} (h : Spelled x spellings) :
    Spelled (lit "new " ++ ((c :: more) ++ (lit "(" ++ x)))
      ((.kwNew, lit "new") :: (.ident, c :: more) :: (.lparen, lit "(") :: spellings) := by
  have hends : ∀ b y, isNameByte b = false → EndsName (firstLine (b :: y)) := by
    intro b y hb b' hb'
    have := head?_of_firstLine hb'
    cases this
    exact hb
  have hblank : ∀ b ∈ lit " ", isBlank b = true := List.all_eq_true.mp (by decide)
  have hlparen : Spelled (lit "(" ++ x) ((.lparen, lit "(") :: spellings) :=
    h.lexes (lexes_punctuation (by decide) (by decide) (by decide) _)
  have hname := hlparen.lexes (lexes_word hc hmore hword (hends (chr '(') x (by decide)))
  have hnew := (hname.blanks hblank).lexes (lexes_new (hends (chr ' ') _ (by decide)))
  have hlit : lit "new " = lit "new" ++ lit " " := by decide
  rw [hlit, List.append_assoc]
  exact hnew

/-- What may stand behind pieces: the end, a line break or a closing parenthesis. -/
def Ends (k : Text) : Prop := ∀ b, k.head? = some b → b = newline ∨ b = chr ')'

theorem ends_closingGap (y : Text) : Ends (pen.closingGap l ++ (lit ")" ++ y)) := by
  intro b hb
  unfold Pen.closingGap at hb
  split_ifs at hb
  · cases hb
    exact Or.inl rfl
  · cases hb
    exact Or.inr rfl

theorem firstLine_closingGap (h : pen.mustBreak = true) (y : Text) :
    firstLine (pen.closingGap l ++ y) = [] := by
  rw [Pen.closingGap, if_pos h]
  exact firstLine_newline _

/-- The pieces are printed, and the print is read again as what they are, with anything behind it
that may stand behind pieces. In the source they begin in `s`, on the line `line`, and the text
`front` is in front. -/
def Rereads (l : Layout) (front : Text) (pen : Pen) (ps : List Piece) (line : Nat) (space : Bool)
    (s : Text) :
    Prop :=
  ∃ out pen', writePieces l pen ps = .ok (out, pen') ∧ chr '\r' ∉ out ∧
    ∀ k ks, Spelled k ks → Ends k → (pen'.mustBreak = true → firstLine k = []) →
      Spelled (out ++ k) (spelledPieces ps ++ ks) ∧
      (pen.started = true → pen.line = line → Continues front pen ps space s (out ++ k))

/-- The same without a look at what stands in front of the pieces. -/
def Reprints (l : Layout) (pen : Pen) (ps : List Piece) : Prop :=
  ∃ out pen', writePieces l pen ps = .ok (out, pen') ∧ chr '\r' ∉ out ∧
    ∀ k ks, Spelled k ks → Ends k → (pen'.mustBreak = true → firstLine k = []) →
      Spelled (out ++ k) (spelledPieces ps ++ ks)

theorem Rereads.reprints {line : Nat} (h : Rereads l front pen ps line space s) :
    Reprints l pen ps := by
  obtain ⟨out, pen', hwrite, hout, hnext⟩ := h
  exact ⟨out, pen', hwrite, hout, fun k ks hk hends hbreak => (hnext k ks hk hends hbreak).1⟩

section Cases

variable {l : Layout} {file : Text} {line : Nat} {t : Token} {ts : List Token} {gap rest : Text}

/-- A point at the very beginning belongs to the first token. -/
theorem adjacent_of_point (hfirst : FirstToken file line space s t ts gap rest)
    (hpoint : s.head? = some (chr '.')) : gap = [] ∧ t.line = line ∧ t.spaceBefore = space := by
  rcases hfirst.place with hplace | ⟨⟨b, hb, hblank⟩, -⟩
  · exact hplace
  · rw [hfirst.text, List.head?_append, hb] at hpoint
    cases hpoint
    exact absurd hblank (by decide)

def TokenKind.mayPoint : TokenKind → Bool
  | .dot | .ellipsis | .intLit | .floatLit => true
  | _ => false

theorem TokenKind.mayPoint_of_isClosing {kind : TokenKind} (h : kind.isClosing = true) :
    kind.mayPoint = false := by
  cases kind <;> first | rfl | cases h

theorem not_point_of_first (hfirst : FirstToken file line space s t ts gap rest)
    (hkind : t.kind.mayPoint = false) : s.head? ≠ some (chr '.') := by
  intro hhead
  have hgap := (adjacent_of_point hfirst hhead).1
  have hlexes := hfirst.lexes
  rw [hfirst.text, hgap, List.nil_append] at hhead
  generalize t.text = text at hhead hlexes
  cases hlexes with
  | short hc hblank hmore h =>
    cases hhead
    rcases kind_of_point h with h | h | h | h <;> rw [h] at hkind <;> cases hkind
  | long hkind' hc hblank hl h htail =>
    cases hhead
    exact point_ne_openComment h

theorem continues_of_writePieces {out k : Text} {pen' : Pen}
    (hwrite : writePieces l pen ps = .ok (out, pen')) (hpen : pen.started = true) (hends : Ends k)
    (hbreak : pen'.mustBreak = true → firstLine k = []) (hapart : ∀ t rest, ps = .token t :: rest →
      t.spaceBefore = true ∨ pen.line < t.line ∨
      ∃ b, t.text.head? = some b ∧ absorbs front b = false)
    (hpoint : s.head? ≠ some (chr '.')) : Continues front pen ps space s (out ++ k) := by
  refine continues_of_head ?_ fun _ _ => hpoint
  have hgap : ∀ {line col : Int} {sp : Bool} (y : Text),
      (pen.mustBreak = false → line ≤ pen.line → sp = false →
      ∃ b, y.head? = some b ∧ Quiet front pen ps b) → firstLine (pen.gap l line col sp ++ y) = [] ∨
        pen.mustBreak = false ∧ ∃ b, (pen.gap l line col sp ++ y).head? = some b ∧
        Quiet front pen ps b := by
    intro line col sp y hdirect
    rcases gap_cases hpen with ⟨hgap, -⟩ | ⟨hgap, hmust, -, -⟩ | ⟨hgap, hmust, hline, hsp⟩
    · exact Or.inl (by rw [hgap]; exact firstLine_newline _)
    · exact Or.inr ⟨hmust, chr ' ', by rw [hgap]; rfl, quiet_space⟩
    · exact Or.inr ⟨hmust, by rw [hgap]; exact hdirect hmust hline hsp⟩
  rcases ps with _ | ⟨t | ⟨place, base, args, members, endLine, label⟩, ps⟩
  · rw [writePieces] at hwrite
    cases hwrite
    cases hmust : pen.mustBreak with
    | true => exact Or.inl (hbreak hmust)
    | false =>
      cases k with
      | nil => exact Or.inl rfl
      | cons b k =>
        rcases hends b rfl with rfl | rfl
        · exact Or.inl (firstLine_newline k)
        · exact Or.inr ⟨rfl, chr ')', rfl, quiet_rparen⟩
  · rw [writePieces] at hwrite
    obtain ⟨⟨rest, last⟩, -, hwrite⟩ := Except.bind_eq_ok.mp hwrite
    cases hwrite
    simp only [List.append_assoc]
    refine hgap _ fun _ hline hsp => ?_
    rcases hapart t ps rfl with h | h | ⟨b, hb, hquiet⟩
    · rw [h] at hsp
      cases hsp
    · omega
    · exact ⟨b, by rw [List.head?_append, hb]; rfl, Or.inl hquiet⟩
  · -- whatever the creation is printed as, it begins with `new`
    obtain ⟨y, rfl⟩ : ∃ y, out = pen.gap l place.line place.col pen.spaceBeforeNew ++
        (lit "new " ++ y) := by
      rcases label with _ | name
      · rw [writePieces] at hwrite
        cases hwrite
      rcases args with _ | ⟨argsPlace, args⟩
      · rw [writePieces] at hwrite
        obtain ⟨⟨rest, last⟩, -, hwrite⟩ := Except.bind_eq_ok.mp hwrite
        cases hwrite
        exact ⟨name ++ (lit "()" ++ rest), by simp⟩
      · rw [writePieces] at hwrite
        obtain ⟨⟨inner, within⟩, -, hwrite⟩ := Except.bind_eq_ok.mp hwrite
        obtain ⟨⟨rest, last⟩, -, hwrite⟩ := Except.bind_eq_ok.mp hwrite
        cases hwrite
        exact ⟨name ++ (lit "(" ++ (inner ++ (within.closingGap l ++ (lit ")" ++ rest)))), by simp⟩
    rw [List.append_assoc]
    exact hgap _ fun _ _ hsp => ⟨chr 'n', rfl, Or.inr ⟨rfl, hsp, _, _, rfl⟩⟩

theorem rereads_nil (hkind : t.kind.mayPoint = false)
    (hfirst : FirstToken file line space s t ts gap rest) (pen : Pen) :
    Rereads l front pen [] line space s := by
  refine ⟨[], pen, by rw [writePieces], by simp, fun k ks hk hends hbreak => ⟨hk, fun hpen _ => ?_⟩⟩
  have hwrite : writePieces l pen [] = .ok ([], pen) := by rw [writePieces]
  refine continues_of_writePieces hwrite hpen hends hbreak ?_ (not_point_of_first hfirst hkind)
  rintro t rest ⟨⟩

/-- The pen writes `y` for what begins at the token `t` of the source, and white space in front of
it. -/
theorem continues_of_gap (hfirst : FirstToken file line space s t ts gap rest)
    (hpen : pen.started = true) (hline : pen.line = line) {sp : Bool} {y : Text}
    (hdirect : sp = false → pen.mustBreak = false → Continues front pen ps space s y)
    (hpoint : s.head? = some (chr '.') → t.spaceBefore = sp) :
    Continues front pen ps space s (pen.gap l t.line t.col sp ++ y) := by
  rcases gap_cases hpen with ⟨hgap, hbreak⟩ | ⟨hgap, hmust, -, hsp⟩ | ⟨hgap, hmust, -, hsp⟩
  · rw [hgap]
    refine continues_of_head (Or.inl (firstLine_newline _)) fun hmust _ hhead => ?_
    have hlt := hbreak.resolve_left (by simp [hmust])
    have hsame := (adjacent_of_point hfirst hhead).2.1
    omega
  · rw [hgap]
    refine continues_of_head (Or.inr ⟨hmust, chr ' ', rfl, quiet_space⟩) fun _ hspace hhead => ?_
    have hsame := (adjacent_of_point hfirst hhead).2.2
    rw [hpoint hhead, hsp, hspace] at hsame
    cases hsame
  · rw [hgap, List.nil_append]
    exact hdirect hsp hmust

theorem rereads_token (hl : ∀ b ∈ l.indent, b = chr ' ')
    (hfirst : FirstToken file line space s t ts gap rest) (hreturn : chr '\r' ∉ s) {behind : Bool}
    (hfloat : createsBehindPoint behind (.token t :: ps) = false) {line' : Nat}
    (hend : t.endLine = Int.ofNat line')
    (h : Rereads l t.text (pen.afterToken t) ps line' (decide (newline ∈ t.text)) rest) :
    Rereads l front pen (.token t :: ps) line space s := by
  obtain ⟨out, pen', hwrite, hout, hnext⟩ := h
  refine ⟨pen.gap l t.line t.col t.spaceBefore ++ t.text ++ out, pen', ?_, ?_,
    fun k ks hk hends hbreak => ?_⟩
  · rw [writePieces, hwrite]
    rfl
  · intro hmem
    rcases List.mem_append.mp hmem with hmem | hmem
    · rcases List.mem_append.mp hmem with hmem | hmem
      · exact return_notMem_gap hl hmem
      · rw [hfirst.text] at hreturn
        exact hreturn (List.mem_append_right _ (List.mem_append_left _ hmem))
    · exact hout hmem
  obtain ⟨hspelled, hcontinues⟩ := hnext k ks hk hends hbreak
  have hcont := hcontinues rfl hend
  have hlexes := lexes_of_continues hfirst.lexes hfloat hcont
  have hassoc : pen.gap l t.line t.col t.spaceBefore ++ t.text ++ out ++ k =
      pen.gap l t.line t.col t.spaceBefore ++ (t.text ++ (out ++ k)) := by simp
  rw [hassoc]
  refine ⟨spelled_gap hl (hspelled.lexes hlexes), fun hpen hline => ?_⟩
  refine continues_of_gap hfirst hpen hline (fun hspace hmust => ?_) fun _ => rfl
  -- without white space in between, the token stands directly behind the one before it in the
  -- source as well
  have hgap : gap = [] := by
    rcases hfirst.place with ⟨hgap, -⟩ | ⟨-, htrue, -⟩
    · exact hgap
    · rw [hspace] at htrue
      cases htrue
  obtain ⟨c, more, htext, hc⟩ := hfirst.lexes.exists_cons
  rw [hfirst.text, hgap, List.nil_append, htext]
  refine continues_of_text hc hmust ?_
  rintro rfl rfl
  constructor
  · intro hhead
    refine hcont.points ?_ ?_ hhead
    · have hnot : (lit "//").isPrefixOf [chr '.'] = false := by decide
      change (t.kind == .comment && (lit "//").isPrefixOf t.text) = false
      rw [htext, hnot, Bool.and_false]
    · rw [htext]
      decide
  · intro hhead
    have hhead' := head?_firstLine (by decide) hhead
    rcases hcont.sees.head _ hhead' with hsame | hquiet
    · exact head?_of_firstLine hsame
    · rw [htext] at hquiet
      rcases hquiet with hquiet | ⟨hquiet, -⟩ <;> exact absurd hquiet (by decide)

theorem rereads_creation (hl : ∀ b ∈ l.indent, b = chr ' ')
    (hfirst : FirstToken file line space s t ts gap rest) (hnew : t.kind = .kwNew)
    {label : Option Text} (hlabel : IsLabel label) {args : List Piece}
    (hargs : Reprints l (pen.afterOpening t.line) args) (hrest : ∀ pen, Reprints l pen ps)
    (base : TypeRef) (place : Place) (members : List Member) (endLine : Int) :
    Rereads l front pen
    (.creation ⟨t.place, base, some ⟨place, args⟩, members, endLine, label⟩ :: ps)
      line space s := by
  obtain ⟨c, more, rfl, hc, hmore, hword⟩ := hlabel
  obtain ⟨inner, within, hinner, hinnerReturn, hinnerNext⟩ := hargs
  obtain ⟨out, pen', hout, houtReturn, houtNext⟩ := hrest (within.afterClosing endLine)
  have hwrite : writePieces l pen (.creation ⟨t.place, base, some ⟨place, args⟩, members, endLine,
      some (c :: more)⟩ :: ps) = .ok (pen.gap l t.line t.col pen.spaceBeforeNew ++ lit "new " ++
        (c :: more) ++ lit "(" ++ inner ++ within.closingGap l ++ lit ")" ++ out, pen') := by
    rw [writePieces]
    change (writePieces l (pen.afterOpening t.line) args >>= _) = _
    rw [hinner]
    change (writePieces l (within.afterClosing endLine) ps >>= _) = _
    rw [hout]
    rfl
  refine ⟨_, pen', hwrite, ?_, fun k ks hk hends hbreak => ⟨?_, fun hpen _ => ?_⟩⟩
  · have hname : chr '\r' ∉ c :: more := by
      intro hmem
      have hbytes : ∀ b ∈ c :: more, isNameByte b = true :=
        List.forall_mem_cons.mpr ⟨by simp [isNameByte, hc], hmore⟩
      exact absurd (hbytes _ hmem) (by decide)
    have hwords : chr '\r' ∉ lit "new " ∧ chr '\r' ∉ lit "(" ∧ chr '\r' ∉ lit ")" := by decide
    simp only [List.mem_append, not_or]
    exact ⟨⟨⟨⟨⟨⟨⟨return_notMem_gap hl, hwords.1⟩, hname⟩, hwords.2.1⟩, hinnerReturn⟩,
      return_notMem_closingGap hl⟩, hwords.2.2⟩, houtReturn⟩
  · have hrparen : Spelled (lit ")" ++ (out ++ k))
        ((.rparen, lit ")") :: (spelledPieces ps ++ ks)) :=
      (houtNext k ks hk hends hbreak).lexes
      (lexes_punctuation (by decide) (by decide) (by decide) _)
    have hinside := hinnerNext _ _ (spelled_closingGap hl hrparen) (ends_closingGap _)
      fun hmust => firstLine_closingGap hmust _
    have hspelled := spelled_opening hc hmore hword hinside
    have hassoc : pen.gap l t.line t.col pen.spaceBeforeNew ++ lit "new " ++ (c :: more) ++
        lit "(" ++ inner ++
        within.closingGap l ++ lit ")" ++ out ++ k = pen.gap l t.line t.col pen.spaceBeforeNew ++
          (lit "new " ++ ((c :: more) ++ (lit "(" ++ (inner ++
            (within.closingGap l ++ (lit ")" ++ (out ++ k))))))) := by
      simp
    have hkinds : spelledPieces (.creation ⟨t.place, base, some ⟨place, args⟩, members, endLine,
        some (c :: more)⟩ :: ps) ++ ks = (.kwNew, lit "new") :: (.ident, c :: more) ::
        (.lparen, lit "(") ::
          (spelledPieces args ++ (.rparen, lit ")") :: (spelledPieces ps ++ ks)) := by
      simp [spelledPieces, Anonymous.spelled]
    rw [hassoc, hkinds]
    exact spelled_gap hl hspelled
  · refine continues_of_writePieces hwrite hpen hends hbreak ?_
      (not_point_of_first hfirst (by rw [hnew]; rfl))
    rintro t rest ⟨⟩

/-- Where a comment is left out, what is written behind it must not run together with what stands in
front. -/
theorem rereads_comment (hfirst : FirstToken file line space s t ts gap rest)
    (hcomment : t.kind = .comment) {u : Token} (hline : pen.line = u.endLine)
    (hapart : ∀ v rest, ps = .token v :: rest → u.isApart v = true) (h : Reprints l pen ps) :
    Rereads l u.text pen ps line space s := by
  obtain ⟨out, pen', hwrite, hout, hnext⟩ := h
  refine ⟨out, pen', hwrite, hout,
    fun k ks hk hends hbreak => ⟨hnext k ks hk hends hbreak, fun hpen _ => ?_⟩⟩
  have hpoint := not_point_of_first hfirst (by rw [hcomment]; rfl)
  refine continues_of_writePieces hwrite hpen hends hbreak (fun v rest hps => ?_) hpoint
  have hv := hapart v rest hps
  simp only [Token.isApart, Bool.or_eq_true, decide_eq_true_eq, Option.any_eq_true,
    Bool.not_eq_true', ← hline, or_assoc] at hv
  exact hv

end Cases

/-- **Pieces printed anywhere** are read again as what they are. They go on as the source did behind
the token in front of them, if the pen has just written it. -/
theorem StandsFor.rereads (hl : ∀ b ∈ l.indent, b = chr ' ') {file : Text}
    {prev : Option Token} {closing : Token}
    (hclosing : closing.kind.mayPoint = false) (h : StandsFor IsLabel prev ps ts (closing :: tail))
    {line col : Nat} (hscan : scanText file line space col s = ⟨ts, none⟩) (hreturn : chr '\r' ∉ s)
    (hfloat : createsBehindPoint behind ps = false) (pen : Pen) :
    Reprints l pen ps ∧
      ∀ u, prev = some u → pen.line = u.endLine → Rereads l u.text pen ps line space s := by
  generalize hlast : closing :: tail = last at h
  induction h generalizing closing tail line col space s behind pen with
  | nil =>
    subst hlast
    obtain ⟨gap, rest, hfirst⟩ := scanText_uncons hscan
    have hrereads : ∀ front, Rereads l front pen [] line space s :=
      fun _ => rereads_nil hclosing hfirst pen
    exact ⟨(hrereads []).reprints, fun u _ _ => hrereads u.text⟩
  | @token prev t ps ts tail' h ih =>
    obtain ⟨gap, rest, hfirst⟩ := scanText_uncons hscan
    obtain ⟨line', col', hend, hrest⟩ := hfirst.goesOn
    have hreturn' : chr '\r' ∉ rest := fun hmem => hreturn (hfirst.suffix.subset hmem)
    have hnext := (ih hclosing hrest hreturn' hfloat (pen.afterToken t) hlast).2 t rfl rfl
    have hrereads : ∀ front, Rereads l front pen (.token t :: ps) line space s := fun _ =>
      rereads_token hl hfirst hreturn hfloat hend hnext
    exact ⟨(hrereads []).reprints, fun u _ _ => hrereads u.text⟩
  | @creation prev t closing' base place args ps members endLine label front inner between after
      tail' hnew
      hclosing' hlabel hargs h ihargs ih =>
    obtain ⟨gap, rest, hfirst⟩ := scanText_uncons hscan
    obtain ⟨line', col', -, hgoes⟩ := hfirst.goesOn
    obtain ⟨-, hfloatArgs, hfloatRest⟩ := createsBehindPoint_creation hfloat
    have hreturn' : chr '\r' ∉ rest := fun hmem => hreturn (hfirst.suffix.subset hmem)
    obtain ⟨line₁, space₁, col₁, s₁, hsuffix₁, hscan₁⟩ := exists_scanText_of_append front hgoes
    have hreturn₁ : chr '\r' ∉ s₁ := fun hmem => hreturn' (hsuffix₁.subset hmem)
    obtain ⟨xs, hinner⟩ := hargs.exists_append
    have hscan₁' : scanText file line₁ space₁ col₁ s₁ =
        ⟨(xs ++ closing' :: between) ++ after, none⟩ := by
      rw [hscan₁, hinner]
      simp
    obtain ⟨line₂, space₂, col₂, s₂, hsuffix₂, hscan₂⟩ := exists_scanText_of_append _ hscan₁'
    have hreturn₂ : chr '\r' ∉ s₂ := fun hmem => hreturn₁ (hsuffix₂.subset hmem)
    have hmay := TokenKind.mayPoint_of_isClosing hclosing'
    have hreprintArgs := (ihargs hmay hscan₁ hreturn₁ hfloatArgs (pen.afterOpening t.line) rfl).1
    have hreprintRest := fun pen => (ih hclosing hscan₂ hreturn₂ hfloatRest pen hlast).1
    have hrereads : ∀ front,
        Rereads l front pen (.creation ⟨t.place, base, some ⟨place, args⟩, members, endLine,
          label⟩ :: ps) line space s := fun _ =>
      rereads_creation hl hfirst hnew hlabel hreprintArgs hreprintRest base place members endLine
    exact ⟨(hrereads []).reprints, fun u _ _ => hrereads u.text⟩
  | @comment prev c ps ts tail' hc hapart h ih =>
    obtain ⟨gap, rest, hfirst⟩ := scanText_uncons hscan
    obtain ⟨line', col', -, hrest⟩ := hfirst.goesOn
    have hreturn' : chr '\r' ∉ rest := fun hmem => hreturn (hfirst.suffix.subset hmem)
    have hreprints := (ih hclosing hrest hreturn' hfloat pen hlast).1
    refine ⟨hreprints, fun t hprev hline => rereads_comment hfirst hc hline (fun u after hps => ?_)
      hreprints⟩
    exact hapart t u after hprev hps

theorem writePieces_spelled (hl : ∀ b ∈ l.indent, b = chr ' ') {file : Text} {closing : Token}
    (hclosing : closing.kind.isClosing = true) (h : Covers IsLabel ps ts (closing :: tail))
    {line col : Nat} (hscan : scanText file line space col s = ⟨ts, none⟩) (hreturn : chr '\r' ∉ s)
    (hfloat : createsBehindPoint behind ps = false) (pen : Pen) :
    Rereads l [] pen ps line space s := by
  have hmay := TokenKind.mayPoint_of_isClosing hclosing
  let u : Token := { text := [], line := pen.line }
  exact ((h.standsFor (some u)).rereads hl hmay hscan hreturn hfloat pen).2 u rfl
    (by simp [u, Token.endLine])

/-! ### Blocks -/

theorem exists_append_of_ofTokens (hlast : last.kind = .eof)
    (h : Group.ofTokens (scanned ++ [last]) = .ok root) :
    ∃ back, scanned = flattenAll root.children ++ back := by
  obtain ⟨-, hflat, -⟩ := grouped_of_ofTokens h
  rw [List.takeWhile_append] at hflat
  split_ifs at hflat
  · refine ⟨[], ?_⟩
    rw [hflat, List.takeWhile_cons_of_neg (by simp [hlast])]
    simp
  · exact ⟨_, by rw [hflat, List.takeWhile_append_dropWhile]⟩

theorem Group.Holds.exists_append (hlast : last.kind = .eof)
    (h : Group.ofTokens (scanned ++ [last]) = .ok root) {e : Element} (he : root.Holds e) :
    ∃ front back, scanned = front ++ (e.flatten ++ back) := by
  obtain ⟨back, hback⟩ := exists_append_of_ofTokens hlast h
  obtain ⟨front, back', hflat⟩ := he.exists_flatten
  exact ⟨front, back' ++ back, by rw [hback, hflat]; simp⟩

theorem isLabel_of_file {source : Source}
    (hscan : scanText source.name 1 true 1 source.text = ⟨scanned, none⟩) (hlast : last.kind = .eof)
    (hgroup : Group.ofTokens (scanned ++ [last]) = .ok root) {f : File}
    (hf : File.ofGroup root = .ok f) {d : TypeDecl} (hd : d ∈ f.types) (n : Nat) :
    IsLabel (some (anonymousName d.head.name n)) := by
  obtain ⟨-, t, ht, hident, hname⟩ := located_of_file hgroup hf d hd
  obtain ⟨front, back, hsplit⟩ := ht.exists_append hlast hgroup
  obtain ⟨rest, hlexes⟩ := lexes_of_mem hscan (t := t) (by rw [hsplit]; simp [Element.flatten])
  rw [hname]
  rw [hident] at hlexes
  exact isLabel_anonymousName hlexes n

theorem exists_scan_of_labelled {source : Source} (hreturn : chr '\r' ∉ source.text) {f : File}
    (hf : File.ofSource source = .ok f) {c : Code} (hc : c ∈ f.labelled.codes) (skip : Nat) :
    ∃ ts closing tail line space col s, Covers IsLabel (dropTokens skip c.pieces) ts
      (closing :: tail) ∧
      closing.kind.isClosing = true ∧ scanText source.name line space col s = ⟨ts, none⟩ ∧
      s <:+ source.text := by
  obtain ⟨root, hroot, hfile⟩ := Except.bind_eq_ok.mp hf
  obtain ⟨tokens, htokens, hgroup⟩ := Except.bind_eq_ok.mp hroot
  obtain ⟨scanned, hscan, rfl⟩ := (lex_eq_ok_iff hreturn).mp htokens
  obtain ⟨d, hd, c₀, hc₀, n, hpieces⟩ := exists_code_of_labelled hc
  obtain ⟨g, hg, hcovers⟩ := (located_of_file hgroup hfile d hd).1 c₀ hc₀
  have hnamed := isLabel_of_file hscan rfl hgroup hfile hd
  obtain ⟨front, back, hflat⟩ := hg.exists_append rfl hgroup
  rw [Element.flatten_group] at hflat
  obtain ⟨xs, ts, hsplit, hcover⟩ :=
    ((hcovers (g.closing :: back)).labelPieces hnamed n).exists_dropTokens skip
  have hscan' : scanText source.name 1 true 1 source.text =
      ⟨(front ++ g.opening :: xs) ++ ts, none⟩ := by
    rw [hscan, hflat]
    simp [← hsplit]
  obtain ⟨line, space, col, s, hsuffix, hscan''⟩ := exists_scanText_of_append _ hscan'
  refine ⟨ts, g.closing, back, line, space, col, s, ?_, hg.isClosing hgroup, hscan'', hsuffix⟩
  rw [hpieces]
  exact hcover

/-- **A printed block** is read again as the code that was printed. This holds for all code that is
read from groups of a source without carriage returns, once the anonymous classes are named, with
any number of leading tokens left out and at any depth of indentation. A creation must not stand
directly behind a number that ends in its point, for then `new` would be written directly behind the
point. -/
theorem lex_block {source : Source} (hreturn : chr '\r' ∉ source.text) {f : File}
    (hf : File.ofSource source = .ok f) {c : Code} (hc : c ∈ f.labelled.codes)
    (hpoint : createsBehindPoint false c.pieces = false) (skip depth width : Nat) (name : Text) :
    ∃ text ts last, c.block (Text.spaces (depth * width)) skip = .ok text ∧
      lex ⟨name, text⟩ = .ok (ts ++ [last]) ∧ last.kind = .eof ∧
      ts.map (·.spelling) = spelledPieces (dropTokens skip c.pieces) := by
  obtain ⟨ts, closing, tail, line, space, col, s, hcover, hclosing, hscan, hsuffix⟩ :=
    exists_scan_of_labelled hreturn hf hc skip
  have hreturn' : chr '\r' ∉ s := fun hmem => hreturn (hsuffix.subset hmem)
  have hpoint' := createsBehindPoint_dropTokens hpoint skip
  have hl : ∀ b ∈ Text.spaces (depth * width), b = chr ' ' :=
    fun b hb => List.eq_of_mem_replicate hb
  obtain ⟨text, pen, hwrite, htext, hnext⟩ := writePieces_spelled
    (l := ⟨Text.spaces (depth * width), true,
      marginOf true ((dropTokens skip c.pieces).filterMap (·.token?))⟩)
    hl hclosing hcover hscan hreturn' hpoint' {}
  have hspelled := (hnext [] [] spelled_nil (by simp [Ends]) fun _ => rfl).1
  rw [List.append_nil, List.append_nil] at hspelled
  obtain ⟨read, hread, hspellings⟩ := hspelled name 1 true 1
  refine ⟨text, read, _, ?_, (lex_eq_ok_iff htext).mpr ⟨read, hread, rfl⟩, rfl, hspellings⟩
  unfold Code.block layOut
  simp only [hwrite]
  rfl

/-- A method whose code has comments in it, a number that ends in its point, and one anonymous class
in the arguments of another. -/
def nestedCreations : Source where
  name := lit "A"
  text := lit
    "class A \x7b int f() \x7b\n  return g(1., // one\n    -new B(/* two\n lines */ new C()\x7b\x7d)
    \x7b int x; \x7d.y)+ +1; \x7d \x7d\n"

/-- Its code without the first token, as it is read again. -/
def nestedSpelling : List (TokenKind × Text) :=
  [(.ident, lit "g"), (.lparen, lit "("), (.floatLit, lit "1."), (.comma, lit ","),
    (.comment, lit "// one"), (.operator, lit "-"), (.kwNew, lit "new"), (.ident, lit "A_1"),
    (.lparen, lit "("), (.comment, lit "/* two\n lines */"), (.kwNew, lit "new"),
    (.ident, lit "A_2"), (.lparen, lit "("), (.rparen, lit ")"), (.rparen, lit ")"),
    (.dot, lit "."), (.ident, lit "y"), (.rparen, lit ")"), (.operator, lit "+"),
    (.operator, lit "+"), (.intLit, lit "1"), (.semi, lit ";")]

theorem lex_block_of_nested_creations :
    ∃ f c text ts last, File.ofSource nestedCreations = .ok f ∧ c ∈ f.labelled.codes ∧
      c.block (Text.spaces (1 * 4)) 1 = .ok text ∧ lex ⟨lit "A", text⟩ = .ok (ts ++ [last]) ∧
      last.kind = .eof ∧ ts.map (·.spelling) = nestedSpelling := by
  have hcheck : (match File.ofSource nestedCreations with
      | .ok f => f.labelled.codes.any fun c =>
        !createsBehindPoint false c.pieces &&
        spelledPieces (dropTokens 1 c.pieces) == nestedSpelling
      | .error _ => false) = true := by
    decide +kernel
  have hreturn : chr '\r' ∉ nestedCreations.text := by decide
  cases hf : File.ofSource nestedCreations with
  | error e =>
    rw [hf] at hcheck
    cases hcheck
  | ok f =>
    rw [hf] at hcheck
    obtain ⟨c, hc, hcode⟩ := List.any_eq_true.mp hcheck
    rw [Bool.and_eq_true, Bool.not_eq_true', beq_iff_eq] at hcode
    obtain ⟨text, ts, last, htext, hlex, hlast, hspelling⟩ :=
      lex_block hreturn hf hc hcode.1 1 1 4 (lit "A")
    exact ⟨f, c, text, ts, last, rfl, hc, htext, hlex, hlast, hspelling.trans hcode.2⟩

end Unnest
