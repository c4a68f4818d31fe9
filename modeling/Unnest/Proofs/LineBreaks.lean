import Unnest.Proofs.Scanning

/-!
# Sources and their line breaks

A scan sees of a source only its lines, so it is the same for both conventions of ending a line. And
the scan of a line knows of the lines above it only their number and the comment that is still open:
a source that ends with a line break and leaves no comment open can stand above any other, and the
tokens and the error of the lower one are only moved down.

* `scanLines_append`: the scan of lines below others;
* `lex_withReturns`, `lex_append_below`: whole sources.
-/

namespace Unnest

open Text Lexeme

namespace Text

variable {a s : Text} {b : UInt8}

/-! ### Two conventions -/

/-- The text with a carriage return in front of every newline. -/
def withReturns (s : Text) : Text :=
  s.flatMap fun b => if b = newline then [chr '\r', newline] else [b]

theorem withReturns_newline (s : Text) :
    withReturns (newline :: s) = chr '\r' :: newline :: withReturns s := by
  simp [withReturns]

theorem withReturns_cons (hb : b ≠ newline) (s : Text) :
    withReturns (b :: s) = b :: withReturns s := by
  simp [withReturns, hb]

theorem withReturns_eq_nil_iff : withReturns s = [] ↔ s = [] := by
  cases s with
  | nil => exact Iff.rfl
  | cons b s =>
    by_cases hb : b = newline
    · subst hb
      simp [withReturns_newline]
    · simp [withReturns_cons hb]

theorem return_ne_newline : chr '\r' ≠ newline := by decide

theorem firstLine_withReturns (s : Text) :
    firstLine (withReturns s) = firstLine s ∨
    firstLine (withReturns s) = firstLine s ++ [chr '\r'] := by
  induction s with
  | nil => exact Or.inl rfl
  | cons b s ih =>
    by_cases hb : b = newline
    · subst hb
      right
      rw [withReturns_newline, firstLine_cons return_ne_newline, firstLine_newline,
        firstLine_newline]
      rfl
    · rw [withReturns_cons hb, firstLine_cons hb, firstLine_cons hb]
      rcases ih with ih | ih
      · exact Or.inl (by rw [ih])
      · exact Or.inr (by rw [ih]; rfl)

theorem belowFirst_withReturns (s : Text) :
    belowFirst (withReturns s) = withReturns (belowFirst s) := by
  induction s with
  | nil => rfl
  | cons b s ih =>
    by_cases hb : b = newline
    · subst hb
      rw [withReturns_newline, belowFirst_cons return_ne_newline, belowFirst_newline,
        belowFirst_newline]
    · rw [withReturns_cons hb, belowFirst_cons hb, belowFirst_cons hb, ih]

theorem chomp_append_return (l : Text) : chomp (l ++ [chr '\r']) = l := by
  rw [chomp, if_pos (by simp), List.dropLast_concat]

theorem length_belowFirst_lt (hs : s ≠ []) : (belowFirst s).length < s.length := by
  have hdrop : (s.dropWhile (· != newline)).length ≤ s.length :=
    (List.dropWhile_sublist _).length_le
  have hpos : 0 < s.length := List.length_pos_iff.mpr hs
  rw [belowFirst, List.length_tail]
  omega

theorem lines_eq (s : Text) :
    lines s = if s = [] then [] else chomp (firstLine s) :: lines (belowFirst s) := by
  rw [lines, splitLines_eq]
  split_ifs
  · rfl
  · rw [List.map_cons, lines]

theorem lines_withReturns (h : ∀ l ∈ splitLines s, l.getLast? ≠ some (chr '\r')) :
    lines (withReturns s) = lines s := by
  induction hn : s.length using Nat.strong_induction_on generalizing s with
  | _ n ih =>
    by_cases hs : s = []
    · subst hs
      rfl
    have hsplit := splitLines_eq s
    rw [if_neg hs] at hsplit
    rw [hsplit] at h
    have hfirst : chomp (firstLine s) = firstLine s := if_neg (h _ List.mem_cons_self)
    have hchomp : chomp (firstLine (withReturns s)) = firstLine s := by
      rcases firstLine_withReturns s with heq | heq
      · rw [heq, hfirst]
      · rw [heq, chomp_append_return]
    have hbelow :=
      ih _ (hn ▸ length_belowFirst_lt hs) (fun l hl => h l (List.mem_cons_of_mem _ hl)) rfl
    rw [lines_eq, lines_eq s, if_neg hs, if_neg (mt withReturns_eq_nil_iff.mp hs), hchomp,
      belowFirst_withReturns, hbelow, hfirst]

/-! ### One text below another -/

theorem splitLines_append (ha : a = [] ∨ a.getLast? = some newline) (s : Text) :
    splitLines (a ++ s) = splitLines a ++ splitLines s := by
  induction a with
  | nil => rfl
  | cons b a ih =>
    have hlast : (b :: a).getLast? = some newline := ha.resolve_left (List.cons_ne_nil b a)
    by_cases hb : b = newline
    · subst hb
      have ha' : a = [] ∨ a.getLast? = some newline := by
        cases a with
        | nil => exact Or.inl rfl
        | cons c a => exact Or.inr hlast
      simp [splitLines, ih ha']
    · -- the last newline is further on, so the line that `b` begins is a line of `a`
      cases a with
      | nil => exact absurd (Option.some.inj hlast) hb
      | cons c a =>
        have hne : splitLines (c :: a) ≠ [] := by
          rw [splitLines_eq, if_neg (List.cons_ne_nil c a)]
          exact List.cons_ne_nil _ _
        obtain ⟨l, ls, hsplit⟩ := List.exists_cons_of_ne_nil hne
        rw [List.cons_append, splitLines, splitLines, ih (Or.inr hlast), hsplit]
        simp [hb]

theorem lines_append (ha : a = [] ∨ a.getLast? = some newline) (s : Text) :
    lines (a ++ s) = lines a ++ lines s := by
  rw [lines, splitLines_append ha, List.map_append]
  rfl

end Text

/-! ### Lines further down -/

/-- The token `n` lines further down. -/
def Token.lowered (n : Nat) (t : Token) : Token := { t with line := t.line + n }

/-- The error `n` lines further down. -/
def SourceError.lowered (n : Nat) (e : SourceError) : SourceError := { e with line := e.line + n }

/-- The ending of a line that stands `n` lines further down. -/
def LineEnd.lowered (n : Nat) : LineEnd → LineEnd
  | .closed => .closed
  | .inComment pending => .inComment (pending.lowered n)
  | .failed e => .failed (e.lowered n)

/-- The scan of a line that stands `n` lines further down. -/
def LineScan.lowered (n : Nat) (scan : LineScan) : LineScan :=
  ⟨scan.tokens.map (·.lowered n), scan.ending.lowered n⟩

/-- The scan of lines that stand `n` lines further down. -/
def Scan.lowered (n : Nat) (scan : Scan) : Scan :=
  ⟨scan.tokens.map (·.lowered n), scan.error.map (·.lowered n)⟩

/-- A scan with the tokens of the lines above in front. -/
def Scan.behind (ts : List Token) (scan : Scan) : Scan := { scan with tokens := ts ++ scan.tokens }

theorem Scan.behind_behind (ts us : List Token) (scan : Scan) :
    (scan.behind us).behind ts = scan.behind (ts ++ us) := by
  simp [Scan.behind]

variable {file : Text} {line n : Nat} {pending : Option Token}

theorem LineScan.lowered_cons (t : Token) (scan : LineScan) :
    (scan.cons t).lowered n = (scan.lowered n).cons (t.lowered n) := rfl

theorem scanFrom_lowered (skip : Nat) (space : Bool) (col : Nat) (s : Text) :
    scanFrom file (line + n) skip space col s =
    (scanFrom file line skip space col s).lowered n := by
  induction s generalizing skip space col with
  | nil => cases skip <;> rfl
  | cons c cs ih =>
    cases skip with
    | succ skip => exact ih skip space (col + 1)
    | zero =>
      rw [scanFrom, scanFrom]
      split_ifs with hblank
      · exact ih 0 true (col + 1)
      · cases lexeme c cs with
        | token kind more =>
          simp only [ih, LineScan.lowered_cons]
          rfl
        | openComment => rfl
        | fault cause => rfl

theorem scanLine_lowered (s : Text) :
    scanLine file (line + n) (pending.map (·.lowered n)) s =
    (scanLine file line pending s).lowered n := by
  cases pending with
  | none => exact scanFrom_lowered 0 true 1 s
  | some comment =>
    rw [Option.map_some, scanLine, scanLine]
    cases closingMark s with
    | none => rfl
    | some inside => simp only [scanFrom_lowered, LineScan.lowered_cons]; rfl

theorem Scan.lowered_behind (ts : List Token) (scan : Scan) :
    (scan.behind ts).lowered n = (scan.lowered n).behind (ts.map (·.lowered n)) := by
  simp [Scan.lowered, Scan.behind]

/-- **Lines further down** are scanned alike: only the line numbers change. -/
theorem scanLines_lowered (pending : Option Token) (ls : List Text) :
    scanLines file (line + n) (pending.map (·.lowered n)) ls =
    (scanLines file line pending ls).lowered n := by
  induction ls generalizing line pending with
  | nil => cases pending <;> rfl
  | cons l ls ih =>
    have hbelow (pending : Option Token) :
        scanLines file (line + n + 1) (pending.map (·.lowered n)) ls =
          (scanLines file (line + 1) pending ls).lowered n := by
      rw [Nat.add_right_comm]
      exact ih pending
    rw [scanLines_cons, scanLines_cons, scanLine_lowered]
    obtain ⟨ts, ending⟩ := scanLine file line pending l
    cases ending with
    | failed e => rfl
    | closed => exact (congrArg (Scan.behind _) (hbelow none)).trans (Scan.lowered_behind ts _).symm
    | inComment comment =>
      exact (congrArg (Scan.behind _) (hbelow (some comment))).trans (Scan.lowered_behind ts _).symm

/-! ### Lines below others -/

/-- **Lines below others** that leave no comment open are scanned like lines on their own. -/
theorem scanLines_append (ls ls' : List Text) (h : (scanLines file line pending ls).error = none) :
    scanLines file line pending (ls ++ ls') =
      (scanLines file (line + ls.length) none ls').behind
      (scanLines file line pending ls).tokens := by
  induction ls generalizing line pending with
  | nil =>
    cases pending with
    | none => rfl
    | some comment => cases h
  | cons l ls ih =>
    have hline : line + (l :: ls).length = line + 1 + ls.length := by
      rw [List.length_cons]
      omega
    rw [scanLines_cons] at h
    rw [List.cons_append, scanLines_cons, scanLines_cons, hline]
    generalize scanLine file line pending l = scan at h ⊢
    obtain ⟨ts, ending⟩ := scan
    cases ending with
    | failed e => cases h
    | closed => exact (congrArg (Scan.behind ts) (ih h)).trans (Scan.behind_behind ..)
    | inComment comment => exact (congrArg (Scan.behind ts) (ih h)).trans (Scan.behind_behind ..)

/-! ### Whole sources -/

variable {name a s : Text} {tokens : List Token}

/-- A source counts by its lines alone. -/
theorem read_push_of_lines_eq (name : Text) (h : lines a = lines s) (lexer : Lexer) :
    (lexer.push ⟨name, a⟩).read = (lexer.push ⟨name, s⟩).read := by
  have hread : Lexer.readAll [] 1 (⟨name, a⟩ :: lexer.waiting) =
      Lexer.readAll [] 1 (⟨name, s⟩ :: lexer.waiting) := by
    simp only [Lexer.readAll, h]
  simp only [Lexer.push, Lexer.read, Bool.false_eq_true, if_false, hread]

/-- **Both conventions of ending a line read alike.** When no line of a text ends in a carriage
return of its own, the text with a carriage return in front of every newline gives the same tokens
or the same error, and it leaves a lexer that holds other sources in the same state. -/
theorem lex_withReturns (name : Text) (h : ∀ l ∈ splitLines s, l.getLast? ≠ some (chr '\r')) :
    lex ⟨name, withReturns s⟩ = lex ⟨name, s⟩ ∧
      ∀ lexer : Lexer, (lexer.push ⟨name, withReturns s⟩).read = (lexer.push ⟨name, s⟩).read := by
  have hread := read_push_of_lines_eq name (lines_withReturns h)
  exact ⟨congrArg Prod.fst (hread {}), hread⟩

/-- A comment over a line end does not keep the carriage return. -/
theorem lex_withReturns_comment :
    (∀ l ∈ splitLines (lit "/* x\n */ b"), l.getLast? ≠ some (chr '\r')) ∧
      withReturns (lit "/* x\n */ b") = lit "/* x\r\n */ b" ∧
      lex ⟨lit "T", lit "/* x\r\n */ b"⟩ =
        .ok [⟨.comment, lit "/* x\n */", lit "T", 1, 1, true⟩,
          ⟨.ident, lit "b", lit "T", 2, 5, true⟩, .ofEnd (lit "T") 2] := by
  have hends : ∀ l ∈ splitLines (lit "/* x\n */ b"), l.getLast? ≠ some (chr '\r') := by
    decide +kernel
  have hreturns : withReturns (lit "/* x\n */ b") = lit "/* x\r\n */ b" := by decide +kernel
  have hlex := (lex_withReturns (lit "T") hends).1
  rw [hreturns] at hlex
  exact ⟨hends, hreturns, hlex.trans (by decide +kernel)⟩

theorem lex_eq_ok_iff_max :
    lex ⟨name, s⟩ = .ok tokens ↔
      ∃ ts, scanLines name 1 none (lines s) = ⟨ts, none⟩ ∧
        tokens = ts ++ [.ofEnd name (max 1 (lines s).length)] := by
  have hend : (if (lines s).isEmpty then 1 else (lines s).length) = max 1 (lines s).length := by
    cases lines s with
    | nil => rfl
    | cons l ls => simp
  rw [lex_eq_ok_iff_scanLines, hend]

theorem scanLines_lines_append {ts : List Token} (ha : a = [] ∨ a.getLast? = some newline)
    (h : scanLines name 1 none (lines a) = ⟨ts, none⟩) :
    scanLines name 1 none (lines (a ++ s)) =
      ((scanLines name 1 none (lines s)).lowered (lines a).length).behind ts := by
  rw [lines_append ha, scanLines_append _ _ (by rw [h]), h]
  exact congrArg (Scan.behind ts) (scanLines_lowered none (lines s))

/-- **A text below another.** A text that is empty or ends with a newline, and that lexes on its
own, can stand above any other: its tokens come first, without the end, and those of the lower text
follow, moved down by the number of lines above them; an error of the lower text is moved down as
far. -/
theorem lex_append_below (ha : a = [] ∨ a.getLast? = some newline)
    (h : lex ⟨name, a⟩ = .ok tokens) :
    ∃ ts, tokens = ts ++ [.ofEnd name (max 1 (lines a).length)] ∧
      (∀ below, lex ⟨name, s⟩ = .ok below →
        ∃ us, below = us ++ [.ofEnd name (max 1 (lines s).length)] ∧
          lex ⟨name, a ++ s⟩ = .ok (ts ++ us.map (·.lowered (lines a).length) ++
            [.ofEnd name (max 1 ((lines a).length + (lines s).length))])) ∧
      ∀ e, lex ⟨name, s⟩ = .error e → lex ⟨name, a ++ s⟩ = .error (e.lowered (lines a).length) := by
  obtain ⟨ts, hts, rfl⟩ := lex_eq_ok_iff_max.mp h
  have hscan := scanLines_lines_append (s := s) ha hts
  refine ⟨ts, rfl, ?_, ?_⟩
  · intro below hbelow
    obtain ⟨us, hus, rfl⟩ := lex_eq_ok_iff_max.mp hbelow
    refine ⟨us, rfl, lex_eq_ok_iff_max.mpr ⟨ts ++ us.map (·.lowered (lines a).length), ?_, ?_⟩⟩
    · rw [hscan, hus]
      rfl
    · rw [lines_append ha, List.length_append]
  · intro e he
    rw [lex_eq_error_iff_scanLines] at he ⊢
    rw [hscan]
    exact congrArg (Option.map (·.lowered (lines a).length)) he

/-- Below the two lines of a comment, a name of the first line is on line 3 and an error of the
second line is on line 4. -/
theorem lex_append_below_comment :
    lex ⟨lit "T", lit "/* x\n */\n" ++ lit "b"⟩ =
        .ok [⟨.comment, lit "/* x\n */", lit "T", 1, 1, true⟩,
          ⟨.ident, lit "b", lit "T", 3, 1, true⟩, .ofEnd (lit "T") 3] ∧
      lex ⟨lit "T", lit "/* x\n */\n" ++ lit "b\n1x"⟩ =
        .error ⟨.malformedNumber, lit "T", 4, 1, lit "1"⟩ := by
  have hends : lit "/* x\n */\n" = [] ∨ (lit "/* x\n */\n").getLast? = some newline := by
    decide +kernel
  have h : lex ⟨lit "T", lit "/* x\n */\n"⟩ =
      .ok [⟨.comment, lit "/* x\n */", lit "T", 1, 1, true⟩, .ofEnd (lit "T") 2] := by
        decide +kernel
  have hlines : (lines (lit "/* x\n */\n")).length = 2 := by decide +kernel
  constructor
  · obtain ⟨ts, hts, hok, -⟩ := lex_append_below (s := lit "b") hends h
    obtain ⟨us, hus, hlex⟩ :=
      hok [⟨.ident, lit "b", lit "T", 1, 1, true⟩, .ofEnd (lit "T") 1] (by decide +kernel)
    have hts' := congrArg List.dropLast hts
    have hus' := congrArg List.dropLast hus
    rw [List.dropLast_concat] at hts' hus'
    rw [hlex, ← hts', ← hus', hlines]
    decide +kernel
  · obtain ⟨-, -, -, herror⟩ := lex_append_below (s := lit "b\n1x") hends h
    rw [herror ⟨.malformedNumber, lit "T", 2, 1, lit "1"⟩ (by decide +kernel), hlines]
    rfl

end Unnest
