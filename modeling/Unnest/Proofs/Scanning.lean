import Unnest.Token.Scan
import Unnest.Proofs.Lookahead

/-!
# Scanning byte by byte

A source is cut into lines before it is scanned, and what a scan does at a byte depends on how it
came to the line. Here the same scan is described as a walk along the bytes of the whole text:
`scanText` scans what is left of a source from the middle of a line on, and has one equation for
each thing that can stand there.

`Lexes kind text rest` says that `text` is scanned as one token of the kind `kind` when the line
goes on with `rest` behind it; a comment may reach over several lines.

* `Spelled`: a text whose scan gives certain kinds and texts, wherever the text stands;
* `lex_eq_ok_iff`: a whole source.
-/

namespace Unnest

namespace Text

variable {a s rest : Text} {b : UInt8}

/-! ### The first line -/

/-- The first line of a text, without its end. -/
def firstLine (s : Text) : Text := s.takeWhile (· != newline)

/-- What stands below the first line of a text. -/
def belowFirst (s : Text) : Text := (s.dropWhile (· != newline)).tail

theorem firstLine_newline (s : Text) : firstLine (newline :: s) = [] := by
  simp [firstLine]

theorem belowFirst_newline (s : Text) : belowFirst (newline :: s) = s := by
  simp [belowFirst]

theorem newline_notMem_firstLine (s : Text) : newline ∉ firstLine s := by
  intro h
  have := List.mem_takeWhile_imp h
  simp at this

theorem firstLine_append (ha : newline ∉ a) (s : Text) : firstLine (a ++ s) = a ++ firstLine s := by
  refine List.takeWhile_append_of_pos fun b hb => ?_
  rw [bne_iff_ne]
  rintro rfl
  exact ha hb

theorem belowFirst_append (ha : newline ∉ a) (s : Text) : belowFirst (a ++ s) = belowFirst s := by
  unfold belowFirst
  rw [List.dropWhile_append_of_pos]
  intro b hb
  rw [bne_iff_ne]
  rintro rfl
  exact ha hb

theorem firstLine_append_dropWhile (s : Text) : firstLine s ++ s.dropWhile (· != newline) = s :=
  List.takeWhile_append_dropWhile

theorem exists_of_firstLine_eq (h : firstLine s = a ++ rest) :
    ∃ s', s = a ++ s' ∧ firstLine s' = rest ∧ newline ∉ a := by
  have ha : newline ∉ a := by
    intro hmem
    refine newline_notMem_firstLine s ?_
    rw [h]
    exact List.mem_append_left _ hmem
  have hs := firstLine_append_dropWhile s
  rw [h, List.append_assoc] at hs
  refine ⟨_, hs.symm, ?_, ha⟩
  have hfirst := firstLine_append ha (rest ++ s.dropWhile (· != newline))
  rw [hs, h] at hfirst
  exact (List.append_cancel_left hfirst).symm

/-! ### Columns -/

/-- The number of bytes behind the last newline of a text. -/
def lastWidth (a : Text) : Nat := (a.reverse.takeWhile (· != newline)).length

/-- The column behind a text that begins in the column `col`. -/
def colBehind (col : Nat) (a : Text) : Nat := (if newline ∈ a then 1 else col) + lastWidth a

theorem lastWidth_append (hs : newline ∉ s) (a : Text) :
    lastWidth (a ++ s) = lastWidth a + s.length := by
  have hall : ∀ b ∈ s.reverse, (b != newline) = true := by
    intro b hb
    rw [bne_iff_ne]
    rintro rfl
    exact hs (List.mem_reverse.mp hb)
  unfold lastWidth
  rw [List.reverse_append, List.takeWhile_append_of_pos hall, List.length_append,
    List.length_reverse]
  omega

theorem lastWidth_of_notMem (hs : newline ∉ s) : lastWidth s = s.length := by
  simpa [lastWidth] using lastWidth_append hs []

theorem lastWidth_append_newline (a s : Text) : lastWidth (a ++ newline :: s) = lastWidth s := by
  unfold lastWidth
  rw [List.reverse_append, List.reverse_cons, List.append_assoc, List.takeWhile_append]
  split_ifs with hall
  · rw [List.singleton_append, List.takeWhile_cons_of_neg (by simp), List.append_nil, hall]
  · rfl

theorem colBehind_of_notMem (ha : newline ∉ a) (col : Nat) : colBehind col a = col + a.length := by
  rw [colBehind, if_neg ha, lastWidth_of_notMem ha]

theorem colBehind_append_newline (col : Nat) (a s : Text) :
    colBehind col (a ++ newline :: s) = colBehind 1 s := by
  rw [colBehind, if_pos (by simp), lastWidth_append_newline, colBehind, ite_self]

theorem colBehind_one (a : Text) : colBehind 1 a = 1 + lastWidth a := by rw [colBehind, ite_self]

theorem colBehind_append (col : Nat) (a s : Text) :
    colBehind col (a ++ s) = colBehind (colBehind col a) s := by
  by_cases hs : newline ∈ s
  · obtain ⟨s₁, s₂, rfl⟩ := List.append_of_mem hs
    rw [← List.append_assoc, colBehind_append_newline, colBehind_append_newline]
  · rw [colBehind_of_notMem hs]
    simp only [colBehind, List.mem_append, hs, or_false, lastWidth_append hs]
    omega

/-! ### Lines -/

theorem splitLines_eq (s : Text) :
    splitLines s = if s = [] then [] else firstLine s :: splitLines (belowFirst s) := by
  induction s with
  | nil => rfl
  | cons b bs ih =>
    have hne : b :: bs ≠ [] := by simp
    rw [if_neg hne, splitLines]
    by_cases hb : b = newline
    · subst hb
      rw [firstLine_newline, belowFirst_newline, if_pos (by simp)]
    · have hb' : newline ∉ [b] := by simpa using Ne.symm hb
      have hfirst := firstLine_append hb' bs
      have hbelow := belowFirst_append hb' bs
      rw [List.singleton_append] at hfirst hbelow
      rw [if_neg (by simp [hb]), hfirst, hbelow, ih]
      by_cases hbs : bs = []
      · subst hbs
        rfl
      · rw [if_neg hbs]
        rfl

theorem mem_of_mem_splitLines {l : Text} (hl : l ∈ splitLines s) (hb : b ∈ l) : b ∈ s := by
  induction s generalizing l with
  | nil => cases hl
  | cons x s ih =>
    rw [splitLines] at hl
    split at hl
    · rcases List.mem_cons.mp hl with rfl | hl
      · cases hb
      · exact List.mem_cons_of_mem _ (ih hl hb)
    · split at hl
      · rw [List.mem_singleton] at hl
        subst hl
        simp only [List.mem_singleton] at hb
        simp [hb]
      · next l' ls hls =>
        rcases List.mem_cons.mp hl with rfl | hl
        · rcases List.mem_cons.mp hb with rfl | hb
          · exact List.mem_cons_self
          · exact List.mem_cons_of_mem _ (ih (by rw [hls]; exact List.mem_cons_self) hb)
        · exact List.mem_cons_of_mem _ (ih (by rw [hls]; exact List.mem_cons_of_mem _ hl) hb)

theorem lines_eq_splitLines (h : chr '\r' ∉ s) : lines s = splitLines s := by
  have hchomp : ∀ l ∈ splitLines s, chomp l = id l := by
    intro l hl
    unfold chomp
    rw [if_neg]
    · rfl
    · intro hlast
      exact h (mem_of_mem_splitLines hl (List.mem_of_getLast? hlast))
  rw [lines, List.map_congr_left hchomp, List.map_id]

end Text

open Text Lexeme

variable {file : Text} {line : Nat} {space : Bool} {col : Nat} {s : Text} {c : UInt8}
  {more rest : Text} {kind : TokenKind} {t : Token} {ts : List Token}

/-! ### The rest of a source -/

/-- The scan of a line with the lines `rest` below it. -/
def LineScan.followedBy (scan : LineScan) (file : Text) (line : Nat) (rest : List Text) : Scan :=
  match scan.ending with
  | .failed e => ⟨scan.tokens, some e⟩
  | .closed =>
    let below := scanLines file (line + 1) none rest
    { below with tokens := scan.tokens ++ below.tokens }
  | .inComment comment =>
    let below := scanLines file (line + 1) (some comment) rest
    { below with tokens := scan.tokens ++ below.tokens }

def Scan.cons (t : Token) (scan : Scan) : Scan := { scan with tokens := t :: scan.tokens }

theorem Scan.cons_eq_ok_iff {scan : Scan} :
    scan.cons t = ⟨ts, none⟩ ↔ ∃ us, scan = ⟨us, none⟩ ∧ ts = t :: us := by
  obtain ⟨us, e⟩ := scan
  constructor
  · intro h
    cases h
    exact ⟨us, rfl, rfl⟩
  · rintro ⟨vs, h, rfl⟩
    cases h
    rfl

theorem LineScan.followedBy_cons (scan : LineScan) (rest : List Text) :
    (scan.cons t).followedBy file line rest = (scan.followedBy file line rest).cons t := by
  obtain ⟨us, ending⟩ := scan
  cases ending <;> rfl

theorem scanLines_cons (pending : Option Token) (l : Text) (rest : List Text) :
    scanLines file line pending (l :: rest) =
    (scanLine file line pending l).followedBy file line rest := by
  cases pending <;> rfl

theorem scanFrom_append (a s : Text) :
    scanFrom file line a.length space col (a ++ s) =
    scanFrom file line 0 space (col + a.length) s := by
  induction a generalizing col with
  | nil => rfl
  | cons b bs ih =>
    rw [List.length_cons, List.cons_append, scanFrom, ih]
    congr 1
    omega

/-- Scans what is left of a source, from the middle of a line on. -/
def scanText (file : Text) (line : Nat) (space : Bool) (col : Nat) (s : Text) : Scan :=
  (scanFrom file line 0 space col (firstLine s)).followedBy file line (splitLines (belowFirst s))

/-- Scans what is left of a source, from the start of a line in a comment on. -/
def scanComment (file : Text) (line : Nat) (comment : Token) (s : Text) : Scan :=
  scanLines file line (some comment) (splitLines s)

theorem scanLines_splitLines (s : Text) :
    scanLines file line none (splitLines s) = scanText file line true 1 s := by
  rw [splitLines_eq]
  by_cases hs : s = []
  · subst hs
    rfl
  · rw [if_neg hs, scanLines_cons]
    rfl

theorem scanText_newline (s : Text) :
    scanText file line space col (newline :: s) = scanText file (line + 1) true 1 s := by
  rw [← scanLines_splitLines, scanText, firstLine_newline, belowFirst_newline, scanFrom]
  rfl

theorem isBlank_newline : isBlank newline = false := by decide

theorem firstLine_cons (hc : c ≠ newline) (s : Text) : firstLine (c :: s) = c :: firstLine s := by
  simp [firstLine, hc]

theorem belowFirst_cons (hc : c ≠ newline) (s : Text) : belowFirst (c :: s) = belowFirst s := by
  simp [belowFirst, hc]

theorem scanText_blank (hc : isBlank c = true) (s : Text) :
    scanText file line space col (c :: s) = scanText file line true (col + 1) s := by
  have hne : c ≠ newline := by
    rintro rfl
    rw [isBlank_newline] at hc
    cases hc
  rw [scanText, firstLine_cons hne, belowFirst_cons hne, scanFrom, if_pos hc]
  rfl

theorem scanText_token (hc : c ≠ newline) (hblank : isBlank c = false) (hmore : newline ∉ more)
    (h : lexeme c (more ++ firstLine s) = .token kind more.length) :
    scanText file line space col (c :: more ++ s) =
      (scanText file line false (col + 1 + more.length) s).cons
        { kind, text := c :: more, file, line, col, spaceBefore := space } := by
  have htake : (more ++ firstLine s).take more.length = more := List.take_left
  rw [scanText, List.cons_append, firstLine_cons hc, belowFirst_cons hc, firstLine_append hmore,
    belowFirst_append hmore, scanFrom, if_neg (by simp [hblank]), h]
  simp only [htake]
  rw [LineScan.followedBy_cons, scanFrom_append]
  rfl

theorem scanText_openComment (hc : c ≠ newline) (hblank : isBlank c = false)
    (h : lexeme c (firstLine s) = .openComment) :
    scanText file line space col (c :: s) =
      scanComment file (line + 1)
        { kind := .comment, text := c :: firstLine s ++ [newline], file, line, col,
          spaceBefore := space }
        (belowFirst s) := by
  rw [scanText, firstLine_cons hc, belowFirst_cons hc, scanFrom, if_neg (by simp [hblank]), h]
  rfl

theorem scanComment_none {comment : Token} (hs : s ≠ []) (h : closingMark (firstLine s) = none) :
    scanComment file line comment s = scanComment file (line + 1)
      { comment with text := comment.text ++ firstLine s ++ [newline] } (belowFirst s) := by
  rw [scanComment, splitLines_eq, if_neg hs, scanLines_cons, scanLine, h]
  rfl

theorem scanComment_some {comment : Token} {n : Nat} (hmore : newline ∉ more)
    (h : closingMark more = some n) (hlen : more.length = n + 2) (s : Text) :
    scanComment file line comment (more ++ s) =
      (scanText file line true (1 + more.length) s).cons
        { comment with text := comment.text ++ more } := by
  have hne : more ++ s ≠ [] := by
    intro hnil
    rw [List.append_eq_nil_iff] at hnil
    rw [hnil.1] at h
    cases h
  rw [scanComment, splitLines_eq, if_neg hne, scanLines_cons, scanLine, firstLine_append hmore,
    belowFirst_append hmore, closingMark_append h]
  simp only
  rw [← hlen, List.take_left, LineScan.followedBy_cons, scanFrom_append]
  rfl

theorem scanText_fault {cause : Cause} (hc : c ≠ newline) (hblank : isBlank c = false)
    (h : lexeme c (firstLine s) = .fault cause) :
    scanText file line space col (c :: s) =
    ⟨[], some (.ofPlace cause { file, line, col } [c])⟩ := by
  rw [scanText, firstLine_cons hc, belowFirst_cons hc, scanFrom, if_neg (by simp [hblank]), h]
  rfl

/-! ### Tokens and comments over several lines -/

variable {l : Text} {text : Text} {name : Text}

theorem closingMark_append_newline (h : closingMark l = none) (s : Text) :
    closingMark (l ++ newline :: s) = (closingMark s).map (· + (l.length + 1)) := by
  induction l with
  | nil =>
    have hne : (newline == chr '*') = false := by decide
    simp [closingMark, hne]
  | cons b l ih =>
    rw [closingMark] at h
    split_ifs at h with hmark
    have hnone : closingMark l = none := by simpa using h
    have hhead : ¬ (b == chr '*' && (l ++ newline :: s).head? == some (chr '/')) = true := by
      cases l with
      | nil =>
        have hne : newline ≠ chr '/' := by decide
        simp [hne]
      | cons b' l => exact hmark
    rw [List.cons_append, closingMark, if_neg hhead, ih hnone, Option.map_map]
    rfl

/-- What stands of a comment below its first line. -/
inductive CommentTail : Text → Prop
  | last {l : Text} {n : Nat} (hl : newline ∉ l) (h : closingMark l = some n)
      (hlen : l.length = n + 2) :
    CommentTail l
  | next {l tail : Text} (hl : newline ∉ l) (h : closingMark l = none) (htail : CommentTail tail) :
    CommentTail (l ++ newline :: tail)

/-- The text is one token of the given kind when the line goes on with `rest` behind it. -/
inductive Lexes (kind : TokenKind) (rest : Text) : Text → Prop
  | short {c : UInt8} {more : Text} (hc : c ≠ newline) (hblank : isBlank c = false)
      (hmore : newline ∉ more)
    (h : lexeme c (more ++ rest) = .token kind more.length) : Lexes kind rest (c :: more)
  | long {c : UInt8} {l tail : Text} (hkind : kind = .comment) (hc : c ≠ newline)
    (hblank : isBlank c = false) (hl : newline ∉ l) (h : lexeme c l = .openComment)
    (htail : CommentTail tail) : Lexes kind rest (c :: l ++ newline :: tail)

theorem CommentTail.ne_nil {tail : Text} (h : CommentTail tail) : tail ≠ [] := by
  cases h with
  | last hl h hlen =>
    rintro rfl
    cases h
  | next hl h htail => simp

theorem Lexes.exists_cons (h : Lexes kind rest text) :
    ∃ c more, text = c :: more ∧ c ≠ newline := by
  cases h with
  | short hc hblank hmore h => exact ⟨_, _, rfl, hc⟩
  | long hkind hc hblank hl h htail => exact ⟨_, _, rfl, hc⟩

theorem firstLine_append_newline (hl : newline ∉ l) (s : Text) :
    firstLine (l ++ newline :: s) = l := by
  rw [firstLine_append hl, firstLine_newline, List.append_nil]

theorem belowFirst_append_newline (hl : newline ∉ l) (s : Text) :
    belowFirst (l ++ newline :: s) = s := by
  rw [belowFirst_append hl, belowFirst_newline]

theorem scanComment_tail {tail : Text} (h : CommentTail tail) (file : Text) (line : Nat)
    (comment : Token) (s : Text) :
    scanComment file line comment (tail ++ s) =
      (scanText file (line + tail.count newline) true (colBehind 1 tail) s).cons
        { comment with text := comment.text ++ tail } := by
  induction h generalizing comment line with
  | last hl h hlen =>
    rw [List.count_eq_zero.mpr hl, colBehind_of_notMem hl]
    exact scanComment_some hl h hlen s
  | @next l tail hl h htail ih =>
    have happend : l ++ newline :: tail ++ s = l ++ newline :: (tail ++ s) := by simp
    have hcount : line + (l ++ newline :: tail).count newline = line + 1 + tail.count newline := by
      rw [List.count_append, List.count_eq_zero.mpr hl, List.count_cons_self]
      omega
    have hfirst := firstLine_append_newline hl (tail ++ s)
    have hne : l ++ newline :: (tail ++ s) ≠ [] := by simp
    rw [happend, scanComment_none hne (by rw [hfirst]; exact h), hfirst,
      belowFirst_append_newline hl, ih, hcount, colBehind_append_newline]
    simp

theorem scanText_lexes (h : Lexes kind (firstLine s) text) (file : Text) (line : Nat)
    (space : Bool) (col : Nat) :
    scanText file line space col (text ++ s) =
      (scanText file (line + text.count newline) (decide (newline ∈ text)) (colBehind col text)
        s).cons
        { kind, text, file, line, col, spaceBefore := space } := by
  cases h with
  | @short c more hc hblank hmore h =>
    have hnot : newline ∉ c :: more := by
      rw [List.mem_cons]
      rintro (hmem | hmem)
      · exact hc hmem.symm
      · exact hmore hmem
    have hcol : colBehind col (c :: more) = col + 1 + more.length := by
      rw [colBehind_of_notMem hnot, List.length_cons]
      omega
    rw [List.count_eq_zero.mpr hnot, decide_eq_false hnot, hcol]
    exact scanText_token hc hblank hmore h
  | @long c l tail hkind hc hblank hl h htail =>
    subst hkind
    have happend : c :: l ++ newline :: tail ++ s = c :: (l ++ newline :: (tail ++ s)) := by simp
    have hcount : line + (c :: l ++ newline :: tail).count newline =
        line + 1 + tail.count newline := by
      rw [List.count_append, List.count_cons_of_ne hc, List.count_eq_zero.mpr hl,
        List.count_cons_self]
      omega
    have hfirst := firstLine_append_newline hl (tail ++ s)
    rw [happend, scanText_openComment hc hblank (by rw [hfirst]; exact h), hfirst,
      belowFirst_append_newline hl, scanComment_tail htail, hcount, decide_eq_true (by simp),
      colBehind_append_newline]
    simp

/-! ### The first token -/

theorem eq_of_belowFirst_ne_nil (h : belowFirst s ≠ []) :
    s = firstLine s ++ newline :: belowFirst s := by
  have hs := firstLine_append_dropWhile s
  unfold belowFirst at h ⊢
  cases hdrop : s.dropWhile (· != newline) with
  | nil =>
    rw [hdrop] at h
    exact absurd rfl h
  | cons b bs =>
    have hb : b = newline := by
      have := List.head?_dropWhile_not (· != newline) s
      rw [hdrop] at this
      simpa using this
    rw [hdrop, hb] at hs
    exact hs.symm

theorem scanComment_cases (file : Text) (line : Nat) (comment : Token) (s : Text) :
    (∃ tail s', s = tail ++ s' ∧ CommentTail tail) ∨ scanComment file line comment s =
      ⟨[], some (.ofPlace .unterminatedComment comment.place (lit "/*"))⟩ := by
  induction hn : s.length using Nat.strong_induction_on generalizing s line comment with
  | _ n ih =>
    by_cases hs : s = []
    · subst hs
      exact Or.inr rfl
    cases hmark : closingMark (firstLine s) with
    | none =>
      rw [scanComment_none hs hmark]
      by_cases hbelow : belowFirst s = []
      · rw [hbelow]
        exact Or.inr rfl
      have hsplit := eq_of_belowFirst_ne_nil hbelow
      have hlt : (belowFirst s).length < n := by
        have := congrArg List.length hsplit
        simp only [List.length_append, List.length_cons] at this
        omega
      rcases ih _ hlt (line + 1) _ (belowFirst s) rfl with ⟨tail, s', heq, htail⟩ | hscan
      · refine Or.inl ⟨firstLine s ++ newline :: tail, s', ?_,
          .next (newline_notMem_firstLine s) hmark htail⟩
        rw [List.append_assoc, List.cons_append, ← heq]
        exact hsplit
      · exact Or.inr hscan
    | some m =>
      obtain ⟨htake, hle⟩ := closingMark_take hmark
      obtain ⟨more, rest, hmore, hlen⟩ := exists_append_of_le hle
      rw [hmore, hlen, List.take_left] at htake
      obtain ⟨s', rfl, -, hnot⟩ := exists_of_firstLine_eq hmore
      exact Or.inl ⟨more, s', rfl, .last hnot htake hlen.symm⟩

/-- Where there is no white space, a text stands that is scanned as one token, or the scan fails
there. The error shows the byte there, which begins no name, or the mark that opens a comment. -/
theorem scanText_cases (hnew : c ≠ newline) (hblank : isBlank c = false) (file : Text) (line : Nat)
    (space : Bool) (col : Nat) (s : Text) :
    (∃ kind text rest, c :: s = text ++ rest ∧ Lexes kind (firstLine rest) text) ∨
      ∃ cause text, scanText file line space col (c :: s) =
        ⟨[], some (.ofPlace cause { file, line, col } text)⟩ ∧
        text <+: c :: s ∧ (text = [c] ∧ isNameStart c = false ∨ text = lit "/*") := by
  cases hlex : lexeme c (firstLine s) with
  | fault cause =>
    exact Or.inr ⟨cause, [c], scanText_fault hnew hblank hlex, List.prefix_append [c] s,
      Or.inl ⟨rfl, not_isNameStart_of_fault hlex⟩⟩
  | token kind n =>
    obtain ⟨more, rest, hmore, rfl⟩ := exists_append_of_le (more_le_of_lexeme hlex)
    obtain ⟨s', rfl, rfl, hnot⟩ := exists_of_firstLine_eq hmore
    rw [hmore] at hlex
    exact Or.inl ⟨kind, c :: more, s', rfl, .short hnew hblank hnot hlex⟩
  | openComment =>
    rw [scanText_openComment hnew hblank hlex]
    rcases scanComment_cases file (line + 1)
      { kind := .comment, text := c :: firstLine s ++ [newline], file, line, col,
        spaceBefore := space }
      (belowFirst s) with ⟨tail, s', heq, htail⟩ | hscan
    · have hbelow : belowFirst s ≠ [] := by
        rw [heq]
        intro hnil
        exact htail.ne_nil (List.append_eq_nil_iff.mp hnil).1
      have hsplit := eq_of_belowFirst_ne_nil hbelow
      rw [heq] at hsplit
      refine Or.inl ⟨.comment, c :: firstLine s ++ newline :: tail, s', by simpa using hsplit, ?_⟩
      exact .long rfl hnew hblank (newline_notMem_firstLine s) hlex htail
    · obtain ⟨cs, rfl, hfirst, -⟩ := exists_of_openComment hlex
      obtain ⟨s', rfl, -⟩ := exists_of_firstLine_eq (show firstLine s = [chr '*'] ++ cs from hfirst)
      exact Or.inr ⟨_, _, hscan, List.prefix_append (lit "/*") s', Or.inr rfl⟩

theorem exists_lexes_of_scanText (hnew : c ≠ newline) (hblank : isBlank c = false)
    (h : scanText file line space col (c :: s) = ⟨ts, none⟩) :
    ∃ kind text rest us, c :: s = text ++ rest ∧ Lexes kind (firstLine rest) text ∧
      ts = { kind, text, file, line, col, spaceBefore := space } :: us ∧
      scanText file (line + text.count newline) (decide (newline ∈ text))
      (colBehind col text) rest =
        ⟨us, none⟩ := by
  rcases scanText_cases hnew hblank file line space col s with
    ⟨kind, text, rest, heq, hlexes⟩ | ⟨cause, text, hscan, -⟩
  · rw [heq, scanText_lexes hlexes] at h
    obtain ⟨us, hrest, hts⟩ := Scan.cons_eq_ok_iff.mp h
    exact ⟨kind, text, rest, us, heq, hlexes, hts, hrest⟩
  · rw [hscan] at h
    cases h

/-- What a scan knows of its first token `t`: the text `gap` in front of it, and where the scan goes
on. -/
structure FirstToken (file : Text) (line : Nat) (space : Bool) (s : Text) (t : Token)
    (ts : List Token) (gap rest : Text) : Prop where
  text : s = gap ++ (t.text ++ rest)
  lexes : Lexes t.kind (firstLine rest) t.text
  goesOn : ∃ line' col', t.endLine = Int.ofNat line' ∧
    scanText file line' (decide (newline ∈ t.text)) col' rest = ⟨ts, none⟩
  place : gap = [] ∧ t.line = line ∧ t.spaceBefore = space ∨
    (∃ b, gap.head? = some b ∧ (isBlank b = true ∨ b = newline)) ∧ t.spaceBefore = true ∧
      (line : Int) ≤ t.line

theorem FirstToken.cons {gap : Text} {line' : Nat} (h : FirstToken file line' true s t ts gap rest)
    (hc : isBlank c = true ∨ c = newline) (hline : line ≤ line') :
    FirstToken file line space (c :: s) t ts (c :: gap) rest := by
  refine ⟨by rw [h.text]; rfl, h.lexes, h.goesOn, Or.inr ⟨⟨c, rfl, hc⟩, ?_⟩⟩
  rcases h.place with ⟨-, ht, hspace⟩ | ⟨-, hspace, ht⟩
  · exact ⟨hspace, by omega⟩
  · exact ⟨hspace, by omega⟩

theorem FirstToken.suffix {gap : Text} (h : FirstToken file line space s t ts gap rest) :
    rest <:+ s :=
  ⟨gap ++ t.text, by rw [h.text, List.append_assoc]⟩

/-- **The first token** of a scan that succeeds. -/
theorem scanText_uncons (h : scanText file line space col s = ⟨t :: ts, none⟩) :
    ∃ gap rest, FirstToken file line space s t ts gap rest := by
  induction s generalizing line space col with
  | nil => cases h
  | cons c s ih =>
    by_cases hnew : c = newline
    · subst hnew
      rw [scanText_newline] at h
      obtain ⟨gap, rest, hfirst⟩ := ih h
      exact ⟨_, rest, hfirst.cons (Or.inr rfl) (Nat.le_succ line)⟩
    by_cases hblank : isBlank c = true
    · rw [scanText_blank hblank] at h
      obtain ⟨gap, rest, hfirst⟩ := ih h
      exact ⟨_, rest, hfirst.cons (Or.inl hblank) (Nat.le_refl line)⟩
    obtain ⟨kind, text, rest, us, heq, hlexes, hts, hrest⟩ :=
      exists_lexes_of_scanText hnew (by simpa using hblank) h
    cases hts
    exact ⟨[], rest, heq, hlexes, ⟨_, _, rfl, hrest⟩, Or.inl ⟨rfl, rfl, rfl⟩⟩

theorem exists_scanText_of_append (xs : List Token)
    (h : scanText file line space col s = ⟨xs ++ ts, none⟩) :
    ∃ line' space' col' s', s' <:+ s ∧ scanText file line' space' col' s' = ⟨ts, none⟩ := by
  induction xs generalizing line space col s with
  | nil => exact ⟨line, space, col, s, List.suffix_refl s, h⟩
  | cons t xs ih =>
    obtain ⟨gap, rest, hfirst⟩ := scanText_uncons h
    obtain ⟨line₁, col₁, -, hrest⟩ := hfirst.goesOn
    obtain ⟨line', space', col', s', hsuffix, hscan⟩ := ih hrest
    exact ⟨line', space', col', s', hsuffix.trans hfirst.suffix, hscan⟩

theorem lexes_of_mem (h : scanText file line space col s = ⟨ts, none⟩) (ht : t ∈ ts) :
    ∃ rest, Lexes t.kind rest t.text := by
  obtain ⟨xs, ys, rfl⟩ := List.append_of_mem ht
  obtain ⟨line', space', col', s', -, hscan⟩ := exists_scanText_of_append xs h
  obtain ⟨gap, rest, hfirst⟩ := scanText_uncons hscan
  exact ⟨_, hfirst.lexes⟩

/-! ### Spellings -/

def Token.spelling (t : Token) : TokenKind × Text := (t.kind, t.text)

/-- The text is scanned into tokens of the given kinds and texts, wherever it stands. -/
def Spelled (s : Text) (spellings : List (TokenKind × Text)) : Prop :=
  ∀ file line space col,
    ∃ ts, scanText file line space col s = ⟨ts, none⟩ ∧ ts.map (·.spelling) = spellings

variable {spellings : List (TokenKind × Text)}

theorem spelled_nil : Spelled [] [] := fun _ _ _ _ => ⟨[], rfl, rfl⟩

theorem Spelled.newline (h : Spelled s spellings) : Spelled (Text.newline :: s) spellings := by
  intro file line space col
  rw [scanText_newline]
  exact h file (line + 1) true 1

theorem Spelled.blanks {a : Text} (ha : ∀ b ∈ a, isBlank b = true) (h : Spelled s spellings) :
    Spelled (a ++ s) spellings := by
  induction a with
  | nil => exact h
  | cons b a ih =>
    intro file line space col
    rw [List.cons_append, scanText_blank (ha b List.mem_cons_self)]
    exact ih (fun b' hb' => ha b' (List.mem_cons_of_mem _ hb')) file line true (col + 1)

theorem Spelled.lexes (ht : Lexes kind (firstLine s) text) (h : Spelled s spellings) :
    Spelled (text ++ s) ((kind, text) :: spellings) := by
  intro file line space col
  have hscan := scanText_lexes ht file line space col
  obtain ⟨ts, hrest, hts⟩ := h file (line + text.count Text.newline) (decide (Text.newline ∈ text))
    (Text.colBehind col text)
  refine ⟨_ :: ts, hscan.trans (Scan.cons_eq_ok_iff.mpr ⟨ts, hrest, rfl⟩), ?_⟩
  rw [List.map_cons, hts]
  rfl

/-! ### Whole sources -/

theorem lex_eq_ok_iff_scanLines {tokens : List Token} :
    lex ⟨name, s⟩ = .ok tokens ↔
      ∃ ts, scanLines name 1 none (lines s) = ⟨ts, none⟩ ∧
        tokens = ts ++ [.ofEnd name (if (lines s).isEmpty then 1 else (lines s).length)] := by
  simp only [lex, Lexer.push, Lexer.read, Lexer.readAll]
  cases scanLines name 1 none (lines s) with
  | mk ts error =>
    cases error with
    | none =>
      constructor
      · intro h
        cases h
        exact ⟨ts, rfl, rfl⟩
      · rintro ⟨us, hus, rfl⟩
        cases hus
        rfl
    | some e =>
      constructor
      · intro h
        cases h
      · rintro ⟨us, hus, -⟩
        cases hus

theorem lex_eq_error_iff_scanLines {e : SourceError} :
    lex ⟨name, s⟩ = .error e ↔ (scanLines name 1 none (lines s)).error = some e := by
  simp only [lex, Lexer.push, Lexer.read, Lexer.readAll]
  cases scanLines name 1 none (lines s) with
  | mk ts error => cases error <;> simp

theorem lex_eq_ok_iff {tokens : List Token} (hs : chr '\r' ∉ s) :
    lex ⟨name, s⟩ = .ok tokens ↔
      ∃ ts, scanText name 1 true 1 s = ⟨ts, none⟩ ∧
        tokens = ts ++ [.ofEnd name (if (lines s).isEmpty then 1 else (lines s).length)] := by
  rw [lex_eq_ok_iff_scanLines, ← scanLines_splitLines, lines_eq_splitLines hs]

end Unnest
