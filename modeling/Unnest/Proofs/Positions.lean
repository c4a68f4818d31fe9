import Unnest.Proofs.Outcome
import Unnest.Proofs.Scanning
import Mathlib

/-!
# Where the tokens stand

The lines of a source, each with a newline behind it, are again one text, and the scan of the source
is a walk along that text. `Laid` keeps the walk together with the text behind it, so the line and
the column of a token are those of the text in front of the token.

* `exists_line_of_append`: from a place in the text to the line it is in;
* `lex_lays_out_tokens`: all of this for the lines of a source.
-/

namespace Unnest

open Text Lexeme

/-! ### Places in a text -/

namespace Text

variable {a b s : Text}

/-- The line and the column behind a text that begins in the first column of the first line. -/
def behind (a : Text) : Int ×ₗ Int := toLex (1 + (a.count newline : Int), (colBehind 1 a : Int))

theorem behind_lt_append_singleton (a : Text) (b : UInt8) : behind a < behind (a ++ [b]) := by
  unfold behind
  rw [Prod.Lex.toLex_lt_toLex, List.count_append]
  by_cases hb : b = newline
  · subst hb
    left
    simp
  · right
    have hb' : newline ∉ [b] := by simpa using Ne.symm hb
    rw [List.count_eq_zero.mpr hb', colBehind_append, colBehind_of_notMem hb']
    simp

theorem behind_lt_append (a : Text) (hs : s ≠ []) : behind a < behind (a ++ s) := by
  induction s using List.reverseRecOn with
  | nil => exact absurd rfl hs
  | append_singleton s b ih =>
    rw [← List.append_assoc]
    by_cases hs' : s = []
    · rw [hs', List.append_nil]
      exact behind_lt_append_singleton a b
    · exact (ih hs').trans (behind_lt_append_singleton (a ++ s) b)

theorem behind_le_append (a s : Text) : behind a ≤ behind (a ++ s) := by
  by_cases hs : s = []
  · rw [hs, List.append_nil]
  · exact (behind_lt_append a hs).le

end Text

namespace Token

/-- The line and the column of the first byte of a token. -/
def start (t : Token) : Int ×ₗ Int := toLex (t.line, t.col)

/-- The column behind the last byte of a token. -/
def endCol (t : Token) : Int := (if newline ∈ t.text then 1 else t.col) + lastWidth t.text

/-- The line and the column behind the last byte of a token. -/
def stop (t : Token) : Int ×ₗ Int := toLex (t.endLine, t.endCol)

end Token

/-! ### The walk -/

variable {file : Text} {space : Bool} {s done rest : Text} {t : Token}
  {ts xs ys earlier : List Token}

/-- A token of the given kind and text behind `done`. -/
def tokenBehind (file done : Text) (space : Bool) (kind : TokenKind) (text : Text) : Token :=
  { kind, text, file, line := (1 + done.count newline : Nat), col := colBehind 1 done,
    spaceBefore := space }

/-- The tokens `ts` of the text `rest` that stands behind `done`; `space` says whether white space
or the start of a line precedes it. -/
inductive Laid (file : Text) : (done : Text) → (space : Bool) → (rest : Text) → List Token → Prop
  | nil {done : Text} {space : Bool} : Laid file done space [] []
  | lineEnd {done rest : Text} {space : Bool} {ts : List Token}
    (h : Laid file (done ++ [newline]) true rest ts) : Laid file done space (newline :: rest) ts
  | blank {done rest : Text} {space : Bool} {c : UInt8} {ts : List Token} (hc : isBlank c = true)
    (h : Laid file (done ++ [c]) true rest ts) : Laid file done space (c :: rest) ts
  | token {done rest text : Text} {space : Bool} {kind : TokenKind} {ts : List Token}
    (hlexes : Lexes kind (firstLine rest) text)
    (h : Laid file (done ++ text) (decide (newline ∈ text)) rest ts) :
    Laid file done space (text ++ rest) (tokenBehind file done space kind text :: ts)

theorem laid_of_scanText
    (h : scanText file (1 + done.count newline) space (colBehind 1 done) s = ⟨ts, none⟩) :
    Laid file done space s ts := by
  induction hn : s.length using Nat.strong_induction_on generalizing s done space ts with
  | _ n ih =>
    cases s with
    | nil =>
      cases h
      exact .nil
    | cons c s =>
      have hlt : s.length < n := by
        rw [← hn, List.length_cons]
        exact Nat.lt_succ_self _
      by_cases hnew : c = newline
      · subst hnew
        rw [scanText_newline] at h
        refine .lineEnd (ih _ hlt ?_ rfl)
        rw [List.count_append, colBehind_append_newline]
        exact h
      by_cases hblank : isBlank c = true
      · rw [scanText_blank hblank] at h
        have hc : newline ∉ [c] := by simpa using Ne.symm hnew
        refine .blank hblank (ih _ hlt ?_ rfl)
        rw [List.count_append, List.count_eq_zero.mpr hc, colBehind_append, colBehind_of_notMem hc]
        exact h
      obtain ⟨kind, text, rest, us, heq, hlexes, rfl, hrest⟩ :=
        exists_lexes_of_scanText hnew (by simpa using hblank) h
      have htext : 0 < text.length := by
        obtain ⟨c', more, rfl, -⟩ := hlexes.exists_cons
        simp
      have hlt : rest.length < n := by
        rw [← hn, heq, List.length_append]
        omega
      rw [heq]
      refine .token hlexes (ih _ hlt ?_ rfl)
      rw [List.count_append, colBehind_append, ← Nat.add_assoc]
      exact hrest

theorem start_tokenBehind (kind : TokenKind) (text : Text) :
    (tokenBehind file done space kind text).start = behind done := by
  simp [tokenBehind, Token.start, behind]

theorem stop_tokenBehind (kind : TokenKind) (text : Text) :
    (tokenBehind file done space kind text).stop = behind (done ++ text) := by
  have hline : (tokenBehind file done space kind text).endLine =
      1 + ((done ++ text).count newline : Int) := by
    simp only [Token.endLine, tokenBehind, List.count_append]
    push_cast
    rw [add_assoc]
    rfl
  have hcol : (tokenBehind file done space kind text).endCol =
      (colBehind 1 (done ++ text) : Int) := by
    have hif : ((if newline ∈ text then 1 else colBehind 1 done : Nat) : Int) =
        if newline ∈ text then 1 else (colBehind 1 done : Int) := by split_ifs <;> simp
    rw [colBehind_append, colBehind, Nat.cast_add, hif]
    rfl
  rw [Token.stop, behind, hline, hcol]

theorem Laid.behind_le_start (h : Laid file done space s ts) (ht : t ∈ ts) :
    behind done ≤ t.start := by
  induction h with
  | nil => cases ht
  | lineEnd h ih => exact (behind_le_append _ _).trans (ih ht)
  | blank hc h ih => exact (behind_le_append _ _).trans (ih ht)
  | token hlexes h ih =>
    rcases List.mem_cons.mp ht with rfl | ht
    · rw [start_tokenBehind]
    · exact (behind_le_append _ _).trans (ih ht)

theorem Laid.pairwise (h : Laid file done space s ts) :
    ts.Pairwise fun t u => t.start < u.start ∧ t.stop ≤ u.start := by
  induction h with
  | nil => exact List.Pairwise.nil
  | lineEnd h ih => exact ih
  | blank hc h ih => exact ih
  | @token done rest text space kind ts hlexes h ih =>
    refine List.Pairwise.cons (fun u hu => ?_) ih
    have hu := h.behind_le_start hu
    have htext : text ≠ [] := by
      obtain ⟨c, more, rfl, -⟩ := hlexes.exists_cons
      simp
    rw [start_tokenBehind, stop_tokenBehind]
    exact ⟨(behind_lt_append done htext).trans_le hu, hu⟩

theorem Laid.covered (h : Laid file done space s ts) {a back : Text} {b : UInt8}
    (hs : s = a ++ b :: back) :
    b = newline ∨ isBlank b = true ∨
      ∃ t ∈ ts, t.start ≤ behind (done ++ a) ∧ behind (done ++ a) < t.stop := by
  induction h generalizing a with
  | nil => simp at hs
  | @lineEnd done rest space ts h ih =>
    cases a with
    | nil => exact Or.inl (List.cons.inj hs).1.symm
    | cons x a =>
      obtain ⟨rfl, hrest⟩ := List.cons.inj hs
      simpa using ih hrest
  | @blank done rest space c ts hc h ih =>
    cases a with
    | nil =>
      rw [← (List.cons.inj hs).1]
      exact Or.inr (Or.inl hc)
    | cons x a =>
      obtain ⟨rfl, hrest⟩ := List.cons.inj hs
      simpa using ih hrest
  | @token done rest text space kind ts hlexes h ih =>
    have hbehind : ∀ a', rest = a' ++ b :: back → a = text ++ a' →
        b = newline ∨ isBlank b = true ∨
          ∃ t ∈ tokenBehind file done space kind text :: ts,
            t.start ≤ behind (done ++ a) ∧ behind (done ++ a) < t.stop := by
      rintro a' hrest rfl
      rcases ih hrest with hb | hb | ⟨t, ht, hcovers⟩
      · exact Or.inl hb
      · exact Or.inr (Or.inl hb)
      · rw [List.append_assoc] at hcovers
        exact Or.inr (Or.inr ⟨t, List.mem_cons_of_mem _ ht, hcovers⟩)
    rcases List.append_eq_append_iff.mp hs with ⟨a', ha, hrest⟩ | ⟨tail, htext, htail⟩
    · exact hbehind a' hrest ha
    by_cases hnil : tail = []
    · subst hnil
      exact hbehind [] htail.symm (by simpa using htext.symm)
    · refine Or.inr (Or.inr ⟨_, List.mem_cons_self, ?_, ?_⟩)
      · rw [start_tokenBehind]
        exact behind_le_append done a
      · rw [stop_tokenBehind, htext, ← List.append_assoc]
        exact behind_lt_append _ hnil

/-! ### Single tokens -/

variable {kind : TokenKind} {text : Text}

theorem Lexes.not_isBlank {b : UInt8} (h : Lexes kind rest text)
    (hnew : newline ∉ text) (hrest : rest ≠ []) (hb : text.getLast? = some b) :
    isBlank b = false := by
  cases h with
  | short hc hblank hmore h => exact not_isBlank_of_getLast? hrest h hb
  | long hkind hc hblank hl h htail => simp at hnew

theorem Lexes.kind_ne_eof (h : Lexes kind rest text) :
    kind ≠ .eof := by
  cases h with
  | short hc hblank hmore h => exact kind_ne_eof_of_lexeme h
  | long hkind hc hblank hl h htail =>
    rw [hkind]
    decide

/-- A block comment that ends at the first `*/` behind its `/*`. -/
def IsBlockComment (text : Text) : Prop :=
  ∃ inside, text = lit "/*" ++ inside ++ lit "*/" ∧ ¬ lit "*/" <:+: inside ++ lit "*"

theorem CommentTail.closingMark_eq {tail : Text} (h : CommentTail tail) :
    ∃ n, closingMark tail = some n ∧ tail.length = n + 2 := by
  induction h with
  | last hl h hlen => exact ⟨_, h, hlen⟩
  | @next l tail hl h htail ih =>
    obtain ⟨n, hn, hlen⟩ := ih
    refine ⟨n + (l.length + 1), ?_, ?_⟩
    · rw [closingMark_append_newline h, hn]
      rfl
    · rw [List.length_append, List.length_cons]
      omega

theorem isBlockComment_of_closingMark {s : Text} {n : Nat} (h : closingMark s = some n)
    (hlen : s.length = n + 2) : IsBlockComment (chr '/' :: chr '*' :: s) := by
  obtain ⟨front, back, rfl, rfl, hfirst, -⟩ := exists_of_closingMark h
  have hnil : back = [] := by
    have hlit : (lit "*/").length = 2 := by decide
    simp only [List.length_append, hlit] at hlen
    exact List.eq_nil_of_length_eq_zero (by omega)
  rw [hnil, List.append_nil]
  exact ⟨front, rfl, hfirst⟩

theorem Lexes.isBlockComment (h : Lexes kind rest text)
    (hnew : newline ∈ text) : kind = .comment ∧ IsBlockComment text := by
  cases h with
  | short hc hblank hmore h =>
    rcases List.mem_cons.mp hnew with hnew | hnew
    · exact absurd hnew.symm hc
    · exact absurd hnew hmore
  | @long c l tail hkind hc hblank hl h htail =>
    obtain ⟨l, rfl, rfl, hopen⟩ := exists_of_openComment h
    obtain ⟨n, hn, hlen⟩ := htail.closingMark_eq
    refine ⟨hkind, isBlockComment_of_closingMark (n := n + (l.length + 1)) ?_ ?_⟩
    · change closingMark (l ++ newline :: tail) = _
      rw [closingMark_append_newline hopen, hn]
      rfl
    · change (l ++ newline :: tail).length = _
      rw [List.length_append, List.length_cons]
      omega

/-! ### White space in front of a token -/

/-- No token of `earlier` begins in the line that `front` ends in, or `front` ends in white
space. -/
def IsSpaced (earlier : List Token) (front : Text) : Prop :=
  (∀ u ∈ earlier, u.line ≠ (1 + front.count newline : Nat)) ∨
    ∃ b, front.getLast? = some b ∧ isBlank b = true

/-- The token `t` of the text `s` with what stands in front of it and behind it. -/
structure Stands (s : Text) (t : Token) (front back : Text) : Prop where
  split : s = front ++ (t.text ++ back)
  lexes : Lexes t.kind (firstLine back) t.text
  line : t.line = (1 + front.count newline : Nat)
  col : t.col = (colBehind 1 front : Nat)

/-- The tokens of `earlier` begin no lower than `front` ends. -/
def EndsBelow (earlier : List Token) (front : Text) : Prop :=
  ∀ u ∈ earlier, u.line ≤ (1 + front.count newline : Nat)

theorem EndsBelow.append (h : EndsBelow earlier done) (s : Text) :
    EndsBelow earlier (done ++ s) := by
  intro u hu
  have hle := h u hu
  rw [List.count_append]
  omega

theorem EndsBelow.isSpaced (h : EndsBelow earlier done) (hs : newline ∈ s) :
    IsSpaced earlier (done ++ s) := by
  refine Or.inl fun u hu => ?_
  have hle := h u hu
  have hcount := List.count_pos_iff.mpr hs
  rw [List.count_append]
  omega

theorem EndsBelow.concat (h : EndsBelow earlier done)
    (ht : t.line = (1 + done.count newline : Nat)) :
    EndsBelow (earlier ++ [t]) done := by
  intro u hu
  rcases List.mem_append.mp hu with hu | hu
  · exact h u hu
  · rw [List.mem_singleton.mp hu, ht]

theorem isSpaced_token (h : EndsBelow earlier done)
    (hlexes : Lexes kind rest text) (hrest : rest ≠ []) :
    decide (newline ∈ text) = true ↔
      IsSpaced (earlier ++ [tokenBehind file done space kind text]) (done ++ text) := by
  rw [decide_eq_true_iff]
  refine ⟨fun hnew => (h.concat rfl).isSpaced hnew, fun hspaced => ?_⟩
  by_contra hnew
  rcases hspaced with hlines | ⟨b, hb, hblank⟩
  · refine hlines _ (List.mem_append_right _ (List.mem_singleton_self _)) ?_
    rw [List.count_append, List.count_eq_zero.mpr hnew]
    rfl
  · obtain ⟨c, more, rfl, -⟩ := hlexes.exists_cons
    rw [List.getLast?_append_of_ne_nil _ (List.cons_ne_nil c more)] at hb
    rw [hlexes.not_isBlank hnew hrest hb] at hblank
    cases hblank

theorem Laid.exists_stands (h : Laid file done space s ts) (hearlier : EndsBelow earlier done)
    (hspace : firstLine s ≠ [] → (space = true ↔ IsSpaced earlier done))
    (hts : ts = xs ++ t :: ys) :
    ∃ front back, Stands (done ++ s) t front back ∧
      (t.spaceBefore = true ↔ IsSpaced (earlier ++ xs) front) := by
  induction h generalizing earlier xs with
  | nil => simp at hts
  | @lineEnd done rest space ts h ih =>
    have hspaced : IsSpaced earlier (done ++ [newline]) :=
      hearlier.isSpaced (List.mem_singleton_self _)
    obtain ⟨front, back, hstands, hiff⟩ :=
      ih (hearlier.append _) (fun _ => iff_of_true rfl hspaced) hts
    rw [List.append_assoc] at hstands
    exact ⟨front, back, hstands, hiff⟩
  | @blank done rest space c ts hc h ih =>
    have hspaced : IsSpaced earlier (done ++ [c]) := Or.inr ⟨c, by simp, hc⟩
    obtain ⟨front, back, hstands, hiff⟩ :=
      ih (hearlier.append _) (fun _ => iff_of_true rfl hspaced) hts
    rw [List.append_assoc] at hstands
    exact ⟨front, back, hstands, hiff⟩
  | @token done rest text space kind ts hlexes h ih =>
    cases xs with
    | nil =>
      obtain ⟨c, more, htext, hc⟩ := hlexes.exists_cons
      have hfirst : firstLine (text ++ rest) ≠ [] := by
        rw [htext, List.cons_append, firstLine_cons hc]
        simp
      obtain ⟨rfl, -⟩ := List.cons.inj hts
      rw [List.append_nil]
      exact ⟨done, rest, ⟨rfl, hlexes, rfl, rfl⟩, hspace hfirst⟩
    | cons x xs =>
      obtain ⟨rfl, htail⟩ := List.cons.inj hts
      have hbelow : EndsBelow (earlier ++ [tokenBehind file done space kind text]) (done ++ text) :=
        (hearlier.concat rfl).append text
      obtain ⟨front, back, hstands, hiff⟩ := ih hbelow (isSpaced_token hearlier hlexes) htail
      rw [List.append_assoc] at hstands hiff
      exact ⟨front, back, hstands, hiff⟩

/-! ### Lines -/

namespace Text

/-- The bytes of lines, each with a newline behind it. -/
def unlines (ls : List Text) : Text := ls.flatMap (· ++ [newline])

variable {ls : List Text} {front rest l : Text}

theorem unlines_cons (l : Text) (ls : List Text) :
    unlines (l :: ls) = l ++ newline :: unlines ls := by
  simp [unlines]

theorem prefix_of_append_newline {a b c : Text} (h : a ++ b = l ++ newline :: c)
    (ha : newline ∉ a) :
    a <+: l := by
  rcases List.append_eq_append_iff.mp h with ⟨l', hl, -⟩ | ⟨a', rfl, htail⟩
  · exact ⟨l', hl.symm⟩
  · cases a' with
    | nil => simp
    | cons b' a' =>
      obtain ⟨rfl, -⟩ := List.cons.inj htail
      simp at ha

theorem newline_notMem_of_mem_splitLines (hl : l ∈ splitLines s) : newline ∉ l := by
  induction hn : s.length using Nat.strong_induction_on generalizing s with
  | _ n ih =>
    rw [splitLines_eq] at hl
    split_ifs at hl with hs
    · cases hl
    rcases List.mem_cons.mp hl with rfl | hl
    · exact newline_notMem_firstLine s
    · have hbelow : belowFirst s ≠ [] := by
        intro hnil
        rw [hnil] at hl
        cases hl
      have hlength := congrArg List.length (eq_of_belowFirst_ne_nil hbelow)
      rw [List.length_append, List.length_cons] at hlength
      exact ih _ (by omega) hl rfl

theorem newline_notMem_of_mem_lines (hl : l ∈ lines s) : newline ∉ l := by
  obtain ⟨l', hl', rfl⟩ := List.mem_map.mp hl
  have hnot := newline_notMem_of_mem_splitLines hl'
  unfold chomp
  split_ifs
  · exact fun hmem => hnot (List.mem_of_mem_dropLast hmem)
  · exact hnot

variable (hls : ∀ l ∈ ls, newline ∉ l)

include hls

theorem splitLines_unlines : splitLines (unlines ls) = ls := by
  induction ls with
  | nil => rfl
  | cons l ls ih =>
    have hl := hls l List.mem_cons_self
    rw [unlines_cons, splitLines_eq, if_neg (by simp), firstLine_append_newline hl,
      belowFirst_append_newline hl, ih fun l' hl' => hls l' (List.mem_cons_of_mem l hl')]

/-- Where a text made of lines is cut, the number of newlines in front of the cut is the number of
the line that is cut, and what stands in front in that line is as long as the column says. -/
theorem exists_line_of_append (h : unlines ls = front ++ rest) (hrest : rest ≠ []) :
    ∃ l below, ls.drop (front.count newline) = l :: below ∧
      rest = unlines (l.drop (lastWidth front) :: below) := by
  induction ls generalizing front with
  | nil =>
    obtain ⟨-, hnil⟩ := List.append_eq_nil_iff.mp h.symm
    exact absurd hnil hrest
  | cons l ls ih =>
    have hl := hls l List.mem_cons_self
    rw [unlines_cons] at h
    rcases List.append_eq_append_iff.mp h with ⟨front', rfl, hfront⟩ | ⟨l', rfl, hrest'⟩
    · cases front' with
      | nil =>
        refine ⟨l, ls, ?_, ?_⟩
        · rw [List.append_nil, List.count_eq_zero.mpr hl, List.drop_zero]
        · rw [List.append_nil, lastWidth_of_notMem hl, List.drop_length, unlines_cons]
          exact hfront.symm
      | cons b front' =>
        obtain ⟨rfl, htail⟩ := List.cons.inj hfront
        obtain ⟨l', below, hdrop, hrest'⟩ :=
          ih (fun l' hl' => hls l' (List.mem_cons_of_mem l hl')) htail
        have hcount : (l ++ newline :: front').count newline = front'.count newline + 1 := by
          rw [List.count_append, List.count_eq_zero.mpr hl, List.count_cons_self]
          omega
        rw [hcount, lastWidth_append_newline, List.drop_succ_cons]
        exact ⟨l', below, hdrop, hrest'⟩
    · have hfront : newline ∉ front := fun hmem => hl (List.mem_append_left _ hmem)
      refine ⟨front ++ l', ls, ?_, ?_⟩
      · rw [List.count_eq_zero.mpr hfront, List.drop_zero]
      · rw [lastWidth_of_notMem hfront, List.drop_left, unlines_cons]
        exact hrest'

theorem getElem?_of_append {b : UInt8} {back : Text} (h : unlines ls = front ++ b :: back)
    (hb : b ≠ newline) : ∃ l, ls[front.count newline]? = some l ∧ l[lastWidth front]? = some b := by
  obtain ⟨l, below, hdrop, hrest⟩ := exists_line_of_append hls h (List.cons_ne_nil b back)
  refine ⟨l, ?_, ?_⟩
  · rw [← List.head?_drop, hdrop, List.head?_cons]
  · rw [unlines_cons] at hrest
    rw [← List.head?_drop]
    cases hl : l.drop (lastWidth front) with
    | nil =>
      rw [hl] at hrest
      exact absurd (List.cons.inj hrest).1 hb
    | cons b' l' =>
      rw [hl] at hrest
      rw [List.head?_cons, (List.cons.inj hrest).1]

theorem count_unlines : (unlines ls).count newline = ls.length := by
  induction ls with
  | nil => rfl
  | cons l ls ih =>
    rw [unlines_cons, List.count_append, List.count_eq_zero.mpr (hls l List.mem_cons_self),
      List.count_cons_self, ih fun l' hl' => hls l' (List.mem_cons_of_mem l hl'), List.length_cons]
    omega

omit hls in
theorem lastWidth_unlines (ls : List Text) : lastWidth (unlines ls) = 0 := by
  induction ls with
  | nil => rfl
  | cons l ls ih => rw [unlines_cons, lastWidth_append_newline, ih]

theorem exists_append_of_getElem? {n k : Nat} {b : UInt8} (hl : ls[n]? = some l)
    (hb : l[k]? = some b) :
    ∃ front back, unlines ls = front ++ b :: back ∧
      behind front = toLex ((n + 1 : Int), (k + 1 : Int)) := by
  obtain ⟨hn, rfl⟩ := List.getElem?_eq_some_iff.mp hl
  obtain ⟨hk, rfl⟩ := List.getElem?_eq_some_iff.mp hb
  have hnot : newline ∉ ls[n].take k :=
    fun hmem => hls _ (List.getElem_mem hn) (List.mem_of_mem_take hmem)
  have hcount : (unlines (ls.take n) ++ ls[n].take k).count newline = n := by
    rw [List.count_append, List.count_eq_zero.mpr hnot,
      count_unlines fun l hl => hls l (List.mem_of_mem_take hl), List.length_take]
    omega
  have hwidth : lastWidth (unlines (ls.take n) ++ ls[n].take k) = k := by
    rw [lastWidth_append hnot, lastWidth_unlines, List.length_take]
    omega
  refine ⟨unlines (ls.take n) ++ ls[n].take k,
    ls[n].drop (k + 1) ++ newline :: unlines (ls.drop (n + 1)), ?_, ?_⟩
  · have hsplit : unlines ls = unlines (ls.take n) ++ unlines (ls[n] :: ls.drop (n + 1)) := by
      rw [← List.drop_eq_getElem_cons hn, unlines, unlines, unlines, ← List.flatMap_append,
        List.take_append_drop]
    rw [hsplit, unlines_cons, List.append_assoc, ← List.cons_append, ← List.drop_eq_getElem_cons hk,
      ← List.append_assoc (ls[n].take k), List.take_append_drop]
  · rw [behind, hcount, colBehind_one, hwidth]
    push_cast
    rw [add_comm, add_comm (1 : Int)]

end Text

/-! ### The tokens of a source -/

/-- The tokens `ts` stand in the lines `ls`. -/
structure LaidOut (ls : List Text) (ts : List Token) : Prop where
  /-- A token begins behind the one before it and does not reach into the next. -/
  ordered : ts.Pairwise fun t u => t.start < u.start ∧ t.stop ≤ u.start
  /-- A token in one line is what stands there. -/
  inLine : ∀ t ∈ ts, newline ∉ t.text → ∃ (n k : Nat) (l : Text), t.line = n + 1 ∧ t.col = k + 1 ∧
    ls[n]? = some l ∧ t.text <+: l.drop k
  /-- A token in several lines is a comment up to the first `*/`, the lines joined by newlines. -/
  overLines : ∀ t ∈ ts, newline ∈ t.text → t.kind = .comment ∧ IsBlockComment t.text ∧
    ∃ (n k : Nat) (l : Text) (below : List Text), t.line = n + 1 ∧ t.col = k + 1 ∧
      ls.drop n = l :: below ∧ t.text <+: unlines (l.drop k :: below)
  /-- Every byte is white space or in a token. -/
  covered : ∀ (n k : Nat) (l : Text) (b : UInt8), ls[n]? = some l → l[k]? = some b →
    isBlank b = true ∨
    ∃ t ∈ ts, t.start ≤ toLex ((n + 1 : Int), (k + 1 : Int)) ∧
      toLex ((n + 1 : Int), (k + 1 : Int)) < t.stop
  /-- The mark for white space is set at the first token that begins in a line and behind white
  space. -/
  spaced : ∀ (front : List Token) (t : Token) (back : List Token), ts = front ++ t :: back →
    (t.spaceBefore = true ↔ (∀ u ∈ front, u.line ≠ t.line) ∨
      ∃ (n k : Nat) (l : Text) (b : UInt8), t.line = n + 1 ∧ t.col = k + 2 ∧ ls[n]? = some l ∧
        l[k]? = some b ∧ isBlank b = true)

section Lines

variable {ls : List Text} {front back : Text} (hls : ∀ l ∈ ls, newline ∉ l)
  (h : Stands (unlines ls) t front back)

include hls h

theorem Stands.exists_line : ∃ l below, ls.drop (front.count newline) = l :: below ∧
    t.text ++ back = unlines (l.drop (lastWidth front) :: below) := by
  obtain ⟨c, more, htext, -⟩ := h.lexes.exists_cons
  have hne : t.text ++ back ≠ [] := by
    rw [htext]
    simp
  exact exists_line_of_append hls h.split hne

theorem Stands.isBlank_iff : (∃ b, front.getLast? = some b ∧ isBlank b = true) ↔
    ∃ (n k : Nat) (l : Text) (b : UInt8), t.line = n + 1 ∧ t.col = k + 2 ∧ ls[n]? = some l ∧
      l[k]? = some b ∧ isBlank b = true := by
  have hline := h.line
  have hcol := h.col
  rw [colBehind_one] at hcol
  -- what is known when the last byte in front is no newline
  have hlast : ∀ front' b, b ≠ newline → front = front' ++ [b] →
      front.count newline = front'.count newline ∧
      lastWidth front = lastWidth front' + 1 ∧
      ∃ l, ls[front'.count newline]? = some l ∧ l[lastWidth front']? = some b := by
    rintro front' b hb rfl
    have hnot : newline ∉ [b] := by simpa using Ne.symm hb
    have hsplit := h.split
    rw [List.append_assoc] at hsplit
    refine ⟨?_, lastWidth_append hnot front', getElem?_of_append hls hsplit hb⟩
    rw [List.count_append, List.count_eq_zero.mpr hnot, Nat.add_zero]
  constructor
  · rintro ⟨b, hb, hblank⟩
    obtain ⟨front', hfront⟩ := List.getLast?_eq_some_iff.mp hb
    have hne : b ≠ newline := by
      rintro rfl
      rw [isBlank_newline] at hblank
      cases hblank
    obtain ⟨hcount, hwidth, l, hl, hk⟩ := hlast front' b hne hfront
    refine ⟨_, _, l, b, ?_, ?_, hl, hk, hblank⟩
    · rw [hline, hcount]
      omega
    · rw [hcol, hwidth]
      omega
  · rintro ⟨n, k, l, b, hn, hk, hl, hb, hblank⟩
    have hwidth : lastWidth front = k + 1 := by omega
    have hcount : front.count newline = n := by omega
    rcases List.eq_nil_or_concat' front with rfl | ⟨front', b', hfront⟩
    · cases hwidth
    have hne : b' ≠ newline := by
      rintro rfl
      rw [hfront, lastWidth_append_newline] at hwidth
      cases hwidth
    obtain ⟨hcount', hwidth', l', hl', hb'⟩ := hlast front' b' hne hfront
    have hn' : front'.count newline = n := by omega
    have hk' : lastWidth front' = k := by omega
    rw [hn', hl] at hl'
    cases hl'
    rw [hk', hb] at hb'
    cases hb'
    exact ⟨b, by rw [hfront, List.getLast?_concat], hblank⟩

end Lines

theorem Laid.exists_stands_of_split (h : Laid file [] true s ts) (xs : List Token) (t : Token)
    (ys : List Token) (hts : ts = xs ++ t :: ys) :
    ∃ front back, Stands s t front back ∧ (t.spaceBefore = true ↔ IsSpaced xs front) := by
  have hspaced : IsSpaced [] [] := Or.inl (by simp)
  exact h.exists_stands (by simp [EndsBelow]) (fun _ => iff_of_true rfl hspaced) hts

theorem Laid.exists_stands_of_mem (h : Laid file [] true s ts) (t : Token) (ht : t ∈ ts) :
    ∃ front back, Stands s t front back := by
  obtain ⟨xs, ys, hts⟩ := List.append_of_mem ht
  obtain ⟨front, back, hstands, -⟩ := h.exists_stands_of_split xs t ys hts
  exact ⟨front, back, hstands⟩

theorem exists_stands_of_lex {source : Source} {tokens : List Token} (h : lex source = .ok tokens)
    {t : Token} (ht : t ∈ tokens) (hkind : t.kind ≠ .eof) :
    ∃ front back, Stands (unlines (lines source.text)) t front back := by
  obtain ⟨scanned, hscan, rfl⟩ := lex_eq_ok_iff_scanLines.mp h
  rw [← splitLines_unlines fun _ => newline_notMem_of_mem_lines, scanLines_splitLines] at hscan
  rcases List.mem_append.mp ht with ht | ht
  · exact (laid_of_scanText hscan).exists_stands_of_mem t ht
  · rw [List.mem_singleton.mp ht] at hkind
    exact absurd rfl hkind

theorem laidOut_of_laid {ls : List Text} (hls : ∀ l ∈ ls, newline ∉ l)
    (h : Laid file [] true (unlines ls) ts) : LaidOut ls ts := by
  have hstands := h.exists_stands_of_split
  have hmem := h.exists_stands_of_mem
  constructor
  case ordered => exact h.pairwise
  case inLine =>
    intro t ht hnew
    obtain ⟨front, back, hstand⟩ := hmem t ht
    obtain ⟨l, below, hdrop, htext⟩ := hstand.exists_line hls
    refine ⟨front.count newline, lastWidth front, l, ?_, ?_, ?_, ?_⟩
    · rw [hstand.line]
      omega
    · rw [hstand.col, colBehind_one]
      omega
    · rw [← List.head?_drop, hdrop, List.head?_cons]
    · rw [unlines_cons] at htext
      exact prefix_of_append_newline htext hnew
  case overLines =>
    intro t ht hnew
    obtain ⟨front, back, hstand⟩ := hmem t ht
    obtain ⟨hkind, hcomment⟩ := hstand.lexes.isBlockComment hnew
    obtain ⟨l, below, hdrop, htext⟩ := hstand.exists_line hls
    refine ⟨hkind, hcomment, front.count newline, lastWidth front, l, below, ?_, ?_, hdrop,
      ⟨back, htext⟩⟩
    · rw [hstand.line]
      omega
    · rw [hstand.col, colBehind_one]
      omega
  case covered =>
    intro n k l b hl hb
    obtain ⟨front, back, hsplit, hbehind⟩ := exists_append_of_getElem? hls hl hb
    have hne : b ≠ newline := by
      rintro rfl
      exact hls l (List.mem_of_getElem? hl) (List.mem_of_getElem? hb)
    rcases h.covered hsplit with hnew | hblank | ⟨t, ht, hcovers⟩
    · exact absurd hnew hne
    · exact Or.inl hblank
    · rw [List.nil_append, hbehind] at hcovers
      exact Or.inr ⟨t, ht, hcovers⟩
  case spaced =>
    intro xs t ys hts
    obtain ⟨front, back, hstand, hiff⟩ := hstands xs t ys hts
    rw [hiff, IsSpaced, hstand.isBlank_iff hls, ← hstand.line]

/-- **The tokens of a source**. Behind the tokens of a source that can be scanned stands one of the
kind `eof`, and the others are laid out in the lines of the source. -/
theorem lex_lays_out_tokens {source : Source} {tokens : List Token} (h : lex source = .ok tokens) :
    ∃ ts last, tokens = ts ++ [last] ∧ last.kind = .eof ∧ (∀ t ∈ ts, t.kind ≠ .eof) ∧
      LaidOut source.text.lines ts := by
  obtain ⟨ts, hscan, rfl⟩ := lex_eq_ok_iff_scanLines.mp h
  have hls : ∀ l ∈ lines source.text, newline ∉ l := fun l hl => newline_notMem_of_mem_lines hl
  rw [← splitLines_unlines hls, scanLines_splitLines] at hscan
  refine ⟨ts, _, rfl, rfl, fun t ht => ?_, laidOut_of_laid hls (laid_of_scanText hscan)⟩
  obtain ⟨rest, hlexes⟩ := lexes_of_mem hscan ht
  exact hlexes.kind_ne_eof

/-- Two lines with a comment over the line end between them. -/
def commentOverLines : Source := ⟨lit "T", lit "int a;/* x\r\n  y */b\t= 1.5;"⟩

/-- The comment begins at the end of the first line, and `b` is the first token that begins in the
second. -/
theorem lex_lays_out_tokens_over_lines :
    ∃ ts last, lex commentOverLines = .ok (ts ++ [last]) ∧ last.kind = .eof ∧
      ts.map (fun t => (t.text, t.line, t.col, t.spaceBefore)) =
        [(lit "int", 1, 1, true), (lit "a", 1, 5, true), (lit ";", 1, 6, false),
          (lit "/* x\n  y */", 1, 7, false), (lit "b", 2, 7, true), (lit "=", 2, 9, true),
          (lit "1.5", 2, 11, true), (lit ";", 2, 14, false)] ∧
      LaidOut [lit "int a;/* x", lit "  y */b\t= 1.5;"] ts := by
  have hlex : ((lex commentOverLines).map fun tokens =>
      tokens.dropLast.map fun t => (t.text, t.line, t.col, t.spaceBefore)) =
        .ok [(lit "int", 1, 1, true), (lit "a", 1, 5, true), (lit ";", 1, 6, false),
          (lit "/* x\n  y */", 1, 7, false), (lit "b", 2, 7, true), (lit "=", 2, 9, true),
          (lit "1.5", 2, 11, true), (lit ";", 2, 14, false)] := by decide +kernel
  have hlines : commentOverLines.text.lines = [lit "int a;/* x", lit "  y */b\t= 1.5;"] := by
    decide +kernel
  obtain ⟨tokens, htokens, hview⟩ := Except.map_eq_ok.mp hlex
  obtain ⟨ts, last, rfl, hlast, -, hlaid⟩ := lex_lays_out_tokens htokens
  rw [List.dropLast_concat] at hview
  rw [hlines] at hlaid
  exact ⟨ts, last, htokens, hlast, hview, hlaid⟩

end Unnest
