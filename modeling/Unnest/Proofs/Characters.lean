import Unnest.Proofs.LineBreaks
import Unnest.Proofs.Positions
import Unnest.Proofs.Readings
import Mathlib

/-!
# Tokens and characters

A scan looks at bytes, but a source is made of characters, and outside of ASCII a character takes
several bytes. No token ends or begins inside of one. Where a token is cut off, a byte of ASCII
stands on one side of the cut at least: tokens end in such a byte, or they go on as long as any
others follow.

* `Lexer.cut_push`, `Lexer.cut_read`, `Lexer.cut_after`: what a lexer holds after one call, and
  after all of them;
* `Lexer.read_cuts_between_characters`: what a lexer gives for sources in UTF-8.
-/

namespace Unnest

open Text Lexeme

namespace Text

variable {s a b : Text} {x : UInt8}

/-! ### Texts in UTF-8 -/

/-- The bytes are the UTF-8 encoding of some characters. -/
def IsUtf8 (s : Text) : Prop := s.toByteArray.IsValidUTF8

instance (s : Text) : Decidable s.IsUtf8 := inferInstanceAs (Decidable s.toByteArray.IsValidUTF8)

theorem isUtf8_iff : s.IsUtf8 ↔ ∃ cs : List Char, s = cs.flatMap String.utf8EncodeChar := by
  constructor
  · rintro ⟨cs, hcs⟩
    refine ⟨cs, ?_⟩
    have hdata := congrArg (fun bytes : ByteArray => bytes.data.toList) hcs
    simpa [List.utf8Encode] using hdata
  · rintro ⟨cs, rfl⟩
    exact ⟨cs, rfl⟩

theorem isUtf8_nil : IsUtf8 [] := isUtf8_iff.mpr ⟨[], rfl⟩

theorem IsUtf8.append (ha : a.IsUtf8) (hb : b.IsUtf8) : (a ++ b).IsUtf8 := by
  obtain ⟨cs, rfl⟩ := isUtf8_iff.mp ha
  obtain ⟨ds, rfl⟩ := isUtf8_iff.mp hb
  exact isUtf8_iff.mpr ⟨cs ++ ds, List.flatMap_append.symm⟩

theorem utf8EncodeChar_cases (c : Char) :
    (∃ x, String.utf8EncodeChar c = [x]) ∨ ∀ x ∈ String.utf8EncodeChar c, 128 ≤ x := by
  have hhigh : ∀ n, 128 ≤ n → n < 256 → 128 ≤ UInt8.ofNat n := by
    intro n hle hlt
    rw [UInt8.le_iff_toNat_le, UInt8.toNat_ofNat_of_lt' hlt]
    exact hle
  unfold String.utf8EncodeChar
  simp only
  split_ifs
  · exact Or.inl ⟨_, rfl⟩
  all_goals
    refine Or.inr ?_
    simp only [List.forall_mem_cons, List.not_mem_nil, false_imp_iff, implies_true, and_true]
    and_intros
  all_goals exact hhigh _ (by omega) (by omega)

theorem isUtf8_singleton (h : x < 128) : IsUtf8 [x] := by
  have hlt : x.toNat < 128 := UInt8.lt_iff_toNat_lt.mp h
  have hvalid : x.toNat.isValidChar := Or.inl (by omega)
  have hval : (Char.ofNat x.toNat).val.toNat = x.toNat := by
    have := Char.toNat_ofNat x.toNat
    rwa [if_pos hvalid] at this
  refine isUtf8_iff.mpr ⟨[Char.ofNat x.toNat], ?_⟩
  have hle : x.toNat ≤ 127 := by omega
  simp [String.utf8EncodeChar, hval, hle]

/-- **A text that is cut** next to a byte of ASCII is cut between two characters. -/
theorem IsUtf8.split (h : (a ++ b).IsUtf8)
    (hcut : (∀ x, a.getLast? = some x → x < 128) ∨ ∀ x, b.head? = some x → x < 128) :
    a.IsUtf8 ∧ b.IsUtf8 := by
  obtain ⟨cs, hcs⟩ := isUtf8_iff.mp h
  clear h
  induction cs generalizing a with
  | nil =>
    obtain ⟨rfl, rfl⟩ := List.append_eq_nil_iff.mp hcs
    exact ⟨isUtf8_nil, isUtf8_nil⟩
  | cons c cs ih =>
    have hrest : IsUtf8 (cs.flatMap String.utf8EncodeChar) := isUtf8_iff.mpr ⟨cs, rfl⟩
    have hfirst : IsUtf8 (String.utf8EncodeChar c) := isUtf8_iff.mpr ⟨[c], by simp⟩
    rw [List.flatMap_cons] at hcs
    rcases List.append_eq_append_iff.mp hcs with ⟨c', hc, rfl⟩ | ⟨a', rfl, hrest'⟩
    · -- a cut inside of the character has bytes outside of ASCII on both sides
      rcases List.eq_nil_or_concat a with rfl | ⟨a, x, rfl⟩
      · rw [List.nil_append] at hc
        rw [← hc]
        exact ⟨isUtf8_nil, hfirst.append hrest⟩
      cases c' with
      | nil =>
        rw [List.append_nil] at hc
        rw [← hc]
        exact ⟨hfirst, hrest⟩
      | cons y c' =>
        rcases utf8EncodeChar_cases c with ⟨z, hz⟩ | hhigh
        · have hlen := congrArg List.length hc
          simp only [hz, List.length_append, List.length_concat, List.length_cons, List.length_nil]
            at hlen
          omega
        · rw [hc] at hhigh
          have hx : 128 ≤ x := hhigh x (by simp)
          have hy : 128 ≤ y := hhigh y (by simp)
          rcases hcut with hcut | hcut
          · exact absurd (hcut x (by simp)) (UInt8.not_lt.mpr hx)
          · exact absurd (hcut y rfl) (UInt8.not_lt.mpr hy)
    · have hcut' : (∀ x, a'.getLast? = some x → x < 128) ∨ ∀ x, b.head? = some x → x < 128 := by
        refine hcut.imp_left fun hcut x hx => hcut x ?_
        rw [List.getLast?_append, hx]
        rfl
      obtain ⟨ha, hb⟩ := ih hcut' hrest'.symm
      exact ⟨hfirst.append ha, hb⟩

theorem IsUtf8.of_cons (h : IsUtf8 (x :: s)) (hx : x < 128) : IsUtf8 s := by
  refine (split (a := [x]) h (Or.inl ?_)).2
  rintro _ ⟨⟩
  exact hx

/-! ### Lines in UTF-8 -/

theorem newline_lt : newline < 128 := by decide

theorem head?_dropWhile_newline (hx : (s.dropWhile (· != newline)).head? = some x) :
    x = newline := by
  have hnot := List.head?_dropWhile_not (· != newline) s
  rw [hx] at hnot
  simpa using hnot

theorem IsUtf8.firstLine (h : s.IsUtf8) : (firstLine s).IsUtf8 ∧ (belowFirst s).IsUtf8 := by
  rw [← firstLine_append_dropWhile s] at h
  obtain ⟨hfirst, hrest⟩ := h.split (Or.inr fun x hx => head?_dropWhile_newline hx ▸ newline_lt)
  refine ⟨hfirst, ?_⟩
  rw [belowFirst]
  cases hdrop : s.dropWhile (· != newline) with
  | nil => exact isUtf8_nil
  | cons x rest =>
    rw [hdrop] at hrest
    have hx : x = newline := head?_dropWhile_newline (by rw [hdrop]; rfl)
    exact hrest.of_cons (hx ▸ newline_lt)

theorem IsUtf8.chomp (h : s.IsUtf8) : (chomp s).IsUtf8 := by
  rw [Text.chomp]
  split_ifs with hlast
  · rw [← List.dropLast_append_getLast? _ hlast] at h
    exact (h.split (Or.inr (by rintro _ ⟨⟩; decide))).1
  · exact h

theorem IsUtf8.unlines_lines (h : s.IsUtf8) : (unlines (lines s)).IsUtf8 := by
  induction hn : s.length using Nat.strong_induction_on generalizing s with
  | _ n ih =>
    rw [lines_eq]
    split_ifs with hs
    · exact isUtf8_nil
    · rw [unlines_cons]
      have hbelow := ih _ (hn ▸ length_belowFirst_lt hs) h.firstLine.2 rfl
      exact h.firstLine.1.chomp.append ((isUtf8_singleton newline_lt).append hbelow)

/-- `piece` stands in the text in the given line and column, and no character reaches into it or out
of it. -/
def IsCutOut (s piece : Text) (line col : Int) : Prop :=
  ∃ front back, s = front ++ (piece ++ back) ∧ front.IsUtf8 ∧ piece.IsUtf8 ∧ back.IsUtf8 ∧
    line = (1 + front.count newline : Nat) ∧ col = colBehind 1 front

theorem IsCutOut.isUtf8 {piece : Text} {line col : Int} (h : IsCutOut s piece line col) :
    piece.IsUtf8 := by
  obtain ⟨front, back, -, -, hpiece, -⟩ := h
  exact hpiece

end Text

/-! ### Scans -/

variable {file done s rest text : Text} {space : Bool} {kind : TokenKind}

theorem lt_of_isBlank {c : UInt8} (h : isBlank c = true) : c < 128 := by
  simp only [isBlank, Bool.or_eq_true, beq_iff_eq] at h
  rcases h with (rfl | rfl) | rfl <;> decide

theorem lt_of_not_isNameStart {c : UInt8} (h : isNameStart c = false) : c < 128 := by
  rw [isNameStart, Bool.or_eq_false_iff, decide_eq_false_iff_not] at h
  exact UInt8.not_le.mp h.2

theorem lt_of_endsName (h : EndsName (firstLine rest)) {x : UInt8} (hx : rest.head? = some x) :
    x < 128 := by
  cases rest with
  | nil => cases hx
  | cons y rest =>
    cases hx
    by_cases hnew : x = newline
    · exact hnew ▸ newline_lt
    · have hname := h x (by rw [firstLine_cons hnew]; rfl)
      exact lt_of_not_isNameStart (Bool.or_eq_false_iff.mp hname).1

theorem Lexes.isUtf8 (hlexes : Lexes kind (firstLine rest) text) (h : (text ++ rest).IsUtf8) :
    text.IsUtf8 ∧ rest.IsUtf8 := by
  by_cases hnew : newline ∈ text
  · obtain ⟨-, inside, rfl, -⟩ := hlexes.isBlockComment hnew
    refine h.split (Or.inl fun x hx => ?_)
    rw [List.getLast?_append] at hx
    cases hx
    decide
  · cases hlexes with
    | short hc hblank hmore hlexeme =>
      refine h.split ?_
      rcases endsName_or_isPlain hlexeme with hname | hplain
      · exact Or.inr fun x hx => lt_of_endsName hname hx
      · refine Or.inl fun x hx => ?_
        have hx := hplain x hx
        rw [isPlain, Bool.and_eq_true, decide_eq_true_iff] at hx
        exact hx.2
    | long hkind hc hblank hl hlexeme htail => simp at hnew

/-- The tokens and the error of a scan are cut out of the text `s`. -/
structure Scan.CutFrom (file s : Text) (scan : Scan) : Prop where
  tokens : ∀ t ∈ scan.tokens, t.file = file ∧ IsCutOut s t.text t.line t.col
  error : ∀ e, scan.error = some e → e.file = file ∧ IsCutOut s e.text e.line e.col

theorem Scan.CutFrom.cons {scan : Scan} {t : Token} (h : scan.CutFrom file s)
    (hfile : t.file = file) (ht : IsCutOut s t.text t.line t.col) :
    (scan.cons t).CutFrom file s where
  tokens := List.forall_mem_cons.mpr ⟨⟨hfile, ht⟩, h.tokens⟩
  error := h.error

/-- **Scans of a text in UTF-8** cut it between characters. The induction is on the text that is
left. -/
theorem scanText_cut (file : Text) (space : Bool) (hdone : done.IsUtf8) (hs : s.IsUtf8) :
    (scanText file (1 + done.count newline) space (colBehind 1 done) s).CutFrom file
    (done ++ s) := by
  induction hn : s.length using Nat.strong_induction_on generalizing s done space with
  | _ n ih =>
    cases s with
    | nil =>
      have hnil : scanText file (1 + done.count newline) space (colBehind 1 done) [] = ⟨[], none⟩ :=
        rfl
      rw [hnil]
      exact ⟨by simp, by simp⟩
    | cons c s =>
      have hlt : s.length < n := by
        rw [← hn, List.length_cons]
        exact Nat.lt_succ_self _
      have hstep : done ++ c :: s = done ++ [c] ++ s := by simp
      by_cases hnew : c = newline
      · subst hnew
        have hscan :=
          ih _ hlt true (hdone.append (isUtf8_singleton newline_lt)) (hs.of_cons newline_lt) rfl
        rw [scanText_newline, hstep]
        rw [List.count_append, colBehind_append_newline] at hscan
        exact hscan
      by_cases hblank : isBlank c = true
      · have hc : newline ∉ [c] := by simpa using Ne.symm hnew
        have hlow : c < 128 := lt_of_isBlank hblank
        have hscan := ih _ hlt true (hdone.append (isUtf8_singleton hlow)) (hs.of_cons hlow) rfl
        rw [scanText_blank hblank, hstep]
        rw [List.count_append, List.count_eq_zero.mpr hc, colBehind_append, colBehind_of_notMem hc]
          at hscan
        exact hscan
      rcases scanText_cases hnew (by simpa using hblank) file (1 + done.count newline) space
        (colBehind 1 done) s with
        ⟨kind, text, rest, heq, hlexes⟩ | ⟨cause, text, hscan, ⟨rest, heq⟩, htext⟩
      · rw [heq] at hs hn ⊢
        obtain ⟨htext, hrest⟩ := hlexes.isUtf8 hs
        have hpos : 0 < text.length := by
          obtain ⟨c', more, rfl, -⟩ := hlexes.exists_cons
          simp
        have hlt : rest.length < n := by
          rw [← hn, List.length_append]
          omega
        have hscan := ih _ hlt (decide (newline ∈ text)) (hdone.append htext) hrest rfl
        rw [List.count_append, colBehind_append, ← Nat.add_assoc, List.append_assoc] at hscan
        rw [scanText_lexes hlexes]
        exact hscan.cons rfl ⟨done, rest, rfl, hdone, htext, hrest, rfl, rfl⟩
      · rw [hscan]
        refine ⟨by simp, ?_⟩
        rintro _ ⟨⟩
        rw [← heq] at hs ⊢
        have hlast : ∀ x, text.getLast? = some x → x < 128 := by
          rcases htext with ⟨rfl, hname⟩ | rfl
          · rintro _ ⟨⟩
            exact lt_of_not_isNameStart hname
          · rintro _ ⟨⟩
            decide
        obtain ⟨htext, hrest⟩ := hs.split (Or.inl hlast)
        exact ⟨rfl, done, rest, rfl, hdone, htext, hrest, rfl, rfl⟩

theorem scanLines_cut (h : s.IsUtf8) :
    (scanLines file 1 none (lines s)).CutFrom file (unlines (lines s)) := by
  have hscan := scanText_cut file true isUtf8_nil h.unlines_lines
  change (scanText file 1 true 1 _).CutFrom file (unlines (lines s)) at hscan
  rw [← scanLines_splitLines, splitLines_unlines fun _ => newline_notMem_of_mem_lines] at hscan
  exact hscan

/-! ### Readings -/

namespace Lexer

variable {calls : List Call} {lexer : Lexer} {sources sources' : List Source} {t : Token}

/-- The piece stands in the lines of one of the sources, and it is cut out of them between
characters. -/
def FromSource (sources : List Source) (file piece : Text) (line col : Int) : Prop :=
  ∃ source ∈ sources, file = source.name ∧ IsCutOut (unlines source.text.lines) piece line col

/-- The token closes a reading, or it is cut out of one of the sources. -/
def TokenFrom (sources : List Source) (t : Token) : Prop :=
  t.kind = .eof ∧ t.text.IsUtf8 ∨ FromSource sources t.file t.text t.line t.col

theorem FromSource.mono {file piece : Text} {line col : Int}
    (h : FromSource sources file piece line col) (hsub : sources ⊆ sources') :
    FromSource sources' file piece line col := by
  obtain ⟨source, hmem, hfrom⟩ := h
  exact ⟨source, hsub hmem, hfrom⟩

theorem TokenFrom.mono (h : TokenFrom sources t) (hsub : sources ⊆ sources') :
    TokenFrom sources' t :=
  h.imp_right fun hfrom => hfrom.mono hsub

theorem readAll_cut (file : Text) (line : Nat) (h : ∀ source ∈ sources, source.text.IsUtf8) :
    (∀ t ∈ (readAll file line sources).tokens, TokenFrom sources t) ∧
      (∀ e, (readAll file line sources).error = some e →
        FromSource sources e.file e.text e.line e.col) ∧
      (readAll file line sources).waiting ⊆ sources := by
  induction sources generalizing file line with
  | nil =>
    refine ⟨fun t ht => Or.inl ?_, by simp [readAll], by simp [readAll]⟩
    rw [List.mem_singleton.mp ht]
    have htext : IsUtf8 (lit "<EOF>") := by decide
    exact ⟨rfl, htext⟩
  | cons source rest ih =>
    have hscan : (scanLines source.name 1 none source.text.lines).CutFrom source.name
        (unlines source.text.lines) := scanLines_cut (h source List.mem_cons_self)
    have htokens : ∀ t ∈ (scanLines source.name 1 none source.text.lines).tokens,
        TokenFrom (source :: rest) t :=
      fun t ht => Or.inr ⟨source, List.mem_cons_self, hscan.tokens t ht⟩
    unfold readAll
    simp only
    split
    · next e he =>
      refine ⟨htokens, ?_, List.subset_cons_self source rest⟩
      rintro _ ⟨⟩
      exact ⟨source, List.mem_cons_self, hscan.error e he⟩
    · obtain ⟨hrest, herror, hwaiting⟩ := ih source.name
        (if source.text.lines.isEmpty then line else source.text.lines.length)
        (fun source' hmem => h source' (List.mem_cons_of_mem _ hmem))
      have hsub : rest ⊆ source :: rest := List.subset_cons_self source rest
      exact ⟨List.forall_mem_append.mpr ⟨htokens, fun t ht => (hrest t ht).mono hsub⟩,
        fun e he => (herror e he).mono hsub, List.Subset.trans hwaiting hsub⟩

def pushed (calls : List Call) : List Source :=
  calls.filterMap fun
    | .push source => some source
    | .read => none

/-- What a lexer holds comes from the sources that were pushed. -/
structure Cut (calls : List Call) (lexer : Lexer) : Prop where
  waiting : lexer.waiting ⊆ pushed calls
  tokens : ∀ t ∈ lexer.tokens, TokenFrom (pushed calls) t

theorem pushed_concat_push (calls : List Call) (source : Source) :
    pushed (calls ++ [.push source]) = pushed calls ++ [source] := by
  simp [pushed]

theorem pushed_concat_read (calls : List Call) : pushed (calls ++ [.read]) = pushed calls := by
  simp [pushed]

theorem cut_push (h : Cut calls lexer) (source : Source) :
    Cut (calls ++ [.push source]) (lexer.push source) := by
  have hsub : pushed calls ⊆ pushed (calls ++ [.push source]) := by
    rw [pushed_concat_push]
    exact List.subset_append_left _ _
  refine ⟨List.cons_subset.mpr ⟨?_, List.Subset.trans h.waiting hsub⟩,
    fun t ht => (h.tokens t ht).mono hsub⟩
  rw [pushed_concat_push]
  exact List.mem_append_right _ List.mem_cons_self

theorem cut_read (h : Cut calls lexer) (hutf8 : ∀ source ∈ pushed calls, source.text.IsUtf8) :
    Cut calls lexer.read.2 ∧
      ∀ e, lexer.read.1 = .error e → FromSource (pushed calls) e.file e.text e.line e.col := by
  cases hread : lexer.isRead with
  | true =>
    rw [read_of_isRead hread]
    exact ⟨h, by simp⟩
  | false =>
    obtain ⟨htokens, herror, hwaiting⟩ :=
      readAll_cut [] 1 fun source hmem => hutf8 source (h.waiting hmem)
    have hcut : ∀ isRead, Cut calls
        { waiting := (readAll [] 1 lexer.waiting).waiting,
          tokens := (readAll [] 1 lexer.waiting).tokens, isRead } :=
      fun _ => ⟨List.Subset.trans hwaiting h.waiting, fun t ht => (htokens t ht).mono h.waiting⟩
    rw [read, if_neg (by simp [hread])]
    simp only
    split
    · next e he =>
      refine ⟨hcut true, ?_⟩
      rintro _ ⟨⟩
      exact (herror e he).mono h.waiting
    · exact ⟨hcut true, by simp⟩

theorem cut_after (hutf8 : ∀ source ∈ pushed calls, source.text.IsUtf8) :
    Cut calls (after calls) := by
  induction calls using List.reverseRecOn with
  | nil => exact ⟨by simp [after], by simp [after]⟩
  | append_singleton calls call ih =>
    rw [after_concat]
    cases call with
    | push source =>
      rw [pushed_concat_push] at hutf8
      exact cut_push (ih fun source' hmem => hutf8 source' (List.mem_append_left _ hmem)) source
    | read =>
      rw [pushed_concat_read] at hutf8
      obtain ⟨hcut, -⟩ := cut_read (ih hutf8) hutf8
      exact ⟨by rw [pushed_concat_read]; exact hcut.waiting,
        by rw [pushed_concat_read]; exact hcut.tokens⟩

/-- **No token is cut inside of a character.** After any calls, when all sources that were pushed
are in UTF-8, so are the texts of the tokens that a reading gives and the text that an error shows.
All of them stand in the line and the column that they name, with nothing but whole characters in
front of them and behind them; only the token that closes a reading stands nowhere. -/
theorem read_cuts_between_characters (calls : List Call)
    (h : ∀ source ∈ pushed calls, source.text.IsUtf8) :
    (∀ tokens, (after calls).read.1 = .ok tokens → ∀ t ∈ tokens, t.text.IsUtf8 ∧
        (t.kind ≠ .eof → ∃ source ∈ pushed calls, t.file = source.name ∧
          IsCutOut (unlines source.text.lines) t.text t.line t.col)) ∧
      ∀ e, (after calls).read.1 = .error e → e.text.IsUtf8 ∧
        ∃ source ∈ pushed calls, e.file = source.name ∧
          IsCutOut (unlines source.text.lines) e.text e.line e.col := by
  obtain ⟨hcut, herror⟩ := cut_read (cut_after h) h
  refine ⟨fun tokens htokens t ht => ?_, fun e he => ?_⟩
  · rw [← tokens_of_read htokens] at ht
    rcases hcut.tokens t ht with ⟨hkind, hend⟩ | ⟨source, hmem, hname, hcutout⟩
    · exact ⟨hend, fun hne => absurd hkind hne⟩
    · exact ⟨hcutout.isUtf8, fun _ => ⟨source, hmem, hname, hcutout⟩⟩
  · obtain ⟨source, hmem, hname, hcutout⟩ := herror e he
    exact ⟨hcutout.isUtf8, source, hmem, hname, hcutout⟩

/-- A source with characters of several bytes in a name, next to an operator and in a literal. -/
def accented : Source := ⟨lit "T", lit "é+=1.5*ö/*ü*/\"\\ß\""⟩

/-- A reading that succeeds, and one that fails behind a character of several bytes. -/
theorem read_cuts_between_characters_accented :
    (∃ tokens, (after [.push accented]).read.1 = .ok tokens ∧
      tokens.map (·.text) =
      [lit "é", lit "+=", lit "1.5", lit "*", lit "ö", lit "/*ü*/", lit "\"\\ß\"", lit "<EOF>"] ∧
      ∀ t ∈ tokens, t.text.IsUtf8) ∧
    ∃ e, (after [.push ⟨lit "T", lit "é#"⟩]).read.1 = .error e ∧ e.text = lit "#" ∧ e.col = 3 ∧
      IsCutOut (lit "é#\n") e.text e.line e.col := by
  refine ⟨⟨_, rfl, by decide, ?_⟩, _, rfl, by decide, by decide, ?_⟩
  · intro t ht
    exact ((read_cuts_between_characters [.push accented] (by decide)).1 _ rfl t ht).1
  · obtain ⟨-, source, hmem, -, hcut⟩ :=
      (read_cuts_between_characters [.push ⟨lit "T", lit "é#"⟩] (by decide)).2 _ rfl
    have hlines : unlines (lines (lit "é#")) = lit "é#\n" := by decide
    rw [List.mem_singleton.mp hmem, hlines] at hcut
    exact hcut

end Lexer

end Unnest
