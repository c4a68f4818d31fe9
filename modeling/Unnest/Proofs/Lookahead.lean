import Unnest.Proofs.Numerals

/-!
# How far a lexeme looks ahead

Where a token ends depends on the bytes behind it: a name goes on as long as bytes of names follow,
an operator may be the beginning of a longer one, two quotes may be the beginning of three.
`lexeme_stable` says when something else may stand behind a token without moving its end.

* `absorbs`: whether a token could go on with a byte;
* `isPlain_of_mark`, `not_isBlank_of_getLast?`, `endsName_or_isPlain`: the last byte of a token.
-/

namespace Unnest

namespace Lexeme

variable {c b : UInt8} {cs more rest rest' : Text} {kind : TokenKind} {n : Nat}

/-! ### The first byte -/

/-- A byte that begins neither a name nor a number, a literal, a comment or a mark of
punctuation. -/
def isSymbol (c : UInt8) : Bool :=
  !isNameStart c && !isDigit c && c != chr '.' && c != chr '/' && c != chr '"' && c != chr '\'' &&
    (kindOf? punctuation c).isNone

theorem first_byte_cases (c : UInt8) : isNameStart c = true ∨ isDigit c = true ∨ c = chr '.' ∨
    c = chr '/' ∨ (c = chr '"' ∨ c = chr '\'') ∨ (kindOf? punctuation c).isSome = true ∨
      isSymbol c = true := by
  by_contra h
  simp only [not_or, Bool.not_eq_true, Option.isSome_eq_false_iff] at h
  obtain ⟨h1, h2, h3, h4, ⟨h5, h6⟩, h7, hsymbol⟩ := h
  simp [isSymbol, h1, h2, h3, h4, h5, h6, h7] at hsymbol

theorem ne_of_class {isIn : UInt8 → Bool} {x : UInt8} (hx : isIn x = false) (hc : isIn c = true) :
    c ≠ x := by
  rintro rfl
  rw [hx] at hc
  cases hc

theorem exists_of_kindOf? {table : List (Char × TokenKind)} (h : kindOf? table c = some kind) :
    ∃ entry ∈ table, chr entry.1 = c ∧ entry.2 = kind := by
  obtain ⟨entry, hfind, hkind⟩ := Option.map_eq_some_iff.mp h
  exact ⟨entry, List.mem_of_find?_eq_some hfind, beq_iff_eq.mp (List.find?_some hfind :), hkind⟩

/-- A table has no kind for the bytes of a class that none of its own bytes is in. -/
theorem kindOf?_of_class {isIn : UInt8 → Bool} {table : List (Char × TokenKind)}
    (htable : ∀ entry ∈ table, isIn (chr entry.1) = false) (hc : isIn c = true) :
    kindOf? table c = none := by
  rw [Option.eq_none_iff_forall_ne_some]
  intro kind hkind
  obtain ⟨entry, hentry, heq, -⟩ := exists_of_kindOf? hkind
  exact ne_of_class (htable entry hentry) hc heq.symm

theorem isDigit_of_isNameStart (h : isNameStart c = true) : isDigit c = false := by
  by_contra hdigit
  simp only [isDigit, Bool.not_eq_false, Bool.and_eq_true, decide_eq_true_eq] at hdigit
  have habove : ∀ x, chr '9' < x → ¬ x ≤ c := fun x hx hxc =>
    absurd (UInt8.le_trans hxc hdigit.2) (UInt8.not_le.mpr hx)
  simp only [isNameStart, isLetter, Bool.or_eq_true, Bool.and_eq_true, decide_eq_true_eq,
    beq_iff_eq] at h
  rcases h with (((h | h) | rfl) | rfl) | h
  · exact habove _ (by decide) h.1
  · exact habove _ (by decide) h.1
  · exact absurd hdigit (by decide)
  · exact absurd hdigit (by decide)
  · exact habove _ (by decide) h

theorem lexeme_word (h : isNameStart c = true) (cs : Text) :
    lexeme c cs = .token (.ofWord (c :: cs.takeWhile isNameByte))
    (cs.takeWhile isNameByte).length := by
  have htable : kindOf? punctuation c = none := kindOf?_of_class (by decide) h
  have hslash : c ≠ chr '/' := ne_of_class (by decide) h
  have hdouble : c ≠ chr '"' := ne_of_class (by decide) h
  have hsingle : c ≠ chr '\'' := ne_of_class (by decide) h
  have hpoint : c ≠ chr '.' := ne_of_class (by decide) h
  simp [lexeme, h, isDigit_of_isNameStart h, htable, hslash, hdouble, hsingle, hpoint]

theorem lexeme_digit (h : isDigit c = true) (cs : Text) : lexeme c cs = number c cs := by
  have htable : kindOf? punctuation c = none := kindOf?_of_class (by decide) h
  have hslash : c ≠ chr '/' := ne_of_class (by decide) h
  have hdouble : c ≠ chr '"' := ne_of_class (by decide) h
  have hsingle : c ≠ chr '\'' := ne_of_class (by decide) h
  simp [lexeme, h, htable, hslash, hdouble, hsingle]

theorem lexeme_point (cs : Text) :
    lexeme (chr '.') cs =
      if cs.head?.any isDigit then number (chr '.') cs
      else if (lit "..").isPrefixOf cs then .token .ellipsis 2 else .token .dot 0 := by
  have h1 : (chr '.' == chr '/') = false := by decide
  have h2 : kindOf? punctuation (chr '.') = none := by decide
  have h3 : (chr '.' == chr '"' || chr '.' == chr '\'') = false := by decide
  have h4 : isDigit (chr '.') = false := by decide
  have h5 : isNameStart (chr '.') = false := by decide
  simp [lexeme, h1, h2, h3, h4, h5]

theorem lexeme_slash (cs : Text) :
    lexeme (chr '/') cs =
      if cs.head? = some (chr '/') then .token .comment cs.length
      else if cs.head? = some (chr '*') then
        match closingMark cs.tail with
        | some inside => .token .comment (inside + 3)
        | none => .openComment
      else operator (chr '/') cs := by
  have h2 : kindOf? punctuation (chr '/') = none := by decide
  have h3 : (chr '/' == chr '"' || chr '/' == chr '\'') = false := by decide
  have h4 : isDigit (chr '/') = false := by decide
  have h5 : isNameStart (chr '/') = false := by decide
  have h6 : (chr '/' == chr '.') = false := by decide
  by_cases hline : cs.head? = some (chr '/')
  · simp [lexeme, hline]
  by_cases hstar : cs.head? = some (chr '*')
  · have hne : chr '*' ≠ chr '/' := by decide
    cases hmark : closingMark cs.tail <;> simp [lexeme, hstar, hne, hmark]
  · simp [lexeme, hline, hstar, h2, h3, h4, h5, h6]

theorem lexeme_quote (h : c = chr '"' ∨ c = chr '\'') (cs : Text) : lexeme c cs = quoted c cs := by
  have h1 : (c == chr '/') = false := by rcases h with rfl | rfl <;> decide
  have h2 : kindOf? punctuation c = none := by rcases h with rfl | rfl <;> decide
  simp [lexeme, h1, h2, h]

theorem lexeme_punctuation (h : kindOf? punctuation c = some kind) (cs : Text) :
    lexeme c cs = .token kind 0 := by
  have hslash : c ≠ chr '/' := by
    rintro rfl
    rw [show kindOf? punctuation (chr '/') = none by decide] at h
    cases h
  simp [lexeme, h, hslash]

theorem lexeme_symbol (h : isSymbol c = true) (cs : Text) : lexeme c cs = operator c cs := by
  simp only [isSymbol, Bool.and_eq_true, Bool.not_eq_true', bne_iff_ne, Option.isNone_iff_eq_none]
    at h
  obtain ⟨⟨⟨⟨⟨⟨h1, h2⟩, h3⟩, h4⟩, h5⟩, h6⟩, h7⟩ := h
  simp [lexeme, h1, h2, h3, h4, h5, h6, h7]

/-! ### Comments and quoted literals -/

/-- What stands in front of the first mark, which is found there whatever follows. -/
theorem exists_of_closingMark (h : closingMark cs = some n) :
    ∃ front back, cs = front ++ (lit "*/" ++ back) ∧ n = front.length ∧
      ¬ lit "*/" <:+: front ++ lit "*" ∧
      ∀ back', closingMark (front ++ (lit "*/" ++ back')) = some n := by
  have hlit : lit "*/" = [chr '*', chr '/'] := by decide
  have hstar : lit "*" = [chr '*'] := by decide
  rw [hlit, hstar]
  induction cs generalizing n with
  | nil => cases h
  | cons b bs ih =>
    rw [closingMark] at h
    split_ifs at h with hmark
    · cases h
      rw [Bool.and_eq_true, beq_iff_eq, beq_iff_eq] at hmark
      obtain ⟨rfl, hhead⟩ := hmark
      obtain ⟨back, rfl⟩ := List.head?_eq_some_iff.mp hhead
      refine ⟨[], back, rfl, rfl, fun hinfix => ?_, fun back' => by simp [closingMark]⟩
      have := hinfix.length_le
      simp at this
    · obtain ⟨m, hm, rfl⟩ := Option.map_eq_some_iff.mp h
      obtain ⟨front, back, rfl, rfl, hnone, hstable⟩ := ih hm
      have hhead : ∀ back', (front ++ ([chr '*', chr '/'] ++ back')).head? =
          (front ++ [chr '*']).head? := by
        intro back'
        cases front <;> rfl
      rw [hhead] at hmark
      refine ⟨b :: front, back, rfl, rfl, fun hinfix => ?_, fun back' => ?_⟩
      · rw [List.cons_append, List.infix_cons_iff] at hinfix
        rcases hinfix with hstarts | hinfix
        · obtain ⟨rfl, back', hback'⟩ := List.cons_prefix_cons.mp hstarts
          exact hmark (by simp [← hback'])
        · exact hnone hinfix
      · rw [List.cons_append, closingMark, hhead, if_neg hmark, hstable]
        rfl

theorem closingMark_append (h : closingMark more = some n) (rest : Text) :
    closingMark (more ++ rest) = some n := by
  obtain ⟨front, back, rfl, -, -, hstable⟩ := exists_of_closingMark h
  rw [List.append_assoc, List.append_assoc]
  exact hstable _

/-- The first mark is complete within two bytes. -/
theorem closingMark_take (h : closingMark cs = some n) :
    closingMark (cs.take (n + 2)) = some n ∧ n + 2 ≤ cs.length := by
  obtain ⟨front, back, rfl, rfl, -, hstable⟩ := exists_of_closingMark h
  have hlit : (lit "*/").length = 2 := by decide
  have htake : (front ++ (lit "*/" ++ back)).take (front.length + 2) =
      front ++ (lit "*/" ++ []) := by
    rw [List.take_length_add_append, ← hlit, List.take_left, List.append_nil]
  refine ⟨htake ▸ hstable [], ?_⟩
  simp only [List.length_append, hlit]
  omega

variable {bs : Text} {quote : UInt8}

theorem closingQuote_escape (h : (b == chr '\\') = true) {b' : UInt8} :
    closingQuote quote (b :: b' :: bs) = (closingQuote quote bs).map (· + 2) := by
  rw [closingQuote, if_pos h]

theorem closingQuote_close (h : ¬ (b == chr '\\') = true) (hq : (b == quote) = true) :
    closingQuote quote (b :: bs) = some 1 := by
  rw [closingQuote.eq_def]
  simp only [if_neg h, if_pos hq]

theorem closingQuote_other (h : ¬ (b == chr '\\') = true)
    (hq : ¬ (b == quote) = true) :
    closingQuote quote (b :: bs) = (closingQuote quote bs).map (· + 1) := by
  rw [closingQuote.eq_def]
  simp only [if_neg h, if_neg hq]

/-- What stands in front of the closing quote, which is found there whatever follows. -/
theorem exists_of_closingQuote (h : closingQuote quote cs = some n) :
    ∃ body rest, cs = body ++ [quote] ++ rest ∧ n = (body ++ [quote]).length ∧
      ∀ rest', closingQuote quote (body ++ [quote] ++ rest') = some n := by
  induction cs using closingQuote.induct quote generalizing n with
  | case1 => cases h
  | case2 b hb => simp [closingQuote, hb] at h
  | case3 b hb b' bs ih =>
    rw [closingQuote_escape hb] at h
    obtain ⟨m, hm, rfl⟩ := Option.map_eq_some_iff.mp h
    obtain ⟨body, rest, rfl, rfl, hstable⟩ := ih hm
    refine ⟨b :: b' :: body, rest, rfl, rfl, fun rest' => ?_⟩
    simp only [List.cons_append, closingQuote_escape hb, hstable]
    rfl
  | case4 b bs hb hq =>
    rw [closingQuote_close hb hq] at h
    cases h
    obtain rfl := beq_iff_eq.mp hq
    exact ⟨[], bs, rfl, rfl, fun _ => closingQuote_close hb hq⟩
  | case5 b bs hb hq ih =>
    rw [closingQuote_other hb hq] at h
    obtain ⟨m, hm, rfl⟩ := Option.map_eq_some_iff.mp h
    obtain ⟨body, rest, rfl, rfl, hstable⟩ := ih hm
    refine ⟨b :: body, rest, rfl, rfl, fun rest' => ?_⟩
    simp only [List.cons_append, closingQuote_other hb hq, hstable]
    rfl

theorem quoted_eq_token_iff : quoted c cs = .token kind n ↔
    ¬ ((c == chr '"') && (lit "\"\"").isPrefixOf cs) = true ∧ closingQuote c cs = some n ∧
      kind = if c == chr '"' then .stringLit else .charLit := by
  unfold quoted
  simp only
  by_cases hblock : ((c == chr '"') && (lit "\"\"").isPrefixOf cs) = true
  · simp [hblock]
  · rw [if_neg hblock]
    cases closingQuote c cs with
    | none => simp
    | some m =>
      simp only [Lexeme.token.injEq, Option.some.injEq]
      exact ⟨fun h => ⟨hblock, h.2, h.1.symm⟩, fun h => ⟨h.2.2.symm, h.2.1⟩⟩

theorem exists_of_quoted (h : quoted c (more ++ rest) = .token kind more.length) :
    ∃ body, more = body ++ [c] ∧ ∀ rest', closingQuote c (more ++ rest') = some more.length := by
  obtain ⟨body, back, hsplit, hlen, hstable⟩ :=
    exists_of_closingQuote (quoted_eq_token_iff.mp h).2.1
  obtain ⟨rfl, -⟩ := List.append_inj hsplit hlen
  exact ⟨body, rfl, hstable⟩

theorem quoted_append {quiet : UInt8 → Prop} (hs : Sees quiet rest rest')
    (hq : c = chr '"' → more = [chr '"'] → ¬ quiet (chr '"'))
    (h : quoted c (more ++ rest) = .token kind more.length) :
    quoted c (more ++ rest') = .token kind more.length := by
  obtain ⟨hblock, -, hkind⟩ := quoted_eq_token_iff.mp h
  obtain ⟨body, hbody, hstable⟩ := exists_of_quoted h
  refine quoted_eq_token_iff.mpr ⟨fun hblock' => hblock ?_, hstable rest', hkind⟩
  -- a third quote would have to come first of what is behind, and does so in both or in neither
  rw [Bool.and_eq_true, List.isPrefixOf_iff_prefix] at hblock' ⊢
  obtain ⟨hc, hstarts⟩ := hblock'
  refine ⟨hc, ?_⟩
  have hlit : lit "\"\"" = [chr '"', chr '"'] := by decide
  rw [hlit] at hstarts ⊢
  rcases more with _ | ⟨x, _ | ⟨y, m⟩⟩
  · simp at hbody
  · obtain ⟨r, hr⟩ := hstarts
    simp only [List.cons_append, List.nil_append, List.cons.injEq] at hr
    obtain ⟨rfl, hr⟩ := hr
    have hhead := (hs.head (chr '"') (by rw [← hr]; rfl)).resolve_right (hq (beq_iff_eq.mp hc) rfl)
    obtain ⟨rest, rfl⟩ := List.head?_eq_some_iff.mp hhead
    exact ⟨rest, rfl⟩
  · obtain ⟨r, hr⟩ := hstarts
    simp only [List.cons_append, List.nil_append, List.cons.injEq] at hr
    obtain ⟨rfl, rfl, -⟩ := hr
    exact ⟨m ++ rest, rfl⟩

/-! ### Operators -/

/-- An operator that fits with the new bytes behind fits with the old ones, or a shorter one
does. -/
theorem fits_of_sees {quiet : UInt8 → Prop} (hs : Sees quiet rest rest')
    (hq : ∀ op ∈ longOperators, ∀ b o, lit op = (c :: more) ++ b :: o → ¬ quiet b) {op : String}
    (hop : op ∈ longOperators)
    (hstarts : (lit op).isPrefixOf (c :: (more ++ rest')) = true) :
    (lit op).isPrefixOf (c :: (more ++ rest)) = true ∨
      more = [] ∧ (lit "<<").isPrefixOf (c :: (more ++ rest)) = true := by
  have hthree : ∀ op ∈ longOperators, 3 ≤ (lit op).length → lit op = lit "<<=" := by decide
  rw [List.isPrefixOf_iff_prefix, ← List.cons_append] at hstarts
  rcases Nat.lt_or_ge (c :: more).length (lit op).length with hlen | hlen
  · obtain ⟨b, o, ho⟩ : ∃ b o, lit op = (c :: more) ++ b :: o := by
      obtain ⟨o, ho⟩ :=
        List.prefix_of_prefix_length_le (List.prefix_append (c :: more) rest') hstarts
        (Nat.le_of_lt hlen)
      cases o with
      | nil =>
        rw [← ho] at hlen
        simp at hlen
      | cons b o => exact ⟨b, o, ho.symm⟩
    rw [ho, List.prefix_append_right_inj] at hstarts
    have hhead : rest.head? = some b := by
      obtain ⟨r, hr⟩ := hstarts
      exact (hs.head b (by rw [← hr]; rfl)).resolve_right (hq op hop b o ho)
    obtain ⟨r, rfl⟩ := List.head?_eq_some_iff.mp hhead
    rcases o with _ | ⟨b', o⟩
    · left
      rw [List.isPrefixOf_iff_prefix, ho, ← List.cons_append, List.prefix_append_right_inj]
      exact ⟨r, rfl⟩
    · right
      have hop' := hthree op hop (by rw [ho]; simp; omega)
      rw [hop'] at ho
      have hlit : lit "<<=" = [chr '<', chr '<', chr '='] := by decide
      rw [hlit] at ho
      rcases more with _ | ⟨x, m⟩
      · simp only [List.cons_append, List.nil_append, List.cons.injEq] at ho
        obtain ⟨rfl, rfl, -⟩ := ho
        refine ⟨rfl, List.isPrefixOf_iff_prefix.mpr ⟨r, ?_⟩⟩
        rfl
      · have hlong := congrArg List.length ho
        simp only [List.length_cons, List.length_append, List.length_nil] at hlong
        omega
  · left
    rw [List.isPrefixOf_iff_prefix, ← List.cons_append]
    exact (List.prefix_of_prefix_length_le hstarts (List.prefix_append _ _) hlen).trans
      (List.prefix_append _ _)

theorem eq_of_prefix_append {a : Text} (h : a <+: more ++ rest) (hlen : a.length = more.length) :
    a = more :=
  (List.prefix_of_prefix_length_le h (List.prefix_append more rest)
    (Nat.le_of_eq hlen)).eq_of_length hlen

theorem operator_append {quiet : UInt8 → Prop} (hs : Sees quiet rest rest')
    (hq : ∀ op ∈ longOperators, ∀ b o, lit op = (c :: more) ++ b :: o → ¬ quiet b)
    (h : operator c (more ++ rest) = .token kind more.length) :
    operator c (more ++ rest') = .token kind more.length := by
  have htwo : ∀ op ∈ longOperators, 2 ≤ (lit op).length := by decide
  unfold operator at h ⊢
  cases hfind : longOperators.find? (fun op => (lit op).isPrefixOf (c :: (more ++ rest))) with
  | some op =>
    simp only [hfind, Lexeme.token.injEq] at h
    obtain ⟨hop, before, after, hsplit, hbefore⟩ := List.find?_eq_some_iff_append.mp hfind
    have hmem : op ∈ longOperators := by simp [hsplit]
    have hlen : (lit op).length = (c :: more).length := by
      have := htwo op hmem
      simp only [List.length_cons]
      omega
    have hwhole : lit op = c :: more := eq_of_prefix_append (List.isPrefixOf_iff_prefix.mp hop) hlen
    have hfind' : longOperators.find? (fun op => (lit op).isPrefixOf (c :: (more ++ rest'))) =
        some op := by
      refine List.find?_eq_some_iff_append.mpr ⟨?_, before, after, hsplit, fun op' hop' => ?_⟩
      · rw [List.isPrefixOf_iff_prefix, hwhole, ← List.cons_append]
        exact List.prefix_append _ _
      · have hold := hbefore op' hop'
        rw [Bool.not_eq_true'] at hold ⊢
        by_contra hnew
        have hmem' : op' ∈ longOperators := by simp [hsplit, hop']
        rcases fits_of_sees hs hq hmem' (by simpa using hnew) with hfit | ⟨hnil, -⟩
        · rw [hfit] at hold
          cases hold
        · have := htwo op hmem
          rw [hlen, hnil] at this
          simp at this
    simp only [hfind', Lexeme.token.injEq]
    exact h
  | none =>
    simp only [hfind] at h
    have hnone : ∀ op ∈ longOperators, ¬ (lit op).isPrefixOf (c :: (more ++ rest)) = true := by
      simpa using List.find?_eq_none.mp hfind
    have hfind' : longOperators.find? (fun op => (lit op).isPrefixOf (c :: (more ++ rest'))) =
        none := by
      refine List.find?_eq_none.mpr fun op hop hnew => ?_
      rcases fits_of_sees hs hq hop hnew with hfit | ⟨-, hfit⟩
      · exact hnone op hop hfit
      · exact hnone "<<" (by decide) hfit
    simp only [hfind']
    exact h

/-! ### Words -/

theorem takeWhile_append_eq_left {p : UInt8 → Bool} :
    (more ++ rest).takeWhile p = more ↔
      (∀ b ∈ more, p b = true) ∧ ∀ b, rest.head? = some b → p b = false := by
  induction more with
  | nil =>
    cases rest with
    | nil => simp
    | cons b bs => simp [List.takeWhile_cons]
  | cons x m ih =>
    rw [List.cons_append, List.takeWhile_cons]
    by_cases hx : p x = true
    · simp [hx, ih]
    · simp [hx]

theorem word_iff (hc : isNameStart c = true) :
    lexeme c (more ++ rest) = .token kind more.length ↔
      (∀ b ∈ more, isNameByte b = true) ∧ EndsName rest ∧ kind = .ofWord (c :: more) := by
  rw [lexeme_word hc, Lexeme.token.injEq]
  have hwhole : ((more ++ rest).takeWhile isNameByte).length = more.length ↔
      (more ++ rest).takeWhile isNameByte = more := by
    exact ⟨eq_of_prefix_append (List.takeWhile_prefix isNameByte), congrArg List.length⟩
  rw [hwhole]
  constructor
  · rintro ⟨hkind, hmore⟩
    rw [hmore] at hkind
    obtain ⟨hbytes, hends⟩ := takeWhile_append_eq_left.mp hmore
    exact ⟨hbytes, hends, hkind.symm⟩
  · rintro ⟨hbytes, hends, rfl⟩
    have hmore := takeWhile_append_eq_left.mpr ⟨hbytes, hends⟩
    rw [hmore]
    exact ⟨rfl, rfl⟩

/-! ### Whole lexemes -/

theorem exists_append_of_le (h : n ≤ cs.length) :
    ∃ more rest, cs = more ++ rest ∧ n = more.length :=
  ⟨cs.take n, cs.drop n, (List.take_append_drop n cs).symm, (List.length_take_of_le h).symm⟩

theorem exists_of_operator (h : operator c cs = .token kind n) :
    (∃ op ∈ longOperators, lit op <+: c :: cs ∧ (lit op).length = n + 1 ∧ kind = .operator) ∨
      kindOf? shortOperators c = some kind ∧ n = 0 := by
  have hpos : ∀ op ∈ longOperators, 0 < (lit op).length := by decide
  unfold operator at h
  cases hfind : longOperators.find? (fun op => (lit op).isPrefixOf (c :: cs)) with
  | some op =>
    have hmem := List.mem_of_find?_eq_some hfind
    have hfits := List.isPrefixOf_iff_prefix.mp (List.find?_eq_some_iff_append.mp hfind).1
    simp only [hfind, Lexeme.token.injEq] at h
    have := hpos op hmem
    exact Or.inl ⟨op, hmem, hfits, by omega, h.1.symm⟩
  | none =>
    simp only [hfind] at h
    cases hkind : kindOf? shortOperators c with
    | none => simp [hkind] at h
    | some k =>
      simp only [hkind, Lexeme.token.injEq] at h
      exact Or.inr ⟨congrArg some h.1, h.2.symm⟩

theorem le_of_operator (h : operator c cs = .token kind n) : n ≤ cs.length := by
  rcases exists_of_operator h with ⟨op, -, hfits, hlen, -⟩ | ⟨-, rfl⟩
  · have := hfits.length_le
    rw [hlen, List.length_cons] at this
    omega
  · exact Nat.zero_le _

theorem more_le_of_lexeme (h : lexeme c cs = .token kind n) : n ≤ cs.length := by
  rcases first_byte_cases c with hc | hc | rfl | rfl | hc | hc | hc
  · rw [lexeme_word hc, Lexeme.token.injEq] at h
    rw [← h.2]
    exact (List.takeWhile_sublist _).length_le
  · rw [lexeme_digit hc] at h
    exact le_of_number h
  · rw [lexeme_point] at h
    split_ifs at h with hdigit hdots
    · exact le_of_number h
    · have hlen := (List.isPrefixOf_iff_prefix.mp hdots).length_le
      cases h
      exact hlen
    · cases h
      exact Nat.zero_le _
  · rw [lexeme_slash] at h
    split_ifs at h with hline hblock
    · cases h
      exact Nat.le_refl _
    · cases hmark : closingMark cs.tail with
      | none => simp [hmark] at h
      | some inside =>
        have hlen := (closingMark_take hmark).2
        simp only [hmark, Lexeme.token.injEq] at h
        rw [List.length_tail] at hlen
        omega
    · exact le_of_operator h
  · rw [lexeme_quote hc] at h
    obtain ⟨body, rest, rfl, rfl, -⟩ := exists_of_closingQuote (quoted_eq_token_iff.mp h).2.1
    simp
  · obtain ⟨k, hk⟩ := Option.isSome_iff_exists.mp hc
    rw [lexeme_punctuation hk] at h
    cases h
    exact Nat.zero_le _
  · rw [lexeme_symbol hc] at h
    exact le_of_operator h

theorem Sees.digit {quiet : UInt8 → Prop} (hs : Sees quiet rest rest')
    (hdigit : ∀ b, isDigit b = true → ¬ quiet b) (h : rest'.head?.any isDigit = true) :
    rest.head?.any isDigit = true := by
  obtain ⟨b, hb, hany⟩ := (Option.any_eq_true _ _).mp h
  rw [(hs.head b hb).resolve_right (hdigit b hany)]
  exact hany

theorem Sees.two_points {quiet : UInt8 → Prop} (hs : Sees quiet rest rest')
    (hpoint : ¬ quiet (chr '.')) (h : (lit "..").isPrefixOf rest' = true) :
    (lit "..").isPrefixOf rest = true := by
  have hlit : lit ".." = [chr '.', chr '.'] := by decide
  rw [List.isPrefixOf_iff_prefix, hlit] at h ⊢
  obtain ⟨r, rfl⟩ := h
  obtain ⟨r', rfl⟩ := List.head?_eq_some_iff.mp ((hs.head (chr '.') rfl).resolve_right hpoint)
  obtain ⟨r'', rfl⟩ := List.head?_eq_some_iff.mp ((hs.dots hpoint rfl).mpr rfl)
  exact ⟨r'', rfl⟩

theorem point_append {quiet : UInt8 → Prop} (hs : Sees quiet rest rest')
    (hnumber : more.head?.any isDigit = true → (∀ b, quiet b → isNameByte b = false) ∧
      ¬ quiet (chr '.'))
    (hsingle : more = [] → (∀ b, isDigit b = true → ¬ quiet b) ∧ ¬ quiet (chr '.'))
    (h : lexeme (chr '.') (more ++ rest) = .token kind more.length) :
    lexeme (chr '.') (more ++ rest') = .token kind more.length := by
  have hlit : lit ".." = [chr '.', chr '.'] := by decide
  rw [lexeme_point] at h ⊢
  by_cases hdigit : (more ++ rest).head?.any isDigit = true
  · rw [if_pos hdigit] at h
    have hstart : StartsNumber (chr '.') (more ++ rest) := Or.inr ⟨rfl, hdigit⟩
    cases more with
    | nil =>
      -- the digit behind the point would belong to the number
      have hdecimal : number (chr '.') rest = decimalNumber ([chr '.'] ++ rest) := by
        refine number_eq_decimal fun x _ hc => ?_
        exact absurd hc.1 (by decide)
      rw [List.nil_append, hdecimal] at h
      have hle := (end_of_decimalNumber h rfl (decimalLength_pos hstart)).1
      have htwo := two_le_decimalLength_point hdigit
      rw [List.nil_append] at htwo
      simp only [List.singleton_append, List.length_singleton] at hle
      omega
    | cons x m =>
      have hdigit' : (x :: m ++ rest').head?.any isDigit = true := hdigit
      obtain ⟨hends, hpoint⟩ := hnumber hdigit
      rw [if_pos hdigit']
      exact number_append hs hends hpoint hstart h
  · rw [if_neg hdigit] at h
    by_cases hdots : (lit "..").isPrefixOf (more ++ rest) = true
    · rw [if_pos hdots, Lexeme.token.injEq] at h
      have hmore : more = [chr '.', chr '.'] := by
        rw [← hlit]
        exact (eq_of_prefix_append (List.isPrefixOf_iff_prefix.mp hdots) h.2).symm
      subst hmore
      have hdigit' : ¬ ([chr '.', chr '.'] ++ rest').head?.any isDigit = true := by
        change ¬ isDigit (chr '.') = true
        decide
      rw [if_neg hdigit', if_pos (by rw [hlit]; simp)]
      exact congrArg (Lexeme.token · 2) h.1
    · rw [if_neg hdots, Lexeme.token.injEq] at h
      obtain rfl : more = [] := List.eq_nil_of_length_eq_zero h.2.symm
      obtain ⟨hloud, hpoint⟩ := hsingle rfl
      rw [List.nil_append] at hdigit hdots ⊢
      rw [if_neg fun hany => hdigit (hs.digit hloud hany),
        if_neg fun hstarts => hdots (hs.two_points hpoint hstarts)]
      exact congrArg (Lexeme.token · 0) h.1

theorem slash_append {quiet : UInt8 → Prop} (hs : Sees quiet rest rest')
    (hslash : more = [] → ¬ quiet (chr '/') ∧ ¬ quiet (chr '*'))
    (hoperator : ∀ op ∈ longOperators, ∀ b o, lit op = (chr '/' :: more) ++ b :: o → ¬ quiet b)
    (hcomment : more.head? = some (chr '/') → rest' = [])
    (h : lexeme (chr '/') (more ++ rest) = .token kind more.length) :
    lexeme (chr '/') (more ++ rest') = .token kind more.length := by
  rw [lexeme_slash] at h ⊢
  cases more with
  | nil =>
    obtain ⟨hslash, hstar⟩ := hslash rfl
    rw [List.nil_append] at h ⊢
    have hback : ∀ b, ¬ quiet b → rest'.head? = some b → rest.head? = some b := fun b hb hhead =>
      (hs.head b hhead).resolve_right hb
    split_ifs at h with hline hblock
    · -- a comment up to the end of the line is longer than its first byte
      simp only [List.length_nil, Lexeme.token.injEq, List.length_eq_zero_iff] at h
      rw [h.2] at hline
      cases hline
    · cases hmark : closingMark rest.tail with
      | none => simp [hmark] at h
      | some inside => simp [hmark] at h
    · rw [if_neg fun hline' => hline (hback _ hslash hline'),
        if_neg fun hblock' => hblock (hback _ hstar hblock')]
      change operator (chr '/') ([] ++ rest') = .token kind ([] : Text).length
      exact operator_append hs hoperator h
  | cons x m =>
    simp only [List.cons_append, List.head?_cons, Option.some.injEq] at h ⊢
    split_ifs at h ⊢ with hline hblock
    · have hrest : rest = [] := by
        simpa using (Lexeme.token.inj h).2
      rw [hcomment (by rw [hline]; rfl)]
      rw [hrest] at h
      exact h
    · simp only [List.tail_cons] at h ⊢
      cases hmark : closingMark (m ++ rest) with
      | none => simp [hmark] at h
      | some inside =>
        simp only [hmark, Lexeme.token.injEq, List.length_cons] at h
        have hm : closingMark m = some inside := by
          have := (closingMark_take hmark).1
          rwa [show inside + 2 = m.length by omega, List.take_left] at this
        rw [closingMark_append hm]
        simp only [Lexeme.token.injEq, List.length_cons]
        exact h
    · change operator (chr '/') ((x :: m) ++ rest') = .token kind (x :: m).length
      exact operator_append hs hoperator h

/-- The marks of several bytes. -/
def longMarks : List String := "//" :: "/*" :: "\"\"\"" :: "..." :: longOperators

/-- Whether a token of the text could go on with the byte, if it stood directly behind: a name or a
number with a byte of a name, a number also with a point, a point with a digit, and a mark as a
longer one. -/
def absorbs : Text → UInt8 → Bool
  | [], _ => false
  | c :: more, b =>
    if isNameStart c then isNameByte b
    else if isDigit c || (c == chr '.' && more.head?.any isDigit) then isNameByte b || b == chr '.'
    else (c == chr '.' && more.isEmpty && isDigit b) ||
      longMarks.any fun mark => (c :: (more ++ [b])).isPrefixOf (lit mark)

theorem absorbs_word (hc : isNameStart c = true) : absorbs (c :: more) b = isNameByte b := by
  rw [absorbs, if_pos hc]

theorem absorbs_number (hc : StartsNumber c more) :
    absorbs (c :: more) b = (isNameByte b || b == chr '.') := by
  have hname : ¬ isNameStart c = true := by
    intro hname
    rcases hc with hc | ⟨rfl, -⟩
    · rw [isDigit_of_isNameStart hname] at hc
      cases hc
    · revert hname
      decide
  rw [absorbs, if_neg hname, if_pos (by simpa [StartsNumber] using hc)]

theorem absorbs_mark (hname : isNameStart c = false) (hnumber : ¬ StartsNumber c more) :
    absorbs (c :: more) b = ((c == chr '.' && more.isEmpty && isDigit b) ||
      longMarks.any fun mark => (c :: (more ++ [b])).isPrefixOf (lit mark)) := by
  rw [absorbs, if_neg (by simp [hname]), if_neg (by simpa [StartsNumber] using hnumber)]

theorem absorbs_mark_of_notMem (hname : isNameStart c = false) (hnumber : ¬ StartsNumber c more)
    (hdigit : isDigit b = false) (hmarks : ∀ mark ∈ longMarks, b ∉ lit mark) :
    absorbs (c :: more) b = false := by
  have hlonger : (longMarks.any fun mark => (c :: (more ++ [b])).isPrefixOf (lit mark)) =
      false := by
    rw [List.any_eq_false]
    intro mark hmem hprefix
    refine hmarks mark hmem ((List.isPrefixOf_iff_prefix.mp hprefix).subset ?_)
    simp
  rw [absorbs_mark hname hnumber, hdigit, hlonger, Bool.and_false, Bool.or_false]

/-- A byte that is in no mark and no name and is not a point is not absorbed. -/
theorem absorbs_of_delimiter (hname : isNameByte b = false) (hpoint : b ≠ chr '.')
    (hmarks : ∀ mark ∈ longMarks, b ∉ lit mark) (text : Text) : absorbs text b = false := by
  have hdigit : isDigit b = false := by
    by_contra hdigit
    rw [isNameByte_of_isDigit (by simpa using hdigit)] at hname
    cases hname
  cases text with
  | nil => rfl
  | cons c more =>
    by_cases hword : isNameStart c = true
    · rw [absorbs_word hword, hname]
    by_cases hnumber : StartsNumber c more
    · simp [absorbs_number hnumber, hname, hpoint]
    · exact absorbs_mark_of_notMem (by simpa using hword) hnumber hdigit hmarks

/-- **A token ends at the same byte** with something else behind it. -/
theorem lexeme_stable {quiet : UInt8 → Prop} (hs : Sees quiet rest rest')
    (hquiet : ∀ b, quiet b → absorbs (c :: more) b = false)
    (hcomment : c = chr '/' → more.head? = some (chr '/') → rest' = [])
    (h : lexeme c (more ++ rest) = .token kind more.length) :
    lexeme c (more ++ rest') = .token kind more.length := by
  have hloud : ∀ b, absorbs (c :: more) b = true → ¬ quiet b := by
    intro b hb hq
    rw [hquiet b hq] at hb
    cases hb
  have hnumber : StartsNumber c more →
      (∀ b, quiet b → isNameByte b = false) ∧ ¬ quiet (chr '.') := by
    intro hc
    refine ⟨fun b hq => ?_, hloud _ (by simp [absorbs_number hc])⟩
    have hnot := hquiet b hq
    rw [absorbs_number hc, Bool.or_eq_false_iff] at hnot
    exact hnot.1
  have hoperator : isNameStart c = false → isDigit c = false → c ≠ chr '.' →
      ∀ op ∈ longOperators, ∀ b o, lit op = (c :: more) ++ b :: o → ¬ quiet b := by
    intro hname hdigit hpoint op hop b o heq
    refine hloud b ?_
    rw [absorbs_mark hname (by simp [StartsNumber, hdigit, hpoint]), Bool.or_eq_true,
      List.any_eq_true]
    refine Or.inr ⟨op, by simp [longMarks, hop], List.isPrefixOf_iff_prefix.mpr ?_⟩
    rw [heq]
    exact ⟨o, by simp⟩
  rcases first_byte_cases c with hc | hc | rfl | rfl | hc | hc | hc
  · obtain ⟨hbytes, hrest, hkind⟩ := (word_iff hc).mp h
    refine (word_iff hc).mpr ⟨hbytes, hrest.of_sees hs fun b hq => ?_, hkind⟩
    have hnot := hquiet b hq
    rwa [absorbs_word hc] at hnot
  · rw [lexeme_digit hc] at h ⊢
    exact number_append hs (hnumber (Or.inl hc)).1 (hnumber (Or.inl hc)).2 (Or.inl hc) h
  · refine point_append hs (fun hmore => hnumber (Or.inr ⟨rfl, hmore⟩)) ?_ h
    rintro rfl
    refine ⟨fun b hb => hloud b ?_, hloud _ (by decide)⟩
    rw [absorbs_mark (by decide) (by simp [StartsNumber]; decide)]
    simp [hb]
  · refine slash_append hs ?_ (hoperator (by decide) (by decide) (by decide)) (hcomment rfl) h
    rintro rfl
    exact ⟨hloud _ (by decide), hloud _ (by decide)⟩
  · rw [lexeme_quote hc] at h ⊢
    refine quoted_append hs ?_ h
    rintro rfl rfl
    exact hloud _ (by decide)
  · obtain ⟨k, hk⟩ := Option.isSome_iff_exists.mp hc
    rw [lexeme_punctuation hk] at h ⊢
    exact h
  · have hsymbol := hc
    simp only [isSymbol, Bool.and_eq_true, Bool.not_eq_true', bne_iff_ne] at hsymbol
    obtain ⟨⟨⟨⟨⟨⟨hname, hdigit⟩, hpoint⟩, -⟩, -⟩, -⟩, -⟩ := hsymbol
    rw [lexeme_symbol hc] at h ⊢
    exact operator_append hs (hoperator hname hdigit hpoint) h

/-! ### Kinds and bytes -/

theorem kind_of_number (hstart : StartsNumber c cs) (h : number c cs = .token kind n) :
    kind = .intLit ∨ kind = .floatLit := by
  obtain ⟨more, rest, rfl, rfl⟩ := exists_append_of_le (le_of_number h)
  rcases bytes_of_number hstart h with ⟨hkind, -⟩ | ⟨hkind, -⟩
  · exact Or.inl hkind
  · exact Or.inr hkind

theorem kind_of_point (h : lexeme (chr '.') cs = .token kind n) :
    kind = .dot ∨ kind = .ellipsis ∨ kind = .intLit ∨ kind = .floatLit := by
  rw [lexeme_point] at h
  split_ifs at h with hdigit hdots
  · exact Or.inr (Or.inr (kind_of_number (Or.inr ⟨rfl, hdigit⟩) h))
  · cases h
    exact Or.inr (Or.inl rfl)
  · cases h
    exact Or.inl rfl

theorem point_ne_openComment : lexeme (chr '.') cs ≠ .openComment := by
  intro h
  rw [lexeme_point] at h
  split_ifs at h
  exact number_ne_openComment h

theorem operator_ne_openComment : operator c cs ≠ .openComment := by
  unfold operator
  cases longOperators.find? (fun op => (lit op).isPrefixOf (c :: cs)) with
  | some op => exact fun h => nomatch h
  | none => cases kindOf? shortOperators c <;> exact fun h => nomatch h

theorem exists_of_openComment (h : lexeme c cs = .openComment) :
    ∃ cs', c = chr '/' ∧ cs = chr '*' :: cs' ∧ closingMark cs' = none := by
  rcases first_byte_cases c with hc | hc | rfl | rfl | hc | hc | hc
  · rw [lexeme_word hc] at h
    cases h
  · rw [lexeme_digit hc] at h
    exact absurd h number_ne_openComment
  · exact absurd h point_ne_openComment
  · rw [lexeme_slash] at h
    split_ifs at h with hline hstar
    · obtain ⟨cs', rfl⟩ := List.head?_eq_some_iff.mp hstar
      refine ⟨cs', rfl, rfl, ?_⟩
      cases hmark : closingMark cs' with
      | none => rfl
      | some inside => simp [hmark] at h
    · exact absurd h operator_ne_openComment
  · rw [lexeme_quote hc] at h
    unfold quoted at h
    simp only at h
    split_ifs at h
    all_goals cases hquote : closingQuote c cs <;> simp [hquote] at h
  · obtain ⟨k, hk⟩ := Option.isSome_iff_exists.mp hc
    rw [lexeme_punctuation hk] at h
    cases h
  · rw [lexeme_symbol hc] at h
    exact absurd h operator_ne_openComment

/-- The kinds of the tokens that are neither words nor numbers. -/
def markKinds : List TokenKind :=
  [.comment, .stringLit, .charLit, .dot, .ellipsis, .operator] ++
    (punctuation ++ shortOperators).map (·.2)

theorem lexeme_cases (h : lexeme c cs = .token kind n) :
    isNameStart c = true ∨ (StartsNumber c cs ∧ number c cs = .token kind n) ∨
    kind ∈ markKinds := by
  have htable : ∀ {table}, table ⊆ punctuation ++ shortOperators → kindOf? table c = some kind →
      kind ∈ markKinds := by
    intro table hsub hkind
    obtain ⟨entry, hentry, -, rfl⟩ := exists_of_kindOf? hkind
    exact List.mem_append_right _ (List.mem_map_of_mem (hsub hentry))
  have hoperator : operator c cs = .token kind n → kind ∈ markKinds := by
    intro h
    rcases exists_of_operator h with ⟨-, -, -, -, rfl⟩ | ⟨hkind, -⟩
    · decide
    · exact htable (List.subset_append_right _ _) hkind
  rcases first_byte_cases c with hc | hc | rfl | rfl | hc | hc | hc
  · exact Or.inl hc
  · rw [lexeme_digit hc] at h
    exact Or.inr (Or.inl ⟨Or.inl hc, h⟩)
  · rw [lexeme_point] at h
    right
    split_ifs at h with hdigit hdots
    · exact Or.inl ⟨Or.inr ⟨rfl, hdigit⟩, h⟩
    all_goals
      cases h
      exact Or.inr (by decide)
  · rw [lexeme_slash] at h
    right; right
    split_ifs at h
    · cases h
      decide
    · cases hmark : closingMark cs.tail with
      | none => simp [hmark] at h
      | some inside =>
        simp only [hmark, Lexeme.token.injEq] at h
        rw [← h.1]
        decide
    · exact hoperator h
  · rw [lexeme_quote hc] at h
    right; right
    rw [(quoted_eq_token_iff.mp h).2.2]
    split_ifs <;> decide
  · obtain ⟨k, hk⟩ := Option.isSome_iff_exists.mp hc
    rw [lexeme_punctuation hk, Lexeme.token.injEq] at h
    rw [h.1] at hk
    exact Or.inr (Or.inr (htable (List.subset_append_left _ _) hk))
  · rw [lexeme_symbol hc] at h
    exact Or.inr (Or.inr (hoperator h))

theorem word_of_kind (hmarks : kind ∉ markKinds) (hint : kind ≠ .intLit) (hfloat : kind ≠ .floatLit)
    (h : lexeme c (more ++ rest) = .token kind more.length) :
    isNameStart c = true ∧ (∀ b ∈ more, isNameByte b = true) ∧ kind = .ofWord (c :: more) := by
  rcases lexeme_cases h with hc | ⟨hstart, hnumber⟩ | hkind
  · obtain ⟨hbytes, -, hkind⟩ := (word_iff hc).mp h
    exact ⟨hc, hbytes, hkind⟩
  · rcases kind_of_number hstart hnumber with hkind | hkind
    · exact absurd hkind hint
    · exact absurd hkind hfloat
  · exact absurd hkind hmarks

theorem bytes_of_ident (h : lexeme c (more ++ rest) = .token .ident more.length) :
    isNameStart c = true ∧ ∀ b ∈ more, isNameByte b = true := by
  obtain ⟨hc, hbytes, -⟩ := word_of_kind (by decide) (by decide) (by decide) h
  exact ⟨hc, hbytes⟩

theorem kind_ne_eof_of_lexeme (h : lexeme c cs = .token kind n) : kind ≠ .eof := by
  rcases lexeme_cases h with hc | ⟨hstart, hnumber⟩ | hkind
  · have hreserved : ∀ entry ∈ TokenKind.reserved, entry.2 ≠ .eof := by decide
    rw [lexeme_word hc, Lexeme.token.injEq] at h
    rw [← h.1]
    unfold TokenKind.ofWord
    split
    · next entry hentry => exact hreserved entry (List.mem_of_find?_eq_some hentry)
    · decide
  · rcases kind_of_number hstart hnumber with rfl | rfl <;> decide
  · rintro rfl
    revert hkind
    decide

/-- A byte behind which `new` is written without a space in between. -/
def isTight (b : UInt8) : Bool := b == 0 || (lit "([\x7b!.").contains b || isSpace b

theorem forall_byte {P : UInt8 → Prop} (h : ∀ n : Fin 256, P (UInt8.ofFin n)) (b : UInt8) : P b :=
  h b.toFin

theorem lexeme_number (h : StartsNumber c cs) : lexeme c cs = number c cs := by
  rcases h with hc | ⟨rfl, hdigit⟩
  · exact lexeme_digit hc cs
  · rw [lexeme_point, if_pos hdigit]

theorem not_isTight_of_mem (hstart : isNameStart c = true ∨ StartsNumber c (more ++ rest))
    (h : lexeme c (more ++ rest) = .token kind more.length) (hb : b ∈ c :: more)
    (hpoint : kind = .floatLit → b ≠ chr '.') : isTight b = false := by
  have hnumeric : ∀ b, isNumeric b = true → b ≠ chr '.' → isTight b = false :=
    forall_byte (by decide +kernel)
  have hname : ∀ b, isNameByte b = true → isTight b = false := fun b hb =>
    hnumeric b (isNumeric_of_isNameByte hb) (ne_of_class (by decide) hb)
  rcases hstart with hc | hstart
  · refine hname b ?_
    rcases List.mem_cons.mp hb with rfl | hb
    · simp [isNameByte, hc]
    · exact ((word_iff hc).mp h).1 b hb
  · rw [lexeme_number hstart] at h
    rcases bytes_of_number hstart h with ⟨-, hbytes⟩ | ⟨hkind, hbytes⟩
    · exact hname b (hbytes b hb)
    · exact hnumeric b (hbytes b hb) (hpoint hkind)

theorem not_isBlank_of_class {isIn : UInt8 → Bool} (h1 : isIn (chr ' ') = false)
    (h2 : isIn (chr '\t') = false) (h3 : isIn 12 = false) (hb : isIn b = true) :
    isBlank b = false := by
  have hspace : b ≠ chr ' ' := ne_of_class h1 hb
  have htab : b ≠ chr '\t' := ne_of_class h2 hb
  have hfeed : b ≠ 12 := ne_of_class h3 hb
  simp [isBlank, hspace, htab, hfeed]

theorem not_isBlank_of_isNumeric (h : isNumeric b = true) : isBlank b = false :=
  not_isBlank_of_class (by decide) (by decide) (by decide) h

/-- An ASCII byte that is no white space. -/
def isPlain (b : UInt8) : Bool := !isBlank b && decide (b < 128)

theorem isPlain_of_operator (h : operator c (more ++ rest) = .token kind more.length)
    (hb : b ∈ c :: more) :
    isPlain b = true := by
  rcases exists_of_operator h with ⟨op, hop, hfits, hlen, -⟩ | ⟨hkind, hnil⟩
  · have hbytes : longOperators.all (fun op => (lit op).all isPlain) = true := by decide
    have hwhole : lit op = c :: more := eq_of_prefix_append hfits hlen
    have hplain := List.all_eq_true.mp hbytes op hop
    rw [hwhole] at hplain
    exact List.all_eq_true.mp hplain b hb
  · have htable : ∀ entry ∈ shortOperators, isPlain (chr entry.1) = true := by decide
    obtain ⟨entry, hentry, rfl, -⟩ := exists_of_kindOf? hkind
    rw [List.eq_nil_of_length_eq_zero hnil, List.mem_singleton] at hb
    rw [hb]
    exact htable entry hentry

theorem not_isBlank_of_number (hstart : StartsNumber c (more ++ rest))
    (h : number c (more ++ rest) = .token kind more.length) (hb : b ∈ c :: more) :
    isBlank b = false := by
  rcases bytes_of_number hstart h with ⟨-, hbytes⟩ | ⟨-, hbytes⟩
  · exact not_isBlank_of_isNumeric (isNumeric_of_isNameByte (hbytes b hb))
  · exact not_isBlank_of_isNumeric (hbytes b hb)

/-- A token that is neither a word nor a number, with something behind it on its line, ends in a
plain byte. -/
theorem isPlain_of_mark (hname : isNameStart c = false) (hnumber : ¬ StartsNumber c (more ++ rest))
    (hrest : rest ≠ []) (h : lexeme c (more ++ rest) = .token kind more.length)
    (hb : (c :: more).getLast? = some b) : isPlain b = true := by
  have hmem : b ∈ c :: more := List.mem_of_getLast? hb
  have hsingle : isPlain c = true → more.length = 0 → isPlain b = true := by
    intro hc hlen
    rw [List.eq_nil_of_length_eq_zero hlen, List.mem_singleton] at hmem
    rwa [hmem]
  rcases first_byte_cases c with hstart | hstart | rfl | rfl | hstart | hstart | hstart
  · rw [hname] at hstart
    cases hstart
  · exact absurd (Or.inl hstart) hnumber
  · rw [lexeme_point, if_neg fun hdigit => hnumber (Or.inr ⟨rfl, hdigit⟩)] at h
    split_ifs at h with hdots
    · rw [Lexeme.token.injEq] at h
      have heq := eq_of_prefix_append (List.isPrefixOf_iff_prefix.mp hdots) h.2
      rw [← heq] at hmem
      have hbytes : (chr '.' :: lit "..").all isPlain = true := by decide
      exact List.all_eq_true.mp hbytes b hmem
    · rw [Lexeme.token.injEq] at h
      exact hsingle (by decide) h.2.symm
  · rw [lexeme_slash] at h
    split_ifs at h with hline hstar
    · rw [Lexeme.token.injEq, List.length_append] at h
      exact absurd (List.eq_nil_of_length_eq_zero (by omega)) hrest
    · cases hmark : closingMark (more ++ rest).tail with
      | none => simp [hmark] at h
      | some inside =>
        simp only [hmark, Lexeme.token.injEq] at h
        obtain ⟨x, more, rfl⟩ := List.exists_cons_of_length_pos (by omega : 0 < more.length)
        obtain ⟨front, back, hsplit, rfl, -⟩ := exists_of_closingMark hmark
        rw [List.cons_append, List.tail_cons, ← List.append_assoc] at hsplit
        have hlen : more.length = (front ++ lit "*/").length := by
          have hlit : (lit "*/").length = 2 := by decide
          rw [List.length_append, hlit]
          simp only [List.length_cons] at h
          omega
        have hlit : (lit "*/").getLast? = some (chr '/') := by decide
        rw [(List.append_inj hsplit hlen).1, ← List.cons_append, ← List.cons_append,
          List.getLast?_append, hlit] at hb
        cases hb
        decide
    · exact isPlain_of_operator h hmem
  · rw [lexeme_quote hstart] at h
    obtain ⟨body, rfl, -⟩ := exists_of_quoted h
    rw [← List.cons_append, List.getLast?_concat] at hb
    cases hb
    rcases hstart with rfl | rfl <;> decide
  · have htable : ∀ entry ∈ punctuation, isPlain (chr entry.1) = true := by decide
    obtain ⟨k, hk⟩ := Option.isSome_iff_exists.mp hstart
    obtain ⟨entry, hentry, rfl, -⟩ := exists_of_kindOf? hk
    rw [lexeme_punctuation hk, Lexeme.token.injEq] at h
    exact hsingle (htable entry hentry) h.2.symm
  · rw [lexeme_symbol hstart] at h
    exact isPlain_of_operator h hmem

theorem not_isBlank_of_getLast? (hrest : rest ≠ [])
    (h : lexeme c (more ++ rest) = .token kind more.length) (hb : (c :: more).getLast? = some b) :
    isBlank b = false := by
  have hmem : b ∈ c :: more := List.mem_of_getLast? hb
  by_cases hname : isNameStart c = true
  · refine not_isBlank_of_isNumeric (isNumeric_of_isNameByte ?_)
    rcases List.mem_cons.mp hmem with rfl | hmem
    · simp [isNameByte, hname]
    · exact ((word_iff hname).mp h).1 b hmem
  by_cases hnumber : StartsNumber c (more ++ rest)
  · rw [lexeme_number hnumber] at h
    exact not_isBlank_of_number hnumber h hmem
  · have hplain := isPlain_of_mark (by simpa using hname) hnumber hrest h hb
    simp only [isPlain, Bool.and_eq_true, Bool.not_eq_true'] at hplain
    exact hplain.1

theorem endsName_or_isPlain (h : lexeme c (more ++ rest) = .token kind more.length) :
    EndsName rest ∨ ∀ b, (c :: more).getLast? = some b → isPlain b = true := by
  by_cases hrest : rest = []
  · subst hrest
    exact Or.inl (by simp [EndsName])
  by_cases hname : isNameStart c = true
  · exact Or.inl ((word_iff hname).mp h).2.1
  by_cases hnumber : StartsNumber c (more ++ rest)
  · rw [lexeme_number hnumber] at h
    rcases end_of_number hnumber h with hends | ⟨-, x, hx, hsuffix⟩
    · exact Or.inl hends
    · refine Or.inr fun b hb => ?_
      rw [hx] at hb
      cases hb
      simp only [isFloatSuffix, Bool.or_eq_true, beq_iff_eq] at hsuffix
      rcases hsuffix with ((rfl | rfl) | rfl) | rfl <;> decide
  · exact Or.inr fun b hb => isPlain_of_mark (by simpa using hname) hnumber hrest h hb

theorem not_isNameStart_of_fault {cause : Cause} (h : lexeme c cs = .fault cause) :
    isNameStart c = false := by
  by_contra hname
  rw [lexeme_word (by simpa using hname)] at h
  cases h

end Lexeme

end Unnest
