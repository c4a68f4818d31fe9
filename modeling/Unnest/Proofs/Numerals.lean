import Unnest.Token.Lexeme
import Mathlib.Data.List.TakeWhile
import Mathlib.Tactic.Common

/-!
# The ends of numbers

A number is scanned part by part, and each part goes on as long as it can. So where a number ends
depends on the bytes behind it, in two ways. No byte of a name may follow, unless the number has
ended with the suffix of a floating-point number. A point that follows belongs to the number, unless
there is a second one behind it.

`Sees` compares what stands behind a number, or any other token, with what could stand there
instead.

* `end_of_number`: what can follow a number;
* `bytes_of_number`: the bytes of a number.
-/

namespace Unnest

namespace Lexeme

variable {c b : UInt8} {cs more rest rest' : Text} {kind : TokenKind} {n : Nat}

/-! ### What stands behind -/

/-- Behind a token, `rest'` may stand in place of `rest`: it begins alike or with a byte that ends
every token of the sort in question, and where a point does not end them, a second point does not
come or go. -/
structure Sees (quiet : UInt8 → Prop) (rest rest' : Text) : Prop where
  head : ∀ b, rest'.head? = some b → rest.head? = some b ∨ quiet b
  dots : ¬ quiet (chr '.') → rest'.head? = some (chr '.') →
    (rest.tail.head? = some (chr '.') ↔ rest'.tail.head? = some (chr '.'))

/-- The byte at the head of a text, if there is one, is no byte of a name. -/
def EndsName (rest : Text) : Prop := ∀ b, rest.head? = some b → isNameByte b = false

/-! ### Numbers -/

section Numbers

variable {quiet : UInt8 → Prop} {a : Text} {isOk : UInt8 → Bool} {isFloat : Bool} {length : Nat}

theorem digitsLength_le (isOk : UInt8 → Bool) (s : Text) : digitsLength isOk s ≤ s.length :=
  (List.takeWhile_sublist _).length_le

theorem digitsLength_cons_of_pos (h : (isOk b || b == chr '_') = true) (s : Text) :
    digitsLength isOk (b :: s) = digitsLength isOk s + 1 := by
  simp only [digitsLength, List.takeWhile_cons, h, if_true, List.length_cons]

theorem digitsLength_cons_of_neg (h : ¬ (isOk b || b == chr '_') = true) (s : Text) :
    digitsLength isOk (b :: s) = 0 := by
  simp only [digitsLength, List.takeWhile_cons, h]
  rfl

theorem isNameByte_of_digit (hok : ∀ b, isOk b = true → isNameByte b = true)
    (h : (isOk b || b == chr '_') = true) : isNameByte b = true := by
  rcases Bool.or_eq_true_iff.mp h with h | h
  · exact hok b h
  · rw [beq_iff_eq.mp h]
    decide

theorem isNameByte_of_isDigit : isDigit b = true → isNameByte b = true := by
  intro h
  simp [isNameByte, h]

theorem digitsLength_append (hok : ∀ b, isOk b = true → isNameByte b = true)
    (hle : digitsLength isOk (a ++ rest) ≤ a.length)
    (hrest : digitsLength isOk (a ++ rest) = a.length → EndsName rest') :
    digitsLength isOk (a ++ rest') = digitsLength isOk (a ++ rest) := by
  induction a with
  | nil =>
    have hzero : digitsLength isOk ([] ++ rest) = 0 := Nat.le_zero.mp hle
    rw [hzero]
    cases rest' with
    | nil => rfl
    | cons b bs =>
      refine digitsLength_cons_of_neg (fun hb => ?_) bs
      have := hrest hzero b rfl
      rw [isNameByte_of_digit hok hb] at this
      cases this
  | cons x a ih =>
    by_cases hx : (isOk x || x == chr '_') = true
    · simp only [List.cons_append, digitsLength_cons_of_pos hx, List.length_cons] at hle hrest ⊢
      rw [ih (by omega) fun h => hrest (by omega)]
    · simp only [List.cons_append, digitsLength_cons_of_neg hx]

theorem fractionLength_le (s : Text) : fractionLength s ≤ s.length := by
  cases s with
  | nil => exact Nat.le_refl _
  | cons b bs =>
    have := digitsLength_le isDigit bs
    simp only [fractionLength, List.length_cons]
    split_ifs
    · omega
    · omega

theorem fractionLength_point (h : cs.head? ≠ some (chr '.')) :
    fractionLength (chr '.' :: cs) = 1 + digitsLength isDigit cs := by
  simp [fractionLength, h]

theorem fractionLength_two_points (h : cs.head? = some (chr '.')) :
    fractionLength (chr '.' :: cs) = 0 := by
  simp [fractionLength, h]

theorem fractionLength_other (h : b ≠ chr '.') : fractionLength (b :: cs) = 0 := by
  simp [fractionLength, h]

/-- The same for a fraction. A point may come first of what is behind, if a second one follows. -/
theorem fractionLength_append (hs : Sees quiet rest rest') (hq : ¬ quiet (chr '.'))
    (hle : fractionLength (a ++ rest) ≤ a.length)
    (hrest : fractionLength (a ++ rest) = a.length → EndsName rest')
    (hpoint : a = [chr '.'] → rest.head? ≠ some (chr '.')) :
    fractionLength (a ++ rest') = fractionLength (a ++ rest) := by
  have hback : rest'.head? = some (chr '.') → rest.head? = some (chr '.') :=
    fun h => (hs.head _ h).resolve_right hq
  cases a with
  | nil =>
    have hzero : fractionLength ([] ++ rest) = 0 := Nat.le_zero.mp hle
    rw [hzero, List.nil_append]
    rw [List.nil_append] at hzero
    rcases rest' with _ | ⟨b, bs⟩
    · rfl
    by_cases hb : b = chr '.'
    · subst hb
      rcases rest with _ | ⟨b', bs'⟩
      · exact absurd (hback rfl) (by simp)
      obtain rfl : b' = chr '.' := by simpa using hback rfl
      by_cases htwo : bs'.head? = some (chr '.')
      · exact fractionLength_two_points ((hs.dots hq rfl).mp htwo)
      · rw [fractionLength_point htwo] at hzero
        omega
    · exact fractionLength_other hb
  | cons x a =>
    by_cases hx : x = chr '.'
    · subst hx
      have hhead : (a ++ rest').head? = some (chr '.') ↔ (a ++ rest).head? = some (chr '.') := by
        cases a with
        | nil =>
          have hne := hpoint rfl
          exact ⟨fun h => hback h, fun h => absurd h hne⟩
        | cons y a => simp
      simp only [List.cons_append] at hle hrest ⊢
      by_cases htwo : (a ++ rest).head? = some (chr '.')
      · rw [fractionLength_two_points htwo, fractionLength_two_points (hhead.mpr htwo)]
      · rw [fractionLength_point htwo] at hle hrest ⊢
        rw [fractionLength_point (fun h => htwo (hhead.mp h))]
        simp only [List.length_cons] at hle hrest
        have hdigits : digitsLength isDigit (a ++ rest') = digitsLength isDigit (a ++ rest) :=
          digitsLength_append (fun _ => isNameByte_of_isDigit) (by omega) fun h => hrest (by omega)
        rw [hdigits]
    · simp only [List.cons_append, fractionLength_other hx]

/-- The length of the sign in front of the digits of an exponent. -/
def signLength : Text → Nat
  | [] => 0
  | s :: _ => if s == chr '+' || s == chr '-' then 1 else 0

theorem exponentLength_mark (h : (b == chr 'e' || b == chr 'E') = true) (cs : Text) :
    exponentLength (b :: cs) =
      if digitsLength isDigit (cs.drop (signLength cs)) = 0 then 0
      else 1 + signLength cs + digitsLength isDigit (cs.drop (signLength cs)) := by
  cases cs with
  | nil => simp [exponentLength, h, signLength, digitsLength]
  | cons s cs =>
    by_cases hzero : digitsLength isDigit ((s :: cs).drop (signLength (s :: cs))) = 0
    · rw [if_pos hzero]
      unfold signLength at hzero
      simp only [exponentLength, h, if_true, hzero]
    · obtain ⟨n, hn⟩ := Nat.exists_eq_succ_of_ne_zero hzero
      rw [if_neg hzero, hn]
      unfold signLength at hn ⊢
      simp only [exponentLength, h, if_true, hn]

theorem isNameByte_of_mark (h : (b == chr 'e' || b == chr 'E') = true) : isNameByte b = true := by
  simp only [Bool.or_eq_true, beq_iff_eq] at h
  rcases h with rfl | rfl <;> decide

theorem exponentLength_other (h : ¬ (b == chr 'e' || b == chr 'E') = true) (cs : Text) :
    exponentLength (b :: cs) = 0 := by
  simp only [exponentLength, h]
  rfl

theorem signLength_le (cs : Text) : signLength cs ≤ cs.length := by
  cases cs with
  | nil => exact Nat.le_refl _
  | cons b bs =>
    simp only [signLength, List.length_cons]
    split_ifs
    · omega
    · omega

theorem exponentLength_le (s : Text) : exponentLength s ≤ s.length := by
  cases s with
  | nil => exact Nat.le_refl _
  | cons b bs =>
    by_cases hb : (b == chr 'e' || b == chr 'E') = true
    · have hsign := signLength_le bs
      have hdigits := digitsLength_le isDigit (bs.drop (signLength bs))
      rw [List.length_drop] at hdigits
      rw [exponentLength_mark hb, List.length_cons]
      split_ifs
      · omega
      · omega
    · rw [exponentLength_other hb]
      exact Nat.zero_le _

/-- The same for an exponent, if the mark of an exponent is never left without digits. -/
theorem exponentLength_append (hle : exponentLength (a ++ rest) ≤ a.length)
    (hrest : exponentLength (a ++ rest) = a.length → EndsName rest')
    (hmark : ∀ b, a.head? = some b → (b == chr 'e' || b == chr 'E') = true →
      exponentLength (a ++ rest) ≠ 0) :
    exponentLength (a ++ rest') = exponentLength (a ++ rest) := by
  cases a with
  | nil =>
    have hzero : exponentLength ([] ++ rest) = 0 := Nat.le_zero.mp hle
    rw [hzero, List.nil_append]
    rcases rest' with _ | ⟨b, bs⟩
    · rfl
    refine exponentLength_other (fun hb => ?_) bs
    have := hrest hzero b rfl
    rw [isNameByte_of_mark hb] at this
    cases this
  | cons x a =>
    simp only [List.cons_append, List.length_cons] at hle hrest hmark ⊢
    by_cases hx : (x == chr 'e' || x == chr 'E') = true
    · have hpos := hmark x rfl hx
      have hvalue := exponentLength_mark hx (a ++ rest)
      have hdigits : digitsLength isDigit ((a ++ rest).drop (signLength (a ++ rest))) ≠ 0 := by
        intro hzero
        exact hpos (by rw [hvalue, if_pos hzero])
      rw [if_neg hdigits] at hvalue
      -- the mark is not the last byte of `a`, so `a` decides on the sign
      obtain ⟨y, a, rfl⟩ : ∃ y a', a = y :: a' := by
        cases a with
        | nil =>
          simp only [List.length_nil] at hle
          omega
        | cons y a => exact ⟨y, a, rfl⟩
      have hsign : ∀ rest : Text, signLength (y :: a ++ rest) = signLength [y] := fun _ => rfl
      have hle' : signLength [y] ≤ (y :: a).length := by
        have := signLength_le [y]
        simp only [List.length_cons, List.length_nil] at this ⊢
        omega
      have hlen : ((y :: a).drop (signLength [y])).length = (y :: a).length - signLength [y] :=
        List.length_drop
      rw [hsign, List.drop_append_of_le_length hle'] at hvalue hdigits
      have hsame : digitsLength isDigit ((y :: a).drop (signLength [y]) ++ rest') =
          digitsLength isDigit ((y :: a).drop (signLength [y]) ++ rest) :=
        digitsLength_append (fun _ => isNameByte_of_isDigit) (by omega) fun h => hrest (by omega)
      rw [exponentLength_mark hx, hsign, List.drop_append_of_le_length hle', hsame, if_neg hdigits,
        hvalue]
    · rw [exponentLength_other hx, exponentLength_other hx]

def isLongSuffix (b : UInt8) : Bool := b == chr 'l' || b == chr 'L'

/-- What a number may have behind its digits: nothing, or the suffix of a long integer. -/
def IsIntegerTail (isFloat : Bool) (a : Text) : Prop :=
  a = [] ∨ isFloat = false ∧ ∃ x, a = [x] ∧ isLongSuffix x = true

theorem isNameByte_of_isLongSuffix (h : isLongSuffix b = true) : isNameByte b = true := by
  simp only [isLongSuffix, Bool.or_eq_true, beq_iff_eq] at h
  rcases h with rfl | rfl <;> decide

theorem isNameByte_of_isFloatSuffix (h : isFloatSuffix b = true) : isNameByte b = true := by
  simp only [isFloatSuffix, Bool.or_eq_true, beq_iff_eq] at h
  rcases h with ((rfl | rfl) | rfl) | rfl <;> decide

def numberKind (isFloat : Bool) : TokenKind := if isFloat then .floatLit else .intLit

theorem closeNumber_cons (x : UInt8) (rest : Text) :
    closeNumber isFloat length (x :: rest) =
      if (!isFloat && isLongSuffix x) = true then
        match rest with
        | [] => .token (numberKind isFloat) (length + 1 - 1)
        | b :: _ =>
          if isNameByte b then .fault .malformedNumber
          else .token (numberKind isFloat) (length + 1 - 1)
      else if isNameByte x then .fault .malformedNumber
      else .token (numberKind isFloat) (length - 1) := by
  unfold closeNumber
  by_cases h : (!isFloat && isLongSuffix x) = true
  · have h' : (!isFloat && (x == chr 'l' || x == chr 'L')) = true := h
    simp only [h, h', if_true]
    cases rest <;> rfl
  · have h' : ¬ (!isFloat && (x == chr 'l' || x == chr 'L')) = true := h
    simp only [h, h']
    rfl

theorem closeNumber_of_tail (hrest : EndsName rest) (ha : IsIntegerTail isFloat a) :
    closeNumber isFloat length (a ++ rest) =
    .token (numberKind isFloat) (length + a.length - 1) := by
  have hname : ∀ b bs, rest = b :: bs → isNameByte b = false :=
    fun b bs h => hrest b (by rw [h]; rfl)
  rcases ha with rfl | ⟨rfl, x, rfl, hx⟩
  · cases rest with
    | nil => rfl
    | cons b bs =>
      have hb := hname b bs rfl
      have hlong : isLongSuffix b = false := by
        by_contra h
        rw [isNameByte_of_isLongSuffix (by simpa using h)] at hb
        cases hb
      rw [List.nil_append, closeNumber_cons]
      simp [hb, hlong]
  · rw [List.singleton_append, closeNumber_cons]
    cases rest with
    | nil => simp [hx]
    | cons b bs => simp [hx, hname b bs rfl]

/-- How a number is closed: perhaps with the suffix of a long integer, and no name follows. -/
theorem exists_of_closeNumber (h : closeNumber isFloat length cs = .token kind n) :
    ∃ tail rest, cs = tail ++ rest ∧ EndsName rest ∧ kind = numberKind isFloat ∧
      IsIntegerTail isFloat tail ∧
      n = length + tail.length - 1 := by
  have hends : ∀ {b : UInt8} {bs : Text}, ¬ isNameByte b = true → EndsName (b :: bs) := by
    rintro b bs hb _ ⟨⟩
    simpa using hb
  cases cs with
  | nil =>
    simp only [closeNumber, List.drop_nil, Lexeme.token.injEq] at h
    exact ⟨[], [], rfl, by simp [EndsName], h.1.symm, Or.inl rfl, h.2.symm⟩
  | cons x cs =>
    rw [closeNumber_cons] at h
    split_ifs at h with hlong hname
    · simp only [Bool.and_eq_true, Bool.not_eq_true'] at hlong
      have htail : IsIntegerTail isFloat [x] := Or.inr ⟨hlong.1, x, rfl, hlong.2⟩
      cases cs with
      | nil =>
        cases h
        exact ⟨[x], [], rfl, by simp [EndsName], rfl, htail, rfl⟩
      | cons b bs =>
        simp only at h
        split_ifs at h with hb
        cases h
        exact ⟨[x], b :: bs, rfl, hends hb, rfl, htail, rfl⟩
    · cases h
      exact ⟨[], x :: cs, rfl, hends hname, rfl, Or.inl rfl, rfl⟩

theorem le_of_closeNumber (h : closeNumber isFloat length rest = .token kind n) :
    length ≤ n + 1 ∧ n ≤ length + rest.length - 1 := by
  obtain ⟨tail, rest, rfl, -, -, -, rfl⟩ := exists_of_closeNumber h
  rw [List.length_append]
  omega

theorem closeNumber_ne_openComment : closeNumber isFloat length rest ≠ .openComment := by
  unfold closeNumber
  dsimp only
  split
  · exact Lexeme.noConfusion
  · split_ifs <;> exact Lexeme.noConfusion

theorem tail_of_closeNumber (h : closeNumber isFloat length (a ++ rest) = .token kind n)
    (hn : n + 1 = length + a.length) (hlen : 1 ≤ length) :
    EndsName rest ∧ kind = numberKind isFloat ∧ IsIntegerTail isFloat a := by
  obtain ⟨tail, rest', hsplit, hends, hkind, htail, rfl⟩ := exists_of_closeNumber h
  obtain ⟨rfl, rfl⟩ := List.append_inj hsplit (by omega)
  exact ⟨hends, hkind, htail⟩

/-- The length of a decimal number without its suffix. -/
def decimalLength (s : Text) : Nat :=
  digitsLength isDigit s + fractionLength (s.drop (digitsLength isDigit s)) +
    exponentLength
    (s.drop (digitsLength isDigit s + fractionLength (s.drop (digitsLength isDigit s))))

/-- Whether a decimal number has a fraction or an exponent. -/
def hasFraction (s : Text) : Bool :=
  0 < fractionLength (s.drop (digitsLength isDigit s)) ||
    0 < exponentLength (s.drop
      (digitsLength isDigit s + fractionLength (s.drop (digitsLength isDigit s))))

theorem decimalNumber_eq (s : Text) :
    decimalNumber s =
      if (s.drop (decimalLength s)).head?.any isFloatSuffix then .token .floatLit (decimalLength s)
      else closeNumber (hasFraction s) (decimalLength s) (s.drop (decimalLength s)) := by
  cases hrest : s.drop (decimalLength s) with
  | nil =>
    unfold decimalLength at hrest
    simp [decimalNumber, decimalLength, hasFraction, hrest]
  | cons b bs =>
    unfold decimalLength at hrest
    cases hb : isFloatSuffix b <;> simp [decimalNumber, decimalLength, hasFraction, hrest, hb]

theorem decimalNumber_ne_openComment {s : Text} : decimalNumber s ≠ .openComment := by
  rw [decimalNumber_eq]
  split_ifs
  · exact fun h => nomatch h
  · exact closeNumber_ne_openComment

/-- How a decimal number ends that is the text `a`: with the suffix of a floating-point number, or
with its digits and perhaps the suffix of a long integer, and then no name follows. -/
def DecimalEnd (a rest : Text) (kind : TokenKind) : Prop :=
  (∃ x, a.drop (decimalLength (a ++ rest)) = [x] ∧ isFloatSuffix x = true ∧ kind = .floatLit) ∨
    EndsName rest ∧ kind = numberKind (hasFraction (a ++ rest)) ∧
      IsIntegerTail (hasFraction (a ++ rest)) (a.drop (decimalLength (a ++ rest)))

theorem end_of_decimalNumber (h : decimalNumber (a ++ rest) = .token kind n) (hn : n + 1 = a.length)
    (hlen : 1 ≤ decimalLength (a ++ rest)) :
    decimalLength (a ++ rest) ≤ a.length ∧ DecimalEnd a rest kind := by
  rw [decimalNumber_eq] at h
  have hle : decimalLength (a ++ rest) ≤ a.length := by
    split_ifs at h
    · simp only [Lexeme.token.injEq] at h
      omega
    · have := le_of_closeNumber h
      omega
  have htail : (a.drop (decimalLength (a ++ rest))).length = a.length - decimalLength (a ++ rest) :=
    List.length_drop
  refine ⟨hle, ?_⟩
  rw [List.drop_append_of_le_length hle] at h
  split_ifs at h with hsuffix
  · -- the suffix is the one byte that is left of `a`
    simp only [Lexeme.token.injEq] at h
    obtain ⟨x, hx⟩ := List.length_eq_one_iff.mp (show _ = 1 by rw [htail]; omega)
    refine Or.inl ⟨x, hx, ?_, h.1.symm⟩
    rw [hx] at hsuffix
    simpa using hsuffix
  · exact Or.inr (tail_of_closeNumber h (by omega) hlen)

theorem DecimalEnd.suffix_of_mem (h : DecimalEnd a rest kind)
    (hb : b ∈ a.drop (decimalLength (a ++ rest))) :
    isFloatSuffix b = true ∨ isLongSuffix b = true := by
  rcases h with ⟨x, hx, hsuffix, -⟩ | ⟨-, -, hnil | ⟨-, x, hx, hlong⟩⟩
  · rw [hx, List.mem_singleton] at hb
    exact Or.inl (hb ▸ hsuffix)
  · rw [hnil] at hb
    cases hb
  · rw [hx, List.mem_singleton] at hb
    exact Or.inr (hb ▸ hlong)

theorem DecimalEnd.isNameByte_of_mem (h : DecimalEnd a rest kind)
    (hb : b ∈ a.drop (decimalLength (a ++ rest))) : isNameByte b = true :=
  (h.suffix_of_mem hb).elim isNameByte_of_isFloatSuffix isNameByte_of_isLongSuffix

theorem DecimalEnd.not_mark (h : DecimalEnd a rest kind)
    (hb : b ∈ a.drop (decimalLength (a ++ rest))) : ¬ (b == chr 'e' || b == chr 'E') = true := by
  have hsuffix := h.suffix_of_mem hb
  intro hmark
  simp only [Bool.or_eq_true, beq_iff_eq] at hmark
  rcases hmark with rfl | rfl <;> revert hsuffix <;> decide

theorem EndsName.of_sees (h : EndsName rest) (hs : Sees quiet rest rest')
    (hq : ∀ b, quiet b → isNameByte b = false) : EndsName rest' := by
  intro b hb
  rcases hs.head b hb with hb | hb
  · exact h b hb
  · exact hq b hb

/-- The parts of a decimal number stay the same with something else behind it. -/
theorem decimalLength_append (hs : Sees quiet rest rest')
    (hq : ∀ b, quiet b → isNameByte b = false) (hpoint : ¬ quiet (chr '.'))
    (hle : decimalLength (a ++ rest) ≤ a.length) (hend : DecimalEnd a rest kind) :
    decimalLength (a ++ rest') = decimalLength (a ++ rest) ∧
      hasFraction (a ++ rest') = hasFraction (a ++ rest) := by
  have hends : decimalLength (a ++ rest) = a.length → EndsName rest' := by
    intro hlen
    rcases hend with ⟨x, hx, -⟩ | ⟨hrest, -⟩
    · rw [hlen, List.drop_length] at hx
      cases hx
    · exact hrest.of_sees hs hq
  have hleftover := fun b => hend.isNameByte_of_mem (b := b)
  have hmarks := fun b => hend.not_mark (b := b)
  -- the three parts, one after the other
  obtain ⟨w, hw⟩ : ∃ w, digitsLength isDigit (a ++ rest) = w := ⟨_, rfl⟩
  obtain ⟨f, hf⟩ : ∃ f, fractionLength ((a ++ rest).drop w) = f := ⟨_, rfl⟩
  obtain ⟨e, he⟩ : ∃ e, exponentLength ((a ++ rest).drop (w + f)) = e := ⟨_, rfl⟩
  have hsum : decimalLength (a ++ rest) = w + f + e := by simp only [decimalLength, hw, hf, he]
  rw [hsum] at hle hends hleftover hmarks
  have hw' : digitsLength isDigit (a ++ rest') = w := by
    rw [← hw] at hle hends ⊢
    exact digitsLength_append (fun _ => isNameByte_of_isDigit) (by omega) fun h => hends (by omega)
  have hdrop : ∀ (k : Nat), k ≤ a.length → ∀ r : Text, (a ++ r).drop k = a.drop k ++ r :=
    fun k hk r => List.drop_append_of_le_length hk
  have hlenw : (a.drop w).length = a.length - w := List.length_drop
  have hlenwf : (a.drop (w + f)).length = a.length - (w + f) := List.length_drop
  have hf' : fractionLength ((a ++ rest').drop w) = f := by
    rw [hdrop w (by omega)] at hf ⊢
    refine (fractionLength_append hs hpoint (by omega) (fun h => hends (by omega))
      fun hone htwo => ?_).trans hf
    -- a last point with another one behind it would be left over
    rw [hone, List.singleton_append, fractionLength_two_points htwo] at hf
    have hzero : e = 0 := by
      rw [hdrop _ (by omega), ← hf, Nat.add_zero, hone] at he
      rw [← he]
      exact exponentLength_other (by decide) _
    have hstop : w + f + e = w := by omega
    have hname := hleftover (chr '.') (by rw [hstop, hone]; simp)
    revert hname
    decide
  have he' : exponentLength ((a ++ rest').drop (w + f)) = e := by
    rw [hdrop _ (by omega)] at he ⊢
    refine (exponentLength_append (by omega) (fun h => hends (by omega))
      fun b hb hmark hzero => ?_).trans he
    rw [he] at hzero
    refine hmarks b ?_ hmark
    rw [hzero, Nat.add_zero]
    exact List.mem_of_mem_head? hb
  refine ⟨by simp only [decimalLength, hw, hf, he, hw', hf', he'], ?_⟩
  simp only [hasFraction, hw, hf, he, hw', hf', he']

theorem decimalNumber_append (hs : Sees quiet rest rest')
    (hq : ∀ b, quiet b → isNameByte b = false) (hpoint : ¬ quiet (chr '.'))
    (hlen : 1 ≤ decimalLength (a ++ rest)) (hn : n + 1 = a.length)
    (h : decimalNumber (a ++ rest) = .token kind n) :
    decimalNumber (a ++ rest') = .token kind n := by
  obtain ⟨hle, hend⟩ := end_of_decimalNumber h hn hlen
  obtain ⟨hsame, hfraction⟩ := decimalLength_append hs hq hpoint hle hend
  have htail : (a.drop (decimalLength (a ++ rest))).length = a.length - decimalLength (a ++ rest) :=
    List.length_drop
  rw [decimalNumber_eq, hsame, hfraction, List.drop_append_of_le_length hle]
  rcases hend with ⟨x, hx, hsuffix, rfl⟩ | ⟨hrest, rfl, hinteger⟩
  · rw [hx] at htail
    simp only [hx, List.singleton_append, List.head?_cons, Option.any_some, hsuffix, if_true,
      Lexeme.token.injEq, true_and]
    simp only [List.length_singleton] at htail
    omega
  · have hrest' := hrest.of_sees hs hq
    have hnone : ¬ ((a.drop (decimalLength (a ++ rest)) ++ rest').head?.any isFloatSuffix) =
        true := by
      intro hany
      rcases hinteger with hnil | ⟨-, x, hx, hlong⟩
      · rw [hnil, List.nil_append] at hany
        cases rest' with
        | nil => cases hany
        | cons b bs =>
          have := hrest' b rfl
          rw [isNameByte_of_isFloatSuffix (by simpa using hany)] at this
          cases this
      · have hdisjoint : isFloatSuffix x = false := by
          simp only [isLongSuffix, Bool.or_eq_true, beq_iff_eq] at hlong
          rcases hlong with rfl | rfl <;> decide
        rw [hx] at hany
        simp [hdisjoint] at hany
    rw [if_neg hnone, closeNumber_of_tail hrest' hinteger, htail]
    congr 1
    omega

/-- The marks of numbers to the bases sixteen and two, behind a zero. -/
def isRadixMark (x : UInt8) : Bool := x == chr 'x' || x == chr 'X' || x == chr 'b' || x == chr 'B'

theorem number_eq_decimal (h : ∀ x, cs.head? = some x → ¬ (c = chr '0' ∧ isRadixMark x = true)) :
    number c cs = decimalNumber (c :: cs) := by
  unfold number
  cases cs with
  | nil => rfl
  | cons x rest =>
    have hx := h x rfl
    simp only [isRadixMark, Bool.or_eq_true, beq_iff_eq] at hx
    simp only [Bool.and_eq_true, Bool.or_eq_true, beq_iff_eq]
    rw [if_neg (by tauto), if_neg (by tauto)]

/-- Whether a byte is a digit of a number with the given mark. -/
def radixDigit (x : UInt8) : UInt8 → Bool :=
  if x == chr 'x' || x == chr 'X' then isHexDigit else fun b => b == chr '0' || b == chr '1'

theorem number_eq_radix (hc : c = chr '0') {x : UInt8} (hx : isRadixMark x = true) (rest : Text) :
    number c (x :: rest) = closeNumber false (2 + digitsLength (radixDigit x) rest)
      (rest.drop (digitsLength (radixDigit x) rest)) := by
  unfold number radixDigit
  by_cases hhex : (x == chr 'x' || x == chr 'X') = true
  · simp only [hc, hhex, beq_self_eq_true, Bool.and_true, if_true]
  · have hbin : (x == chr 'b' || x == chr 'B') = true := by
      simp only [isRadixMark, Bool.or_eq_true] at hx hhex ⊢
      tauto
    simp only [hc, hhex, hbin, beq_self_eq_true, Bool.and_false, Bool.and_true, if_true]
    rfl

theorem number_ne_openComment : number c cs ≠ .openComment := by
  unfold number
  cases cs with
  | nil => exact decimalNumber_ne_openComment
  | cons x rest =>
    simp only
    split_ifs
    · exact closeNumber_ne_openComment
    · exact closeNumber_ne_openComment
    · exact decimalNumber_ne_openComment

theorem isNameByte_of_isHexDigit (h : isHexDigit b = true) : isNameByte b = true := by
  simp only [isHexDigit, Bool.or_eq_true, Bool.and_eq_true, decide_eq_true_eq] at h
  rcases h with (h | ⟨hfirst, hlast⟩) | ⟨hfirst, hlast⟩
  · exact isNameByte_of_isDigit h
  · have hz : b ≤ chr 'z' := UInt8.le_trans hlast (by decide)
    simp [isNameByte, isNameStart, isLetter, hfirst, hz]
  · have hz : b ≤ chr 'Z' := UInt8.le_trans hlast (by decide)
    simp [isNameByte, isNameStart, isLetter, hfirst, hz]

theorem isNameByte_of_radixDigit (x : UInt8) :
    ∀ b, radixDigit x b = true → isNameByte b = true := by
  intro b hb
  unfold radixDigit at hb
  split_ifs at hb
  · exact isNameByte_of_isHexDigit hb
  · simp only [Bool.or_eq_true, beq_iff_eq] at hb
    rcases hb with rfl | rfl <;> decide

theorem isNameByte_of_isRadixMark {x : UInt8} (h : isRadixMark x = true) : isNameByte x = true := by
  simp only [isRadixMark, Bool.or_eq_true, beq_iff_eq] at h
  rcases h with ((rfl | rfl) | rfl) | rfl <;> decide

/-- Where a number can begin: at a digit, or at a point in front of one. -/
def StartsNumber (c : UInt8) (cs : Text) : Prop :=
  isDigit c = true ∨ c = chr '.' ∧ cs.head?.any isDigit = true

theorem StartsNumber.append (h : StartsNumber c more) (rest : Text) :
    StartsNumber c (more ++ rest) := by
  refine h.imp_right fun ⟨hc, hany⟩ => ⟨hc, ?_⟩
  obtain ⟨b, hb, hdigit⟩ := (Option.any_eq_true _ _).mp hany
  rw [List.head?_append, hb]
  exact hdigit

theorem decimalLength_pos (h : StartsNumber c cs) : 1 ≤ decimalLength (c :: cs) := by
  unfold decimalLength
  rcases h with h | ⟨rfl, h⟩
  · rw [digitsLength_cons_of_pos (by simp [h])]
    omega
  · rw [digitsLength_cons_of_neg (by decide), List.drop_zero, fractionLength_point]
    · omega
    · intro hpoint
      rw [hpoint] at h
      revert h
      decide

theorem two_le_decimalLength_point (h : cs.head?.any isDigit = true) :
    2 ≤ decimalLength (chr '.' :: cs) := by
  cases cs with
  | nil => cases h
  | cons x cs =>
    have hx : isDigit x = true := h
    have hpoint : (x :: cs).head? ≠ some (chr '.') := by
      rintro ⟨⟩
      revert hx
      decide
    unfold decimalLength
    rw [digitsLength_cons_of_neg (by decide), List.drop_zero, fractionLength_point hpoint,
      digitsLength_cons_of_pos (by simp [hx])]
    omega

theorem decimalLength_le (s : Text) : decimalLength s ≤ s.length := by
  unfold decimalLength
  have hwhole := digitsLength_le isDigit s
  have hfraction := fractionLength_le (s.drop (digitsLength isDigit s))
  have hexponent := exponentLength_le
    (s.drop (digitsLength isDigit s + fractionLength (s.drop (digitsLength isDigit s))))
  rw [List.length_drop] at hfraction hexponent
  omega

theorem le_of_number (h : number c cs = .token kind n) : n ≤ cs.length := by
  by_cases hmark : ∃ x rest, cs = x :: rest ∧ c = chr '0' ∧ isRadixMark x = true
  · obtain ⟨x, rest, rfl, hc, hx⟩ := hmark
    rw [number_eq_radix hc hx] at h
    have hle := (le_of_closeNumber h).2
    have hdigits := digitsLength_le (radixDigit x) rest
    rw [List.length_drop] at hle
    simp only [List.length_cons]
    omega
  · have hdecimal : number c cs = decimalNumber (c :: cs) := by
      refine number_eq_decimal fun x hx hcx => ?_
      cases cs with
      | nil => cases hx
      | cons y rest =>
        cases hx
        exact hmark ⟨x, rest, rfl, hcx⟩
    rw [hdecimal, decimalNumber_eq] at h
    have hlen := decimalLength_le (c :: cs)
    have hdrop : ((c :: cs).drop (decimalLength (c :: cs))).length =
        (c :: cs).length - decimalLength (c :: cs) := List.length_drop
    rw [List.length_cons] at hlen hdrop
    split_ifs at h with hsuffix
    · simp only [Lexeme.token.injEq] at h
      have hpos : (c :: cs).drop (decimalLength (c :: cs)) ≠ [] := by
        intro hnil
        rw [hnil] at hsuffix
        cases hsuffix
      have := List.length_pos_iff.mpr hpos
      omega
    · have hle := (le_of_closeNumber h).2
      omega

theorem end_of_radix {x : UInt8} {m : Text}
    (h : closeNumber false (2 + digitsLength (radixDigit x) (m ++ rest))
      ((m ++ rest).drop (digitsLength (radixDigit x) (m ++ rest))) = .token kind (m.length + 1)) :
    digitsLength (radixDigit x) (m ++ rest) ≤ m.length ∧ EndsName rest ∧ kind = .intLit ∧
      IsIntegerTail false (m.drop (digitsLength (radixDigit x) (m ++ rest))) := by
  have hle : digitsLength (radixDigit x) (m ++ rest) ≤ m.length := by
    have := le_of_closeNumber h
    omega
  have htail : (m.drop (digitsLength (radixDigit x) (m ++ rest))).length =
      m.length - digitsLength (radixDigit x) (m ++ rest) := List.length_drop
  rw [List.drop_append_of_le_length hle] at h
  exact ⟨hle, tail_of_closeNumber h (by omega) (by omega)⟩

theorem number_cases (h : number c (more ++ rest) = .token kind more.length) :
    (∃ x m, more = x :: m ∧ c = chr '0' ∧ isRadixMark x = true ∧
      closeNumber false (2 + digitsLength (radixDigit x) (m ++ rest))
        ((m ++ rest).drop (digitsLength (radixDigit x) (m ++ rest))) = .token kind (m.length + 1)) ∨
      (∀ x, (more ++ rest).head? = some x → ¬ (c = chr '0' ∧ isRadixMark x = true)) ∧
        decimalNumber (c :: more ++ rest) = .token kind more.length := by
  by_cases hmark : ∃ x m, more = x :: m ∧ c = chr '0' ∧ isRadixMark x = true
  · obtain ⟨x, m, rfl, hc, hx⟩ := hmark
    rw [List.cons_append, number_eq_radix hc hx] at h
    exact Or.inl ⟨x, m, rfl, hc, hx, h⟩
  · have hnone : ∀ x, (more ++ rest).head? = some x → ¬ (c = chr '0' ∧ isRadixMark x = true) := by
      intro x hx hcx
      cases more with
      | cons y m =>
        cases hx
        exact hmark ⟨x, m, rfl, hcx⟩
      | nil =>
        -- a mark behind a zero would belong to the number
        obtain ⟨rest, rfl⟩ := List.head?_eq_some_iff.mp hx
        rw [List.nil_append, number_eq_radix hcx.1 hcx.2] at h
        have := le_of_closeNumber h
        simp only [List.length_nil] at this
        omega
    exact Or.inr ⟨hnone, (number_eq_decimal hnone).symm.trans h⟩

/-- **A number** ends at the same byte with something else behind it. -/
theorem number_append (hs : Sees quiet rest rest') (hq : ∀ b, quiet b → isNameByte b = false)
    (hpoint : ¬ quiet (chr '.')) (hstart : StartsNumber c (more ++ rest))
    (h : number c (more ++ rest) = .token kind more.length) :
    number c (more ++ rest') = .token kind more.length := by
  rcases number_cases h with ⟨x, m, rfl, hc, hx, hclose⟩ | ⟨hnone, hdecimal⟩
  · obtain ⟨hle, hends, rfl, htail⟩ := end_of_radix hclose
    have hends' := hends.of_sees hs hq
    have hsame : digitsLength (radixDigit x) (m ++ rest') =
        digitsLength (radixDigit x) (m ++ rest) :=
      digitsLength_append (isNameByte_of_radixDigit x) hle fun _ => hends'
    have hlen : (m.drop (digitsLength (radixDigit x) (m ++ rest))).length =
        m.length - digitsLength (radixDigit x) (m ++ rest) := List.length_drop
    rw [List.cons_append, number_eq_radix hc hx, hsame, List.drop_append_of_le_length hle,
      closeNumber_of_tail hends' htail, hlen, List.length_cons]
    have harith : 2 + digitsLength (radixDigit x) (m ++ rest) +
        (m.length - digitsLength (radixDigit x) (m ++ rest)) - 1 = m.length + 1 := by omega
    rw [harith]
    rfl
  · rw [number_eq_decimal]
    · exact decimalNumber_append (a := c :: more) hs hq hpoint (decimalLength_pos hstart) rfl
        hdecimal
    · intro x hx hcx
      cases more with
      | cons y m => exact hnone x hx hcx
      | nil =>
        rcases hs.head x hx with hx | hx
        · exact hnone x hx hcx
        · have := hq x hx
          rw [isNameByte_of_isRadixMark hcx.2] at this
          cases this

/-! ### The bytes of a number -/

/-- A byte that can stand in a number. -/
def isNumeric (b : UInt8) : Bool := isNameByte b || b == chr '.' || b == chr '+' || b == chr '-'

theorem isNumeric_of_isNameByte (h : isNameByte b = true) : isNumeric b = true := by
  simp [isNumeric, h]

theorem take_digitsLength (isOk : UInt8 → Bool) (s : Text) :
    s.take (digitsLength isOk s) = s.takeWhile fun b => isOk b || b == chr '_' :=
  (List.prefix_iff_eq_take.mp (List.takeWhile_prefix _)).symm

theorem isNameByte_of_mem_digits (hok : ∀ b, isOk b = true → isNameByte b = true) {s : Text}
    (hb : b ∈ s.take (digitsLength isOk s)) : isNameByte b = true := by
  rw [take_digitsLength] at hb
  have hdigit := List.mem_takeWhile_imp hb
  exact isNameByte_of_digit hok hdigit

theorem isNumeric_of_mem_fraction {s : Text} (hb : b ∈ s.take (fractionLength s)) :
    isNumeric b = true := by
  cases s with
  | nil => simp at hb
  | cons x s =>
    by_cases hx : x = chr '.' ∧ s.head? ≠ some (chr '.')
    · obtain ⟨rfl, hs⟩ := hx
      rw [fractionLength_point hs, Nat.add_comm, List.take_succ_cons] at hb
      rcases List.mem_cons.mp hb with rfl | hb
      · decide
      · exact isNumeric_of_isNameByte (isNameByte_of_mem_digits (fun _ => isNameByte_of_isDigit) hb)
    · have hzero : fractionLength (x :: s) = 0 := by
        by_cases hpoint : x = chr '.'
        · subst hpoint
          exact fractionLength_two_points (by simpa using hx)
        · exact fractionLength_other hpoint
      rw [hzero] at hb
      cases hb

theorem isNumeric_of_mem_exponent {s : Text} (hb : b ∈ s.take (exponentLength s)) :
    isNumeric b = true := by
  cases s with
  | nil => simp at hb
  | cons x s =>
    by_cases hx : (x == chr 'e' || x == chr 'E') = true
    · rw [exponentLength_mark hx] at hb
      split_ifs at hb
      · cases hb
      have hsign : ∀ b ∈ s.take (signLength s), isNumeric b = true := by
        intro b hb
        cases s with
        | nil => cases hb
        | cons y s =>
          simp only [signLength] at hb
          split_ifs at hb with hy
          · obtain rfl : b = y := by simpa using hb
            simp only [Bool.or_eq_true] at hy
            rcases hy with hy | hy <;> simp [isNumeric, hy]
          · cases hb
      rw [show 1 + signLength s + digitsLength isDigit (s.drop (signLength s)) =
        (signLength s + digitsLength isDigit (s.drop (signLength s))) + 1 by omega,
        List.take_succ_cons, List.take_add] at hb
      rcases List.mem_cons.mp hb with rfl | hb
      · exact isNumeric_of_isNameByte (isNameByte_of_mark hx)
      rcases List.mem_append.mp hb with hb | hb
      · exact hsign b hb
      · exact isNumeric_of_isNameByte (isNameByte_of_mem_digits (fun _ => isNameByte_of_isDigit) hb)
    · rw [exponentLength_other hx] at hb
      cases hb

theorem isNumeric_of_mem_decimal {s : Text} (hb : b ∈ s.take (decimalLength s)) :
    isNumeric b = true ∧ (hasFraction s = false → isNameByte b = true) := by
  unfold decimalLength at hb
  unfold hasFraction
  have hdigits : ∀ b ∈ s.take (digitsLength isDigit s), isNameByte b = true :=
    fun b hb => isNameByte_of_mem_digits (fun _ => isNameByte_of_isDigit) hb
  rw [List.take_add, List.take_add] at hb
  rcases List.mem_append.mp hb with hb | hb
  · rcases List.mem_append.mp hb with hb | hb
    · exact ⟨isNumeric_of_isNameByte (hdigits b hb), fun _ => hdigits b hb⟩
    · refine ⟨isNumeric_of_mem_fraction hb, fun hzero => ?_⟩
      simp only [Bool.or_eq_false_iff, decide_eq_false_iff_not, Nat.not_lt, Nat.le_zero] at hzero
      rw [hzero.1] at hb
      cases hb
  · refine ⟨isNumeric_of_mem_exponent hb, fun hzero => ?_⟩
    simp only [Bool.or_eq_false_iff, decide_eq_false_iff_not, Nat.not_lt, Nat.le_zero] at hzero
    rw [hzero.2] at hb
    cases hb

/-- No byte of a name follows a number, unless the number ends with the suffix of a floating-point
one. -/
theorem end_of_number (hstart : StartsNumber c (more ++ rest))
    (h : number c (more ++ rest) = .token kind more.length) :
    EndsName rest ∨ kind = .floatLit ∧ ∃ x, (c :: more).getLast? = some x ∧
    isFloatSuffix x = true := by
  rcases number_cases h with ⟨x, m, rfl, -, -, hclose⟩ | ⟨-, hdecimal⟩
  · exact Or.inl (end_of_radix hclose).2.1
  · obtain ⟨-, ⟨x, hx, hsuffix, hkind⟩ | ⟨hends, -⟩⟩ :=
      end_of_decimalNumber (a := c :: more) hdecimal rfl (decimalLength_pos hstart)
    · refine Or.inr ⟨hkind, x, ?_, hsuffix⟩
      rw [← List.take_append_drop (decimalLength (c :: more ++ rest)) (c :: more), hx,
        List.getLast?_concat]
    · exact Or.inl hends

theorem bytes_of_number (hstart : StartsNumber c (more ++ rest))
    (h : number c (more ++ rest) = .token kind more.length) :
    (kind = .intLit ∧ ∀ b ∈ c :: more, isNameByte b = true) ∨
      kind = .floatLit ∧ ∀ b ∈ c :: more, isNumeric b = true := by
  rcases number_cases h with ⟨x, m, rfl, hc, hx, hclose⟩ | ⟨-, hdecimal⟩
  · obtain ⟨hle, -, hkind, htail⟩ := end_of_radix hclose
    refine Or.inl ⟨hkind, fun b hb => ?_⟩
    rcases List.mem_cons.mp hb with rfl | hb
    · rw [hc]
      decide
    rcases List.mem_cons.mp hb with rfl | hb
    · exact isNameByte_of_isRadixMark hx
    rw [← List.take_append_drop (digitsLength (radixDigit x) (m ++ rest)) m] at hb
    rcases List.mem_append.mp hb with hb | hb
    · refine isNameByte_of_mem_digits (s := m ++ rest) (isNameByte_of_radixDigit x) ?_
      rwa [List.take_append_of_le_length hle]
    · rcases htail with hnil | ⟨-, y, hy, hlong⟩
      · rw [hnil] at hb
        cases hb
      · rw [hy, List.mem_singleton] at hb
        rw [hb]
        exact isNameByte_of_isLongSuffix hlong
  · obtain ⟨hle, hend⟩ :=
      end_of_decimalNumber (a := c :: more) hdecimal rfl (decimalLength_pos hstart)
    have hbytes : ∀ b ∈ c :: more, isNumeric b = true ∧
        (hasFraction (c :: more ++ rest) = false → isNameByte b = true) := by
      intro b hb
      rw [← List.take_append_drop (decimalLength (c :: more ++ rest)) (c :: more)] at hb
      rcases List.mem_append.mp hb with hb | hb
      · refine isNumeric_of_mem_decimal ?_
        rwa [List.take_append_of_le_length hle]
      · have hname := hend.isNameByte_of_mem hb
        exact ⟨isNumeric_of_isNameByte hname, fun _ => hname⟩
    rcases hend with ⟨-, -, -, hkind⟩ | ⟨-, hkind, -⟩
    · exact Or.inr ⟨hkind, fun b hb => (hbytes b hb).1⟩
    · unfold numberKind at hkind
      split_ifs at hkind with hfraction
      · exact Or.inr ⟨hkind, fun b hb => (hbytes b hb).1⟩
      · exact Or.inl ⟨hkind, fun b hb => (hbytes b hb).2 (by simpa using hfraction)⟩

end Numbers

end Lexeme

end Unnest
