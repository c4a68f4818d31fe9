import Unnest.Proofs.Arguments

/-!
# Which texts are counts

A count is read digit by digit, and the reading stops as soon as the number is too large. What it
holds in between is the value of the digits in front (`Count.readDigits_eq_ok_iff`); leading zeros
keep this at zero for as long as they go on, and later digits never make it smaller, so nothing is
refused too early. Since the number held is at most the limit whenever a digit is added, words of 64
bits have room for every product and every sum.

* `Count.value`: the number that a text of digits stands for;
* `Count.readWord?`: the same reading, without a result when a step overflows;
* `Count.ofText_reads_positive_decimal`: which texts are counts, and what becomes of the options.
-/

namespace Unnest.Count

/-! ### The value of digits -/

/-- The number that a digit stands for. -/
def digit (b : UInt8) : Nat := (b - chr '0').toNat

/-- The number that digits stand for in decimal. -/
def value (s : Text) : Nat := Nat.ofDigits 10 (s.reverse.map digit)

theorem digit_le_nine {b : UInt8} (h : isDigit b = true) : digit b ≤ 9 := by
  have hzero : (chr '0').toNat = 48 := rfl
  have hnine : (chr '9').toNat = 57 := rfl
  simp only [isDigit, Bool.and_eq_true, decide_eq_true_eq, UInt8.le_iff_toNat_le, hzero, hnine] at h
  rw [digit, UInt8.toNat_sub_of_le _ _ (by rw [UInt8.le_iff_toNat_le, hzero]; exact h.1), hzero]
  omega

theorem value_concat (front : Text) (b : UInt8) :
    value (front ++ [b]) = value front * 10 + digit b := by
  rw [value, List.reverse_append, List.reverse_singleton, List.singleton_append, List.map_cons,
    Nat.ofDigits_cons, Nat.add_comm, Nat.mul_comm]
  rfl

theorem value_le_value_append (front s : Text) : value front ≤ value (front ++ s) := by
  induction s generalizing front with
  | nil => rw [List.append_nil]
  | cons b s ih =>
    calc value front ≤ value front * 10 + digit b := by omega
      _ = value (front ++ [b]) := (value_concat front b).symm
      _ ≤ value (front ++ [b] ++ s) := ih (front ++ [b])
      _ = value (front ++ b :: s) := by rw [List.append_assoc, List.singleton_append]

/-! ### Words -/

/-- The number as a signed word of 64 bits, if there is one. -/
def word? (x : Int) : Option Int64 :=
  if Int64.minValue.toInt ≤ x ∧ x ≤ Int64.maxValue.toInt then some (Int64.ofInt x) else none

/-- The word behind a digit, with `value` in front of it; both the product and the sum have to be
words. -/
def pushWord? (value : Int64) (b : UInt8) : Option Int64 :=
  (word? (value.toInt * 10)).bind fun tenfold => word? (tenfold.toInt + digit b)

/-- Reads digits behind the word `value`; there is no result if a word overflows at some step. -/
def readWord? (value : Int64) : Text → Option (Except Problem Int64)
  | [] => some (.ok value)
  | b :: bs =>
    if !isDigit b then some (.error .notADigit)
    else (pushWord? value b).bind fun next =>
      if limit < next then some (.error .tooLarge) else readWord? next bs

theorem toInt_ofNat {n : Nat} (h : n ≤ 21474836479) : (Int64.ofNat n).toInt = n :=
  Int64.toInt_ofNat_of_lt (by omega)

theorem word?_natCast {n : Nat} (h : n ≤ 21474836479) : word? n = some (Int64.ofNat n) := by
  have hmin : Int64.minValue.toInt = -9223372036854775808 := rfl
  have hmax : Int64.maxValue.toInt = 9223372036854775807 := rfl
  rw [word?, if_pos (by omega)]
  rfl

theorem limit_lt_ofNat {n : Nat} (h : n ≤ 21474836479) :
    limit < Int64.ofNat n ↔ 2147483647 < n := by
  have hlimit : limit.toInt = 2147483647 := rfl
  rw [Int64.lt_iff_toInt_lt, toInt_ofNat h, hlimit]
  omega

theorem pushWord?_ofNat {n : Nat} {b : UInt8} (hn : n ≤ 2147483647) (hb : isDigit b = true) :
    pushWord? (Int64.ofNat n) b = some (Int64.ofNat (n * 10 + digit b)) ∧
    n * 10 + digit b ≤ 21474836479 := by
  have hdigit := digit_le_nine hb
  have hproduct : word? ((Int64.ofNat n).toInt * 10) = some (Int64.ofNat (n * 10)) := by
    rw [toInt_ofNat (by omega), ← word?_natCast (by omega)]
    push_cast
    rfl
  refine ⟨?_, by omega⟩
  rw [pushWord?, hproduct, Option.bind_some, toInt_ofNat (by omega), ← word?_natCast (by omega)]
  push_cast
  rfl

theorem pushDigit_ofNat (n : Nat) (b : UInt8) :
    pushDigit (Int64.ofNat n) b = Int64.ofNat (n * 10 + digit b) := by
  rw [Int64.ofNat_add, Int64.ofNat_mul]
  rfl

/-- **No step overflows** behind digits within the limit. -/
theorem readWord?_eq (front : Text) (hfront : value front ≤ 2147483647) (s : Text) :
    readWord? (Int64.ofNat (value front)) s = some (readDigits (Int64.ofNat (value front)) s) := by
  induction s generalizing front with
  | nil => rfl
  | cons b s ih =>
    rw [readWord?, readDigits, pushDigit_ofNat]
    cases hb : isDigit b with
    | false => rfl
    | true =>
      obtain ⟨hword, hbound⟩ := pushWord?_ofNat hfront hb
      rw [hword, ← value_concat, Option.bind_some]
      rw [← value_concat] at hbound
      simp only [limit_lt_ofNat hbound]
      split_ifs with hfalse hlarge
      · cases hfalse
      · rfl
      · exact ih _ (Nat.not_lt.mp hlarge)

/-! ### The reading -/

/-- **The reading behind some digits**: it holds their value, and it succeeds if only digits follow
and the number of all of them is within the limit. -/
theorem readDigits_eq_ok_iff (front s : Text) {w : Int64} (hfront : value front ≤ 2147483647) :
    readDigits (Int64.ofNat (value front)) s = .ok w ↔
      (∀ b ∈ s, isDigit b = true) ∧ w = Int64.ofNat (value (front ++ s)) ∧
      value (front ++ s) ≤ 2147483647 := by
  induction s generalizing front with
  | nil =>
    rw [readDigits, List.append_nil, Except.ok.injEq]
    constructor
    · rintro rfl
      exact ⟨by simp, rfl, hfront⟩
    · exact fun h => h.2.1.symm
  | cons b s ih =>
    have happend : front ++ [b] ++ s = front ++ b :: s := by
      rw [List.append_assoc, List.singleton_append]
    rw [readDigits, List.forall_mem_cons, pushDigit_ofNat, ← value_concat]
    cases hb : isDigit b with
    | false => simp
    | true =>
      have hbound := (pushWord?_ofNat hfront hb).2
      rw [← value_concat] at hbound
      rw [Bool.not_true, if_neg Bool.false_ne_true]
      simp only [limit_lt_ofNat hbound]
      split
      · next hlarge =>
        -- the digits that follow cannot bring the number back below the limit
        refine iff_of_false (by simp) fun h => ?_
        have hle := value_le_value_append (front ++ [b]) s
        rw [happend] at hle
        exact absurd (hle.trans h.2.2) (Nat.not_le.mpr hlarge)
      · next hsmall =>
        rw [ih _ (Nat.not_lt.mp hsmall), happend]
        simp

theorem ofText_eq_ok_iff {s : Text} {n : Nat} :
    ofText s = .ok n ↔ s ≠ [] ∧ (∀ b ∈ s, isDigit b = true) ∧ n = value s ∧ 1 ≤ n ∧
    n ≤ 2147483647 := by
  have hread := fun w => readDigits_eq_ok_iff [] s (w := w) (Nat.zero_le _)
  cases s with
  | nil => simp [ofText, throw, throwThe, MonadExceptOf.throw, bind, Except.bind]
  | cons b s =>
    have htext : ofText (b :: s) = (readDigits 0 (b :: s)).bind fun w =>
        if w = 0 then .error .zero else .ok w.toNatClampNeg := rfl
    rw [htext]
    cases hdigits : readDigits 0 (b :: s) with
    | error problem =>
      refine iff_of_false (by simp [Except.bind]) ?_
      rintro ⟨-, hall, rfl, -, hle⟩
      have hok := (hread _).mpr ⟨hall, rfl, hle⟩
      cases hdigits.symm.trans hok
    | ok w =>
      obtain ⟨hall, rfl, hle⟩ := (hread w).mp hdigits
      rw [List.nil_append] at hle ⊢
      have hnat : (Int64.ofNat (value (b :: s))).toNatClampNeg = value (b :: s) := by
        rw [Int64.toNatClampNeg, toInt_ofNat (by omega), Int.toNat_natCast]
      have hzero : Int64.ofNat (value (b :: s)) = 0 ↔ value (b :: s) = 0 := by
        rw [← Int64.toInt_inj, toInt_ofNat (by omega)]
        exact Int.natCast_eq_zero
      simp only [Except.bind, hzero, hnat]
      split_ifs with hvalue
      · refine iff_of_false (by simp) ?_
        rintro ⟨-, -, rfl, hpos, -⟩
        omega
      · rw [Except.ok.injEq]
        constructor
        · rintro rfl
          exact ⟨List.cons_ne_nil _ _, hall, rfl, Nat.pos_of_ne_zero hvalue, hle⟩
        · exact fun h => h.2.2.1.symm

/-! ### Counts among the arguments -/

theorem readArgs_jobs (o : Options) (s : Text) (rest : List Text) :
    (∀ n, ofText s = .ok n → o.readArgs (lit "-j" :: s :: rest) =
      { o with jobs := n }.readArgs rest) ∧
    ∀ problem, ofText s = .error problem →
      o.readArgs (lit "-j" :: s :: rest) = (o, some (.badJobs s problem)) := by
  have hread :=
    @Options.readArgs_of_separate o .jobs (lit "-j") s rest (ArgForm.ofText_spelling .jobs)
  exact ⟨fun n hn => hread.1 _ (by rw [Options.setValue, hn]),
    fun problem hproblem => hread.2 _ (by rw [Options.setValue, hproblem])⟩

/-- **Counts**. A text is a count exactly if it consists of digits, at least one, whose value is
positive and fits a signed word of 32 bits; the count is this value. As a number of jobs a count is
noted in the options, and a text that is none leaves them as they are. However long the text is, no
step of the reading overflows a signed word of 64 bits. -/
theorem ofText_reads_positive_decimal (s : Text) :
    (∀ n, ofText s = .ok n ↔
      s ≠ [] ∧ (∀ b ∈ s, isDigit b = true) ∧ n = value s ∧ 1 ≤ n ∧ n ≤ 2147483647) ∧
    (∀ (o : Options) (rest : List Text),
      (∀ n, ofText s = .ok n → o.readArgs (lit "-j" :: s :: rest) =
        { o with jobs := n }.readArgs rest) ∧
      ∀ problem, ofText s = .error problem →
        o.readArgs (lit "-j" :: s :: rest) = (o, some (.badJobs s problem))) ∧
    readWord? 0 s = some (readDigits 0 s) := by
  exact ⟨fun n => ofText_eq_ok_iff, fun o rest => readArgs_jobs o s rest,
    readWord?_eq [] (by decide) s⟩

/-- Leading zeros are no part of the value, and one step beyond the limit is too far. -/
example : ofText (lit "00000000000000000000002147483647") = .ok 2147483647 ∧
    ofText (lit "2147483648") = .error .tooLarge ∧ ofText (lit "000") = .error .zero := by decide

end Unnest.Count
