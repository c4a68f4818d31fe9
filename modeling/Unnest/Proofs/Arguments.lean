import Unnest.Command.Options
import Mathlib

/-!
# Values of options

The value of an option stands in the next argument or in the same one. Both ways of writing it mean
the same at every place where the reading comes to an option (`Options.ComesTo`), whatever the value
looks like: an argument is taken for the value of the option in front of it before its own form is
looked at, and the option joined with its value begins like no other argument.

* `ValueOption.joined`: an option with its value in the same argument, `ArgForm.ofText_joined`: its
  form;
* `Options.ofArgs_joined`: the two ways of writing a value.
-/

namespace Unnest

/-! ### Words that begin differently -/

/-- Neither of two texts begins with the other one. -/
def Text.Apart (s t : Text) : Prop := ¬ s <+: t ∧ ¬ t <+: s

instance (s t : Text) : Decidable (Text.Apart s t) := inferInstanceAs (Decidable (_ ∧ _))

namespace Text.Apart

variable {word front : Text} (h : Apart word front) (v : Text)
include h

theorem beq_append : (front ++ v == word) = false := by
  refine beq_eq_false_iff_ne.mpr fun heq => h.2 ?_
  rw [← heq]
  exact List.prefix_append front v

theorem dropFront?_append : dropFront? word (front ++ v) = none := by
  refine if_neg fun hword => ?_
  rw [ List.isPrefixOf_iff_prefix] at hword
  rcases List.prefix_or_prefix_of_prefix hword (List.prefix_append front v) with hword | hfront
  · exact h.1 hword
  · exact h.2 hfront

end Text.Apart

theorem Text.dropFront?_self_append (front v : Text) : dropFront? front (front ++ v) = some v := by
  have hfront : front.isPrefixOf (front ++ v) = true := by simp
  rw [dropFront?, if_pos hfront, List.drop_left]

/-! ### The form of an option with its value -/

namespace ValueOption

/-- What stands between an option and a value in the same argument. -/
def separator (option : ValueOption) : Text := if option.isLong then [chr '='] else []

/-- An option with its value in the same argument. -/
def joined (option : ValueOption) (v : Text) : Text := option.spelling ++ option.separator ++ v

theorem attached?_joined {option : ValueOption} {v : Text} (hv : option.isLong = true ∨ v ≠ []) :
    option.attached? (option.joined v) = some (some v) := by
  rw [attached?, joined, List.append_assoc, Text.dropFront?_self_append, separator]
  cases hlong : option.isLong with
  | true => simp
  | false =>
    rw [hlong] at hv
    obtain ⟨b, bs, rfl⟩ := List.exists_cons_of_ne_nil (hv.resolve_left Bool.false_ne_true)
    simp

theorem attached?_joined_of_ne {option other : ValueOption} (h : other ≠ option) (v : Text) :
    other.attached? (option.joined v) = none := by
  have hapart : Text.Apart other.spelling (option.spelling ++ option.separator) := by
    revert h
    cases other <;> cases option <;> decide
  rw [attached?, joined, hapart.dropFront?_append]

end ValueOption

namespace ArgForm

variable {option : ValueOption} {v : Text}

/-- The words that an argument is compared with before the options with a value. -/
def firstWords : List Text :=
  [lit "-h", lit "--help", lit "--metrics", lit "--metrics=", lit "--color", lit "--color="]

theorem ofText_of_apart {front : Text} (h : ∀ word ∈ firstWords, Text.Apart word front) (v : Text) :
    ofText (front ++ v) = (ofValueOption? (front ++ v)).getD (ofWord (front ++ v)) := by
  simp only [firstWords, List.forall_mem_cons, List.not_mem_nil, false_imp_iff, implies_true,
    and_true] at h
  obtain ⟨hh, hhelp, hmetrics, hformat, hcolor, hmode⟩ := h
  rw [ofText, hh.beq_append, hhelp.beq_append, hmetrics.beq_append, hformat.dropFront?_append,
    hcolor.beq_append, hmode.dropFront?_append]
  rfl

theorem ofValueOption?_joined (hv : option.isLong = true ∨ v ≠ []) :
    ofValueOption? (option.joined v) = some (.value option (some v)) := by
  have hself := ValueOption.attached?_joined hv
  have hother := fun {other : ValueOption} (h : other ≠ option) =>
    ValueOption.attached?_joined_of_ne h v
  cases option <;> simp [ofValueOption?, ValueOption.all, hself, hother]

/-- **An option with its value** in the same argument is taken for nothing else. -/
theorem ofText_joined (hv : option.isLong = true ∨ v ≠ []) :
    ofText (option.joined v) = .value option (some v) := by
  have hapart : ∀ word ∈ firstWords, Text.Apart word (option.spelling ++ option.separator) := by
    cases option <;> decide
  have hvalue := ofValueOption?_joined hv
  rw [ValueOption.joined] at hvalue ⊢
  rw [ofText_of_apart hapart, hvalue, Option.getD_some]

theorem ofText_spelling (option : ValueOption) : ofText option.spelling = .value option none := by
  cases option <;> decide

/-- Whether an argument of this form is carried out without a look at the arguments behind it. -/
def standsAlone : ArgForm → Bool
  | .endOfOptions => false
  | .value _ none => false
  | _ => true

end ArgForm

/-! ### Rounds of the reading -/

namespace Options

variable {o : Options} {option : ValueOption} {arg v : Text} {front tail tail' rest : List Text}

theorem readArgs_of_separate (hform : ArgForm.ofText arg = .value option none) :
    (∀ o', o.setValue option v = .ok o' → o.readArgs (arg :: v :: rest) = o'.readArgs rest) ∧
    ∀ e, o.setValue option v = .error e → o.readArgs (arg :: v :: rest) = (o, some e) := by
  rw [readArgs.eq_def]
  simp only [hform]
  exact ⟨fun o' hset => by rw [hset], fun e hset => by rw [hset]⟩

theorem readArgs_of_alone (hform : (ArgForm.ofText arg).standsAlone = true) :
    (∀ o', o.setForm arg (ArgForm.ofText arg) = .ok o' →
      o.readArgs (arg :: rest) = o'.readArgs rest) ∧
    ∀ e, o.setForm arg (ArgForm.ofText arg) = .error e →
      o.readArgs (arg :: rest) = (o, some e) := by
  rw [readArgs.eq_def]
  dsimp only
  split
  · next hkind => simp [hkind, ArgForm.standsAlone] at hform
  · next hkind => simp [hkind, ArgForm.standsAlone] at hform
  · next hkind => simp [hkind, ArgForm.standsAlone] at hform
  · exact ⟨fun o' hset => by rw [hset], fun e hset => by rw [hset]⟩

/-- The reading of arguments comes to the arguments `tail`: they are left at the start of some
round. -/
inductive ComesTo (tail : List Text) : Options → List Text → Prop
  | here (o : Options) : ComesTo tail o tail
  | alone {o o' : Options} {arg : Text} {rest : List Text}
      (hform : (ArgForm.ofText arg).standsAlone = true)
    (hset : o.setForm arg (ArgForm.ofText arg) = .ok o') (h : ComesTo tail o' rest) :
    ComesTo tail o (arg :: rest)
  | separate {o o' : Options} {option : ValueOption} {arg v : Text} {rest : List Text}
    (hform : ArgForm.ofText arg = .value option none) (hset : o.setValue option v = .ok o')
    (h : ComesTo tail o' rest) : ComesTo tail o (arg :: v :: rest)

/-- What stands at a place that the reading comes to can be replaced by anything that is read alike
there. -/
theorem ComesTo.readArgs_append {args : List Text} (h : ComesTo tail o args)
    (htail : ∀ o : Options, o.readArgs tail' = o.readArgs tail) :
    ∃ front, args = front ++ tail ∧ o.readArgs (front ++ tail') = o.readArgs args := by
  induction h with
  | here o => exact ⟨[], rfl, htail o⟩
  | @alone o o' arg rest hform hset _ ih =>
    obtain ⟨front, rfl, hread⟩ := ih
    refine ⟨arg :: front, rfl, ?_⟩
    rw [List.cons_append, (readArgs_of_alone hform).1 _ hset, (readArgs_of_alone hform).1 _ hset]
    exact hread
  | @separate o o' option arg v rest hform hset _ ih =>
    obtain ⟨front, rfl, hread⟩ := ih
    refine ⟨arg :: v :: front, rfl, ?_⟩
    rw [List.cons_append, List.cons_append, (readArgs_of_separate hform).1 _ hset,
      (readArgs_of_separate hform).1 _ hset]
    exact hread

theorem readArgs_joined (hv : option.isLong = true ∨ v ≠ []) (o : Options) (rest : List Text) :
    o.readArgs (option.joined v :: rest) = o.readArgs (option.spelling :: v :: rest) := by
  have hspelling := ArgForm.ofText_spelling option
  have hjoined := ArgForm.ofText_joined hv
  have halone : (ArgForm.ofText (option.joined v)).standsAlone = true := by rw [hjoined]; rfl
  have hsame : o.setForm (option.joined v) (ArgForm.ofText (option.joined v)) =
      o.setValue option v := by
    rw [hjoined]
    rfl
  cases hset : o.setValue option v with
  | ok o' => rw [(readArgs_of_separate hspelling).1 o' hset,
    (readArgs_of_alone halone).1 o' (hsame.trans hset)]
  | error e => rw [(readArgs_of_separate hspelling).2 e hset,
    (readArgs_of_alone halone).2 e (hsame.trans hset)]

/-- **Values of options**. Where the reading of the arguments comes to an option and its value is
the next argument, the options read and the error found, if there is one, are the same when the
value stands in the same argument; a short option needs a value that is not empty for that. -/
theorem ofArgs_joined
    (hplace : ComesTo (option.spelling :: v :: rest) {} (front ++ option.spelling :: v :: rest))
    (hv : option.isLong = true ∨ v ≠ []) :
    ofArgs (front ++ option.joined v :: rest) = ofArgs (front ++ option.spelling :: v :: rest) := by
  obtain ⟨front', hfront, hread⟩ := hplace.readArgs_append (readArgs_joined hv · rest)
  rw [List.append_left_inj] at hfront
  rw [ofArgs, ofArgs, hfront, hread, hfront]

/-- A value that looks like the end of the options, behind a value that looks like an option. -/
theorem ofArgs_joined_dashes :
    ComesTo [lit "-o", lit "--", lit "-j", lit "x"] {}
      ([lit "A.java", lit "--out-dir", lit "-o"] ++ [lit "-o", lit "--", lit "-j", lit "x"]) ∧
    ofArgs [lit "A.java", lit "--out-dir", lit "-o", lit "-o--", lit "-j", lit "x"] =
      ofArgs [lit "A.java", lit "--out-dir", lit "-o", lit "-o", lit "--", lit "-j", lit "x"] ∧
    ofArgs [lit "A.java", lit "--out-dir", lit "-o", lit "-o--", lit "-j", lit "x"] =
      ({ inputs := [lit "A.java"], output := lit "--", outDir := lit "-o" },
        some (.badJobs (lit "x") .notADigit)) := by
  have hplace : ComesTo [lit "-o", lit "--", lit "-j", lit "x"] {}
      ([lit "A.java", lit "--out-dir", lit "-o"] ++ [lit "-o", lit "--", lit "-j", lit "x"]) :=
    .alone (by decide) rfl (.separate (ArgForm.ofText_spelling .outDir) rfl (.here _))
  exact ⟨hplace, @ofArgs_joined .output _ _ _ hplace (Or.inr (by decide)), by decide⟩

end Options

end Unnest
