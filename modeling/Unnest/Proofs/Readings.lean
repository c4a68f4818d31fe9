import Unnest.Token.Scan
import Unnest.Proofs.Lookahead
import Mathlib.Data.List.Induction

/-!
# Readings of a lexer

Sources are pushed and read in any order. A reading that succeeds closes its tokens with one token
of the kind `eof`, and scanned text gives no other token of this kind. A reading that fails keeps
the tokens in front of the failure, and until the next source is pushed every further reading gives
these tokens, which are not closed at all.

* `Lexer.after`: the lexer after any calls, one after the other;
* `Lexer.FailedLast`: the last reading failed, and nothing was pushed since;
* `Lexer.closedOnce_iff_not_failedLast`: which readings are closed.
-/

namespace Unnest

/-- The tokens end with a token of the kind `eof` and hold no other one. -/
def ClosedOnce (tokens : List Token) : Prop :=
  ∃ ts last, tokens = ts ++ [last] ∧ last.kind = .eof ∧ ∀ t ∈ ts, t.kind ≠ .eof

/-- No token is of the kind `eof`. -/
def Unclosed (tokens : List Token) : Prop := ∀ t ∈ tokens, t.kind ≠ .eof

instance (tokens : List Token) : Decidable (Unclosed tokens) :=
  inferInstanceAs (Decidable (∀ t ∈ tokens, t.kind ≠ .eof))

theorem Unclosed.append {ts us : List Token} (hts : Unclosed ts) (hus : Unclosed us) :
    Unclosed (ts ++ us) :=
  List.forall_mem_append.mpr ⟨hts, hus⟩

theorem ClosedOnce.append {ts us : List Token} (hts : Unclosed ts) (hus : ClosedOnce us) :
    ClosedOnce (ts ++ us) := by
  obtain ⟨us, last, rfl, hlast, hus⟩ := hus
  exact ⟨ts ++ us, last, by rw [List.append_assoc], hlast, hts.append hus⟩

theorem Unclosed.not_closedOnce {ts : List Token} (h : Unclosed ts) : ¬ ClosedOnce ts := by
  rintro ⟨us, last, rfl, hlast, -⟩
  exact h last (by simp) hlast

/-! ### One source -/

/-- Neither a token of the line nor the comment that is open at its end is of the kind `eof`. -/
structure LineScan.Unclosed (scan : LineScan) : Prop where
  tokens : Unnest.Unclosed scan.tokens
  pending : ∀ t, scan.ending = .inComment t → t.kind ≠ .eof

section Scanning

variable {file : Text} {line : Nat} {scan : LineScan} {t : Token}

theorem LineScan.Unclosed.cons (h : scan.Unclosed) (ht : t.kind ≠ .eof) :
    (scan.cons t).Unclosed where
  tokens := List.forall_mem_cons.mpr ⟨ht, h.tokens⟩
  pending := h.pending

theorem scanFrom_unclosed (skip : Nat) (space : Bool) (col : Nat) (s : Text) :
    (scanFrom file line skip space col s).Unclosed := by
  induction s generalizing skip space col with
  | nil => exact ⟨by simp [scanFrom, Unclosed], by simp [scanFrom]⟩
  | cons c cs ih =>
    cases skip with
    | succ skip => exact ih skip space (col + 1)
    | zero =>
      rw [scanFrom]
      split_ifs
      · exact ih 0 true (col + 1)
      split
      · next kind more hlexeme =>
          exact (ih more false (col + 1)).cons (Lexeme.kind_ne_eof_of_lexeme hlexeme)
      · refine ⟨by simp [Unclosed], ?_⟩
        rintro _ ⟨⟩
        simp
      · exact ⟨by simp [Unclosed], by simp⟩

theorem scanLine_unclosed {pending : Option Token}
    (hpending : ∀ t, pending = some t → t.kind ≠ .eof) (s : Text) :
    (scanLine file line pending s).Unclosed := by
  unfold scanLine
  split
  · exact scanFrom_unclosed 0 true 1 s
  next comment =>
  have hcomment := hpending comment rfl
  split
  · refine ⟨by simp [Unclosed], ?_⟩
    rintro _ ⟨⟩
    exact hcomment
  · next inside _ => exact (scanFrom_unclosed (inside + 2) true 1 s).cons hcomment

theorem scanLines_unclosed {pending : Option Token}
    (hpending : ∀ t, pending = some t → t.kind ≠ .eof) (ls : List Text) :
    Unclosed (scanLines file line pending ls).tokens := by
  induction ls generalizing line pending with
  | nil => cases pending <;> simp [scanLines, Unclosed]
  | cons s ls ih =>
    have hscan : (scanLine file line pending s).Unclosed := scanLine_unclosed hpending s
    unfold scanLines
    simp only
    split
    · exact hscan.tokens
    · exact hscan.tokens.append (ih (by simp))
    · next comment hcomment =>
      refine hscan.tokens.append (ih ?_)
      rintro _ ⟨⟩
      exact hscan.pending comment hcomment

end Scanning

/-! ### All waiting sources -/

namespace Lexer

theorem readAll_closes (file : Text) (line : Nat) (sources : List Source) :
    ((readAll file line sources).error = none → ClosedOnce (readAll file line sources).tokens) ∧
      ((readAll file line sources).error ≠ none → Unclosed (readAll file line sources).tokens) := by
  induction sources generalizing file line with
  | nil => exact ⟨fun _ => ⟨[], _, rfl, rfl, by simp⟩, fun h => absurd rfl h⟩
  | cons source rest ih =>
    have hscan : Unclosed (scanLines source.name 1 none source.text.lines).tokens :=
      scanLines_unclosed (by simp) _
    unfold readAll
    simp only
    split
    · exact ⟨fun h => absurd h (Option.some_ne_none _), fun _ => hscan⟩
    · obtain ⟨hok, hfailed⟩ := ih source.name
        (if source.text.lines.isEmpty then line else source.text.lines.length)
      exact ⟨fun h => (hok h).append hscan, fun h => hscan.append (hfailed h)⟩

/-! ### Histories of calls -/

/-- What can be done with a lexer. -/
inductive Call
  | push (source : Source)
  | read
deriving DecidableEq, Repr

def apply (lexer : Lexer) : Call → Lexer
  | .push source => lexer.push source
  | .read => lexer.read.2

/-- The lexer after calls, the first one first. -/
def after (calls : List Call) : Lexer := calls.foldl apply {}

/-- Nothing was pushed since a reading that failed. -/
inductive FailedLast : List Call → Prop
  | failed {calls : List Call} {e : SourceError} (h : (after calls).read.1 = .error e) :
      FailedLast (calls ++ [.read])
  | again {calls : List Call} (h : FailedLast calls) : FailedLast (calls ++ [.read])

variable {calls : List Call} {source : Source} {lexer : Lexer}

theorem after_concat (calls : List Call) (call : Call) :
    after (calls ++ [call]) = (after calls).apply call := by
  rw [after, List.foldl_append, after]
  rfl

theorem not_failedLast_nil : ¬ FailedLast [] := by
  generalize h : ([] : List Call) = calls
  intro hfailed
  cases hfailed <;> simp at h

theorem not_failedLast_push : ¬ FailedLast (calls ++ [.push source]) := by
  generalize h : calls ++ [.push source] = calls'
  intro hfailed
  cases hfailed <;> simp at h

theorem failedLast_read_iff :
    FailedLast (calls ++ [.read]) ↔ (∃ e, (after calls).read.1 = .error e) ∨ FailedLast calls := by
  refine ⟨fun hfailed => ?_, ?_⟩
  · generalize h : calls ++ [.read] = calls' at hfailed
    cases hfailed with
    | failed h' =>
      obtain rfl := List.append_cancel_right h
      exact Or.inl ⟨_, h'⟩
    | again h' =>
      obtain rfl := List.append_cancel_right h
      exact Or.inr h'
  · rintro (⟨e, h⟩ | h)
    · exact .failed h
    · exact .again h

/-- What a lexer holds after calls: once it was read, closed tokens, or unclosed ones if the reading
failed. -/
structure Told (calls : List Call) (lexer : Lexer) : Prop where
  unread : lexer.isRead = false → ¬ FailedLast calls
  closed : lexer.isRead = true → ¬ FailedLast calls → ClosedOnce lexer.tokens
  failed : lexer.isRead = true → FailedLast calls → Unclosed lexer.tokens

theorem told_push (calls : List Call) (source : Source) (lexer : Lexer) :
    Told (calls ++ [.push source]) (lexer.push source) where
  unread _ := not_failedLast_push
  closed h := by cases h
  failed h := by cases h

theorem read_of_isRead (h : lexer.isRead = true) : lexer.read = (.ok lexer.tokens, lexer) := by
  rw [read, if_pos h]

theorem isRead_read (lexer : Lexer) : lexer.read.2.isRead = true := by
  unfold read
  split_ifs with h
  · exact h
  · simp only
    split <;> rfl

theorem read_of_unread (h : lexer.isRead = false) :
    (∃ e, lexer.read.1 = .error e ∧ Unclosed lexer.read.2.tokens) ∨
      lexer.read.1 = .ok lexer.read.2.tokens ∧ ClosedOnce lexer.read.2.tokens := by
  obtain ⟨hok, hfailed⟩ := readAll_closes [] 1 lexer.waiting
  rw [read, if_neg (by simp [h])]
  simp only
  split
  · next e he => exact Or.inl ⟨e, rfl, hfailed (by simp [he])⟩
  · next he => exact Or.inr ⟨rfl, hok he⟩

theorem told_read (h : Told calls (after calls)) :
    Told (calls ++ [.read]) (after calls).read.2 := by
  cases hread : (after calls).isRead with
  | true =>
    have hiff : FailedLast (calls ++ [.read]) ↔ FailedLast calls := by
      rw [failedLast_read_iff, read_of_isRead hread]
      simp
    rw [read_of_isRead hread]
    exact ⟨fun hunread => by simp [hread] at hunread,
      fun hread hnot => h.closed hread (mt hiff.mpr hnot),
        fun hread hfailed => h.failed hread (hiff.mp hfailed)⟩
  | false =>
    refine ⟨fun hunread => by simp [isRead_read] at hunread, fun _ hnot => ?_, fun _ hfailed => ?_⟩
    · rcases read_of_unread hread with ⟨e, he, -⟩ | ⟨-, hclosed⟩
      · exact absurd (.failed he) hnot
      · exact hclosed
    · rcases read_of_unread hread with ⟨e, -, hunclosed⟩ | ⟨hok, -⟩
      · exact hunclosed
      · rcases failedLast_read_iff.mp hfailed with ⟨e, he⟩ | hlast
        · rw [hok] at he
          cases he
        · exact absurd hlast (h.unread hread)

theorem told_after (calls : List Call) : Told calls (after calls) := by
  induction calls using List.reverseRecOn with
  | nil => exact ⟨fun _ => not_failedLast_nil, by simp [after], by simp [after]⟩
  | append_singleton calls call ih =>
    rw [after_concat]
    cases call with
    | push source => exact told_push calls source _
    | read => exact told_read ih

theorem tokens_of_read {tokens : List Token} (h : lexer.read.1 = .ok tokens) :
    lexer.read.2.tokens = tokens := by
  cases hread : lexer.isRead with
  | true =>
    rw [read_of_isRead hread] at h ⊢
    cases h
    rfl
  | false =>
    rcases read_of_unread hread with ⟨e, he, -⟩ | ⟨hok, -⟩
    · rw [he] at h
      cases h
    · rw [hok] at h
      cases h
      rfl

/-- **Readings are closed once**, after any calls in any order, also behind readings that failed:
unless nothing was pushed since a reading that failed. Then no token is of the kind `eof` at all. -/
theorem closedOnce_iff_not_failedLast {tokens : List Token}
    (h : (after calls).read.1 = .ok tokens) :
    (ClosedOnce tokens ↔ ¬ FailedLast calls) ∧ (FailedLast calls → Unclosed tokens) := by
  have htold := told_read (told_after calls)
  have hread := isRead_read (after calls)
  have hiff : FailedLast (calls ++ [.read]) ↔ FailedLast calls := by
    rw [failedLast_read_iff, h]
    simp
  have htokens := tokens_of_read h
  have hunclosed : FailedLast calls → Unclosed tokens := fun hfailed =>
    htokens ▸ htold.failed hread (hiff.mpr hfailed)
  refine ⟨⟨fun hclosed hfailed => (hunclosed hfailed).not_closedOnce hclosed, fun hnot => ?_⟩,
    hunclosed⟩
  exact htokens ▸ htold.closed hread (mt hiff.mp hnot)

/-- A source with a byte behind its first token that starts no token. -/
def faultySource : Source := ⟨lit "T", lit "a #"⟩

/-- A reading behind a failed one is closed once a source was pushed. -/
theorem closedOnce_iff_not_failedLast_pushed :
    (∃ e, (after [.push faultySource]).read.1 = .error e) ∧
      ∃ tokens, (after [.push faultySource, .read, .push ⟨lit "T", lit "b"⟩]).read.1 = .ok tokens ∧
        tokens.map (·.kind) = [.ident, .eof] ∧ ClosedOnce tokens := by
  refine ⟨⟨_, rfl⟩, _, rfl, by decide, ?_⟩
  have hpushed : ¬ FailedLast ([.push faultySource, .read] ++ [.push ⟨lit "T", lit "b"⟩]) :=
    not_failedLast_push
  exact (closedOnce_iff_not_failedLast rfl).1.mpr hpushed

/-- Read again at once, the tokens in front of the failure come without an end. -/
theorem unclosed_behind_failed_reading :
    (∃ e, (after [.push faultySource]).read.1 = .error e) ∧
      ∃ tokens, (after [.push faultySource, .read]).read.1 = .ok tokens ∧
        tokens.map (·.kind) = [.ident] ∧ ¬ ClosedOnce tokens := by
  refine ⟨⟨_, rfl⟩, _, rfl, by decide, Unclosed.not_closedOnce ?_⟩
  decide

end Lexer

end Unnest
