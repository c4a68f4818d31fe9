import Unnest.Proofs.CreationRuns
import Unnest.Proofs.Agreement

/-!
# Skipped comments

A cursor stands among elements of which some are comments, and moves as if there were none. Here
this is said by comparison with a plain list, which holds the elements of the range without the
comments and loses its first element with each move. Moves are tried one after the other, and one
that fails does not end the comparison.

* `Move`, `Move.run`, `Move.onList`: a move of a cursor, and the same move on a plain list;
* `attemptAll`: the answers to actions that are tried one after the other;
* `Cursor.view_moves_as_list`: what these say of a range, for every sequence of moves.
-/

namespace Unnest

/-! ### Moves -/

/-- A move over the element at a cursor, with what is wanted there. -/
inductive Move
  | advance
  | expect (kind : TokenKind) (what : Text)
  | expectGroup (kind : GroupKind) (what : Text)

namespace Move

/-- The move of a cursor. Its result is the token or the group that was asked for. -/
def run : Move → Parser (Option Element)
  | advance => (fun _ => none) <$> Parser.advance
  | expect kind what => (fun t => some (.token t)) <$> Parser.expect kind what
  | expectGroup kind what => (fun g => some (.group g)) <$> Parser.expectGroup kind what

/-- Whether an element is what the move wants. -/
def accepts : Move → Element → Bool
  | advance, _ => true
  | expect kind _, e => e.is kind
  | expectGroup kind _, e => e.isGroup kind

def result : Move → Element → Option Element
  | advance, _ => none
  | expect _ _, e => some e
  | expectGroup _ _, e => some e

/-- What a move complains of when it does not find what it wants. -/
def complaint : Move → Cause
  | advance => .endOfInput
  | expect _ what => .expected what
  | expectGroup _ what => .expected what

/-- The move on a plain list: it takes the first element, or it fails there and leaves the list as
it is. Behind the last element it fails at `closing`. -/
def onList (closing : Token) (m : Move) : EStateM SourceError (List Element) (Option Element)
  | [] => .error (closing.error m.complaint) []
  | e :: es =>
    if m.accepts e then .ok (m.result e) es else .error (e.firstToken.error m.complaint) (e :: es)

end Move

/-- The answers to actions that are tried one after the other, and the state behind the last one.
The answer to an action that fails is its error; the next action begins in the state where it
failed. -/
def attemptAll {σ α : Type} : List (EStateM SourceError σ α) → σ → List (Except SourceError α) × σ
  | [], s => ([], s)
  | p :: ps, s =>
    match p s with
    | .ok a s' => (.ok a :: (attemptAll ps s').1, (attemptAll ps s').2)
    | .error e s' => (.error e :: (attemptAll ps s').1, (attemptAll ps s').2)

theorem Parser.map_eq_error {α β : Type} {p : Parser α} {f : α → β} {s s' : Cursor}
    {e : SourceError} :
    (f <$> p) s = .error e s' ↔ p s = .error e s' := by
  show EStateM.map f p s = _ ↔ _
  unfold EStateM.map
  cases p s <;> simp

namespace Cursor

variable {s : Cursor} {e : Element} {cause : Cause}

theorem error_of_current (he : s.current? = some e) : s.error cause = e.firstToken.error cause := by
  simp [error, here, he]

theorem error_of_end (h : s.current? = none) : s.error cause = s.closing.error cause := by
  simp [error, here, h]

theorem remaining_of_end (h : s.current? = none) : s.remaining = [] := by
  rw [remaining, List.head?_eq_none_iff.mp h, List.filter_nil]

end Cursor

namespace Move

variable {s : Cursor} {m : Move}

theorem kind_complaint (m : Move) : m.complaint.kind = .grammar := by
  cases m <;> rfl

theorem run_of_accepts {e : Element} (he : s.current? = some e) (haccepts : m.accepts e = true) :
    m.run s = .ok (m.result e) s.next := by
  cases m with
  | advance =>
    refine Parser.map_eq_ok.mpr ⟨(), ?_, rfl⟩
    rw [Parser.advance, if_pos (Cursor.hasNext_iff.mpr ⟨e, he⟩)]
  | expect kind what =>
    cases e with
    | token t =>
      have hkind : t.kind = kind := by simpa [accepts, Element.is] using haccepts
      refine Parser.map_eq_ok.mpr ⟨t, ?_, rfl⟩
      simp [Parser.expect, he, hkind]
    | group g => cases haccepts
  | expectGroup kind what =>
    cases e with
    | token t => cases haccepts
    | group g =>
      have hkind : g.kind = kind := by simpa [accepts, Element.isGroup] using haccepts
      exact Parser.map_eq_ok.mpr ⟨g, Parser.expectGroup_eq_ok.mpr ⟨he, hkind, rfl⟩, rfl⟩

theorem run_of_refused (h : ∀ e, s.current? = some e → m.accepts e = false) :
    m.run s = .error (s.error m.complaint) s := by
  cases m with
  | advance =>
    have hnext : ¬ s.hasNext = true := by
      intro hnext
      obtain ⟨e, he⟩ := Cursor.hasNext_iff.mp hnext
      cases h e he
    refine Parser.map_eq_error.mpr ?_
    rw [Parser.advance, if_neg hnext, complaint]
  | expect kind what =>
    refine Parser.map_eq_error.mpr ?_
    rcases hcurrent : s.current? with _ | t | g
    · simp [Parser.expect, hcurrent, complaint]
    · have hkind : t.kind ≠ kind := by simpa [accepts, Element.is] using h _ hcurrent
      simp [Parser.expect, hcurrent, hkind, complaint]
    · simp [Parser.expect, hcurrent, complaint]
  | expectGroup kind what =>
    refine Parser.map_eq_error.mpr ?_
    rcases hcurrent : s.current? with _ | t | g
    · simp [Parser.expectGroup, hcurrent, complaint]
    · simp [Parser.expectGroup, hcurrent, complaint]
    · have hkind : g.kind ≠ kind := by simpa [accepts, Element.isGroup] using h _ hcurrent
      simp [Parser.expectGroup, hcurrent, hkind, complaint]

/-- **All that a move can do**: it passes the element at the cursor, or it fails there. -/
theorem run_cases (m : Move) (s : Cursor) :
    (∃ e, s.current? = some e ∧ m.accepts e = true ∧ m.run s = .ok (m.result e) s.next) ∨
      (∀ e, s.current? = some e → m.accepts e = false) ∧
      m.run s = .error (s.error m.complaint) s := by
  by_cases h : ∃ e, s.current? = some e ∧ m.accepts e = true
  · obtain ⟨e, he, haccepts⟩ := h
    exact Or.inl ⟨e, he, haccepts, run_of_accepts he haccepts⟩
  · have hrefused : ∀ e, s.current? = some e → m.accepts e = false :=
      fun e he => Bool.eq_false_iff.mpr fun haccepts => h ⟨e, he, haccepts⟩
    exact Or.inr ⟨hrefused, run_of_refused hrefused⟩

/-- A move that fails leaves the cursor where it is; the error is at the element there, or at the
end. -/
theorem eq_of_run_eq_error {e : SourceError} {t : Cursor} (h : m.run s = .error e t) :
    t = s ∧ ((∃ x, s.current? = some x ∧ e = x.firstToken.error m.complaint) ∨
      s.current? = none ∧ e = s.closing.error m.complaint) := by
  obtain ⟨x, -, -, hrun⟩ | ⟨-, hrun⟩ := m.run_cases s
  · rw [hrun] at h
    cases h
  · rw [hrun] at h
    cases h
    refine ⟨rfl, ?_⟩
    cases hcurrent : s.current? with
    | some x => exact Or.inl ⟨x, rfl, Cursor.error_of_current hcurrent⟩
    | none => exact Or.inr ⟨rfl, Cursor.error_of_end hcurrent⟩

/-! ### Moves on a plain list -/

/-- A move and the same move on the list of what is in front of the cursor give the same answer, and
then the list is still what is in front of the cursor. -/
theorem run_onList (m : Move) (hs : s.Settled) :
    (∃ a, m.run s = .ok a s.next ∧ m.onList s.closing s.remaining = .ok a s.next.remaining) ∨
      ∃ e, m.run s = .error e s ∧ m.onList s.closing s.remaining = .error e s.remaining := by
  obtain ⟨e, he, haccepts, hrun⟩ | ⟨hrefused, hrun⟩ := m.run_cases s
  · refine Or.inl ⟨m.result e, hrun, ?_⟩
    rw [Cursor.remaining_of_current hs he, onList, if_pos haccepts]
  · refine Or.inr ⟨s.error m.complaint, hrun, ?_⟩
    cases hcurrent : s.current? with
    | none => rw [Cursor.remaining_of_end hcurrent, onList, Cursor.error_of_end hcurrent]
    | some e =>
      rw [Cursor.remaining_of_current hs hcurrent, onList, if_neg (by simp [hrefused e hcurrent]),
        Cursor.error_of_current hcurrent]

theorem attemptAll_lasting {I : Cursor → Prop} (h : Cursor.Lasting I) (moves : List Move)
    (hs : I s) :
    I (attemptAll (moves.map run) s).2 := by
  induction moves generalizing s with
  | nil => exact hs
  | cons m moves ih =>
    rw [List.map_cons, attemptAll]
    obtain ⟨e, -, -, hrun⟩ | ⟨-, hrun⟩ := m.run_cases s
    · rw [hrun]
      exact ih (h s hs)
    · rw [hrun]
      exact ih hs

/-- **Moves of a cursor are moves on a plain list**: the answers are the same, and the list that is
left is what the cursor has in front of it. -/
theorem attemptAll_onList (moves : List Move) (hs : s.Settled) :
    attemptAll (moves.map (onList s.closing)) s.remaining =
      ((attemptAll (moves.map run) s).1, (attemptAll (moves.map run) s).2.remaining) := by
  induction moves generalizing s with
  | nil => rfl
  | cons m moves ih =>
    simp only [List.map_cons, attemptAll]
    obtain ⟨a, hrun, hlist⟩ | ⟨e, hrun, hlist⟩ := m.run_onList hs
    · have hrest := ih (Cursor.lasting_settled s hs)
      rw [Cursor.closing_next] at hrest
      simp only [hrun, hlist, hrest]
    · simp only [hrun, hlist, ih hs]

end Move

/-! ### Looking ahead -/

namespace Parser

variable {s : Cursor}

/-- The element that is found by moving on `k` times. -/
def currentBehind : Nat → Parser Element
  | 0 => current
  | k + 1 => do
    advance
    currentBehind k

/-- **Looking ahead** shows the element that is found by moving on; where it shows none, the end is
in the way. -/
theorem gives_currentBehind (hs : s.Settled) (k : Nat) :
    Gives (currentBehind k) s (fun e _ => s.peek? k = some e)
      fun err => s.peek? k = none ∧ err = s.closing.error .endOfInput := by
  induction k generalizing s with
  | zero =>
    refine gives_current.mpr ⟨fun e he => ?_, fun hend => ⟨?_, Cursor.error_of_end hend⟩⟩
    · show s.remaining[0]? = some e
      rw [Cursor.remaining_of_current hs he, List.getElem?_cons_zero]
    · show s.remaining[0]? = none
      rw [Cursor.remaining_of_end hend, List.getElem?_nil]
  | succ k ih =>
    refine gives_bind.mpr (gives_advance.mpr ⟨fun hnext => ?_, fun hend => ?_⟩)
    · obtain ⟨e, he⟩ := Cursor.hasNext_iff.mp hnext
      have hpeek : s.peek? (k + 1) = s.next.peek? k := by
        show s.remaining[k + 1]? = s.next.remaining[k]?
        rw [Cursor.remaining_of_current hs he, List.getElem?_cons_succ]
      rw [hpeek, ← Cursor.closing_next]
      exact ih (Cursor.lasting_settled s hs)
    · have hnone := Cursor.current?_of_not_hasNext hend
      refine ⟨?_, Cursor.error_of_end hnone⟩
      show s.remaining[k + 1]? = none
      rw [Cursor.remaining_of_end hnone, List.getElem?_nil]

theorem peek?_iff_currentBehind (hs : s.Settled) (k : Nat) :
    (∀ e, s.peek? k = some e ↔ ∃ t, currentBehind k s = .ok e t) ∧
      (s.peek? k = none ↔ ∃ t, currentBehind k s = .error (s.closing.error .endOfInput) t) := by
  have hgives := gives_currentBehind hs k
  cases hfound : currentBehind k s with
  | ok e t =>
    have hpeek : s.peek? k = some e := hgives.ok hfound
    simp [hpeek]
  | error err t =>
    obtain ⟨hpeek, rfl⟩ := hgives.error hfound
    simp [hpeek]

end Parser

/-! ### Ranges -/

/-- The elements from the position `first` to before `stop`, without the comments. -/
def codeBetween (elements : List Element) (first stop : Nat) : List Element :=
  ((elements.take stop).drop first).filter (!·.isComment)

namespace Cursor

/-- The cursor in front of the elements from `first` to before `stop`, comments included. -/
def start (elements : List Element) (first stop : Nat) (closing : Token) : Cursor where
  pos := first
  rest := (elements.take (min stop elements.length)).drop first
  stop := min stop elements.length
  closing := closing

theorem view_eq_settle (elements : List Element) (first stop : Nat) (closing : Token) :
    view elements first stop closing = (start elements first stop closing).settle := rfl

theorem ofList_eq_view (elements : List Element) (closing : Token) :
    ofList elements closing = view elements 0 elements.length closing := by
  simp [ofList, view]

/-- The cursor rests on an element of the range from `first` to before `stop` that is not a comment,
or behind the range. -/
def RestsIn (elements : List Element) (first stop : Nat) (s : Cursor) : Prop :=
  (∃ e, first ≤ s.pos ∧ s.pos < stop ∧ elements[s.pos]? = some e ∧ e.isComment = false ∧
    s.current? = some e) ∨
    s.current? = none ∧ s.pos = max first (min stop elements.length)

section ahead

variable {elements : List Element} {first stop : Nat} {closing : Token} {s : Cursor}
variable (h : (start elements first stop closing).Ahead s)
include h

theorem closing_of_ahead : s.closing = closing := by
  obtain ⟨k, -, rfl⟩ := h
  rfl

theorem pos_of_ahead : first ≤ s.pos ∧ s.pos ≤ max first (min stop elements.length) := by
  obtain ⟨k, hk, rfl⟩ := h
  simp only [start, List.length_drop, List.length_take] at hk ⊢
  omega

theorem rest_of_ahead : s.rest = (elements.take stop).drop s.pos := by
  obtain ⟨k, -, rfl⟩ := h
  simp only [start, List.drop_drop, ← List.take_eq_take_min]

theorem remaining_of_ahead : s.remaining = codeBetween elements s.pos stop := by
  rw [remaining, rest_of_ahead h, codeBetween]

/-- **Where a cursor can stand** that has moved on in a range. -/
theorem restsIn_of_ahead (hs : s.Settled) : s.RestsIn elements first stop := by
  have hcurrent : s.current? = (elements.take stop)[s.pos]? := by
    rw [current?, rest_of_ahead h, List.head?_drop]
  obtain ⟨hfirst, hle⟩ := pos_of_ahead h
  cases he : s.current? with
  | some e =>
    rw [he, eq_comm, List.getElem?_take] at hcurrent
    obtain ⟨hstop, hget⟩ : s.pos < stop ∧ elements[s.pos]? = some e := by simpa using hcurrent
    exact Or.inl ⟨e, hfirst, hstop, hget, hs e he, he⟩
  | none =>
    rw [he, eq_comm, List.getElem?_eq_none_iff, List.length_take] at hcurrent
    exact Or.inr ⟨he, by omega⟩

end ahead

/-- **Comments are skipped** everywhere alike. A cursor over the elements from `first` to before
`stop` answers every sequence of moves as the plain list of the elements of that range without
comments does. Wherever the moves lead, the cursor rests on an element of the range that is not a
comment or behind the range, and the list that is left holds the elements from its position on.
Looking ahead by `k` shows what a copy finds that is moved on `k` times; it shows nothing exactly if
no more than `k` elements are left, and then the copy fails at the closing token. A move that fails
does so at the first token of the element at the cursor, or at the closing token, and leaves the
cursor as it is. -/
theorem view_moves_as_list (elements : List Element) (first stop : Nat) (closing : Token)
    (moves : List Move) :
    ofList elements closing = view elements 0 elements.length closing ∧
    ∃ answers s code, attemptAll (moves.map Move.run) (view elements first stop closing) =
      (answers, s) ∧
      attemptAll (moves.map (Move.onList closing)) (codeBetween elements first stop) =
      (answers, code) ∧
      code = codeBetween elements s.pos stop ∧ s.RestsIn elements first stop ∧
      (∀ k, s.peek? k = code[k]?) ∧
      (∀ k e, s.peek? k = some e ↔ ∃ t, Parser.currentBehind k s = .ok e t) ∧
      (∀ k, s.peek? k = none ↔
        ∃ t, Parser.currentBehind k s = .error (closing.error .endOfInput) t) ∧
      (∀ k, s.peek? k = none ↔ code.length ≤ k) ∧
      ∀ (m : Move) (e : SourceError) (t : Cursor), m.run s = .error e t →
        t = s ∧ e.cause.kind = .grammar ∧
          ((∃ x, s.current? = some x ∧ e = x.firstToken.error m.complaint) ∨
            s.current? = none ∧ e = closing.error m.complaint) := by
  have hview := view_eq_settle elements first stop closing
  have hsettled : (view elements first stop closing).Settled := by
    rw [hview]
    exact settled_settle _
  have hahead : (start elements first stop closing).Ahead (view elements first stop closing) := by
    rw [hview]
    exact (Ahead.refl _).settle
  have hcode : (view elements first stop closing).remaining = codeBetween elements first stop := by
    rw [hview, remaining_settle]
    exact remaining_of_ahead (Ahead.refl _)
  have hlist := Move.attemptAll_onList moves hsettled
  rw [hcode, closing_of_ahead hahead] at hlist
  replace hsettled := Move.attemptAll_lasting lasting_settled moves hsettled
  replace hahead := Move.attemptAll_lasting (lasting_ahead _) moves hahead
  refine ⟨ofList_eq_view elements closing, _, _, _, rfl, hlist, remaining_of_ahead hahead,
    restsIn_of_ahead hahead hsettled, fun _ => rfl,
    fun k => (Parser.peek?_iff_currentBehind hsettled k).1, fun k => ?_,
    fun _ => List.getElem?_eq_none_iff, fun m e t hrun => ?_⟩
  · rw [(Parser.peek?_iff_currentBehind hsettled k).2, closing_of_ahead hahead]
  · obtain ⟨ht, he⟩ := Move.eq_of_run_eq_error hrun
    rw [closing_of_ahead hahead] at he
    have hcause : e.cause = m.complaint := by
      rcases he with ⟨x, -, rfl⟩ | ⟨-, rfl⟩ <;> rfl
    exact ⟨ht, by rw [hcause, m.kind_complaint], he⟩

def emptyBraces : Group where
  kind := .curly
  opening := { kind := .lbrace, text := lit "\x7b", line := 3 }
  closing := { kind := .rbrace, text := lit "\x7d", line := 3, col := 2 }
  children := []

/-- A name and a pair of braces between comments, and a semicolon. -/
def commentedElements : List Element :=
  [.token { kind := .comment, text := lit "/*a*/" },
    .token { kind := .ident, text := lit "x", col := 6 },
    .token { kind := .comment, text := lit "//b", col := 8 },
    .token { kind := .comment, text := lit "//c", line := 2 }, .group emptyBraces,
    .token { kind := .comment, text := lit "/*d*/", line := 4 },
    .token { kind := .semi, text := lit ";", line := 5 }]

/-- In the range up to the semicolon, behind the first comment a name is found and then another one
is not; the error is at the brace, where the cursor stays. Behind the braces there is nothing but a
comment. -/
theorem view_moves_as_list_to_braces :
    ∃ s, attemptAll ([.expect .ident (lit "a name"), .expect .ident (lit "a name")].map Move.run)
        (view commentedElements 0 6 {}) =
          ([.ok (commentedElements[1]?),
            .error (emptyBraces.opening.error (.expected (lit "a name")))], s) ∧
      s.pos = 4 ∧ s.RestsIn commentedElements 0 6 ∧ s.peek? 0 = some (.group emptyBraces) ∧
      s.peek? 1 = none ∧
      ∃ e x, (Move.expect .semi (lit "';'")).run s = .error e s ∧ e.cause.kind = .grammar ∧
        s.current? = some x ∧ e = x.firstToken.error (.expected (lit "';'")) := by
  obtain ⟨-, answers, s, code, hrun, -, hcode, hrests, hpeek, -, -, hnone, hfail⟩ :=
    view_moves_as_list commentedElements 0 6 {}
      [.expect .ident (lit "a name"), .expect .ident (lit "a name")]
  obtain ⟨rfl, rfl⟩ := Prod.mk.inj hrun
  subst hcode
  obtain ⟨-, hkind, hplace⟩ := hfail (.expect .semi (lit "';'")) _ _ rfl
  obtain ⟨x, hx, he⟩ := hplace.resolve_right fun hend =>
    absurd hend.1.symm (Option.some_ne_none _).symm
  exact ⟨_, rfl, rfl, hrests, hpeek 0, (hnone 1).mpr (by decide), _, x, rfl, hkind, hx, he⟩

end Cursor

end Unnest
