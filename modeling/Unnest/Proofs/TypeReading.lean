import Unnest.Proofs.TypeWords
import Unnest.Proofs.CreationRuns
import Mathlib

/-!
# Reading a written type again

The text of a type that was read can be read again, as the same type: only the places differ. What
is left out of the text (annotations, comments, type arguments in the middle of a name, empty type
arguments) is not part of the type either.

* `TypeRef.unplaced`: a type without its places;
* `Parser.ReadsAs`: elements that are read as a type;
* `typeRef_text`: reading the text of a type.
-/

namespace Unnest

open Text Lexeme Unnest.Parser

mutual

/-- A reference without the places where it was read. -/
def TypeRef.unplaced : TypeRef → TypeRef
  | ⟨name, args, dims, primitive, wildcard, _⟩ =>
    ⟨name, unplacedAll args, dims, primitive, wildcard, {}⟩

/-- References without their places. -/
def unplacedAll : List TypeRef → List TypeRef
  | [] => []
  | t :: ts => t.unplaced :: unplacedAll ts

end

/-! ### Cursors in front of known elements -/

namespace Parser

variable {α : Type} {s t u : Cursor} {e : Element} {es more : List Element}

theorem advance_of_current (h : s.current? = some e) : advance s = .ok () s.next := by
  rw [advance, if_pos (Cursor.hasNext_iff.mpr ⟨e, h⟩)]

theorem expect_of_current {w : Token} {kind : TokenKind} (h : s.current? = some (.token w))
    (hkind : w.kind = kind) (what : Text) : expect kind what s = .ok w s.next := by
  simp [expect, h, hkind]

variable {round : Parser (Option α)}

theorem roundIf_of_true {test : Cursor → Bool} (h : test s = true) :
    roundIf test round s = round s := by
  rw [roundIf, get_bind, if_pos h]

theorem roundIf_of_false {test : Cursor → Bool} (h : test s = false) :
    roundIf test round s = .ok none s := by
  rw [roundIf, get_bind, if_neg (by simp [h])]
  rfl

theorem many_of_none (h : round s = .ok none t) :
    many round s = .ok [] t := by
  rw [many, h]

theorem Consumes.many_of_some (hround : Consumes round) {a : α}
    {as : List α} (h : round s = .ok (some a) t) (hmore : many round t = .ok as u) :
    many round s = .ok (a :: as) u := by
  rw [many, h]
  simp only [hround s a t h, if_true, hmore]

theorem dropAnnotations_of_not_at (h : s.isAt .atSign = false) : dropAnnotations s = .ok () s :=
  bind_eq_ok.mpr ⟨[], s, many_of_none (roundIf_of_false h), rfl⟩

end Parser

theorem Cursor.current?_eq_head? {s : Cursor} (hs : s.Settled) :
    s.current? = s.remaining.head? := by
  cases hcurrent : s.current? with
  | none => rw [remaining, List.head?_eq_none_iff.mp hcurrent, List.filter_nil, List.head?_nil]
  | some e => rw [remaining_of_current hs hcurrent, List.head?_cons]

theorem Cursor.remaining_ofGroup {g : Group} (h : ∀ e ∈ g.children, e.isComment = false) :
    (Cursor.ofGroup g).remaining = g.children :=
  (remaining_settle _).trans (List.filter_eq_self.mpr fun e he => by simp [h e he])

variable {more : List Element} {e : Element}

/-- A test fails at a cursor when it fails at the first element in front of it. -/
theorem Cursor.any_current?_eq_false {s : Cursor} {test : Element → Bool}
    (hs : s.Settled) (h : s.remaining = more) (hmore : ∀ e, more.head? = some e → test e = false) :
    s.current?.any test = false := by
  rw [current?_eq_head? hs, h]
  cases hhead : more.head? with
  | none => rfl
  | some e => exact hmore e hhead

/-- What follows a type in type arguments: nothing, or a comma. -/
def EndsType (more : List Element) : Prop := ∀ e, more.head? = some e → e.is .comma = true

theorem EndsType.not_isGroup (h : EndsType more)
    (he : more.head? = some e) (kind : GroupKind) : e.isGroup kind = false := by
  cases e with
  | token t => rfl
  | group g => cases h _ he

theorem EndsType.not_isEmptyGroup (h : EndsType more)
    (he : more.head? = some e) (kind : GroupKind) : e.isEmptyGroup kind = false := by
  cases e with
  | token t => rfl
  | group g => cases h _ he

theorem EndsType.not_is (h : EndsType more)
    (he : more.head? = some e) {kind : TokenKind} (hkind : kind ≠ .comma) : e.is kind = false := by
  have hcomma := h e he
  cases e with
  | token t =>
    have ht : t.kind = .comma := by simpa [Element.is] using hcomma
    simp [Element.is, ht, hkind.symm]
  | group g => rfl

namespace Parser

variable {s : Cursor} {es more : List Element} {n : Nat}
  {args : Group → Except SourceError (List TypeRef)}

theorem dims_of_remaining (hs : s.Settled) (h : s.remaining = es ++ more) (hes : Pairs n es)
    (hmore : ∀ e, more.head? = some e → e.isEmptyGroup .square = false) :
    ∃ t, dims s = .ok n t ∧ t.Settled ∧ t.remaining = more := by
  have hconsumes : Consumes (roundIf (·.isAtEmptyGroup .square) do advance; return some ()) :=
    (Passing.advance.bind fun _ => .pure _).consumes_roundIf
  have hmany : ∃ pairs t, many (roundIf (·.isAtEmptyGroup .square) do advance; return some ()) s =
      .ok pairs t ∧
      pairs.length = es.length ∧ t.Settled ∧ t.remaining = more := by
    obtain ⟨-, hes⟩ := hes
    induction es generalizing s with
    | nil =>
      have hat : s.isAtEmptyGroup .square = false := Cursor.any_current?_eq_false hs h hmore
      exact ⟨[], s, many_of_none (roundIf_of_false hat), rfl, hs, h⟩
    | cons e es ih =>
      obtain ⟨he, hes⟩ := List.forall_mem_cons.mp hes
      obtain ⟨hcurrent, hnext, hremaining⟩ := Cursor.current_of_remaining hs h
      have hat : s.isAtEmptyGroup .square = true := by simp [Cursor.isAtEmptyGroup, hcurrent, he]
      obtain ⟨pairs, t, hmany, hlength, ht, hmore⟩ := ih hnext hremaining hes
      refine ⟨() :: pairs, t, hconsumes.many_of_some ?_ hmany, by simp [hlength], ht, hmore⟩
      rw [roundIf_of_true hat]
      exact bind_eq_ok.mpr ⟨(), s.next, advance_of_current hcurrent, rfl⟩
  obtain ⟨pairs, t, hmany, hlength, ht, hmore⟩ := hmany
  refine ⟨t, ?_, ht, hmore⟩
  rw [← hes.length, ← hlength]
  exact bind_eq_ok.mpr ⟨pairs, t, hmany, rfl⟩

/-- In front of a comma or the end, the elements are read as the type, up to its places. -/
structure ReadsAs (p : Parser TypeRef) (es : List Element) (t : TypeRef) : Prop where
  ne_nil : es ≠ []
  reads : ∀ (s : Cursor) more, s.Settled → s.remaining = es ++ more → EndsType more →
    ∃ t' s', p s = .ok t' s' ∧ s'.Settled ∧ s'.remaining = more ∧ t'.unplaced = t.unplaced

theorem readsAs_simple {w : Token} (hw : w.kind = .primitive ∨ w.kind = .kwVoid) (hes : Pairs n es)
    (place : Place) :
    ReadsAs (typeWith args) (.token w :: es)
    { name := w.text, dims := n, primitive := true, place } := by
  refine ⟨by simp, fun s more hs h hmore => ?_⟩
  obtain ⟨hcurrent, hnext, hremaining⟩ := Cursor.current_of_remaining hs h
  have hat : s.isAt .atSign = false := by
    refine Cursor.isAt_ne (Cursor.isAt_of_current hcurrent rfl) ?_
    rcases hw with hw | hw <;> simp [hw]
  have hword : (s.isAt .primitive || s.isAt .kwVoid) = true := by
    rcases hw with hw | hw <;> simp [Cursor.isAt_of_current hcurrent hw]
  obtain ⟨t, hdims, ht, htmore⟩ :=
    dims_of_remaining hnext hremaining hes fun e he => hmore.not_isEmptyGroup he _
  refine ⟨{ name := s.here.text, dims := n, primitive := true, place := s.here.place }, t, ?_, ht,
    htmore, ?_⟩
  · refine bind_eq_ok.mpr ⟨(), s, dropAnnotations_of_not_at hat, ?_⟩
    rw [get_bind]
    simp only [hword, if_true]
    refine bind_eq_ok.mpr ⟨(), s.next, advance_of_current hcurrent, ?_⟩
    exact bind_eq_ok.mpr ⟨n, t, hdims, rfl⟩
  · simp [TypeRef.unplaced, unplacedAll, Cursor.here, hcurrent, Element.firstToken]

/-- The elements are type arguments that are read as `found`, or there are none. -/
inductive AngleArgs (args : Group → Except SourceError (List TypeRef)) :
    List Element → List (List TypeRef) → Prop
  | none : AngleArgs args [] []
  | some {g : Group} {ts : List TypeRef} (hkind : g.kind = .angle) (hts : args g = .ok ts) :
      AngleArgs args [.group g] [ts]

variable {found : List (List TypeRef)}

theorem angleArgs_of_remaining {angle tail : List Element}
    (hangle : AngleArgs args angle found) (hs : s.Settled) (h : s.remaining = angle ++ tail)
    (htail : ∀ e, tail.head? = some e → e.isGroup .angle = false) :
    ∃ result t, typeWith.angleArgs args s = .ok result t ∧ t.Settled ∧ t.remaining = tail ∧
      [result].filterMap id = found := by
  cases hangle with
  | none =>
    have hat : s.isAtGroup .angle = false := Cursor.any_current?_eq_false hs h htail
    refine ⟨none, s, ?_, hs, h, rfl⟩
    rw [typeWith.angleArgs, get_bind, if_neg (by simp [hat])]
    rfl
  | @some g ts hkind hts =>
    obtain ⟨hcurrent, hnext, hremaining⟩ := Cursor.current_of_remaining hs h
    refine ⟨some ts, s.next, ?_, hnext, hremaining, rfl⟩
    rw [typeWith.angleArgs, get_bind, if_pos (Cursor.isAtGroup_of_current hcurrent hkind)]
    refine bind_eq_ok.mpr ⟨g, s.next, expectGroup_eq_ok.mpr ⟨hcurrent, hkind, rfl⟩, ?_⟩
    exact bind_eq_ok.mpr ⟨ts, s.next, ofExcept_eq_ok.mpr ⟨hts, rfl⟩, rfl⟩

/-- A further part of the name of a type. -/
def typePart (args : Group → Except SourceError (List TypeRef)) :
    Parser (Option (Text × Option (List TypeRef))) :=
  roundIf (·.isAt .dot) do
    advance
    let part ← expect .ident (lit "type name")
    return some (lit "." ++ part.text, ← typeWith.angleArgs args)

theorem consumes_typePart (args : Group → Except SourceError (List TypeRef)) :
    Consumes (typePart args) := by
  refine (Passing.advance.bind fun _ => .bind (.expect _ _) fun _ => ?_).consumes_roundIf
  exact (onward_angleArgs args).bind fun _ => .pure _

theorem parts_of_remaining {words : List Text} {dotted angle tail : List Element}
    (hdotted : Dotted words dotted) (hangle : AngleArgs args angle found) (hs : s.Settled)
    (h : s.remaining = dotted ++ (angle ++ tail))
    (htail : ∀ e, tail.head? = some e → e.isGroup .angle = false ∧ e.is .dot = false) :
    ∃ first t parts u, typeWith.angleArgs args s = .ok first t ∧
      many (typePart args) t = .ok parts u ∧
      u.Settled ∧ u.remaining = tail ∧ parts.map (·.1) = words.map (lit "." ++ ·) ∧
      (first :: parts.map (·.2)).filterMap id = found := by
  induction hdotted generalizing s with
  | nil =>
    obtain ⟨first, t, hfirst, ht, hremaining, hfound⟩ :=
      angleArgs_of_remaining hangle hs h fun e he => (htail e he).1
    have hat : t.isAt .dot = false :=
      Cursor.any_current?_eq_false ht hremaining fun e he => (htail e he).2
    exact ⟨first, t, [], t, hfirst, many_of_none (roundIf_of_false hat), ht, hremaining, rfl,
      hfound⟩
  | @cons point w words es hpoint hw hwords ih =>
    obtain ⟨hcurrent, hnext, hremaining⟩ := Cursor.current_of_remaining hs h
    obtain ⟨hcurrent', hnext', hremaining'⟩ := Cursor.current_of_remaining hnext hremaining
    obtain ⟨first, t, parts, u, hfirst, hparts, hu, hutail, hnames, hfound⟩ := ih hnext' hremaining'
    have hnone : typeWith.angleArgs args s = .ok none s := by
      have hat : s.isAtGroup .angle = false := by simp [Cursor.isAtGroup, hcurrent, Element.isGroup]
      rw [typeWith.angleArgs, get_bind, if_neg (by simp [hat])]
      rfl
    have hround : typePart args s = .ok (some (lit "." ++ w.text, first)) t := by
      rw [typePart, roundIf_of_true (Cursor.isAt_of_current hcurrent hpoint)]
      refine bind_eq_ok.mpr ⟨(), s.next, advance_of_current hcurrent, ?_⟩
      refine bind_eq_ok.mpr ⟨w, s.next.next, expect_of_current hcurrent' hw _, ?_⟩
      exact bind_eq_ok.mpr ⟨first, t, hfirst, rfl⟩
    refine ⟨none, s, _, u, hnone, (consumes_typePart args).many_of_some hround hparts, hu, hutail,
      ?_, ?_⟩
    · rw [List.map_cons, List.map_cons, hnames]
    · exact hfound

theorem readsAs_named {w : Token} (hw : w.kind = .ident) {words : List Text}
    {dotted angle pairs : List Element} {ts : List TypeRef}
    (hdotted : Dotted words dotted) (hangle : AngleArgs args angle found) (hpairs : Pairs n pairs)
    (hts : unplacedAll (found.getLast?.getD []) = unplacedAll ts) (place : Place) :
    ReadsAs (typeWith args) (.token w :: (dotted ++ (angle ++ pairs)))
      { name := w.text ++ (words.map (lit "." ++ ·)).flatten, args := ts, dims := n, place } := by
  refine ⟨by simp, fun s more hs h hmore => ?_⟩
  have htail : ∀ e, (pairs ++ more).head? = some e → e.isGroup .angle = false ∧
      e.is .dot = false := by
    intro e he
    cases pairs with
    | nil => exact ⟨hmore.not_isGroup he _, hmore.not_is he (by decide)⟩
    | cons e' pairs =>
      cases he
      have hempty := hpairs.isEmptyGroup e List.mem_cons_self
      cases e with
      | token t => cases hempty
      | group g =>
        simp only [Element.isEmptyGroup, Bool.and_eq_true, beq_iff_eq] at hempty
        simp [Element.isGroup, Element.is, hempty.1]
  simp only [List.cons_append, List.append_assoc] at h
  obtain ⟨hcurrent, hnext, hremaining⟩ := Cursor.current_of_remaining hs h
  obtain ⟨first, t, parts, u, hfirst, hparts, hu, hutail, hnames, hfound⟩ :=
    parts_of_remaining hdotted hangle hnext hremaining htail
  obtain ⟨v, hdims, hv, hvmore⟩ :=
    dims_of_remaining hu hutail hpairs fun e he => hmore.not_isEmptyGroup he _
  have hident := Cursor.isAt_of_current hcurrent hw
  have hword : (s.isAt .primitive || s.isAt .kwVoid) = false := by
    rw [Cursor.isAt_ne hident (by decide), Cursor.isAt_ne hident (by decide)]
    rfl
  refine ⟨⟨w.text ++ (parts.map (·.1)).flatten,
    (((first :: parts.map (·.2)).filterMap id).getLast?).getD [], n, false, .plain, s.here.place⟩,
    v, ?_, hv, hvmore, ?_⟩
  · refine bind_eq_ok.mpr ⟨(), s, dropAnnotations_of_not_at (Cursor.isAt_ne hident (by decide)), ?_⟩
    rw [get_bind]
    simp only [hword, Bool.false_eq_true, if_false]
    refine bind_eq_ok.mpr ⟨w, s.next, expect_of_current hcurrent hw _, ?_⟩
    refine bind_eq_ok.mpr ⟨first, t, hfirst, ?_⟩
    refine bind_eq_ok.mpr ⟨parts, u, hparts, ?_⟩
    exact bind_eq_ok.mpr ⟨n, v, hdims, rfl⟩
  · rw [hfound, hnames]
    simp only [TypeRef.unplaced, hts]

/-! ### Type arguments -/

section Arguments

variable {type : Parser TypeRef} {t : TypeRef}

theorem ReadsAs.argument {w : Token} (h : ReadsAs type (.token w :: es) t) (hat : w.kind ≠ .atSign)
    (hquestion : w.kind ≠ .question) : ReadsAs (typeArgument type) (.token w :: es) t := by
  refine ⟨h.ne_nil, fun s more hs hremaining hmore => ?_⟩
  obtain ⟨t', s', hread, hrest⟩ := h.reads s more hs hremaining hmore
  refine ⟨t', s', ?_, hrest⟩
  have hword := Cursor.isAt_of_current (Cursor.current_of_remaining hs hremaining).1 rfl
  refine bind_eq_ok.mpr ⟨(), s, dropAnnotations_of_not_at (Cursor.isAt_ne hword hat), ?_⟩
  rw [get_bind, if_neg (by simp [Cursor.isAt_ne hword hquestion])]
  exact hread

theorem readsAs_unbounded {q : Token} (hq : q.kind = .question) (place : Place) :
    ReadsAs (typeArgument type) [.token q] { wildcard := .unbounded, place } := by
  refine ⟨by simp, fun s more hs h hmore => ?_⟩
  obtain ⟨hcurrent, hnext, hremaining⟩ := Cursor.current_of_remaining hs h
  have hquestion := Cursor.isAt_of_current hcurrent hq
  have hnot : ∀ kind : TokenKind, kind ≠ .comma → s.next.isAt kind = false := fun kind hkind =>
    Cursor.any_current?_eq_false hnext hremaining fun e he => hmore.not_is he hkind
  refine ⟨{ wildcard := .unbounded, place := s.here.place }, s.next, ?_, hnext, hremaining, rfl⟩
  refine bind_eq_ok.mpr
    ⟨(), s, dropAnnotations_of_not_at (Cursor.isAt_ne hquestion (by decide)), ?_⟩
  rw [get_bind, if_pos hquestion]
  refine bind_eq_ok.mpr ⟨(), s.next, advance_of_current hcurrent, ?_⟩
  rw [get_bind, if_neg (by simp [hnot .kwExtends]), if_neg (by simp [hnot .kwSuper])]
  rfl

theorem readsAs_bound {q w : Token} {bound : TypeRef} {wildcard : Wildcard}
    (hq : q.kind = .question) (hw : w.kind = .kwExtends ∧ wildcard = .upper ∨ w.kind = .kwSuper ∧
      wildcard = .lower)
    (h : ReadsAs type es bound) (place : Place) :
    ReadsAs (typeArgument type) (.token q :: .token w :: es)
    { wildcard, args := [bound], place } := by
  refine ⟨by simp, fun s more hs hremaining hmore => ?_⟩
  obtain ⟨hcurrent, hnext, hremaining⟩ := Cursor.current_of_remaining hs hremaining
  obtain ⟨hcurrent', hnext', hremaining⟩ := Cursor.current_of_remaining hnext hremaining
  obtain ⟨t, s', hread, hs', hmore', ht⟩ := h.reads _ more hnext' hremaining hmore
  have hquestion := Cursor.isAt_of_current hcurrent hq
  refine ⟨{ wildcard, args := [t], place := s.here.place }, s', ?_, hs', hmore', ?_⟩
  · refine bind_eq_ok.mpr
      ⟨(), s, dropAnnotations_of_not_at (Cursor.isAt_ne hquestion (by decide)), ?_⟩
    rw [get_bind, if_pos hquestion]
    refine bind_eq_ok.mpr ⟨(), s.next, advance_of_current hcurrent, ?_⟩
    rw [get_bind]
    rcases hw with ⟨hw, rfl⟩ | ⟨hw, rfl⟩
    · rw [if_pos (Cursor.isAt_of_current hcurrent' hw)]
      refine bind_eq_ok.mpr ⟨(), s.next.next, advance_of_current hcurrent', ?_⟩
      exact bind_eq_ok.mpr ⟨t, s', hread, rfl⟩
    · have hsuper := Cursor.isAt_of_current hcurrent' hw
      rw [if_neg (by simp [Cursor.isAt_ne hsuper]), if_pos hsuper]
      refine bind_eq_ok.mpr ⟨(), s.next.next, advance_of_current hcurrent', ?_⟩
      exact bind_eq_ok.mpr ⟨t, s', hread, rfl⟩
  · simp only [TypeRef.unplaced, unplacedAll, ht]

/-- The elements are read as the types, with commas between them. -/
inductive SeparatedAs (item : Parser TypeRef) : List Element → List TypeRef → Prop
  | one {es : List Element} {t : TypeRef} (h : ReadsAs item es t) : SeparatedAs item es [t]
  | cons {es es' : List Element} {c : Token} {t : TypeRef} {ts : List TypeRef}
      (h : ReadsAs item es t)
      (hc : c.kind = .comma) (hts : SeparatedAs item es' ts) :
      SeparatedAs item (es ++ .token c :: es') (t :: ts)

theorem hasNext_iff_remaining (hs : s.Settled) : s.hasNext = true ↔ s.remaining ≠ [] := by
  rw [Cursor.hasNext_iff, Cursor.current?_eq_head? hs, ← Option.isSome_iff_exists,
    List.isSome_head?]

theorem itemRound_of_remaining {item : Parser TypeRef} (h : ReadsAs item es t) (what : Text)
    (hs : s.Settled) (hremaining : s.remaining = es ++ more) (hmore : EndsType more) :
    ∃ t' s', itemRound item what s = .ok (some t') s' ∧ s'.Settled ∧ s'.remaining = more.tail ∧
      t'.unplaced = t.unplaced := by
  obtain ⟨t', s', hread, hs', hmore', ht⟩ := h.reads s more hs hremaining hmore
  have hnext : s.hasNext = true := (hasNext_iff_remaining hs).mpr (by simp [hremaining, h.ne_nil])
  rw [itemRound, roundIf_of_true hnext]
  cases more with
  | nil =>
    refine ⟨t', s', bind_eq_ok.mpr ⟨t', s', hread, ?_⟩, hs', hmore', ht⟩
    rw [get_bind, if_neg (by simp [hasNext_iff_remaining hs', hmore'])]
    rfl
  | cons e more =>
    obtain ⟨hcurrent, hnext', hremaining'⟩ := Cursor.current_of_remaining hs' hmore'
    have hcomma : s'.isAt .comma = true := by simp [Cursor.isAt, hcurrent, hmore e rfl]
    obtain ⟨c, hc, hkind⟩ := Cursor.isAt_iff.mp hcomma
    refine ⟨t', s'.next, bind_eq_ok.mpr ⟨t', s', hread, ?_⟩, hnext', hremaining', ht⟩
    rw [get_bind, if_pos (Cursor.hasNext_iff.mpr ⟨e, hcurrent⟩)]
    exact bind_eq_ok.mpr ⟨c, s'.next, expect_of_current hc hkind what, rfl⟩

theorem separated_of_remaining {item : Parser TypeRef} {ts : List TypeRef} (hitem : Passing item)
    (what : Text) (h : SeparatedAs item es ts) (hs : s.Settled) (hremaining : s.remaining = es) :
    ∃ ts' s', separated item what s = .ok ts' s' ∧ unplacedAll ts' = unplacedAll ts := by
  change ∃ ts' s', many (itemRound item what) s = .ok ts' s' ∧ _
  have hround := consumes_itemRound hitem what
  induction h generalizing s with
  | one h =>
    obtain ⟨t', s', hread, hs', hmore, ht⟩ :=
      itemRound_of_remaining h what hs (hremaining.trans (List.append_nil _).symm) (by rintro e ⟨⟩)
    have hend : s'.hasNext = false := by simp [← Bool.not_eq_true, hasNext_iff_remaining hs', hmore]
    exact ⟨[t'], s', hround.many_of_some hread (many_of_none (roundIf_of_false hend)),
      by simp [unplacedAll, ht]⟩
  | cons h hc hts ih =>
    obtain ⟨t', s', hread, hs', hmore, ht⟩ :=
      itemRound_of_remaining h what hs hremaining (by rintro e ⟨⟩; simp [Element.is, hc])
    obtain ⟨ts', s'', hmany, hts'⟩ := ih hs' hmore
    exact ⟨t' :: ts', s'', hround.many_of_some hread hmany, by simp [unplacedAll, ht, hts']⟩

end Arguments

theorem typeArgs_of_separatedAs {g : Group} {ts : List TypeRef}
    (hbare : ∀ e ∈ g.children, e.isComment = false)
    (h : SeparatedAs (typeArgument typeRef) g.children ts) :
    ∃ ts', g.typeArgs = .ok ts' ∧ unplacedAll ts' = unplacedAll ts := by
  have hs : (Cursor.ofGroup g).Settled := Cursor.settled_settle _
  have hpassing : Passing (typeArgument typeRef) := passing_typeArgument (passing_typeWith _)
  obtain ⟨ts', s', hread, hts⟩ :=
    separated_of_remaining hpassing (lit "',' or '>' in type arguments") h hs
    (Cursor.remaining_ofGroup hbare)
  have hrun : typeArgsWith Group.typeArgs g = .ok ts' := runOn_eq_ok.mpr ⟨s', hread⟩
  exact ⟨ts', (typeArgsWith_eq_iff Group.typeArgs).mpr rfl ▸ hrun, hts⟩

end Parser

/-! ### Texts -/

theorem TypeRef.text_simple (name : Text) (dims : Nat) (place : Place) :
    ({ name, dims, primitive := true, place } : TypeRef).text =
    name ++ (List.replicate dims (lit "[]")).flatten := by
  simp [text]

theorem reread_argTexts {item : Parser TypeRef} {args : List TypeRef} (hne : args ≠ [])
    (h : ∀ a ∈ args, Reread a.text (ReadsAs item · a) ∧ StartsType a.text) :
    Reread (argTexts args) (SeparatedAs item · args) ∧ StartsType (argTexts args) := by
  induction args with
  | nil => exact absurd rfl hne
  | cons a args ih =>
    obtain ⟨⟨hread, hstarts⟩, hargs⟩ := List.forall_mem_cons.mp h
    cases args with
    | nil => exact ⟨hread.mono fun es => .one, hstarts⟩
    | cons a' args =>
      refine ⟨(hread.comma (ih (by simp) hargs).1).mono ?_, ?_⟩
      · rintro _ ⟨es₁, c, es₂, rfl, hc, h₁, h₂⟩
        exact .cons h₁ hc h₂
      · rw [argTexts, List.append_assoc]
        · exact hstarts.append _
        · simp

theorem reread_angleTexts {args : List TypeRef}
    (h : ∀ a ∈ args, Reread a.text (ReadsAs (typeArgument typeRef) · a) ∧ StartsType a.text) :
    (Reread (if args.isEmpty then [] else lit "<" ++ argTexts args ++ lit ">") fun es =>
      ∃ found, AngleArgs Group.typeArgs es found ∧
      unplacedAll (found.getLast?.getD []) = unplacedAll args) ∧
    EndsPart (if args.isEmpty then [] else lit "<" ++ argTexts args ++ lit ">") := by
  cases args with
  | nil => exact ⟨Reread.nil.mono fun es hes => ⟨[], hes ▸ .none, rfl⟩, endsPart_nil⟩
  | cons a args =>
    obtain ⟨hread, hstarts⟩ := reread_argTexts (by simp) h
    refine ⟨(hread.angle hstarts).mono ?_, ?_⟩
    · rintro _ ⟨g, rfl, hkind, hbare, hseparated⟩
      obtain ⟨ts, hts, heq⟩ := typeArgs_of_separatedAs hbare hseparated
      exact ⟨[ts], .some hkind hts, heq⟩
    · have hopening : lit "<" = [chr '<'] := by decide
      rw [hopening]
      rintro b ⟨⟩
      decide

theorem reread_bound {kind : TokenKind} {word : Text} {wildcard : Wildcard} {bound : TypeRef}
    (h : Reread bound.text (ReadsAs typeRef · bound)) (hword : IsWord kind word)
    (hkind : kind = .kwExtends ∧ wildcard = .upper ∨ kind = .kwSuper ∧ wildcard = .lower)
    (place : Place) :
    Reread (lit "? " ++ word ++ lit " " ++ bound.text)
      (ReadsAs (typeArgument typeRef) · { wildcard, args := [bound], place }) ∧
    StartsType (lit "? " ++ word ++ lit " " ++ bound.text) := by
  have hstarts : StartsType (lit "? ") := ⟨chr '?', by decide, Or.inr rfl⟩
  refine ⟨(h.bound hword ?_ ?_).mono ?_, ((hstarts.append _).append _).append _⟩
  · rcases hkind with ⟨rfl, -⟩ | ⟨rfl, -⟩ <;> rfl
  · rcases hkind with ⟨rfl, -⟩ | ⟨rfl, -⟩ <;> decide
  · rintro _ ⟨q, w, es, rfl, hq, rfl, hread⟩
    exact readsAs_bound hq hkind hread place

theorem reread_of_written {isArgument : Bool} {t : TypeRef} (h : Written isArgument t) :
    (Reread t.text fun es =>
      ReadsAs (typeArgument typeRef) es t ∧ (isArgument = false → ReadsAs typeRef es t)) ∧
      StartsType t.text := by
  induction h with
  | @primitive isArgument name dims place hname =>
    obtain ⟨hdims, hends⟩ := Reread.dims dims
    rw [TypeRef.text_simple]
    refine ⟨((Reread.of_word hname rfl (by decide)).append hdims hends).mono ?_,
      hname.startsType.append _⟩
    rintro _ ⟨_, pairs, rfl, ⟨w, rfl, hw, rfl⟩, hpairs⟩
    have hread : ReadsAs typeRef (.token w :: pairs)
        { name := w.text, dims, primitive := true, place } :=
      readsAs_simple (Or.inl hw) hpairs place
    exact ⟨hread.argument (by simp [hw]) (by simp [hw]), fun _ => hread⟩
  | @named isArgument first more args dims place hfirst hmore hargs ih =>
    obtain ⟨hdotted, hdottedEnds⟩ := Reread.dotted hmore
    obtain ⟨hangle, hangleEnds⟩ :=
      reread_angleTexts fun a ha => ⟨(ih a ha).1.mono fun _ h => h.1, (ih a ha).2⟩
    obtain ⟨hdims, hdimsEnds⟩ := Reread.dims dims
    have hname := (Reread.of_word hfirst rfl (by decide)).append hdotted hdottedEnds
    rw [TypeRef.text]
    refine ⟨((hname.append hangle hangleEnds).append hdims hdimsEnds).mono ?_, ?_⟩
    · rintro _ ⟨_, pairs, rfl,
        ⟨_, angle, rfl, ⟨_, dotted, rfl, ⟨w, rfl, hw, rfl⟩, hdotted⟩, found, hangle, hts⟩, hpairs⟩
      rw [List.append_assoc, List.append_assoc, List.singleton_append]
      have hread : ReadsAs typeRef (.token w :: (dotted ++ (angle ++ pairs)))
          { name := w.text ++ (more.map (lit "." ++ ·)).flatten, args, dims, place } :=
        readsAs_named hw hdotted hangle hpairs hts place
      exact ⟨hread.argument (by simp [hw]) (by simp [hw]), fun _ => hread⟩
    · exact ((hfirst.startsType.append _).append _).append _
  | @unbounded place =>
    rw [TypeRef.text]
    refine ⟨Reread.question.mono ?_, chr '?', by decide, Or.inr rfl⟩
    rintro _ ⟨q, rfl, hq⟩
    exact ⟨readsAs_unbounded hq place, by simp⟩
  | upper _ ih =>
    have hword : IsWord .kwExtends (lit "extends") :=
      ⟨_, _, rfl, by decide, List.all_eq_true.mp (by decide), by decide⟩
    obtain ⟨hread, hstarts⟩ :=
      reread_bound (ih.1.mono fun _ h => h.2 rfl) hword (Or.inl ⟨rfl, rfl⟩) _
    exact ⟨hread.mono fun es h => ⟨h, by simp⟩, hstarts⟩
  | lower _ ih =>
    have hword : IsWord .kwSuper (lit "super") :=
      ⟨_, _, rfl, by decide, List.all_eq_true.mp (by decide), by decide⟩
    obtain ⟨hread, hstarts⟩ :=
      reread_bound (ih.1.mono fun _ h => h.2 rfl) hword (Or.inr ⟨rfl, rfl⟩) _
    exact ⟨hread.mono fun es h => ⟨h, by simp⟩, hstarts⟩

theorem typeRef_of_spelled {s : Text} {words : List (TokenKind × Text)} {t : TypeRef}
    (hreturn : chr '\r' ∉ s) (hs : Spelled s words)
    (hts : ∀ ts : List Token, ts.map (·.spelling) = words →
      ∃ es, GroupsTo ts es ∧ (∀ e ∈ es, e.isComment = false) ∧ ReadsAs typeRef es t) (name : Text) :
    ∃ g t' s', Group.ofSource ⟨name, s⟩ = .ok g ∧ typeRef (.ofGroup g) = .ok t' s' ∧
      s'.hasNext = false ∧
      t'.unplaced = t.unplaced := by
  obtain ⟨ts, hscan, hwords⟩ := hs name 1 true 1
  obtain ⟨es, hgroups, hbare, hreads⟩ := hts ts hwords
  obtain ⟨g, hg, rfl⟩ : ∃ g, Group.ofSource ⟨name, s⟩ = .ok g ∧ g.children = es :=
    ⟨_, Except.bind_eq_ok.mpr
      ⟨_, (lex_eq_ok_iff hreturn).mpr ⟨ts, hscan, rfl⟩, hgroups.ofTokens rfl⟩, rfl⟩
  have hremaining : (Cursor.ofGroup g).remaining = g.children ++ [] := by
    rw [Cursor.remaining_ofGroup hbare, List.append_nil]
  obtain ⟨t', s', hread, hs', hend, ht⟩ :=
    hreads.reads _ [] (Cursor.settled_settle _) hremaining (by rintro e ⟨⟩)
  refine ⟨g, t', s', hg, hread, ?_, ht⟩
  simp [← Bool.not_eq_true, hasNext_iff_remaining hs', hend]

/-- **Reading the text of a type.** Wherever in a source a type was read, its text is a source of
its own that is read as this type up to its places, with nothing left over. -/
theorem typeRef_text {source : Source} {root : Group} {s s' : Cursor} {t : TypeRef}
    (hroot : Group.ofSource source = .ok root) (hs : ∀ e ∈ s.rest, root.Holds e)
    (h : typeRef s = .ok t s') (name : Text) :
    ∃ g t' s'', Group.ofSource ⟨name, t.text⟩ = .ok g ∧ typeRef (.ofGroup g) = .ok t' s'' ∧
      s''.hasNext = false ∧
      t'.unplaced = t.unplaced := by
  rcases written_of_typeRef hroot hs h with hwritten | ⟨word, dims, place, hword, rfl⟩
  · obtain ⟨hreturn, words, hwords, hts⟩ := (reread_of_written hwritten).1
    have hspelled := hwords [] [] endsPart_nil spelled_nil
    rw [List.append_nil, List.append_nil] at hspelled
    refine typeRef_of_spelled hreturn hspelled (fun ts heq => ?_) name
    obtain ⟨es, hes, hread⟩ := hts ts heq
    exact ⟨es, hes.groups, hes.bare, hread.2 rfl⟩
  · -- the search for a closing `>` stops at this word, so that it is no part of a larger type
    obtain ⟨⟨hreturn, words, hwords, hts⟩, hends⟩ := Reread.dims dims
    have hdims := hwords [] [] endsPart_nil spelled_nil
    rw [List.append_nil, List.append_nil] at hdims
    rw [TypeRef.text_simple]
    refine typeRef_of_spelled ?_ (hword.spelled hends.endsName hdims) (fun ts heq => ?_) name
    · rw [List.mem_append, not_or]
      exact ⟨Reread.return_notMem_of_word hword, hreturn⟩
    · obtain ⟨w, ts, rfl, hw, heq⟩ := List.map_eq_cons_iff.mp heq
      obtain ⟨es, hes, hpairs⟩ := hts ts heq
      obtain ⟨hkind, rfl⟩ := Prod.mk.inj hw
      have hgroups : GroupsTo [w] [.token w] := by
        refine groupsTo_token ?_ ?_ ?_ ?_ ?_ <;> rw [hkind] <;> decide
      refine ⟨.token w :: es, hgroups.append hes.groups, ?_,
        readsAs_simple (Or.inr hkind) hpairs place⟩
      exact List.forall_mem_cons.mpr ⟨by simp [Element.is, hkind], hes.bare⟩

/-- A type with an annotation, a comment, arguments that are replaced by later ones, and a comma
behind the last. -/
def boundedEntries : Source where
  name := lit "A"
  text := lit "@A Map<?>./* c */Entry<? super int[], List<? extends a.B>[],>[ ] x"

theorem typeRef_text_bounded :
    ∃ root t s', Group.ofSource boundedEntries = .ok root ∧
      (∀ e ∈ (Cursor.ofGroup root).rest, root.Holds e) ∧
      typeRef (.ofGroup root) = .ok t s' ∧
      t.text = lit "Map.Entry<? super int[], List<? extends a.B>[]>[]" ∧
      ∃ g t' s'', Group.ofSource ⟨lit "B", t.text⟩ = .ok g ∧ typeRef (.ofGroup g) = .ok t' s'' ∧
        s''.hasNext = false ∧ t'.unplaced = t.unplaced := by
  have htext : (Group.ofSource boundedEntries >>= fun root => typeRef.runOn root >>=
      fun t => .ok t.text) =
      .ok (lit "Map.Entry<? super int[], List<? extends a.B>[]>[]") := by decide +kernel
  obtain ⟨root, hroot, hread⟩ := Except.bind_eq_ok.mp htext
  obtain ⟨t, hrun, ht⟩ := Except.bind_eq_ok.mp hread
  obtain ⟨s', hs'⟩ := runOn_eq_ok.mp hrun
  have hrest : ∀ e ∈ (Cursor.ofGroup root).rest, root.Holds e := fun e he =>
    exists_placed_of_mem (Cursor.rest_ofGroup_subset root he) 0
  exact ⟨root, t, s', hroot, hrest, hs', Except.ok.inj ht, typeRef_text hroot hrest hs' (lit "B")⟩

end Unnest
