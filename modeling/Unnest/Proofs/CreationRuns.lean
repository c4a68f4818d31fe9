import Unnest.Proofs.Codes
import Unnest.Proofs.Reentry
import Mathlib

/-!
# Creations in code

An anonymous class is created where the word `new`, a dotted name, a pair of parentheses and a pair
of braces follow each other, with comments between them or not. Here such a run of elements is
described by what it consists of, without a cursor, and code is described by its elements: the
tokens of all groups in order, with a marker in place of each run that is not inside another one.

* `CreationRun`, `CreationRun.Spans`: the parts of a run, and the elements that make it up;
* `Marked`: elements flattened, with a marker for each outermost run;
* `Group.code_replaces_runs`: code is its elements flattened, with a class in the place of each
  marker.
-/

namespace Unnest

/-! ### Runs -/

/-- A part of a dotted name, with type arguments or without. -/
structure NamePart where
  name : Token
  typeArgs : Option Group
  name_eq : name.kind = .ident
  typeArgs_eq : ∀ g ∈ typeArgs, g.kind = .angle

def NamePart.elements (p : NamePart) : List Element :=
  .token p.name :: (p.typeArgs.map .group).toList

/-- What a part is read as. -/
def NamePart.scanned (p : NamePart) : Text × Option Group := (p.name.text, p.typeArgs)

/-- A part of a dotted name behind a point. -/
structure FurtherPart extends NamePart where
  point : Token
  point_eq : point.kind = .dot

def FurtherPart.dotted (p : FurtherPart) : List Element := .token p.point :: p.elements

/-- What the creation of an anonymous class consists of. -/
structure CreationRun where
  /-- The word `new`. -/
  word : Token
  first : NamePart
  more : List FurtherPart
  args : Group
  body : Group
  word_eq : word.kind = .kwNew
  args_eq : args.kind = .round
  body_eq : body.kind = .curly

namespace CreationRun

def nameElements (r : CreationRun) : List Element :=
  r.first.elements ++ r.more.flatMap FurtherPart.dotted

def elements (r : CreationRun) : List Element :=
  .token r.word :: (r.nameElements ++ [.group r.args, .group r.body])

def parts (r : CreationRun) : List NamePart := r.first :: r.more.map (·.toNamePart)

/-- The dotted name without type arguments. -/
def name (r : CreationRun) : Text := Text.join (lit ".") (r.parts.map (·.name.text))

def typeArgs? (r : CreationRun) : Option Group := (r.parts.filterMap (·.typeArgs)).getLast?

/-- The elements `es` are those of the run, but for comments between them. -/
structure Spans (r : CreationRun) (es : List Element) : Prop where
  elements : es.filter (!·.isComment) = r.elements
  starts : es.head? = some (.token r.word)
  ends : es.getLast? = some (.group r.body)

end CreationRun

/-- A token, or a marker for a run. -/
inductive Marker
  | token (t : Token)
  | creation (r : CreationRun)

/-- **Elements flattened with markers**: tokens and brackets in order, and a marker for each run
that is not inside another one. -/
inductive Marked : List Element → List Marker → Prop
  | nil : Marked [] []
  | creation {r : CreationRun} {run es : List Element} {ms : List Marker} (hrun : r.Spans run)
      (hes : Marked es ms) :
      Marked (run ++ es) (.creation r :: ms)
  | token {t : Token} {es : List Element} {ms : List Marker}
      (hnone : ∀ r run rest, .token t :: es = run ++ rest → ¬ CreationRun.Spans r run)
      (hes : Marked es ms) :
      Marked (.token t :: es) (.token t :: ms)
  | group {g : Group} {es : List Element} {inner ms : List Marker}
      (hinner : Marked g.children inner)
      (hes : Marked es ms) :
      Marked (.group g :: es) (.token g.opening :: inner ++ .token g.closing :: ms)

/-! ### What a cursor has in front of it -/

namespace Cursor

variable {s : Cursor} {e : Element} {es : List Element}

/-- The elements from the cursor on, comments apart. -/
def remaining (s : Cursor) : List Element := s.rest.filter (!·.isComment)

theorem remaining_settle (s : Cursor) : s.settle.remaining = s.remaining := by
  unfold remaining settle
  simp only
  induction s.rest with
  | nil => rfl
  | cons e es ih =>
    by_cases he : e.isComment = true
    · rw [List.dropWhile_cons_of_pos (by simpa using he), ih,
        List.filter_cons_of_neg (by simp [he])]
    · rw [List.dropWhile_cons_of_neg (by simpa using he)]

theorem remaining_of_current (hs : s.Settled) (he : s.current? = some e) :
    s.remaining = e :: s.next.remaining := by
  obtain ⟨rest, hrest⟩ : ∃ rest, s.rest = e :: rest := List.head?_eq_some_iff.mp he
  have hnext : s.next.remaining = rest.filter (!·.isComment) := by
    unfold next
    rw [hrest]
    exact remaining_settle _
  rw [hnext, remaining, hrest, List.filter_cons_of_pos (by simp [hs e he])]

theorem current_of_remaining (hs : s.Settled) (h : s.remaining = e :: es) :
    s.current? = some e ∧ s.next.Settled ∧ s.next.remaining = es := by
  cases hcurrent : s.current? with
  | none =>
    rw [remaining, List.head?_eq_none_iff.mp hcurrent] at h
    cases h
  | some e' =>
    rw [remaining_of_current hs hcurrent, List.cons.injEq] at h
    exact ⟨by rw [h.1], lasting_settled s hs, h.2⟩

theorem settled_skipAngle (hs : s.Settled) : s.skipAngle.Settled := lasting_settled.skipAngle hs

theorem remaining_skipAngle (hs : s.Settled) :
    s.remaining = ((s.groupAt? .angle).map .group).toList ++ s.skipAngle.remaining := by
  cases hangle : s.groupAt? .angle with
  | some g =>
    obtain ⟨hg, hkind⟩ := groupAt?_eq_some hangle
    have hskip : s.skipAngle = s.next := if_pos (isAtGroup_iff.mpr ⟨g, hg, hkind⟩)
    rw [hskip, remaining_of_current hs hg]
    rfl
  | none =>
    have hskip : s.skipAngle = s := by
      refine if_neg fun hat => ?_
      obtain ⟨g, hg, hkind⟩ := isAtGroup_iff.mp hat
      simp [groupAt?, hg, Element.isGroup, hkind, Element.group?] at hangle
    rw [hskip]
    rfl

/-! ### Dotted names -/

theorem exists_part (hs : s.Settled) (hident : s.isAt .ident = true) :
    ∃ p : NamePart, p.name = s.here ∧ p.typeArgs = s.next.groupAt? .angle ∧
      s.remaining = p.elements ++ s.next.skipAngle.remaining := by
  obtain ⟨t, ht, hkind⟩ := isAt_iff.mp hident
  have hangle : ∀ g ∈ s.next.groupAt? .angle, g.kind = .angle := fun g hg => (groupAt?_eq_some hg).2
  refine ⟨⟨t, s.next.groupAt? .angle, hkind, hangle⟩, by simp [here, ht, Element.firstToken],
    rfl, ?_⟩
  rw [remaining_of_current hs ht, remaining_skipAngle (lasting_settled s hs), NamePart.elements,
    List.cons_append]

theorem part_of_remaining (hs : s.Settled) {p : NamePart} (h : s.remaining = p.elements ++ e :: es)
    (he : e.isGroup .angle = false) : s.isAt .ident = true ∧ s.here = p.name ∧
      s.next.groupAt? .angle = p.typeArgs ∧ s.next.skipAngle.remaining = e :: es := by
  obtain ⟨hcurrent, hnext, hremaining⟩ := current_of_remaining hs h
  have hangle : s.next.groupAt? .angle = p.typeArgs := by
    cases hargs : p.typeArgs with
    | some g =>
      rw [hargs] at hremaining
      simp [groupAt?, (current_of_remaining hnext hremaining).1, Element.isGroup,
        p.typeArgs_eq g hargs, Element.group?]
    | none =>
      rw [hargs] at hremaining
      simp [groupAt?, (current_of_remaining hnext hremaining).1, he]
  refine ⟨isAt_iff.mpr ⟨p.name, hcurrent, p.name_eq⟩, by simp [here, hcurrent, Element.firstToken],
    hangle, ?_⟩
  have hsplit := remaining_skipAngle hnext
  rw [hremaining, hangle] at hsplit
  exact (List.append_cancel_left hsplit).symm

theorem exists_more_of_moreParts (hs : s.Settled) (h : s.moreParts.isWhole = true) :
    ∃ more : List FurtherPart, s.moreParts.parts = more.map (·.toNamePart.scanned) ∧
      s.remaining = more.flatMap FurtherPart.dotted ++ s.moreParts.cursor.remaining := by
  induction s using moreParts.induct with
  | case1 s hdot hident behind ih =>
    simp only [behind] at ih
    rw [moreParts_of_dot hdot hident] at h ⊢
    obtain ⟨point, hpoint, hkind⟩ := isAt_iff.mp hdot
    have hnext := lasting_settled s hs
    obtain ⟨p, hname, hargs, hremaining⟩ := exists_part hnext hident
    obtain ⟨more, hparts, hmore⟩ := ih (settled_skipAngle (lasting_settled _ hnext)) h
    refine ⟨⟨p, point, hkind⟩ :: more, ?_, ?_⟩
    · simp only [NameScan.cons, List.map_cons, hparts, NamePart.scanned, hname, hargs]
    · rw [remaining_of_current hs hpoint, hremaining, hmore]
      simp [NameScan.cons, FurtherPart.dotted]
  | case2 s hdot hident =>
    rw [moreParts_of_bare_dot hdot (by simpa using hident)] at h
    cases h
  | case3 s hdot =>
    rw [moreParts_of_not_dot (by simpa using hdot)]
    exact ⟨[], rfl, rfl⟩

theorem exists_head_of_more {args : Group} (hround : args.kind = .round) (more : List FurtherPart)
    (es : List Element) :
    ∃ e rest, more.flatMap FurtherPart.dotted ++ .group args :: es = e :: rest ∧
      e.isGroup .angle = false := by
  cases more with
  | nil => exact ⟨_, _, rfl, by simp [Element.isGroup, hround]⟩
  | cons p more => exact ⟨_, _, rfl, rfl⟩

theorem moreParts_of_remaining {args : Group} (hround : args.kind = .round)
    (more : List FurtherPart) (hs : s.Settled)
    (h : s.remaining = more.flatMap FurtherPart.dotted ++ .group args :: es) :
    s.moreParts.isWhole = true ∧ s.moreParts.parts = more.map (·.toNamePart.scanned) ∧
      s.moreParts.cursor.remaining = .group args :: es := by
  induction more generalizing s with
  | nil =>
    have hdot : s.isAt .dot = false := by simp [isAt, (current_of_remaining hs h).1, Element.is]
    rw [moreParts_of_not_dot hdot]
    exact ⟨rfl, rfl, h⟩
  | cons p more ih =>
    obtain ⟨e, rest, hrest, he⟩ := exists_head_of_more hround more es
    rw [List.flatMap_cons, List.append_assoc, hrest, FurtherPart.dotted, List.cons_append] at h
    obtain ⟨hpoint, hnext, hremaining⟩ := current_of_remaining hs h
    have hdot : s.isAt .dot = true := isAt_iff.mpr ⟨p.point, hpoint, p.point_eq⟩
    obtain ⟨hident, hhere, hangle, hbehind⟩ := part_of_remaining hnext hremaining he
    obtain ⟨hwhole, hparts, hcursor⟩ :=
      ih (settled_skipAngle (lasting_settled _ hnext)) (hbehind.trans hrest.symm)
    rw [moreParts_of_dot hdot hident]
    refine ⟨hwhole, ?_, hcursor⟩
    simp only [NameScan.cons, hparts, List.map_cons, NamePart.scanned, hhere, hangle]

theorem exists_parts_of_typeName (hs : s.Settled) (hident : s.isAt .ident = true)
    (h : s.typeName.isWhole = true) :
    ∃ (first : NamePart) (more : List FurtherPart),
      s.remaining = first.elements ++ more.flatMap FurtherPart.dotted ++
      s.typeName.cursor.remaining := by
  obtain ⟨first, -, -, hfirst⟩ := exists_part hs hident
  obtain ⟨more, -, hmore⟩ := exists_more_of_moreParts (settled_skipAngle (lasting_settled _ hs)) h
  refine ⟨first, more, ?_⟩
  rw [hfirst, hmore, List.append_assoc]
  rfl

theorem typeName_of_remaining (r : CreationRun) (hs : s.Settled)
    (h : s.remaining = r.nameElements ++ .group r.args :: es) :
    s.isAt .ident = true ∧ s.here = r.first.name ∧ s.typeName.isWhole = true ∧
      s.typeName.parts = r.parts.map NamePart.scanned ∧
      s.typeName.cursor.remaining = .group r.args :: es := by
  obtain ⟨e, behind, hbehind, he⟩ := exists_head_of_more r.args_eq r.more es
  rw [CreationRun.nameElements, List.append_assoc, hbehind] at h
  obtain ⟨hident, hhere, hangle, hfirst⟩ := part_of_remaining hs h he
  obtain ⟨hwhole, hparts, hcursor⟩ := moreParts_of_remaining r.args_eq r.more
    (settled_skipAngle (lasting_settled _ hs)) (hfirst.trans hbehind.symm)
  refine ⟨hident, hhere, hwhole, ?_, hcursor⟩
  simp [typeName, NameScan.cons, hparts, CreationRun.parts, NamePart.scanned, hhere, hangle]

/-! ### Positions -/

theorem length_filter_drop_lt {p : Element → Bool} {i j : Nat} (hij : i < j) {rest : List Element}
    (hi : es.drop i = e :: rest) (he : p e = true) :
    ((es.drop j).filter p).length < ((es.drop i).filter p).length := by
  have hj : es.drop j = rest.drop (j - (i + 1)) := by
    have hrest : rest = es.drop (i + 1) := by rw [← List.tail_drop, hi, List.tail_cons]
    rw [hrest, List.drop_drop, Nat.add_sub_cancel' hij]
  rw [hi, hj, List.filter_cons_of_pos he, List.length_cons]
  exact Nat.lt_succ_of_le ((List.drop_sublist _ _).filter p).length_le

theorem pos_of_remaining (hs : s.Settled) (hover : s.Over es) {front rest : List Element}
    (hes : es = front ++ e :: rest) (he : e.isComment = false)
    (h : s.remaining = e :: rest.filter (!·.isComment)) : s.pos = front.length := by
  have hat : es.drop s.pos = e :: es.drop (s.pos + 1) :=
    hover.drop_of_current (current_of_remaining hs h).1
  have hfront : es.drop front.length = e :: rest := by rw [hes, List.drop_left]
  have hlength : ((es.drop s.pos).filter (!·.isComment)).length =
      ((es.drop front.length).filter (!·.isComment)).length := by
    rw [← hover, ← remaining, h, hfront, List.filter_cons_of_pos (by simp [he])]
  rcases Nat.lt_trichotomy s.pos front.length with hlt | heq | hlt
  · exact absurd hlength (length_filter_drop_lt hlt hat (by simp [he])).ne'
  · exact heq
  · exact absurd hlength (length_filter_drop_lt hlt hfront (by simp [he])).ne

end Cursor

/-! ### Creations and runs -/

open Cursor in
/-- **A creation that is found** is a run of elements. -/
theorem exists_spans_of_find? {t : Token} {es : List Element} {c : Creation} (ht : t.kind = .kwNew)
    (h : Creation.find? es = some c) :
    ∃ r run rest, .token t :: es = run ++ rest ∧ CreationRun.Spans r run := by
  have hs : (Cursor.ofList es {}).Settled := settled_settle _
  have hover : (Cursor.ofList es {}).Over es := Over.settle rfl
  have hall : (Cursor.ofList es {}).remaining = es.filter (!·.isComment) := remaining_settle _
  unfold Creation.find? at h
  simp only at h
  split_ifs at h with hident hwhole
  obtain ⟨args, hargs, h⟩ := Option.bind_eq_some_iff.mp h
  obtain ⟨body, hbody, -⟩ := Option.map_eq_some_iff.mp h
  obtain ⟨first, more, hname⟩ := exists_parts_of_typeName hs hident hwhole
  have hsettled : (Cursor.ofList es {}).typeName.cursor.Settled := lasting_settled.typeName hs
  have hover : (Cursor.ofList es {}).typeName.cursor.Over es := (lasting_over es).typeName hover
  -- from here on only the cursor at the parentheses matters
  generalize (Cursor.ofList es {}).typeName.cursor = u at *
  obtain ⟨hargs, hround⟩ := groupAt?_eq_some hargs
  obtain ⟨hbody, hcurly⟩ := groupAt?_eq_some hbody
  have hnext : u.next.Over es := lasting_over es u hover
  have htake : es.take (u.next.pos + 1) = es.take u.next.pos ++ [.group body] := by
    rw [List.take_add_one, ← List.head?_drop, hnext.drop_of_current hbody]
    rfl
  have hfront : (es.take u.next.pos).filter (!·.isComment) =
      first.elements ++ more.flatMap FurtherPart.dotted ++ [.group args] := by
    refine (List.append_left_inj u.next.remaining).mp ?_
    calc (es.take u.next.pos).filter (!·.isComment) ++ u.next.remaining
      _ = es.filter (!·.isComment) := by
        rw [remaining, hnext, ← List.filter_append, List.take_append_drop]
      _ = first.elements ++ more.flatMap FurtherPart.dotted ++ u.remaining := by rw [← hall, hname]
      _ = _ := by
        rw [remaining_of_current hsettled hargs]
        simp
  refine ⟨⟨t, first, more, args, body, ht, hround, hcurly⟩, .token t :: es.take (u.next.pos + 1),
    es.drop (u.next.pos + 1), by simp, ?_, rfl, ?_⟩
  · rw [htake, List.filter_cons_of_pos (by simp [Element.is, ht]), List.filter_append, hfront]
    simp [CreationRun.elements, CreationRun.nameElements, Element.is]
  · rw [htake, ← List.cons_append, List.getLast?_concat]

theorem CreationRun.Spans.exists_front {r : CreationRun} {run : List Element} (h : r.Spans run) :
    ∃ front, run = .token r.word :: (front ++ [.group r.body]) ∧
      front.filter (!·.isComment) = r.nameElements ++ [.group r.args] := by
  obtain ⟨tail, rfl⟩ := List.head?_eq_some_iff.mp h.starts
  have hends := h.ends
  rcases List.eq_nil_or_concat tail with rfl | ⟨front, e, rfl⟩
  · cases hends
  rw [List.concat_eq_append, ← List.cons_append, List.getLast?_concat, Option.some.injEq] at hends
  subst hends
  refine ⟨front, by rw [List.concat_eq_append], (List.append_left_inj [.group r.body]).mp ?_⟩
  have helements := h.elements
  rw [List.filter_cons_of_pos (by simp [Element.is, r.word_eq]), CreationRun.elements,
    List.cons.injEq, List.concat_eq_append, List.filter_append] at helements
  simpa [Element.is] using helements.2

open Cursor in
/-- **Where a run begins**, a creation is found that has its parts. -/
theorem find?_of_spans {r : CreationRun} {run rest es : List Element} {t : Token}
    (hspans : r.Spans run) (h : .token t :: es = run ++ rest) :
    t = r.word ∧ ∃ c, Creation.find? es = some c ∧ c.place = r.first.name.place ∧
    c.base.name = r.name ∧
      c.base.args? = r.typeArgs? ∧ c.args = r.args ∧ c.body = r.body ∧ es.drop c.length = rest := by
  obtain ⟨front, rfl, hfront⟩ := hspans.exists_front
  rw [List.cons_append, List.cons.injEq, Element.token.injEq] at h
  obtain ⟨ht, hes⟩ := h
  obtain ⟨s, hstart⟩ : ∃ s, s = Cursor.ofList es {} := ⟨_, rfl⟩
  have hs : s.Settled := hstart ▸ settled_settle _
  have hover : s.Over es := hstart ▸ Over.settle rfl
  have hall : s.remaining = r.nameElements ++ .group r.args :: .group r.body ::
      rest.filter (!·.isComment) := by
    have hremaining : s.remaining = es.filter (!·.isComment) := hstart ▸ remaining_settle _
    rw [hremaining, hes, List.filter_append, List.filter_append, hfront]
    simp [Element.is]
  obtain ⟨hident, hhere, hwhole, hparts, hcursor⟩ := typeName_of_remaining r hs hall
  -- the parentheses and the braces follow the name
  obtain ⟨hargs, hnext, hbraces⟩ := current_of_remaining (lasting_settled.typeName hs) hcursor
  have hbody := (current_of_remaining hnext hbraces).1
  have hpos : s.typeName.cursor.next.pos = front.length :=
    pos_of_remaining hnext (lasting_over es _ ((lasting_over es).typeName hover))
    (by simp [hes]) rfl hbraces
  have hgroupArgs : s.typeName.cursor.groupAt? .round = some r.args := by
    simp [groupAt?, hargs, Element.isGroup, r.args_eq, Element.group?]
  have hgroupBody : s.typeName.cursor.next.groupAt? .curly = some r.body := by
    simp [groupAt?, hbody, Element.isGroup, r.body_eq, Element.group?]
  refine ⟨ht, ⟨s.here.place, s.typeName, r.args, r.body, s.typeName.cursor.next.pos + 1⟩, ?_, ?_,
    ?_, ?_, rfl, rfl, ?_⟩
  · simp only [Creation.find?, ← hstart, hident, hwhole, if_true, hgroupArgs, Option.bind_some,
      hgroupBody, Option.map_some]
  · rw [hhere]
  · simp only [NameScan.name, hparts, CreationRun.name, List.map_map]
    rfl
  · simp only [NameScan.args?, hparts, CreationRun.typeArgs?, List.filterMap_map]
    rfl
  · rw [hpos, hes, List.drop_left' (by simp)]

/-! ### Elements with markers -/

theorem exists_marked (es : List Element) : ∃ ms, Marked es ms := by
  induction hn : (flattenAll es).length using Nat.strong_induction_on generalizing es with
  | h n ih =>
    cases es with
    | nil => exact ⟨[], .nil⟩
    | cons e es =>
      cases e with
      | group g =>
        simp only [flattenAll_group, List.length_cons, List.length_append] at hn
        obtain ⟨inner, hinner⟩ := ih _ (by omega) g.children rfl
        obtain ⟨ms, hms⟩ := ih _ (by omega) es rfl
        exact ⟨_, .group hinner hms⟩
      | token t =>
        change (flattenAll es).length + 1 = n at hn
        by_cases hrun : ∃ r run rest, .token t :: es = run ++ rest ∧ CreationRun.Spans r run
        · obtain ⟨r, run, rest, hsplit, hspans⟩ := hrun
          have hlength : (flattenAll rest).length < n := by
            obtain ⟨tail, rfl⟩ := List.head?_eq_some_iff.mp hspans.starts
            rw [List.cons_append, List.cons.injEq] at hsplit
            rw [hsplit.2, flattenAll_append, List.length_append] at hn
            omega
          obtain ⟨ms, hms⟩ := ih _ hlength rest rfl
          rw [hsplit]
          exact ⟨_, .creation hspans hms⟩
        · obtain ⟨ms, hms⟩ := ih _ (by omega) es rfl
          exact ⟨_, .token (fun r run rest hsplit hspans => hrun ⟨r, run, rest, hsplit, hspans⟩)
            hms⟩

theorem Marked.eq_flattenAll {es : List Element} {ms : List Marker} (h : Marked es ms)
    (hnone : ∀ r, .creation r ∉ ms) : ms = (flattenAll es).map .token := by
  induction h with
  | nil => rfl
  | creation _ _ _ => exact absurd List.mem_cons_self (hnone _)
  | token _ _ ih =>
    rw [ih fun r hr => hnone r (List.mem_cons_of_mem _ hr)]
    rfl
  | @group g es inner ms _ _ ihinner ih =>
    rw [ihinner fun r hr => hnone r (by simp [hr]), ih fun r hr => hnone r (by simp [hr]),
      flattenAll_group]
    simp

/-! ### Code -/

/-- The class `a` is the one that a run creates. -/
structure CreationRun.Creates (r : CreationRun) (a : Anonymous) : Prop where
  place : a.place = r.word.place
  base : ∃ typeArgs, r.typeArgs?.elim (.ok []) Group.typeArgs = .ok typeArgs ∧
    a.base = { name := r.name, args := typeArgs, place := r.first.name.place }
  args : ∃ args, r.args.code = .ok args ∧ a.args = some args
  members : r.body.members {} = .ok a.members
  endLine : a.endLine = r.body.closing.line
  label : a.label = none

/-- The piece stands where the marker does: the same token, or the class that the run creates. -/
inductive Piece.Fills : Piece → Marker → Prop
  | token (t : Token) : Fills (.token t) (.token t)
  | creation {r : CreationRun} {a : Anonymous} (h : r.Creates a) : Fills (.creation a) (.creation r)

/-- The tokens of a segment, and the creation behind them. -/
def Segment.pieces (s : Segment) : List Piece :=
  s.tokens.map .token ++ (s.creation.map .creation).toList

theorem flatMap_segmentsOf (ps : List Piece) : (segmentsOf ps).flatMap Segment.pieces = ps := by
  induction ps with
  | nil => rfl
  | cons p ps ih =>
    cases p with
    | creation a =>
      rw [segmentsOf, List.flatMap_cons, ih]
      rfl
    | token t =>
      rw [segmentsOf]
      nth_rewrite 2 [← ih]
      cases segmentsOf ps <;> rfl

namespace Inside

theorem full_pieces (es : List Element) : full.pieces es = piecesWith full 0 es :=
  (congrFun (congrArg Inside.pieces outward_full) es).symm

theorem ofGroup_full (g : Group) : Code.ofGroup full g = g.code := rfl

theorem full_members (ctx : BodyContext) (g : Group) : full.members ctx g = g.members ctx := by
  have hrest : SameOn (Cursor.ofGroup g).rest (insideAt (depthAll (Cursor.ofGroup g).rest)) full :=
    sameOn_insideAt_full le_rfl
  calc full.members ctx g = full.outward.members ctx g := by rw [outward_full]
    _ = g.members ctx := hrest.agrees.outward_members (fun _ => id) ctx

end Inside

theorem Marked.fills {es : List Element} {ms : List Marker} (h : Marked es ms) {ps : List Piece}
    (hps : Inside.full.pieces es = .ok ps) : List.Forall₂ Piece.Fills ps ms := by
  induction h generalizing ps with
  | nil =>
    cases hps
    exact .nil
  | @creation r run es ms hrun _ ih =>
    obtain ⟨tail, rfl⟩ := List.head?_eq_some_iff.mp hrun.starts
    have hsplit : .token r.word :: (tail ++ es) = .token r.word :: tail ++ es := rfl
    obtain ⟨-, c, hfind, hplace, hname, htypeArgs, hargs, hbody, hrest⟩ :=
      find?_of_spans hrun hsplit
    rw [Inside.full_pieces, List.cons_append, piecesWith_creation r.word_eq hfind, piecesWith_skip,
      hrest, ← Inside.full_pieces, Creation.anonymous_eq, hargs, hbody, Inside.ofGroup_full,
      Inside.full_members] at hps
    obtain ⟨a, ha, hps⟩ := Except.bind_eq_ok.mp hps
    obtain ⟨rest, hrest, hps⟩ := Except.bind_eq_ok.mp hps
    obtain ⟨typeArgs, htypes, ha⟩ := Except.bind_eq_ok.mp ha
    obtain ⟨args, hcode, ha⟩ := Except.bind_eq_ok.mp ha
    obtain ⟨members, hmembers, ha⟩ := Except.bind_eq_ok.mp ha
    cases ha
    cases hps
    refine .cons (.creation ⟨rfl, ⟨typeArgs, ?_, ?_⟩, ⟨args, hcode, rfl⟩, hmembers, rfl, rfl⟩)
      (ih hrest)
    · rw [← htypes, ← htypeArgs, Creation.typeArgs]
      cases c.base.args? <;> rfl
    · rw [hname, hplace]
  | @token t es ms hnone _ ih =>
    have hfind : (if (Element.token t).is .kwNew then Creation.find? es else none) = none := by
      refine Option.eq_none_iff_forall_not_mem.mpr fun c hc => ?_
      obtain ⟨t', ⟨⟩, ht, hfind⟩ := exists_new_of_find? hc
      obtain ⟨r, run, rest, hsplit, hspans⟩ := exists_spans_of_find? ht hfind
      exact hnone r run rest hsplit hspans
    rw [Inside.full_pieces, piecesWith_token hfind, ← Inside.full_pieces] at hps
    obtain ⟨rest, hrest, hps⟩ := Except.bind_eq_ok.mp hps
    cases hps
    exact .cons (.token t) (ih hrest)
  | @group g es inner ms _ _ ihinner ih =>
    rw [Inside.full_pieces, piecesWith_group, ← Inside.full_pieces es] at hps
    obtain ⟨pieces, hpieces, hps⟩ := Except.bind_eq_ok.mp hps
    obtain ⟨rest, hrest, hps⟩ := Except.bind_eq_ok.mp hps
    cases hps
    exact .cons (.token _) (List.rel_append (ihinner hpieces) (.cons (.token _) (ih hrest)))

theorem eq_tokens_of_fills {ps : List Piece} {ts : List Token}
    (h : List.Forall₂ Piece.Fills ps (ts.map .token)) : ps = ts.map .token := by
  induction ts generalizing ps with
  | nil =>
    cases h
    rfl
  | cons t ts ih =>
    cases h with
    | cons hpiece hrest =>
      cases hpiece
      rw [List.map_cons, ih hrest]

/-- **Code**. The elements of a group can be flattened with a marker for each outermost run that
creates an anonymous class. Then the segments of the code of the group, one after the other, are the
tokens, with the class that the run creates in the place of each marker: its base is the dotted
name, its arguments are the code in the parentheses and its members are those in the braces. Without
a marker, the segments are the tokens of the group. -/
theorem Group.code_replaces_runs {g : Group} {c : Code} (h : g.code = .ok c) :
    (∃ ms, Marked g.children ms) ∧ ∀ ms, Marked g.children ms →
      List.Forall₂ Piece.Fills (c.segments.flatMap Segment.pieces) ms ∧
      ((∀ r, .creation r ∉ ms) →
        c.segments.flatMap Segment.pieces = (flattenAll g.children).map .token) := by
  have hpieces : Inside.full.pieces g.children = .ok c.pieces := by
    obtain ⟨pieces, hpieces, hc⟩ := Except.bind_eq_ok.mp h
    cases hc
    exact hpieces
  refine ⟨exists_marked g.children, fun ms hms => ?_⟩
  rw [Code.segments, flatMap_segmentsOf]
  refine ⟨hms.fills hpieces, fun hnone => eq_tokens_of_fills ?_⟩
  rw [← hms.eq_flattenAll hnone]
  exact hms.fills hpieces

/-- A creation inside of parentheses with comments, a dotted name, another creation among its
arguments and a field, and `new` without braces. -/
def creationInCall : Source :=
  ⟨lit "S", lit "f(new a./**/B<T>(new C() {}) /**/ { int y; }, new D(1));"⟩

/-- What a piece shows: the text of a token, or the base of a class. -/
def Piece.shown : Piece → Text ⊕ Text
  | .token t => .inl t.text
  | .creation a => .inr a.base.name

/-- Only the outer creation is a marker, and it is filled by a class with the dotted name for its
base. -/
theorem code_replaces_creation_in_call :
    ∃ root c ms, Group.ofSource creationInCall = .ok root ∧ root.code = .ok c ∧
    Marked root.children ms ∧ List.Forall₂ Piece.Fills (c.segments.flatMap Segment.pieces) ms ∧
    (c.segments.flatMap Segment.pieces).map Piece.shown =
      [.inl (lit "f"), .inl (lit "("), .inr (lit "a.B"), .inl (lit ","), .inl (lit "new"),
        .inl (lit "D"), .inl (lit "("), .inl (lit "1"), .inl (lit ")"), .inl (lit ")"),
        .inl (lit ";")] := by
  have hview : ((Group.ofSource creationInCall).bind fun root => root.code.map fun c =>
      (c.segments.flatMap Segment.pieces).map Piece.shown) =
      .ok [.inl (lit "f"), .inl (lit "("), .inr (lit "a.B"), .inl (lit ","), .inl (lit "new"),
        .inl (lit "D"), .inl (lit "("), .inl (lit "1"), .inl (lit ")"), .inl (lit ")"),
        .inl (lit ";")] := by
    cbv
  obtain ⟨root, hroot, hview⟩ := Except.bind_eq_ok.mp hview
  obtain ⟨c, hc, hshown⟩ := Except.map_eq_ok.mp hview
  obtain ⟨⟨ms, hms⟩, hfills⟩ := Group.code_replaces_runs hc
  exact ⟨root, c, ms, hroot, hc, hms, (hfills ms hms).1, hshown⟩

end Unnest
