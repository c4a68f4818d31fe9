import Unnest.Proofs.Twins

/-!
# Trees and cursors without comments

A tree of elements can be cleared of its comments, at every depth. A cursor over the cleared
elements is a shadow of a cursor over the elements themselves: the two stand at the same element,
but their positions differ. Whatever moves a cursor moves its shadow along.

* `Element.uncommented`, `uncommentedAll`, `Group.uncommented`: a tree without its comments;
* `Cursor.Shadow`: a cursor and its shadow;
* `Shadow.next`, `Shadow.skipAngle`, `Shadow.typeName`: moving both.
-/

namespace Unnest

open Unnest.Parser

/-! ### Trees without comments -/

mutual

/-- An element without the comments inside it. -/
def Element.uncommented : Element → Element
  | .token t => .token t
  | .group ⟨kind, opening, closing, children⟩ =>
    .group ⟨kind, opening, closing, uncommentedAll children⟩

/-- Elements without the comments among them and inside them. -/
def uncommentedAll : List Element → List Element
  | [] => []
  | e :: es => if e.isComment then uncommentedAll es else e.uncommented :: uncommentedAll es

end

/-- A group without the comments inside it. -/
def Group.uncommented (g : Group) : Group := { g with children := uncommentedAll g.children }

namespace Element

@[simp]
theorem uncommented_token (t : Token) : (token t).uncommented = token t := rfl

@[simp]
theorem uncommented_group (g : Group) : (group g).uncommented = group g.uncommented := by
  obtain ⟨kind, opening, closing, children⟩ := g
  rfl

@[simp]
theorem is_uncommented (e : Element) (kind : TokenKind) : e.uncommented.is kind = e.is kind := by
  cases e with
  | token t => rfl
  | group g =>
    rw [uncommented_group]
    rfl

@[simp]
theorem isGroup_uncommented (e : Element) (kind : GroupKind) :
    e.uncommented.isGroup kind = e.isGroup kind := by
  cases e with
  | token t => rfl
  | group g =>
    rw [uncommented_group]
    rfl

@[simp]
theorem firstToken_uncommented (e : Element) : e.uncommented.firstToken = e.firstToken := by
  cases e with
  | token t => rfl
  | group g =>
    rw [uncommented_group]
    rfl

@[simp]
theorem group?_uncommented (e : Element) :
    e.uncommented.group? = e.group?.map Group.uncommented := by
  cases e with
  | token t => rfl
  | group g =>
    rw [uncommented_group]
    rfl

end Element

section Lists

variable {e : Element} {es : List Element}

@[simp]
theorem uncommentedAll_nil : uncommentedAll [] = [] := rfl

theorem uncommentedAll_comment (h : e.isComment = true) (es : List Element) :
    uncommentedAll (e :: es) = uncommentedAll es := by
  rw [uncommentedAll, if_pos h]

theorem uncommentedAll_cons (h : e.isComment = false) (es : List Element) :
    uncommentedAll (e :: es) = e.uncommented :: uncommentedAll es := by
  rw [uncommentedAll, if_neg (by simp [h])]

theorem uncommentedAll_eq (es : List Element) :
    uncommentedAll es = (es.filter (!·.isComment)).map Element.uncommented := by
  induction es with
  | nil => rfl
  | cons e es ih =>
    cases h : e.isComment with
    | true => simp [uncommentedAll_comment h, ih, h]
    | false => simp [uncommentedAll_cons h, ih, h]

theorem uncommentedAll_append (es es' : List Element) :
    uncommentedAll (es ++ es') = uncommentedAll es ++ uncommentedAll es' := by
  simp only [uncommentedAll_eq, List.filter_append, List.map_append]

theorem uncommentedAll_dropWhile (es : List Element) :
    uncommentedAll (es.dropWhile (·.isComment)) = uncommentedAll es := by
  induction es with
  | nil => rfl
  | cons e es ih =>
    cases h : e.isComment with
    | true => rw [List.dropWhile_cons_of_pos h, ih, uncommentedAll_comment h]
    | false => rw [List.dropWhile_cons_of_neg (by simp [h])]

theorem isComment_of_mem_uncommentedAll (h : e ∈ uncommentedAll es) : e.isComment = false := by
  rw [uncommentedAll_eq, List.mem_map] at h
  obtain ⟨x, hx, rfl⟩ := h
  have hx := (List.mem_filter.mp hx).2
  rw [Element.isComment, Element.is_uncommented]
  simpa using hx

theorem dropWhile_uncommentedAll (es : List Element) :
    (uncommentedAll es).dropWhile (·.isComment) = uncommentedAll es := by
  refine List.dropWhile_eq_self_iff.mpr fun h => ?_
  have := isComment_of_mem_uncommentedAll (List.getElem_mem h)
  simp [this]

theorem all_isComment_uncommentedAll (es : List Element) :
    (uncommentedAll es).all (·.isComment) = es.all (·.isComment) := by
  induction es with
  | nil => rfl
  | cons e es ih =>
    cases h : e.isComment with
    | true => rw [uncommentedAll_comment h, ih, List.all_cons, h, Bool.true_and]
    | false =>
      have h' : e.uncommented.isComment = false := by
        rwa [Element.isComment, Element.is_uncommented]
      rw [uncommentedAll_cons h, List.all_cons, List.all_cons, h, h', Bool.false_and,
        Bool.false_and]

end Lists

mutual

theorem Element.uncommented_uncommented : ∀ e : Element, e.uncommented.uncommented = e.uncommented
  | .token _ => rfl
  | .group ⟨kind, opening, closing, children⟩ => by
    simp only [Element.uncommented, uncommentedAll_uncommentedAll children]

theorem uncommentedAll_uncommentedAll : ∀ es : List Element,
    uncommentedAll (uncommentedAll es) = uncommentedAll es
  | [] => rfl
  | e :: es => by
    have he := Element.uncommented_uncommented e
    have hes := uncommentedAll_uncommentedAll es
    cases h : e.isComment with
    | true => rw [uncommentedAll_comment h, hes]
    | false =>
      have h' : e.uncommented.isComment = false := by
        rwa [Element.isComment, Element.is_uncommented]
      rw [uncommentedAll_cons h, uncommentedAll_cons h', he, hes]

end

mutual

theorem Element.depth_uncommented : ∀ e : Element, e.uncommented.depth = e.depth
  | .token _ => rfl
  | .group ⟨kind, opening, closing, children⟩ => by
    simp only [Element.uncommented, Element.depth, depthAll_uncommentedAll children]

theorem depthAll_uncommentedAll : ∀ es : List Element, depthAll (uncommentedAll es) = depthAll es
  | [] => rfl
  | e :: es => by
    have he := Element.depth_uncommented e
    have hes := depthAll_uncommentedAll es
    cases h : e.isComment with
    | true =>
      have hdepth : e.depth = 0 := by
        cases e with
        | token t => rfl
        | group g => simp [Element.is] at h
      rw [uncommentedAll_comment h, hes, depthAll, hdepth, Nat.zero_max]
    | false => rw [uncommentedAll_cons h, depthAll, depthAll, he, hes]

end

mutual

theorem Element.flatten_uncommented : ∀ e : Element,
    e.uncommented.flatten.filter (·.kind != .comment) = e.flatten.filter (·.kind != .comment)
  | .token _ => rfl
  | .group ⟨kind, opening, closing, children⟩ => by
    have hchildren := flattenAll_uncommentedAll children
    simp only [Element.uncommented, Element.flatten, List.cons_append, List.filter_cons,
      List.filter_append, hchildren]

theorem flattenAll_uncommentedAll : ∀ es : List Element,
    (flattenAll (uncommentedAll es)).filter (·.kind != .comment) =
      (flattenAll es).filter (·.kind != .comment)
  | [] => rfl
  | e :: es => by
    have he := Element.flatten_uncommented e
    have hes := flattenAll_uncommentedAll es
    cases h : e.isComment with
    | true =>
      have hflatten : e.flatten.filter (·.kind != .comment) = [] := by
        cases e with
        | token t =>
          have ht : t.kind = .comment := by simpa [Element.is] using h
          simp [Element.flatten, ht]
        | group g => simp [Element.is] at h
      rw [uncommentedAll_comment h, hes, flattenAll, List.filter_append, hflatten, List.nil_append]
    | false =>
      rw [uncommentedAll_cons h, flattenAll, flattenAll, List.filter_append, List.filter_append,
        he, hes]

end

theorem spacedText_uncommentedAll (es : List Element) :
    spacedText (flattenAll (uncommentedAll es)) = spacedText (flattenAll es) := by
  unfold spacedText
  rw [flattenAll_uncommentedAll]

/-! ### Cursors -/

namespace Cursor

/-- The cursor `s'` walks over the elements of `s` without their comments. The elements of `s` are
the last ones of `es`, which the walk began with. -/
structure Shadow (es : List Element) (s s' : Cursor) : Prop where
  rest : s'.rest = uncommentedAll s.rest
  closing : s'.closing = s.closing
  /-- No comment stands at the cursor. -/
  settled : ∀ e, s.current? = some e → e.isComment = false
  suffix : s.rest <:+ es

theorem shadow_settle {es : List Element} {s s' : Cursor} (hrest : s'.rest = uncommentedAll s.rest)
    (hclosing : s'.closing = s.closing) (hsuffix : s.rest <:+ es) :
    Shadow es s.settle s'.settle where
  rest := by
    simp only [settle]
    rw [uncommentedAll_dropWhile, hrest, dropWhile_uncommentedAll]
  closing := hclosing
  settled e he := by
    have hhead := List.head?_dropWhile_not (fun e : Element => e.isComment) s.rest
    simp only [settle, current?] at he
    rw [he] at hhead
    simpa using hhead
  suffix := (List.dropWhile_suffix _).trans hsuffix

theorem shadow_ofList (es : List Element) (closing : Token) :
    Shadow es (ofList es closing) (ofList (uncommentedAll es) closing) :=
  shadow_settle rfl rfl List.suffix_rfl

theorem shadow_ofGroup (g : Group) : Shadow g.children (ofGroup g) (ofGroup g.uncommented) :=
  shadow_ofList g.children g.closing

namespace Shadow

variable {es : List Element} {s s' t t' : Cursor}

theorem length_rest_lt_iff (h : Shadow es s s') (h' : Shadow es t t') :
    t'.rest.length < s'.rest.length ↔ t.rest.length < s.rest.length := by
  have hlt : ∀ {s s' t t' : Cursor}, Shadow es s s' → Shadow es t t' →
      t.rest.length < s.rest.length →
      t'.rest.length < s'.rest.length := by
    intro s s' t t' h h' hlt
    obtain ⟨front, hfront⟩ := List.suffix_of_suffix_length_le h'.suffix h.suffix hlt.le
    have hsettled := h.settled
    unfold Cursor.current? at hsettled
    rw [h.rest, h'.rest]
    rw [← hfront] at hsettled hlt ⊢
    cases front with
    | nil => exact absurd hlt (lt_irrefl _)
    | cons e front =>
      rw [List.cons_append, uncommentedAll_cons (hsettled e rfl), uncommentedAll_append]
      simp only [List.length_cons, List.length_append]
      omega
  refine ⟨fun hlt' => ?_, hlt h h'⟩
  rcases lt_trichotomy t.rest.length s.rest.length with hless | hsame | hmore
  · exact hless
  · have hsuffix := List.suffix_of_suffix_length_le h'.suffix h.suffix hsame.le
    rw [h.rest, h'.rest, hsuffix.eq_of_length hsame] at hlt'
    exact absurd hlt' (lt_irrefl _)
  · exact absurd (hlt h' h hmore) hlt'.asymm

section Views

variable (h : Shadow es s s')
include h

theorem current? : s'.current? = s.current?.map Element.uncommented := by
  have hsettled := h.settled
  unfold Cursor.current? at hsettled ⊢
  rw [h.rest]
  cases hrest : s.rest with
  | nil => rfl
  | cons e es =>
    rw [hrest] at hsettled
    rw [uncommentedAll_cons (hsettled e rfl)]
    rfl

theorem isAt (kind : TokenKind) : s'.isAt kind = s.isAt kind := by
  simp only [Cursor.isAt, h.current?, Option.any_map, Element.is_uncommented]

theorem isAtGroup (kind : GroupKind) : s'.isAtGroup kind = s.isAtGroup kind := by
  simp only [Cursor.isAtGroup, h.current?, Option.any_map, Element.isGroup_uncommented]

theorem groupAt? (kind : GroupKind) :
    s'.groupAt? kind = (s.groupAt? kind).map Group.uncommented := by
  unfold Cursor.groupAt?
  rw [h.current?]
  rcases s.current? with _ | t | g
  · rfl
  · rfl
  · simp only [Option.map_some, Option.bind_some, Element.isGroup_uncommented,
      Element.group?_uncommented]
    split_ifs <;> rfl

theorem here : s'.here = s.here := by
  simp only [Cursor.here, h.current?, h.closing, Option.map_map, Function.comp_def,
    Element.firstToken_uncommented]

/-! ### Moving a cursor -/

theorem next : Shadow es s.next s'.next := by
  have hsettled := h.settled
  have hrest := h.rest
  have hsuffix := h.suffix
  unfold Cursor.current? at hsettled
  unfold Cursor.next
  cases hs : s.rest with
  | nil =>
    rw [hs, uncommentedAll_nil] at hrest
    rw [hrest]
    exact h
  | cons e rest =>
    rw [hs] at hsettled hrest hsuffix
    rw [uncommentedAll_cons (hsettled e rfl)] at hrest
    rw [hrest]
    exact shadow_settle rfl h.closing ((List.suffix_cons e rest).trans hsuffix)

theorem nextIf (b : Bool) : Shadow es (if b then s.next else s) (if b then s'.next else s') := by
  cases b with
  | true => exact h.next
  | false => exact h

theorem skipAngle : Shadow es s.skipAngle s'.skipAngle := by
  unfold Cursor.skipAngle
  rw [h.isAtGroup]
  exact h.nextIf _

end Views

/-! ### Dotted names -/

/-- A part of a dotted name, its type arguments without comments. -/
def uncommentedPart (part : Text × Option Group) : Text × Option Group :=
  (part.1, part.2.map Group.uncommented)

/-- The dotted name that `scan'` found is the one that `scan` found, without comments. -/
structure OfName (es : List Element) (scan scan' : NameScan) : Prop where
  isWhole : scan'.isWhole = scan.isWhole
  parts : scan'.parts = scan.parts.map uncommentedPart
  cursor : Shadow es scan.cursor scan'.cursor

theorem OfName.cons {scan scan' : NameScan} (h : OfName es scan scan')
    (part : Text × Option Group) :
    OfName es (scan.cons part) (scan'.cons (uncommentedPart part)) where
  isWhole := h.isWhole
  parts := congrArg (uncommentedPart part :: ·) h.parts
  cursor := h.cursor

theorem OfName.name {scan scan' : NameScan} (h : OfName es scan scan') :
    scan'.name = scan.name := by
  rw [NameScan.name, NameScan.name, h.parts, List.map_map]
  rfl

theorem OfName.args? {scan scan' : NameScan} (h : OfName es scan scan') :
    scan'.args? = scan.args?.map Group.uncommented := by
  have hparts : (scan.parts.map uncommentedPart).filterMap (·.2) =
      (scan.parts.filterMap (·.2)).map Group.uncommented := by
    rw [List.filterMap_map, List.map_filterMap]
    rfl
  rw [NameScan.args?, NameScan.args?, h.parts, hparts, List.getLast?_map]

theorem uncommentedPart_groupAt? (h : Shadow es s s') (name : Text) (kind : GroupKind) :
    uncommentedPart (name, s.groupAt? kind) = (name, s'.groupAt? kind) := by
  rw [uncommentedPart, h.groupAt?]

theorem moreParts (h : Shadow es s s') : OfName es s.moreParts s'.moreParts := by
  induction s using Cursor.moreParts.induct generalizing s' with
  | case1 s hdot hident _ =>
    rename_i ih
    have hdot' := (h.isAt .dot).trans hdot
    have hident' := (h.next.isAt .ident).trans hident
    rw [moreParts_of_dot hdot hident, moreParts_of_dot hdot' hident', h.next.here,
      ← h.next.next.uncommentedPart_groupAt?]
    exact (ih h.next.next.skipAngle).cons _
  | case2 s hdot hident =>
    have hident : s.next.isAt .ident = false := by simpa using hident
    have hdot' := (h.isAt .dot).trans hdot
    have hident' := (h.next.isAt .ident).trans hident
    rw [moreParts_of_bare_dot hdot hident, moreParts_of_bare_dot hdot' hident']
    exact ⟨rfl, rfl, h.next⟩
  | case3 s hdot =>
    have hdot : s.isAt .dot = false := by simpa using hdot
    rw [moreParts_of_not_dot hdot, moreParts_of_not_dot ((h.isAt .dot).trans hdot)]
    exact ⟨rfl, rfl, h⟩

theorem typeName (h : Shadow es s s') : OfName es s.typeName s'.typeName := by
  unfold Cursor.typeName
  rw [h.here, ← h.next.uncommentedPart_groupAt?]
  exact h.next.skipAngle.moreParts.cons _

end Shadow

end Cursor

end Unnest
