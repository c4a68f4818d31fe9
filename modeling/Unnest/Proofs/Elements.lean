import Unnest.Proofs.Twins

/-!
# Invariants of the elements of a source

A property of the elements of a source that a group passes on to its children is a property of every
element the parsers ever see. `ElementInvariant` packs such a property with what it implies for
errors: an error that is raised at an element, or at the closing token of a range, has the property
`error`.

* `ElementInvariant.Reads`: the same for the readings of the insides of groups;
* `piecesFrom_of_piecesWith`: the ways in which the pieces of code can begin.
-/

namespace Unnest

open Unnest.Parser

/-- A property of elements that groups pass on to their children, one of closing tokens, and what
they imply for errors. An error in which a form contradicts its own announcement is left out. -/
structure ElementInvariant where
  element : Element → Prop
  closing : Token → Prop
  error : SourceError → Prop
  closing_of_group : ∀ {g}, element (.group g) → closing g.closing
  children : ∀ {g}, element (.group g) → ∀ e ∈ g.children, element e
  error_at : ∀ {e cause}, element e → cause.kind ≠ .consumption → error (e.firstToken.error cause)
  error_closing : ∀ {t cause}, closing t → cause.kind ≠ .consumption → error (t.error cause)

theorem Element.depth_group (g : Group) : (Element.group g).depth = depthAll g.children + 1 := by
  cases g
  rfl

theorem depth_le_of_mem {es : List Element} {e : Element} (he : e ∈ es) :
    e.depth ≤ depthAll es := by
  induction es with
  | nil => cases he
  | cons x es ih =>
    rw [depthAll]
    rcases List.mem_cons.mp he with rfl | he
    · exact Nat.le_max_left _ _
    · exact Nat.le_trans (ih he) (Nat.le_max_right _ _)

namespace Cursor

variable {s : Cursor}

theorem rest_settle_subset (s : Cursor) : s.settle.rest ⊆ s.rest :=
  (s.rest.dropWhile_sublist _).subset

theorem rest_next_subset (s : Cursor) : s.next.rest ⊆ s.rest := by
  unfold next
  split
  · exact fun _ => id
  · next e es h =>
    rw [h]
    exact fun _ he => List.mem_cons_of_mem _ (rest_settle_subset _ he)

theorem closing_next (s : Cursor) : s.next.closing = s.closing := by
  unfold next
  split
  · rfl
  · rfl

theorem mem_rest_of_current {e : Element} (h : s.current? = some e) : e ∈ s.rest :=
  List.mem_of_mem_head? h

theorem rest_skipAngle_subset (s : Cursor) : s.skipAngle.rest ⊆ s.rest := by
  unfold skipAngle
  split_ifs
  · exact rest_next_subset s
  · exact fun _ => id

theorem moreParts_subset (s : Cursor) :
    (∀ part ∈ s.moreParts.parts, ∀ g, part.2 = some g → .group g ∈ s.rest) ∧
      s.moreParts.cursor.rest ⊆ s.rest := by
  induction s using moreParts.induct with
  | case1 s hdot hi behind ih =>
    have hsub : behind.rest ⊆ s.rest :=
      fun _ he => rest_next_subset _ (rest_next_subset _ he)
    rw [moreParts_of_dot hdot hi]
    refine ⟨fun part hpart g hg => ?_, fun _ he => ?_⟩
    · rcases List.mem_cons.mp hpart with rfl | hpart
      · exact hsub (mem_rest_of_current (groupAt?_eq_some hg).1)
      · exact hsub (rest_skipAngle_subset _ (ih.1 part hpart g hg))
    · exact hsub (rest_skipAngle_subset _ (ih.2 he))
  | case2 s hdot hi =>
    rw [moreParts_of_bare_dot hdot (by simpa using hi)]
    exact ⟨by simp, rest_next_subset s⟩
  | case3 s hdot =>
    rw [moreParts_of_not_dot (by simpa using hdot)]
    exact ⟨by simp, fun _ => id⟩

theorem typeName_subset (s : Cursor) :
    (∀ part ∈ s.typeName.parts, ∀ g, part.2 = some g → .group g ∈ s.rest) ∧
      s.typeName.cursor.rest ⊆ s.rest := by
  have hmore := moreParts_subset s.next.skipAngle
  have hsub : s.next.skipAngle.rest ⊆ s.rest :=
    fun _ he => rest_next_subset _ (rest_skipAngle_subset _ he)
  refine ⟨fun part hpart g hg => ?_, fun _ he => hsub (hmore.2 he)⟩
  rcases List.mem_cons.mp hpart with rfl | hpart
  · exact rest_next_subset _ (mem_rest_of_current (groupAt?_eq_some hg).1)
  · exact hsub (hmore.1 part hpart g hg)

end Cursor

theorem Creation.find?_groups_mem {es : List Element} {c : Creation}
    (h : Creation.find? es = some c) :
    .group c.args ∈ es ∧ .group c.body ∈ es ∧ ∀ g, c.base.args? = some g → .group g ∈ es := by
  have hstart : (Cursor.ofList es {}).rest ⊆ es := Cursor.rest_settle_subset _
  obtain ⟨hparts, hcursor⟩ := Cursor.typeName_subset (Cursor.ofList es {})
  unfold Creation.find? at h
  simp only at h
  split_ifs at h
  obtain ⟨args, hargs, h⟩ := Option.bind_eq_some_iff.mp h
  obtain ⟨body, hbody, rfl⟩ := Option.map_eq_some_iff.mp h
  refine ⟨?_, ?_, fun g hg => ?_⟩
  · exact hstart (hcursor (Cursor.mem_rest_of_current (Cursor.groupAt?_eq_some hargs).1))
  · exact hstart (hcursor (Cursor.rest_next_subset _
      (Cursor.mem_rest_of_current (Cursor.groupAt?_eq_some hbody).1)))
  · obtain ⟨part, hpart, hg⟩ := List.mem_filterMap.mp (List.mem_of_mem_getLast? hg)
    exact hstart (hparts part hpart g hg)

/-! ### Equations of code -/

/-- The type arguments of the base of a creation. -/
def Creation.typeArgs (c : Creation) : Except SourceError (List TypeRef) :=
  match c.base.args? with
  | none => .ok []
  | some g => g.typeArgs

theorem Creation.anonymous_eq (c : Creation) (inside : Inside) (place : Place) :
    c.anonymous inside place = do
      let typeArgs ← c.typeArgs
      let args ← Code.ofGroup inside c.args
      let members ← inside.members {} c.body
      return {
        place
        base := { name := c.base.name, args := typeArgs, place := c.place }
        args := some args
        members
        endLine := c.body.closing.line
        label := none } := by
  unfold Creation.anonymous Creation.typeArgs
  cases c.base.args? <;> rfl

section Pieces

variable {inside : Inside} {es : List Element} {t : Token} {g : Group} {c : Creation}

theorem exists_new_of_find? {e : Element}
    (h : (if e.is .kwNew then Creation.find? es else none) = some c) :
    ∃ t, e = .token t ∧ t.kind = .kwNew ∧ Creation.find? es = some c := by
  split_ifs at h with hnew
  cases e with
  | token t => exact ⟨t, rfl, by simpa [Element.is] using hnew, h⟩
  | group g => simp [Element.is] at hnew

theorem piecesWith_skip (inside : Inside) (skip : Nat) (es : List Element) :
    piecesWith inside skip es = piecesWith inside 0 (es.drop skip) := by
  induction es generalizing skip with
  | nil => rw [List.drop_nil, piecesWith, piecesWith]
  | cons e es ih =>
    cases skip with
    | zero => rfl
    | succ skip => rw [piecesWith, ih, List.drop_succ_cons]

theorem piecesWith_creation (ht : t.kind = .kwNew) (hc : Creation.find? es = some c) :
    piecesWith inside 0 (.token t :: es) = do
      let a ← c.anonymous inside t.place
      let rest ← piecesWith inside c.length es
      return .creation a :: rest := by
  rw [piecesWith]
  simp only [Element.is, ht, beq_self_eq_true, if_true, hc, Element.firstToken]

theorem piecesWith_token
    (h : (if (Element.token t).is .kwNew then Creation.find? es else none) = none) :
    piecesWith inside 0 (.token t :: es) = do
      let rest ← piecesWith inside 0 es
      return .token t :: rest := by
  rw [piecesWith, h]

theorem piecesWith_group :
    piecesWith inside 0 (.group g :: es) = do
      let inner ← inside.pieces g.children
      let rest ← piecesWith inside 0 es
      return .token g.opening :: inner ++ .token g.closing :: rest := by
  rw [piecesWith]
  simp only [Element.is, Bool.false_eq_true, if_false]

/-- The pieces of an element and of those behind it, by what begins at the element. -/
inductive PiecesFrom (inside : Inside) (es : List Element) : Element → List Piece → Prop
  | creation {t : Token} {c : Creation} {typeArgs : List TypeRef} {args : Code}
      {members : List Member}
      {rest : List Piece} (ht : t.kind = .kwNew) (hfind : Creation.find? es = some c)
      (hargs : Code.ofGroup inside c.args = .ok args)
      (hmembers : inside.members {} c.body = .ok members)
      (hrest : piecesWith inside c.length es = .ok rest) :
      PiecesFrom inside es (.token t) (.creation {
        place := t.place
        base := { name := c.base.name, args := typeArgs, place := c.place }
        args := some args
        members
        endLine := c.body.closing.line
        label := none } :: rest)
  | token {t : Token} {rest : List Piece} (hrest : piecesWith inside 0 es = .ok rest) :
      PiecesFrom inside es (.token t) (.token t :: rest)
  | group {g : Group} {inner rest : List Piece} (hinner : inside.pieces g.children = .ok inner)
      (hrest : piecesWith inside 0 es = .ok rest) :
      PiecesFrom inside es (.group g) (.token g.opening :: inner ++ .token g.closing :: rest)

theorem piecesFrom_of_piecesWith {e : Element} {ps : List Piece}
    (h : piecesWith inside 0 (e :: es) = .ok ps) :
    PiecesFrom inside es e ps := by
  cases hc : if e.is .kwNew then Creation.find? es else none with
  | some c =>
    obtain ⟨t, rfl, ht, hfind⟩ := exists_new_of_find? hc
    rw [piecesWith_creation ht hfind, Creation.anonymous_eq] at h
    obtain ⟨a, ha, h⟩ := Except.bind_eq_ok.mp h
    obtain ⟨rest, hrest, h⟩ := Except.bind_eq_ok.mp h
    obtain ⟨typeArgs, -, ha⟩ := Except.bind_eq_ok.mp ha
    obtain ⟨args, hargs, ha⟩ := Except.bind_eq_ok.mp ha
    obtain ⟨members, hmembers, ha⟩ := Except.bind_eq_ok.mp ha
    cases ha
    cases h
    exact .creation ht hfind hargs hmembers hrest
  | none =>
    cases e with
    | token t =>
      rw [piecesWith_token hc] at h
      obtain ⟨rest, hrest, h⟩ := Except.bind_eq_ok.mp h
      cases h
      exact .token hrest
    | group g =>
      rw [piecesWith_group] at h
      obtain ⟨inner, hinner, h⟩ := Except.bind_eq_ok.mp h
      obtain ⟨rest, hrest, h⟩ := Except.bind_eq_ok.mp h
      cases h
      exact .group hinner hrest

end Pieces

/-! ### The invariant at a cursor -/

namespace ElementInvariant

variable (inv : ElementInvariant) {s s' : Cursor}

/-- The elements still to be read and the closing token have the invariant. -/
def cursor (s : Cursor) : Prop := inv.closing s.closing ∧ ∀ e ∈ s.rest, inv.element e

variable {inv}

theorem cursor_next (hs : inv.cursor s) : inv.cursor s.next := by
  refine ⟨?_, fun e he => hs.2 e (Cursor.rest_next_subset s he)⟩
  rw [Cursor.closing_next]
  exact hs.1

theorem element_of_current (hs : inv.cursor s) {e : Element} (he : s.current? = some e) :
    inv.element e :=
  hs.2 e (Cursor.mem_rest_of_current he)

variable {g : Group} {e : SourceError}

theorem cursor_ofGroup (hg : inv.element (.group g)) : inv.cursor (.ofGroup g) :=
  ⟨inv.closing_of_group hg, fun e he => inv.children hg e (Cursor.rest_settle_subset _ he)⟩

theorem error_of_cursor (hs : inv.cursor s) {cause : Cause} (hc : cause.kind ≠ .consumption) :
    inv.error (s.error cause) := by
  unfold Cursor.error Cursor.here
  rcases hcur : s.current? with _ | e
  · exact inv.error_closing hs.1 hc
  · exact inv.error_at (element_of_current hs hcur) hc

variable (inv)

theorem walk : Walk inv.cursor inv.error where
  next := fun hs _ _ => cursor_next hs
  fail := fun hs hc => error_of_cursor hs (by rw [hc]; decide)

/-! ### Heads -/

theorem error_of_runOn {α : Type} {p : Parser α} (hp : Keeps inv.cursor inv.error p)
    (hg : inv.element (.group g)) (h : p.runOn g = .error e) : inv.error e := by
  have hgives := hp _ (cursor_ofGroup hg)
  unfold runOn at h
  split at h
  · simp at h
  · next e' s' hrun =>
    cases h
    exact hgives.error hrun

theorem keeps_separated {α : Type} {item : Parser α} (hitem : Keeps inv.cursor inv.error item)
    (what : Text) : Keeps inv.cursor inv.error (separated item what) := by
  intro s hs
  refine (gives_separated (A := fun _ => True) inv.cursor (fun s hs => ?_)
    (fun s hs _ => cursor_next hs) (fun s hs => error_of_cursor hs (by simp [Cause.kind])) hs).mono
    (fun _ _ h => h.1) fun _ => id
  exact (hitem s hs).mono (fun _ _ h => ⟨h, trivial⟩) fun _ => id

theorem error_of_typeArgsAt (levels : Nat) (hg : inv.element (.group g))
    (h : typeArgsAt levels g = .error e) : inv.error e := by
  induction levels generalizing g e with
  | zero => simp [typeArgsAt] at h
  | succ levels ih =>
    refine inv.error_of_runOn (inv.keeps_separated ?_ _) hg h
    refine inv.walk.typeArgument (inv.walk.typeWith fun s g hs hcur e he => ?_)
    exact ih (element_of_current hs hcur) he

theorem error_of_typeArgs (hg : inv.element (.group g))
    (h : g.typeArgs = .error e) : inv.error e :=
  inv.error_of_typeArgsAt _ hg h

theorem keeps_typeRef : Keeps inv.cursor inv.error typeRef :=
  inv.walk.typeWith fun _ _ hs hcur _ he => inv.error_of_typeArgs (element_of_current hs hcur) he

theorem error_of_typeParams (hg : inv.element (.group g))
    (h : g.typeParams = .error e) : inv.error e :=
  inv.error_of_runOn (inv.keeps_separated (inv.walk.typeParam inv.keeps_typeRef) _) hg h

theorem error_of_parameters (hg : inv.element (.group g))
    (h : g.parameters = .error e) : inv.error e := by
  have hp := inv.walk.parameter inv.keeps_typeRef fun _ => cursor_next
  unfold Group.parameters at h
  cases hrun : (separated parameter (lit "',' between parameters")).runOn g with
  | ok params => simp [hrun, Except.map] at h
  | error e' =>
    simp only [hrun, Except.map, Except.error.injEq] at h
    rw [← h]
    exact inv.error_of_runOn (inv.keeps_separated hp _) hg hrun

theorem keeps_typeParams : Keeps inv.cursor inv.error typeParams :=
  inv.walk.typeParams fun _ _ hs hcur _ he =>
    inv.error_of_typeParams (element_of_current hs hcur) he

theorem keeps_classKeyword : Keeps inv.cursor inv.error classKeyword := by
  intro s hs
  unfold classKeyword
  simp only [gives_bind, gives_get, gives_ite, gives_advance, gives_pure, gives_fail]
  have hnext := cursor_next hs
  have hend : inv.error (s.error .endOfInput) := inv.walk.fail hs rfl
  exact ⟨fun _ => ⟨fun _ => hnext, fun _ => hend⟩,
    fun _ => ⟨fun _ => ⟨fun _ => hnext, fun _ => hend⟩,
      fun _ => ⟨fun _ => ⟨fun _ => hnext, fun _ => hend⟩, fun _ => inv.walk.fail hs rfl⟩⟩⟩

/-! ### The insides of groups -/

/-- The readings `inside` raise only errors with the property. -/
structure Reads (inside : Inside) : Prop where
  pieces : ∀ {es e}, (∀ x ∈ es, inv.element x) → inside.pieces es = .error e → inv.error e
  members : ∀ {ctx g e}, inv.element (.group g) → inside.members ctx g = .error e → inv.error e

variable {inv} {inside : Inside}

namespace Reads

variable (h : inv.Reads inside)
include h

variable {e : SourceError} {es : List Element}

theorem error_of_ofGroup {g : Group} (hg : inv.element (.group g))
    (he : Code.ofGroup inside g = .error e) : inv.error e := by
  unfold Code.ofGroup at he
  rcases Except.bind_eq_error.mp he with he | ⟨pieces, -, he⟩
  · exact h.pieces (inv.children hg) he
  · simp [pure, Except.pure] at he

theorem error_of_anonymous (hes : ∀ x ∈ es, inv.element x) {c : Creation}
    (hc : Creation.find? es = some c) {place : Place}
    (he : c.anonymous inside place = .error e) : inv.error e := by
  obtain ⟨hargs, hbody, htypes⟩ := Creation.find?_groups_mem hc
  rw [Creation.anonymous_eq] at he
  rcases Except.bind_eq_error.mp he with he | ⟨typeArgs, -, he⟩
  · unfold Creation.typeArgs at he
    split at he
    · simp at he
    · next g hg => exact inv.error_of_typeArgs (hes _ (htypes g hg)) he
  rcases Except.bind_eq_error.mp he with he | ⟨args, -, he⟩
  · exact h.error_of_ofGroup (hes _ hargs) he
  rcases Except.bind_eq_error.mp he with he | ⟨members, -, he⟩
  · exact h.members (hes _ hbody) he
  · simp [pure, Except.pure] at he

theorem error_of_piecesWith {skip : Nat} (hes : ∀ x ∈ es, inv.element x)
    (he : piecesWith inside skip es = .error e) : inv.error e := by
  induction skip, es using piecesWith.induct with
  | case1 skip => simp [piecesWith] at he
  | case2 skip x es ih =>
    rw [piecesWith] at he
    exact ih (fun y hy => hes y (by simp [hy])) he
  | case3 x es c hc ih =>
    have hes' : ∀ y ∈ es, inv.element y := fun y hy => hes y (by simp [hy])
    obtain ⟨t, rfl, ht, hfind⟩ := exists_new_of_find? hc
    rw [piecesWith_creation ht hfind] at he
    rcases Except.bind_eq_error.mp he with he | ⟨a, -, he⟩
    · exact h.error_of_anonymous hes' hfind he
    rcases Except.bind_eq_error.mp he with he | ⟨rest, -, he⟩
    · exact ih hes' he
    · simp [pure, Except.pure] at he
  | case4 es t hc ih =>
    have hes' : ∀ y ∈ es, inv.element y := fun y hy => hes y (by simp [hy])
    rw [piecesWith_token hc] at he
    rcases Except.bind_eq_error.mp he with he | ⟨rest, -, he⟩
    · exact ih hes' he
    · simp [pure, Except.pure] at he
  | case5 es g hc ih =>
    have hes' : ∀ y ∈ es, inv.element y := fun y hy => hes y (by simp [hy])
    rw [piecesWith_group] at he
    rcases Except.bind_eq_error.mp he with he | ⟨inner, -, he⟩
    · exact h.pieces (inv.children (hes _ (by simp))) he
    rcases Except.bind_eq_error.mp he with he | ⟨rest, -, he⟩
    · exact ih hes' he
    · simp [pure, Except.pure] at he

theorem error_of_ofElements (hes : ∀ x ∈ es, inv.element x)
    (he : Code.ofElements inside es = .error e) : inv.error e := by
  unfold Code.ofElements at he
  rcases Except.bind_eq_error.mp he with he | ⟨pieces, -, he⟩
  · exact h.error_of_piecesWith hes he
  · simp [pure, Except.pure] at he

end Reads

end ElementInvariant

end Unnest
