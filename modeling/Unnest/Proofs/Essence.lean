import Unnest.Proofs.LockstepHeads
import Unnest.Proofs.Codes
import Mathlib

/-!
# What declarations say

The essence of a declaration is the declaration without the comments in its code, without the places
of its code and without the numbers of the elements that it covers. Code is the one part of a
declaration that keeps comments, so it is compared piece by piece: the pieces of elements and those
of the same elements without comments have the same essence, provided that this holds inside the
groups among them.

* `Member.essence`, `Code.essence`, `File.essence`: what a declaration says, comments apart;
* `Inside.IgnoresComments`: readings of groups that do not depend on comments.
-/

namespace Unnest

open Unnest.Parser
open Cursor (Shadow)

/-! ### What a declaration says -/

mutual

/-- Pieces of code without the comments. -/
def essencePieces : List Piece → List Piece
  | [] => []
  | .token t :: ps => if t.kind = .comment then essencePieces ps else .token t :: essencePieces ps
  | .creation a :: ps => .creation a.essence :: essencePieces ps

/-- Code without comments and without its place. -/
def Code.essence : Code → Code
  | ⟨_, pieces⟩ => ⟨{}, essencePieces pieces⟩

/-- What code says, if there is code. -/
def essenceCode? : Option Code → Option Code
  | none => none
  | some c => some c.essence

/-- What an anonymous class says. -/
def Anonymous.essence : Anonymous → Anonymous
  | ⟨place, base, args, members, endLine, label⟩ =>
    ⟨place, base, essenceCode? args, essenceMembers members, endLine, label⟩

/-- What the body of an enum constant says, if there is a body. -/
def essenceBody? : Option Anonymous → Option Anonymous
  | none => none
  | some a => some a.essence

/-- What a variable says. -/
def Declarator.essence : Declarator → Declarator
  | ⟨name, extraDims, line, col, init⟩ => ⟨name, extraDims, line, col, essenceCode? init⟩

/-- What the variables of a field say. -/
def essenceDeclarators : List Declarator → List Declarator
  | [] => []
  | d :: ds => d.essence :: essenceDeclarators ds

/-- What a member says, whichever elements it covers. -/
def Member.essence : Member → Member
  | .field head declarators => .field { head with span := {} } (essenceDeclarators declarators)
  | .method head body => .method { head with span := {} } (essenceCode? body)
  | .constructor head body => .constructor { head with span := {} } body.essence
  | .nested head members => .nested { head with span := {} } (essenceMembers members)
  | .initializer head body => .initializer { head with span := {} } body.essence
  | .constant head args body =>
    .constant { head with span := {} } (essenceCode? args) (essenceBody? body)

/-- What the members of a class say. -/
def essenceMembers : List Member → List Member
  | [] => []
  | m :: ms => m.essence :: essenceMembers ms

end

/-- What a class says. -/
def TypeDecl.essence (d : TypeDecl) : TypeDecl :=
  { head := { d.head with span := {} }, members := essenceMembers d.members }

def File.essence (f : File) : File := { f with types := f.types.map TypeDecl.essence }

theorem essenceDeclarators_eq (ds : List Declarator) :
    essenceDeclarators ds = ds.map Declarator.essence := by
  induction ds with
  | nil => rfl
  | cons d ds ih => rw [essenceDeclarators, ih, List.map_cons]

theorem essencePieces_append (ps ps' : List Piece) :
    essencePieces (ps ++ ps') = essencePieces ps ++ essencePieces ps' := by
  induction ps with
  | nil => rfl
  | cons p ps ih =>
    cases p with
    | creation a => simp only [List.cons_append, essencePieces, ih]
    | token t =>
      simp only [List.cons_append, essencePieces, ih]
      split_ifs <;> rfl

theorem essencePieces_cons {p : Piece} {ps ps' : List Piece}
    (h : essencePieces ps' = essencePieces ps) :
    essencePieces (p :: ps') = essencePieces (p :: ps) := by
  rw [← List.singleton_append, essencePieces_append, h, ← essencePieces_append,
    List.singleton_append]

@[simp]
theorem Member.essence_withSpan (m : Member) (span : Span) :
    (m.withSpan span).essence = m.essence := by
  cases m <;> rfl

/-! ### Segments -/

namespace Segment

/-- Whether there is nothing in a segment. -/
def isEmpty (s : Segment) : Bool := s.tokens.isEmpty && s.creation.isNone

/-- What a segment says. -/
def essence (s : Segment) : Segment :=
  ⟨s.tokens.filter (·.kind != .comment), s.creation.map Anonymous.essence⟩

end Segment

/-- Segments without the last one, when there is nothing in it. -/
def dropEmptyLast (ss : List Segment) : List Segment :=
  if ss.getLast?.any Segment.isEmpty then ss.dropLast else ss

theorem dropEmptyLast_cons {s : Segment} {ss : List Segment} (h : ss ≠ [] ∨ s.isEmpty = false) :
    dropEmptyLast (s :: ss) = s :: dropEmptyLast ss := by
  unfold dropEmptyLast
  cases ss with
  | nil =>
    have hs : s.isEmpty = false := h.resolve_left (by simp)
    simp [hs]
  | cons t ts =>
    rw [List.getLast?_cons_cons, List.dropLast_cons_of_ne_nil (by simp)]
    split_ifs <;> rfl

theorem segmentsOf_essencePieces (ps : List Piece) :
    segmentsOf (essencePieces ps) = dropEmptyLast ((segmentsOf ps).map Segment.essence) := by
  induction ps with
  | nil => rfl
  | cons p ps ih =>
    cases p with
    | creation a =>
      rw [essencePieces, segmentsOf, segmentsOf, ih, List.map_cons, dropEmptyLast_cons (Or.inr rfl)]
      rfl
    | token t =>
      rw [essencePieces, segmentsOf]
      cases hseg : segmentsOf ps with
      | nil =>
        rw [hseg] at ih
        split_ifs with ht
        · rw [ih]
          simp [Segment.essence, dropEmptyLast, Segment.isEmpty, ht]
        · rw [segmentsOf, ih]
          simp [Segment.essence, dropEmptyLast, Segment.isEmpty, ht]
      | cons s ss =>
        rw [hseg] at ih
        split_ifs with ht
        · rw [ih]
          simp [Segment.essence, ht]
        · have hfront : Segment.essence { s with tokens := t :: s.tokens } =
              { s.essence with tokens := t :: s.essence.tokens } := by
            simp [Segment.essence, ht]
          rw [segmentsOf, ih, List.map_cons, List.map_cons, hfront]
          by_cases hkeep : ss.map Segment.essence ≠ [] ∨ s.essence.isEmpty = false
          · rw [dropEmptyLast_cons hkeep, dropEmptyLast_cons (Or.inr rfl)]
          · -- the only segment has nothing in it without the token
            obtain ⟨hlast, hempty⟩ := not_or.mp hkeep
            simp only [Segment.isEmpty, Bool.not_eq_false, Bool.and_eq_true, List.isEmpty_iff,
              Option.isNone_iff_eq_none, ne_eq, not_not] at hlast hempty
            simp [hlast, dropEmptyLast, Segment.isEmpty, hempty.1, hempty.2]

theorem Code.segments_essence (c : Code) :
    c.essence.segments = dropEmptyLast (c.segments.map Segment.essence) := by
  obtain ⟨place, pieces⟩ := c
  exact segmentsOf_essencePieces pieces

/-! ### Code -/

/-- Readings of groups that do not depend on the comments in the group. -/
structure Inside.IgnoresComments (inside : Inside) : Prop where
  pieces : ∀ es, (inside.pieces (uncommentedAll es)).map essencePieces =
    (inside.pieces es).map essencePieces
  members : ∀ ctx g, (inside.members ctx g.uncommented).map essenceMembers =
    (inside.members ctx g).map essenceMembers

/-- The creation `c'` behind `new` is `c` without comments. -/
structure Creation.Uncommented (es : List Element) (c c' : Creation) : Prop where
  place : c'.place = c.place
  name : c'.base.name = c.base.name
  typeArgs : c'.base.args? = c.base.args?.map Group.uncommented
  args : c'.args = c.args.uncommented
  body : c'.body = c.body.uncommented
  rest : (uncommentedAll es).drop c'.length = uncommentedAll (es.drop c.length)

theorem Cursor.Shadow.tail {es : List Element} {s s' : Cursor} (h : Shadow es s s') :
    s'.rest.tail = uncommentedAll s.rest.tail := by
  have hsettled := h.settled
  unfold Cursor.current? at hsettled
  rw [h.rest]
  cases hrest : s.rest with
  | nil => rfl
  | cons e rest =>
    rw [hrest] at hsettled
    rw [uncommentedAll_cons (hsettled e rfl)]
    rfl

theorem Creation.find?_uncommented (es : List Element) :
    Option.Rel (Creation.Uncommented es) (Creation.find? es)
    (Creation.find? (uncommentedAll es)) := by
  have hstart := Cursor.shadow_ofList es {}
  have hname := hstart.typeName
  have hover : (Cursor.ofList es {}).Over es := Cursor.Over.settle rfl
  have hover' : (Cursor.ofList (uncommentedAll es) {}).Over (uncommentedAll es) :=
    Cursor.Over.settle rfl
  have hend := (Cursor.lasting_over es).behind.typeName (Cursor.lasting_over es _ hover)
  have hend' := (Cursor.lasting_over _).behind.typeName (Cursor.lasting_over _ _ hover')
  have hbehind := hname.cursor.next
  unfold Creation.find?
  simp only [hstart.isAt, hname.isWhole, hname.cursor.groupAt?, hbehind.groupAt?, hstart.here]
  split_ifs
  · cases hargs : (Cursor.ofList es {}).typeName.cursor.groupAt? .round with
    | none => exact .none
    | some args =>
      cases hbody : (Cursor.ofList es {}).typeName.cursor.next.groupAt? .curly with
      | none => exact .none
      | some body =>
        refine .some ⟨rfl, hname.name, hname.args?, rfl, rfl, ?_⟩
        simp only
        rw [← List.tail_drop, ← List.tail_drop, ← hend, ← hend', hbehind.tail]
  · exact .none
  · exact .none

theorem Creation.find?_uncommented_at (e : Element) (es : List Element) :
    (if e.is .kwNew then Creation.find? es else none) = none ∧
        (if e.is .kwNew then Creation.find? (uncommentedAll es) else none) = none ∨
      ∃ c c', (if e.is .kwNew then Creation.find? es else none) = some c ∧
        (if e.is .kwNew then Creation.find? (uncommentedAll es) else none) = some c' ∧
        c.Uncommented es c' := by
  split_ifs
  · have hrel := Creation.find?_uncommented es
    generalize Creation.find? es = x at hrel ⊢
    generalize Creation.find? (uncommentedAll es) = y at hrel ⊢
    cases hrel with
    | none => exact Or.inl ⟨rfl, rfl⟩
    | some hc => exact Or.inr ⟨_, _, rfl, rfl, hc⟩
  · exact Or.inl ⟨rfl, rfl⟩

namespace Inside.IgnoresComments

variable {inside : Inside} (h : inside.IgnoresComments)
include h

theorem essence_ofGroup (g : Group) :
    (Code.ofGroup inside g.uncommented).map Code.essence =
    (Code.ofGroup inside g).map Code.essence := by
  unfold Code.ofGroup
  refine Except.map_bind_congr (h.pieces g.children) fun ps ps' hps => ?_
  exact congrArg (fun ps => Except.ok (Code.mk {} ps)) hps

theorem essence_anonymous {es : List Element} {c c' : Creation} (hc : c.Uncommented es c')
    (place : Place) :
    (c'.anonymous inside place).map Anonymous.essence =
    (c.anonymous inside place).map Anonymous.essence := by
  have htypeArgs : c'.typeArgs = c.typeArgs := by
    unfold Creation.typeArgs
    rw [hc.typeArgs]
    cases c.base.args? with
    | none => rfl
    | some g => exact typeArgs_uncommented g
  rw [Creation.anonymous_eq, Creation.anonymous_eq, htypeArgs, hc.args, hc.body]
  refine Except.map_bind_congr (v := id) rfl fun typeArgs typeArgs' htypeArgs => ?_
  refine Except.map_bind_congr (h.essence_ofGroup c.args) fun args args' hargs => ?_
  refine Except.map_bind_congr (h.members {} c.body) fun ms ms' hms => ?_
  refine congrArg Except.ok ?_
  simp only [Anonymous.essence, essenceCode?, id_eq] at htypeArgs ⊢
  rw [htypeArgs, hargs, hms, hc.name, hc.place]
  rfl

theorem essence_piecesWith_token {t : Token} {es : List Element}
    (hrest : ∀ k, (piecesWith inside 0 (uncommentedAll (es.drop k))).map essencePieces =
      (piecesWith inside 0 (es.drop k)).map essencePieces) :
    (piecesWith inside 0 (.token t :: uncommentedAll es)).map essencePieces =
      (piecesWith inside 0 (.token t :: es)).map essencePieces := by
  rcases Creation.find?_uncommented_at (.token t) es with ⟨hc, hc'⟩ | ⟨c, c', hc, hc', hcc'⟩
  · rw [piecesWith_token hc, piecesWith_token hc']
    refine Except.map_bind_congr (hrest 0) fun rest rest' hrest => congrArg Except.ok ?_
    exact essencePieces_cons hrest
  · obtain ⟨t, ⟨⟩, hnew, hc⟩ := exists_new_of_find? hc
    obtain ⟨t, ⟨⟩, -, hc'⟩ := exists_new_of_find? hc'
    rw [piecesWith_creation hnew hc, piecesWith_creation hnew hc']
    refine Except.map_bind_congr (h.essence_anonymous hcc' t.place) fun a a' ha => ?_
    rw [piecesWith_skip inside c.length, piecesWith_skip inside c'.length, hcc'.rest]
    refine Except.map_bind_congr (hrest c.length) fun rest rest' hrest => congrArg Except.ok ?_
    rw [essencePieces, essencePieces, ha, hrest]

/-- **Code does not depend on comments**, but for the comments themselves. -/
theorem essence_piecesWith (es : List Element) :
    (piecesWith inside 0 (uncommentedAll es)).map essencePieces =
      (piecesWith inside 0 es).map essencePieces := by
  induction hn : es.length using Nat.strong_induction_on generalizing es with
  | h n ih =>
    cases es with
    | nil => rfl
    | cons e es =>
      -- behind a creation the code goes on somewhere further down
      have hrest : ∀ k, (piecesWith inside 0 (uncommentedAll (es.drop k))).map essencePieces =
          (piecesWith inside 0 (es.drop k)).map essencePieces := fun k => by
        refine ih (es.drop k).length ?_ (es.drop k) rfl
        rw [← hn, List.length_drop, List.length_cons]
        omega
      cases e with
      | group g =>
        rw [uncommentedAll_cons rfl, Element.uncommented_group, piecesWith_group, piecesWith_group]
        refine Except.map_bind_congr (h.pieces g.children) fun inner inner' hinner => ?_
        refine Except.map_bind_congr (hrest 0) fun rest rest' hrest => congrArg Except.ok ?_
        simp only [List.cons_append]
        refine essencePieces_cons ?_
        rw [essencePieces_append, essencePieces_append, hinner, essencePieces_cons hrest]
        rfl
      | token t =>
        by_cases ht : t.kind = .comment
        · have hnew : (if (Element.token t).is .kwNew then Creation.find? es else none) = none := by
            simp [Element.is, ht]
          rw [uncommentedAll_comment (by simp [Element.is, ht]), piecesWith_token hnew]
          refine (hrest 0).trans ?_
          rw [List.drop_zero]
          cases piecesWith inside 0 es with
          | error e => rfl
          | ok rest => exact congrArg Except.ok (if_pos ht).symm
        · rw [uncommentedAll_cons (by simp [Element.is, ht]), Element.uncommented_token]
          exact h.essence_piecesWith_token hrest

end Inside.IgnoresComments

theorem isEmpty_of_piecesWith {inside : Inside} {es : List Element} {ps : List Piece}
    (h : piecesWith inside 0 es = .ok ps) : ps.isEmpty = es.isEmpty := by
  cases es with
  | nil =>
    rw [piecesWith] at h
    cases h
    rfl
  | cons e es => cases piecesFrom_of_piecesWith h <;> rfl

theorem map_isEmpty_piecesWith (inside : Inside) (es : List Element) :
    (piecesWith inside 0 es).map (fun ps => (essencePieces ps, ps.isEmpty)) =
      ((piecesWith inside 0 es).map essencePieces).map (·, es.isEmpty) := by
  cases hps : piecesWith inside 0 es with
  | error e => rfl
  | ok ps => exact congrArg (fun b => Except.ok (essencePieces ps, b)) (isEmpty_of_piecesWith hps)

end Unnest
