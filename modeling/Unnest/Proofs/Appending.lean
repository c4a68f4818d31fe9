import Unnest.Proofs.Tails

/-!
# One range behind another

A range that reads without an error can be put in front of any other range: the members of the two
ranges follow one another, and an error of the second one stays the same error. What is read at the
end of the first range ends with its own semicolon or braces and takes nothing from the second; what
is read of the second does not depend on the elements in front, apart from the positions.

* `Run.exists_append`: a run over the first range goes on to the beginning of the second;
* `dispatch_append`: the members of two ranges, one behind the other.
-/

namespace Unnest

open Unnest.Parser

/-! ### Comments and levels -/

theorem Element.depth_of_isComment {e : Element} (h : e.isComment = true) : e.depth = 0 := by
  cases e with
  | token t => rfl
  | group g => simp [Element.is] at h

theorem depthAll_dropWhile (es : List Element) :
    depthAll (es.dropWhile (·.isComment)) = depthAll es := by
  induction es with
  | nil => rfl
  | cons e es ih =>
    cases he : e.isComment with
    | true => rw [List.dropWhile_cons_of_pos he, ih, depthAll, Element.depth_of_isComment he,
      Nat.zero_max]
    | false => rw [List.dropWhile_cons_of_neg (by simp [he])]

theorem depthAll_append (es es' : List Element) :
    depthAll (es ++ es') = max (depthAll es) (depthAll es') := by
  induction es with
  | nil => simp [depthAll]
  | cons e es ih => rw [List.cons_append, depthAll, depthAll, ih, Nat.max_assoc]

theorem depthAll_rest_ofList (es : List Element) (closing : Token) :
    depthAll (Cursor.ofList es closing).rest = depthAll es :=
  depthAll_dropWhile es

/-! ### The end of the first range -/

theorem fork_ofList (xs ys : List Element) (closing : Token) :
    Pace.Fork (depthAll xs) [] ys (.ofList xs closing) (.ofList (xs ++ ys) closing) := by
  refine ⟨.ofList xs closing, Cursor.settled_settle _, ?_, (Cursor.extend_nil _).symm, ?_⟩
  · intro e he
    rw [← depthAll_rest_ofList xs closing]
    exact depth_le_of_mem he
  · unfold Cursor.ofList
    rw [Cursor.settle_extend_settle]
    simp only [Cursor.extend, List.length_append]

/-- A run that uses up the first range can go on behind it: it comes to the first element of the
second range that is no comment, where it stands as at the start of that range. -/
theorem Run.exists_append {xs : List Element} (ys : List Element) {closing : Token}
    {inside inside' : Inside} {ctx ctx' : BodyContext} {members : List Member} {t : Cursor}
    (hconst : ctx.inConstants = false)
    (hin : inside.Agrees (fun e => e.depth ≤ depthAll xs) inside') (hrun : Run inside ctx
      (.ofList xs closing) (members.map .member) ctx' t) (hrest : t.rest = []) :
    ∃ (members' : List Member) (t' : Cursor) (k : Nat), members'.map (·.withSpan {}) =
      members.map (·.withSpan {}) ∧
      (Cursor.ofList ys closing).Shifted k t' ∧
      Run inside' ctx (.ofList (xs ++ ys) closing) (members'.map .member) ctx' t' := by
  have hclosing : t.closing = closing :=
    hrun.lasts (I := fun s => s.closing = closing) (fun s hs => (s.closing_next).trans hs) rfl
  obtain ⟨ms, members', t', hms, htwins, ⟨b, -, -, rfl, rfl⟩, hrun'⟩ :=
    (Pace.limit_fork (by simp)).run hin.reads (Or.inl hconst) hrun (fork_ofList xs ys closing)
    (Nat.not_lt_zero _)
  obtain rfl := List.map_injective_iff.mpr (fun _ _ h => Node.member.inj h) hms
  have hend : b.rest = [] := by simpa [Cursor.extend] using hrest
  refine ⟨members', _, b.pos, Pace.withSpan_of_twins htwins, ?_, hrun'⟩
  unfold Cursor.ofList
  refine Cursor.Shifted.settle ⟨(Nat.zero_add _).symm, ?_, hclosing⟩
  simp [Cursor.extend, hend]

/-! ### Both ranges -/

/-- **The members of two ranges, one behind the other.** If the first range reads without an error,
then the range that goes on with `ys` has the members of the first range and behind them those of
`ys`, apart from the positions noted in them; and it fails with an error if and only if `ys` does,
with the same one. -/
theorem dispatch_append (xs ys : List Element) (closing : Token) (ctx : BodyContext)
    (hconst : ctx.inConstants = false) (h : (dispatch ctx (.ofList xs closing)).failure = none) :
    let first := dispatch ctx (.ofList xs closing)
    let second := dispatch ctx (.ofList ys closing)
    let both := dispatch ctx (.ofList (xs ++ ys) closing)
    both.failure = second.failure ∧
      both.members.map (·.withSpan {}) = (first.members ++ second.members).map (·.withSpan {}) := by
  intro first second both
  have hfirst : first.toExcept = .ok first.members := Dispatched.toExcept_of_failure h
  obtain ⟨ctx', t, hrun, hrest⟩ := toExcept_dispatchWith_eq_ok.mp hfirst
  obtain rfl := hrun.context hconst
  have hlevels : depthAll xs ≤ depthAll (Cursor.ofList (xs ++ ys) closing).rest := by
    rw [depthAll_rest_ofList, depthAll_append]
    exact Nat.le_max_left _ _
  have hlevels' : depthAll ys ≤ depthAll (Cursor.ofList (xs ++ ys) closing).rest := by
    rw [depthAll_rest_ofList, depthAll_append]
    exact Nat.le_max_right _ _
  rw [Inside.ofElements, depthAll_rest_ofList] at hrun
  obtain ⟨members', t', k, hmembers, hshift, hrun'⟩ :=
    hrun.exists_append ys hconst (agrees_insideAt hlevels) hrest
  -- from there on the elements of the second range are left, at other positions
  have hshallow : (Cursor.ofList ys closing).Shallow (depthAll ys) := by
    intro e he
    rw [← depthAll_rest_ofList ys closing]
    exact depth_le_of_mem he
  obtain ⟨hfailure, htwins⟩ := Pace.dispatchWith (fun _ => id) (Pace.limit_shift k _)
    (agrees_insideAt hlevels').reads ctx' ⟨hshift, hshallow⟩
  have hsecond : second = dispatchWith (constantForm (insideAt (depthAll ys)))
      (memberForms (insideAt (depthAll ys))) ctx' (.ofList ys closing) := by
    simp only [second, dispatch, Inside.ofElements, depthAll_rest_ofList]
  have hboth := hrun'.dispatchWith_eq
  rw [Node.filterMap_member?] at hboth
  change both = _ at hboth
  rw [hboth, hsecond]
  refine ⟨hfailure, ?_⟩
  simp only [Dispatched.prepend, List.map_append, hmembers, Pace.withSpan_of_twins htwins]

/-- A field, `int x;`. -/
def oneField : List Element :=
  [.token { kind := .primitive, text := lit "int" }, .token { kind := .ident, text := lit "x" },
    .token { kind := .semi, text := lit ";" }]

/-- A comment, a block and what is no member, `/**/ { } =`. -/
def blockAndEqual : List Element :=
  [.token { kind := .comment, text := lit "/**/" }, .group ⟨.curly, {}, {}, []⟩,
    .token { kind := .equal, text := lit "=", line := 2, col := 3 }]

/-- Behind the field the block is read, and the `=` is the error that it is without the field. -/
theorem dispatch_append_field_and_block :
    let ctx : BodyContext := { className := lit "A" }
    let both := dispatch ctx (.ofList (oneField ++ blockAndEqual) {})
    both.failure = some ⟨.noMember (lit "A"), [], 2, 3, lit "="⟩ ∧ both.members.length = 2 := by
  intro ctx both
  have hfirst : (dispatch ctx (.ofList oneField {})).failure = none := by decide +kernel
  obtain ⟨hfailure, hmembers⟩ := dispatch_append oneField blockAndEqual {} ctx rfl hfirst
  have hlength := congrArg List.length hmembers
  simp only [List.length_map, List.length_append] at hlength
  refine ⟨hfailure.trans (by decide +kernel), hlength.trans (by decide +kernel)⟩

end Unnest
