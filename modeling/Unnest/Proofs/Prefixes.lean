import Unnest.Proofs.Tails

/-!
# What is read before an error

When the reading of a range fails at some member, the members in front of it have been read as if
the range ended there: what they were recognised and read by lies in front of the cut.

* `toExcept_dispatch_of_run`: a run that ends in front of a cut reads all that the shorter range
  holds;
* `dispatch_failure_leaves_prefix`: an error leaves the members of the range in front of the failing
  member.
-/

namespace Unnest

open Unnest.Parser

/-! ### Ranges of a list -/

namespace Cursor

variable {elements : List Element} {first stop : Nat} {closing : Token} {t : Cursor}

theorem view_of_over (hover : t.Over (elements.take (min stop elements.length)))
    (hstop : t.stop = min stop elements.length) (hclosing : t.closing = closing) (h : t.Settled) :
    view elements t.pos stop closing = t := by
  obtain ⟨pos, rest, _, _⟩ := t
  simp only [Over] at hover hstop hclosing
  subst hover hstop hclosing
  exact settle_of_settled h

theorem Over.lt_and_getElem? {el : Element}
    (hover : t.Over (elements.take (min stop elements.length))) (hel : t.current? = some el) :
    t.pos < min stop elements.length ∧ elements[t.pos]? = some el := by
  have hget : (elements.take (min stop elements.length))[t.pos]? = some el := by
    rw [← List.head?_drop, ← hover]
    exact hel
  have hlt := (List.getElem?_eq_some_iff.mp hget).1
  rw [List.length_take] at hlt
  have hlt' : t.pos < min stop elements.length := by omega
  exact ⟨hlt', by rwa [List.getElem?_take_of_lt hlt'] at hget⟩

theorem view_extend {p : Nat} (hfirst : first ≤ p) (hp : p ≤ min stop elements.length)
    (hmore : ∀ e, ((elements.take (min stop elements.length)).drop p).head? = some e →
      e.isComment = false) :
    (view elements first p closing).extend ((elements.take (min stop elements.length)).drop p) =
      view elements first stop closing := by
  set inRange := elements.take (min stop elements.length) with hinRange
  have hlen : inRange.length = min stop elements.length := by simp [hinRange]
  have hpre : elements.take p = inRange.take p := by
    rw [hinRange, List.take_take, Nat.min_eq_left hp]
  have hsplit : (inRange.take p).drop first ++ inRange.drop p = inRange.drop first := by
    rw [← List.drop_append_of_le_length (by rw [List.length_take]; omega), List.take_append_drop]
  unfold view
  rw [Nat.min_eq_left (hp.trans (Nat.min_le_right _ _)), ← settle_extend hmore]
  simp only [extend, hpre, hsplit, List.length_drop, hlen, Nat.add_sub_cancel' hp]
  rfl

end Cursor

/-! ### The members in front of an error -/

theorem Run.view {inside : Inside} {ctx ctx' : BodyContext} {elements : List Element}
    {first stop : Nat} {closing : Token} {nodes : List Node} {t : Cursor}
    (h : Run inside ctx (.view elements first stop closing) nodes ctx' t) :
    first ≤ t.pos ∧ Cursor.view elements t.pos stop closing = t ∧
      t.Over (elements.take (min stop elements.length)) := by
  have hsettled : t.Settled := h.lasts Cursor.lasting_settled (Cursor.settled_settle _)
  have hover : t.Over (elements.take (min stop elements.length)) :=
    h.lasts (Cursor.lasting_over _) (Cursor.Over.settle rfl)
  obtain ⟨k, -, ht⟩ := h.lasts (Cursor.lasting_ahead _) (Cursor.Ahead.refl _)
  have hfirst : first ≤ (Cursor.view elements first stop closing).pos := Nat.le_add_right _ _
  refine ⟨?_, Cursor.view_of_over hover (by rw [ht]; rfl) (by rw [ht]; rfl) hsettled, hover⟩
  rw [ht]
  exact Nat.le_add_right_of_le hfirst

theorem toExcept_dispatch_of_run {elements more : List Element} {first p : Nat} {closing : Token}
    {whole t : Cursor} {ctx ctx' : BodyContext} {members : List Member}
    (hmore : ∀ e, more.head? = some e → e.isComment = false)
    (hwhole : (Cursor.view elements first p closing).extend more = whole)
    (hconst : ctx.inConstants = false)
    (hrun : Run (Inside.ofElements whole.rest) ctx whole (members.map .member) ctx' t) (hrest :
      t.rest = more) : (dispatch ctx (.view elements first p closing)).toExcept = .ok members := by
  set s := Cursor.view elements first p closing with hs
  subst hwhole
  have hsettled : s.Settled := Cursor.settled_settle _
  have hlevels : depthAll s.rest ≤ depthAll (s.extend more).rest :=
    depthAll_le fun e he => depth_le_of_mem (List.mem_append_left _ he)
  have hfork : Pace.Fork (depthAll s.rest) more [] (s.extend more) s :=
    ⟨s, hsettled, fun e he => depth_le_of_mem he, rfl,
      by rw [s.extend_nil, Cursor.settle_of_settled hsettled]⟩
  obtain ⟨ms, ms', t', hms, htwins, ⟨b, hb, -, rfl, rfl⟩, hrun'⟩ :=
    (Pace.limit_fork hmore).run (agrees_insideAt hlevels).symm.reads (Or.inl hconst) hrun hfork
    (by simp [hrest])
  obtain rfl := List.map_injective_iff.mpr (fun _ _ h => Node.member.inj h) hms
  -- without anything behind it the beginning is the shorter range itself, so that its positions are
  -- the same
  have hpos : ∀ {u u'}, Pace.Fork (depthAll s.rest) more [] u u' → u'.pos = u.pos := by
    rintro _ _ ⟨c, hc, -, rfl, rfl⟩
    rw [c.extend_nil, Cursor.settle_of_settled hc]
    rfl
  rw [Pace.eq_of_twins htwins hpos, b.extend_nil, Cursor.settle_of_settled hb] at hrun'
  have hend : b.rest = [] := List.append_left_eq_self.mp hrest
  exact toExcept_dispatchWith_eq_ok.mpr ⟨ctx', b, hrun', hend⟩

/-- **An error leaves the members in front of it.** Where the reading of a range fails, there is a
position of the range such that the range in front of it reads without an error to just the members
that the failed reading gives. Either no form recognises a member at that position, and the error is
that of the element there; or a form does, and the error is that of its reading. -/
theorem dispatch_failure_leaves_prefix (elements : List Element) (first stop : Nat)
    (closing : Token) (ctx : BodyContext) (hconst : ctx.inConstants = false) (e : SourceError)
    (h : (dispatch ctx (.view elements first stop closing)).failure = some e) :
    let whole := Cursor.view elements first stop closing
    let inside := Inside.ofElements whole.rest
    ∃ p el, first ≤ p ∧ p < stop ∧ elements[p]? = some el ∧
      (dispatch ctx (.view elements first p closing)).toExcept = .ok (dispatch ctx whole).members ∧
      ((∀ form ∈ constantForm inside :: memberForms inside,
          form.recognize ctx (.view elements p stop closing) = none) ∧
        e = el.firstToken.error (.noMember ctx.className) ∨
      ∃ form ∈ memberForms inside,
        (form.recognize ctx (.view elements p stop closing)).isSome = true ∧
        ∃ t, form.parse ctx (.view elements p stop closing) = .error e t) := by
  intro whole inside
  obtain ⟨ctx', t, hrun, hend⟩ := exists_run_of_dispatchWith inside ctx whole
  obtain ⟨t', hnext, hstep⟩ : ∃ t', t.hasNext = true ∧
      memberStep (constantForm inside) (memberForms inside) ctx' t = .failed e t' := by
    rcases hend with ⟨hnone, -⟩ | ⟨e', t', he', hnext, hstep⟩
    · exact absurd (hnone.symm.trans h) (by simp)
    · obtain rfl : e' = e := Option.some.inj (he'.symm.trans h)
      exact ⟨t', hnext, hstep⟩
  obtain rfl := hrun.context hconst
  -- the failing member stands at `t`, and what is cut off is the range from there
  obtain ⟨hfirst, hhere, hover⟩ := hrun.view
  have hsettled : t.Settled := hhere ▸ Cursor.settled_settle _
  obtain ⟨el, hel⟩ := Cursor.hasNext_iff.mp hnext
  obtain ⟨hlt, hget⟩ := hover.lt_and_getElem? hel
  have hwhole : (Cursor.view elements first t.pos closing).extend t.rest = whole := by
    rw [hover]
    refine Cursor.view_extend hfirst hlt.le ?_
    rw [← hover]
    exact hsettled
  refine ⟨t.pos, el, hfirst, hlt.trans_le (Nat.min_le_left _ _), hget, ?_, ?_⟩
  · exact toExcept_dispatch_of_run hsettled hwhole hconst hrun rfl
  · rw [hhere]
    rcases memberStep_eq_failed hstep with ⟨ctx₁, hsel, rfl⟩ | ⟨form, decided, ctx₁, hsel, hparse⟩
    · refine Or.inl ⟨selectForm_eq_none hsel hconst, ?_⟩
      unfold Cursor.error Cursor.here
      rw [hel]
      rfl
    · rcases selectForm_cases hsel with ⟨-, -, hin, -⟩ | ⟨kind, rfl, -, rfl, hrec⟩
      · simp [hconst] at hin
      · rw [BodyContext.behindConstants hconst] at hrec hparse
        exact Or.inr ⟨_, kind.form_mem _, by simp [hrec], t', hparse⟩

/-- A field and a block in front of something that is no member, `int x; { } /**/ ; = int y;`. -/
def fieldBlockAndEqual : List Element :=
  [.token { kind := .primitive, text := lit "int" }, .token { kind := .ident, text := lit "x" },
    .token { kind := .semi, text := lit ";" }, .group ⟨.curly, {}, {}, []⟩,
    .token { kind := .comment, text := lit "/**/" }, .token { kind := .semi, text := lit ";" },
    .token { kind := .equal, text := lit "=", line := 2, col := 3 },
    .token { kind := .primitive, text := lit "int" }, .token { kind := .ident, text := lit "y" },
    .token { kind := .semi, text := lit ";" }]

/-- The field and the block are left. -/
theorem dispatch_failure_leaves_field_and_block :
    let ctx : BodyContext := { className := lit "A" }
    (dispatch ctx (.view fieldBlockAndEqual 0 10 {})).members.length = 2 ∧
    ∃ p el, p < 10 ∧ fieldBlockAndEqual[p]? = some el ∧
      (dispatch ctx (.view fieldBlockAndEqual 0 p {})).toExcept =
        .ok (dispatch ctx (.view fieldBlockAndEqual 0 10 {})).members := by
  intro ctx
  have hfailure : (dispatch ctx (.view fieldBlockAndEqual 0 10 {})).failure =
      some ⟨.noMember (lit "A"), [], 2, 3, lit "="⟩ := by
    decide +kernel
  obtain ⟨p, el, -, hp, hel, hprefix, -⟩ :=
    dispatch_failure_leaves_prefix fieldBlockAndEqual 0 10 {} ctx rfl _ hfailure
  exact ⟨by decide +kernel, p, el, hp, hel, hprefix⟩

end Unnest
