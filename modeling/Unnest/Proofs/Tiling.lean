import Unnest.Proofs.Runs

/-!
# Members tile their range

A member keeps the span of positions that it was read from. The spans of the members of a range do
not overlap, and between them there is nothing but semicolons and comments: no element is lost or
used twice.

* `Tiles`: spans that lie in a range one behind the other, with separators between them;
* `dispatch_tiles_range`: so do the spans of all members of a range.
-/

namespace Unnest

/-! ### Spans one behind the other -/

/-- The spans lie one behind the other between the positions `first` and `stop` of a list; none is
empty, and outside of them there are only semicolons and comments. -/
structure Tiles (es : List Element) (first stop : Nat) (spans : List Span) : Prop where
  inRange : ∀ span ∈ spans, first ≤ span.first ∧ span.first < span.stop ∧ span.stop ≤ stop
  increasing : spans.Pairwise fun a b => a.stop ≤ b.first
  outside : ∀ i e, first ≤ i → i < stop → es[i]? = some e →
    (∀ span ∈ spans, ¬ (span.first ≤ i ∧ i < span.stop)) → e.is .semi = true ∨ e.isComment = true

namespace Tiles

variable {es : List Element} {first mid stop : Nat} {spans : List Span}

theorem nil (es : List Element) (first : Nat) : Tiles es first first [] where
  inRange := by simp
  increasing := .nil
  outside := by
    intro i _ hfirst hstop
    omega

theorem behind_gap (hle : first ≤ mid)
    (hgap : ∀ i e, first ≤ i → i < mid → es[i]? = some e → e.is .semi = true ∨ e.isComment = true)
    (h : Tiles es mid stop spans) : Tiles es first stop spans where
  inRange := fun span hspan => ⟨hle.trans (h.inRange span hspan).1, (h.inRange span hspan).2⟩
  increasing := h.increasing
  outside := by
    intro i e hfirst hstop he hout
    by_cases hmid : i < mid
    · exact hgap i e hfirst hmid he
    · exact h.outside i e (Nat.le_of_not_lt hmid) hstop he hout

theorem cons (hlt : first < mid) (hle : mid ≤ stop) (h : Tiles es mid stop spans) :
    Tiles es first stop (⟨first, mid⟩ :: spans) where
  inRange := by
    intro span hspan
    rcases List.mem_cons.mp hspan with rfl | hspan
    · exact ⟨Nat.le_refl _, hlt, hle⟩
    · obtain ⟨hfirst, hrest⟩ := h.inRange span hspan
      exact ⟨by omega, hrest⟩
  increasing := List.pairwise_cons.mpr ⟨fun span hspan => (h.inRange span hspan).1, h.increasing⟩
  outside := by
    intro i e hfirst hstop he hout
    have hhead := hout ⟨first, mid⟩ List.mem_cons_self
    simp only at hhead
    exact h.outside i e (by omega) hstop he fun span hspan =>
      hout span (List.mem_cons_of_mem _ hspan)

end Tiles

/-! ### What a cursor passes over -/

namespace Cursor

variable {es : List Element} {s : Cursor}

theorem isComment_of_settle (h : s.Over es) {i : Nat} {e : Element} (hi : s.pos ≤ i)
    (hlt : i < s.settle.pos) (he : es[i]? = some e) : e.isComment = true := by
  simp only [settle] at hlt
  have hsplit : s.rest.takeWhile (·.isComment) ++ s.rest.dropWhile (·.isComment) = s.rest :=
    List.takeWhile_append_dropWhile
  have hrest : s.rest[i - s.pos]? = some e := by
    rw [show s.rest = es.drop s.pos from h, List.getElem?_drop,
      show s.pos + (i - s.pos) = i by omega, he]
  rw [← hsplit, List.getElem?_append_left (by omega)] at hrest
  exact List.mem_takeWhile_imp (List.mem_of_getElem? hrest)

theorem separator_of_next (h : s.Over es) (hsemi : s.isAt .semi = true) {i : Nat} {e : Element}
    (hi : s.pos ≤ i) (hlt : i < s.next.pos) (he : es[i]? = some e) :
    e.is .semi = true ∨ e.isComment = true := by
  unfold isAt current? at hsemi
  unfold Cursor.next at hlt
  cases hrest : s.rest with
  | nil =>
    rw [hrest] at hsemi
    cases hsemi
  | cons first rest =>
    rw [hrest] at hsemi
    rw [hrest] at hlt
    have hdrop : es.drop s.pos = first :: rest := by
      rw [← hrest]
      exact h.symm
    by_cases hfirst : i = s.pos
    · have hget := congrArg (·[0]?) hdrop
      simp only [List.getElem?_drop, Nat.add_zero, List.getElem?_cons_zero] at hget
      rw [hfirst, hget] at he
      cases he
      exact Or.inl (by simpa using hsemi)
    · refine Or.inr (isComment_of_settle (s := { s with pos := s.pos + 1, rest }) ?_
        (by simp only; omega)
        hlt he)
      unfold Over
      simp only
      rw [← List.drop_drop, hdrop]
      rfl

end Cursor

/-! ### Runs -/

variable {inside : Inside} {ctx ctx' : BodyContext} {s t : Cursor}

/-- **The spans of a run** tile the positions that it has passed. -/
theorem Run.tiles {es : List Element} {nodes : List Node} (h : Run inside ctx s nodes ctx' t)
    (hs : s.Over es) {members : List Member} (hmembers : nodes = members.map .member) :
    s.pos ≤ t.pos ∧ Tiles es s.pos t.pos (members.map Member.span) := by
  induction h generalizing members with
  | done =>
    obtain rfl : members = [] := by simpa using hmembers.symm
    exact ⟨Nat.le_refl _, .nil _ _⟩
  | semi hsemi _ ih =>
    obtain ⟨hle, htiles⟩ := ih (Cursor.lasting_over es _ hs) hmembers
    have hlt := Cursor.pos_lt_next (Cursor.hasNext_of_isAt hsemi)
    refine ⟨by omega, htiles.behind_gap (Nat.le_of_lt hlt) fun i e hi hlt he => ?_⟩
    exact Cursor.separator_of_next hs hsemi hi hlt he
  | @read ctx ctx₁ ctx' s s₁ t node nodes hnext _ hstep _ ih =>
    have hahead := (Cursor.lasting_ahead s.next).memberStep hstep (Cursor.Ahead.refl _)
    obtain ⟨-, -, -, m, -, -, rfl, -⟩ := memberStep_eq_read hstep
    obtain ⟨m', members, rfl, hm, hrest⟩ := List.map_eq_cons_iff.mp hmembers.symm
    cases hm
    obtain ⟨hle, htiles⟩ :=
      ih ((Cursor.lasting_over es).memberStep hstep (Cursor.lasting_over es _ hs))
      hrest.symm
    have hlt : s.pos < s₁.pos := by
      obtain ⟨k, -, rfl⟩ := hahead
      have := Cursor.pos_lt_next hnext
      simp only
      omega
    have hspan : (m.withSpan ⟨s.pos, s₁.pos⟩).span = ⟨s.pos, s₁.pos⟩ := by cases m <;> rfl
    refine ⟨by omega, ?_⟩
    rw [List.map_cons, hspan]
    exact htiles.cons hlt hle

/-! ### Ranges -/

/-- **Members tile their range**. If the members of a range are read without an error, then the
reading is a run in which every node has become a member. The spans of the members are not empty and
lie in the range one behind the other, and every element of the range outside of them is a semicolon
or a comment. -/
theorem dispatch_tiles_range (elements : List Element) (first stop : Nat) (closing : Token)
    (ctx : BodyContext) (h : (dispatch ctx (.view elements first stop closing)).failure = none) :
    let s := Cursor.view elements first stop closing
    let members := (dispatch ctx s).members
    (∃ ctx' t, Run (Inside.ofElements s.rest) ctx s (members.map .member) ctx' t ∧ t.rest = []) ∧
      Tiles elements first (min stop elements.length) (members.map Member.span) := by
  intro s members
  set length := min stop elements.length with hlength
  set raw : Cursor :=
    { pos := first, rest := (elements.take length).drop first, stop := length, closing }
    with hrawdef
  have hraw : raw.Over (elements.take length) := rfl
  have hs : s = raw.settle := rfl
  obtain ⟨ctx', t, hrun, hend⟩ := exists_run_of_dispatchWith (Inside.ofElements s.rest) ctx s
  obtain ⟨-, hrest⟩ : (dispatch ctx s).failure = none ∧ t.rest = [] := by
    rcases hend with hend | ⟨e, -, he, -⟩
    · exact hend
    · exact absurd (he.symm.trans h) (by simp)
  refine ⟨⟨ctx', t, hrun, hrest⟩, ?_⟩
  obtain ⟨hle, htiles⟩ := hrun.tiles (hs ▸ hraw.settle) rfl
  have hstart : first ≤ s.pos := Nat.le_add_right _ _
  have hgapped := htiles.behind_gap hstart fun i e hi hlt he =>
    Or.inr (Cursor.isComment_of_settle hraw hi hlt he)
  -- the run has ended at the end of the range
  obtain ⟨k, hk, ht⟩ := hrun.lasts (Cursor.lasting_ahead raw) (hs ▸ (Cursor.Ahead.refl raw).settle)
  have hlen : raw.rest.length = length - first := by
    simp [hrawdef, hlength]
  have hpos : t.pos = first + k := by rw [ht]
  have hall : length - first ≤ k := by
    rw [← hlen]
    have hdrop : raw.rest.drop k = [] := by rw [← hrest, ht]
    simpa using hdrop
  constructor
  · intro span hspan
    obtain ⟨h₁, h₂, h₃⟩ := hgapped.inRange span hspan
    exact ⟨h₁, h₂, by omega⟩
  · exact hgapped.increasing
  · intro i e hi hlt he hout
    refine hgapped.outside i e hi (by omega) ?_ hout
    rw [List.getElem?_take_of_lt hlt, he]

/-- Constants and a field of an enum, `/**/ A, /**/ B() { }; ; int x; /**/`, with one element more
on each side. -/
def constantsAndField : List Element :=
  [.token { kind := .ident, text := lit "X" }, .token { kind := .comment, text := lit "/**/" },
    .token { kind := .ident, text := lit "A" }, .token { kind := .comma, text := lit "," },
    .token { kind := .comment, text := lit "/**/" }, .token { kind := .ident, text := lit "B" },
    .group ⟨.round, {}, {}, []⟩, .group ⟨.curly, {}, {}, []⟩,
    .token { kind := .semi, text := lit ";" }, .token { kind := .semi, text := lit ";" },
    .token { kind := .primitive, text := lit "int" }, .token { kind := .ident, text := lit "x" },
    .token { kind := .semi, text := lit ";" }, .token { kind := .comment, text := lit "/**/" },
    .token { kind := .ident, text := lit "Y" }]

/-- The two constants and the field, of which the first constant keeps its comma and the comment
behind it. -/
theorem dispatch_tiles_constants_and_field :
    Tiles constantsAndField 1 14 [⟨2, 5⟩, ⟨5, 8⟩, ⟨10, 14⟩] := by
  have hfailure : (dispatch ⟨lit "E", .enumeration, true⟩
      (.view constantsAndField 1 14 {})).failure = none := by
    decide +kernel
  have hspans : (dispatch ⟨lit "E", .enumeration, true⟩
      (.view constantsAndField 1 14 {})).members.map Member.span = [⟨2, 5⟩, ⟨5, 8⟩, ⟨10, 14⟩] := by
    decide +kernel
  have htiles :=
    (dispatch_tiles_range constantsAndField 1 14 {} ⟨lit "E", .enumeration, true⟩ hfailure).2
  rw [hspans] at htiles
  exact htiles

end Unnest
