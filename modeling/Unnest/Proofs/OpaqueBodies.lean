import Unnest.Proofs.Appending

/-!
# Blocks are opaque

A class does not look into the blocks of its methods, constructors and initializers: if other code
is put into the braces of one of them, then the same members are read at the same positions, and the
one member has the other code. Neither the members in front of the block nor the forms that are
tried on them and rejected can tell the two ranges apart, since they see no more of a group in
braces than its kind.

* `Replacement`: ranges that differ in what is inside one group in braces, with their
  `Replacement.pace`;
* `Replacement.memberStep`, `Replacement.run`: the member with the block, and a run over the range;
* `dispatch_replace_body`: all members of the range.
-/

namespace Unnest

open Unnest.Parser

/-- The code in the braces at the end of a member. -/
def Member.body? : Member → Option Code
  | .method _ body => body
  | .constructor _ body | .initializer _ body => some body
  | .field .. | .nested .. | .constant .. => none

/-- The member with other code in the braces at its end. -/
def Member.withBody (code : Code) : Member → Member
  | .method head _ => .method head (some code)
  | .constructor head _ => .constructor head code
  | .initializer head _ => .initializer head code
  | m => m

theorem Member.body?_withSpan (m : Member) (span : Span) : (m.withSpan span).body? = m.body? := by
  cases m <;> rfl

theorem Member.withBody_withSpan (m : Member) (span : Span) (code : Code) :
    (m.withSpan span).withBody code = (m.withBody code).withSpan span := by
  cases m <;> rfl

theorem Member.span_withSpan (m : Member) (span : Span) : (m.withSpan span).span = span := by
  cases m <;> rfl

/-! ### Ranges that differ inside one group -/

/-- Other children for a group in braces, in a range that goes on with `after` behind it. The
elements around the group have at most `levels` levels of groups. -/
structure Replacement where
  group : Group
  children : List Element
  after : List Element
  levels : Nat
  curly : group.kind = .curly

namespace Replacement

variable {R : Replacement} {s s' b : Cursor}

def other (R : Replacement) : Group := { R.group with children := R.children }

/-- The cursor stands at the group or in front of it. -/
def UpTo (R : Replacement) (s : Cursor) : Prop :=
  ∃ b : Cursor, s = b.extend (.group R.group :: R.after)

/-- The cursor has left the group behind. -/
def Behind (R : Replacement) (s : Cursor) : Prop := s.rest.length ≤ R.after.length

theorem UpTo.not_behind (h : R.UpTo s) : ¬ R.Behind s := by
  obtain ⟨b, rfl⟩ := h
  unfold Behind
  rw [Cursor.length_rest_extend, List.length_cons]
  omega

theorem lasting_behind (R : Replacement) : Cursor.Lasting R.Behind :=
  fun s hs => s.length_rest_next_le.trans hs

/-- A group is no comment, so the cursor that moves on to it stops there. -/
theorem next_extend {g : Group} {after : List Element} (h : b.hasNext = true) :
    (b.extend (.group g :: after)).next = b.next.extend (.group g :: after) :=
  Cursor.next_extend (by rintro e ⟨⟩; rfl) h

theorem walk_upTo (R : Replacement) : Walk R.UpTo fun _ => True where
  next := by
    rintro s e ⟨b, rfl⟩ he hbody
    by_cases hnext : b.hasNext = true
    · exact ⟨b.next, next_extend hnext⟩
    · have hrest : b.rest = [] := by simpa [Cursor.hasNext] using hnext
      obtain rfl : Element.group R.group = e := by
        simpa [Cursor.current?, Cursor.extend, hrest] using he
      simp [Element.isBodyOrSemi, Element.isGroup, R.curly] at hbody
  fail _ _ := trivial

/-- Both cursors stand in front of the groups or at them, or they are the same cursor behind
them. -/
def Rel (R : Replacement) (s s' : Cursor) : Prop :=
  (∃ b : Cursor, b.Shallow R.levels ∧ s = b.extend (.group R.group :: R.after) ∧
    s' = b.extend (.group R.other :: R.after)) ∨
  s' = s ∧ R.Behind s

namespace Rel

variable (h : R.Rel s s')
include h

theorem cases :
    (∃ b : Cursor, b.Shallow R.levels ∧ b.hasNext = true ∧
      s = b.extend (.group R.group :: R.after) ∧
      s' = b.extend (.group R.other :: R.after)) ∨
    (s.current? = some (.group R.group) ∧ s'.current? = some (.group R.other) ∧ s'.next = s.next ∧
      R.Behind s.next) ∨
    s' = s ∧ R.Behind s := by
  rcases h with ⟨b, hshallow, rfl, rfl⟩ | hsame
  · by_cases hnext : b.hasNext = true
    · exact Or.inl ⟨b, hshallow, hnext, rfl, rfl⟩
    · have hrest : b.rest = [] := by simpa [Cursor.hasNext] using hnext
      have hnext : (b.extend (.group R.group :: R.after)).hasNext = true := by
        simp [Cursor.hasNext, Cursor.extend, hrest]
      have hlt := Cursor.length_rest_next_lt hnext
      rw [Cursor.length_rest_extend, hrest, List.length_nil, List.length_cons] at hlt
      refine Or.inr (Or.inl ⟨?_, ?_, ?_, by unfold Behind; omega⟩)
      · simp [Cursor.current?, Cursor.extend, hrest]
      · simp [Cursor.current?, Cursor.extend, hrest]
      · simp [Cursor.next, Cursor.extend, hrest]
  · exact Or.inr (Or.inr hsame)

theorem upTo (hbehind : ¬ R.Behind s) : R.UpTo s := by
  rcases h with ⟨b, -, hb, -⟩ | ⟨-, hsame⟩
  · exact ⟨b, hb⟩
  · exact absurd hsame hbehind

theorem pos : s'.pos = s.pos := by
  rcases h with ⟨b, -, rfl, rfl⟩ | ⟨rfl, -⟩ <;> rfl

theorem closing : s'.closing = s.closing := by
  rcases h with ⟨b, -, rfl, rfl⟩ | ⟨rfl, -⟩ <;> rfl

theorem length_rest : s'.rest.length = s.rest.length := by
  rcases h with ⟨b, -, rfl, rfl⟩ | ⟨rfl, -⟩
  · simp only [Cursor.length_rest_extend, List.length_cons]
  · rfl

theorem alike : s.Alike s' := by
  refine .of_current ?_ h.closing
  rcases h.cases with ⟨b, -, hnext, rfl, rfl⟩ | ⟨hg, hg', -, -⟩ | ⟨rfl, -⟩
  · rw [Cursor.current?_extend hnext, Cursor.current?_extend hnext]
    exact (Cursor.Alike.refl b).current
  · rw [hg, hg']
    exact .some (by simp [Element.Alike, Element.outline, Replacement.other, R.curly])
  · exact (Cursor.Alike.refl s').current

theorem next : R.Rel s.next s'.next := by
  rcases h.cases with ⟨b, hshallow, hnext, rfl, rfl⟩ | ⟨-, -, hsame, hbehind⟩ | ⟨rfl, hbehind⟩
  · exact Or.inl ⟨b.next, hshallow.next, next_extend hnext, next_extend hnext⟩
  · exact Or.inr ⟨hsame, hbehind⟩
  · exact Or.inr ⟨rfl, R.lasting_behind _ hbehind⟩

/-- An `@` cannot be the last element in front of what is behind the group. -/
theorem behind_of_at (hat : s.isAt .atSign = true) (hbehind : R.Behind s.next) : R.Behind s := by
  rcases h.cases with ⟨b, -, hnext, rfl, -⟩ | ⟨hg, -, -, -⟩ | ⟨-, hbehind⟩
  · exact absurd hbehind (UpTo.not_behind ⟨b.next, next_extend hnext⟩)
  · rw [Cursor.isAt_of_isAtGroup (Cursor.isAtGroup_of_current hg R.curly)] at hat
    cases hat
  · exact hbehind

end Rel

/-- The range and the one with the other children, compared to their ends or only up to the
group. -/
def pace (R : Replacement) (toEnd : Bool) : Pace where
  rel := R.Rel
  past s := toEnd = false ∧ R.Behind s
  look h _ := h.alike
  next h _ _ := h.next
  lt hs ht _ _ := by rw [hs.length_rest, ht.length_rest]
  past_next s hs := ⟨hs.1, R.lasting_behind s hs.2⟩
  past_at h hat hpast := ⟨hpast.1, h.behind_of_at hat hpast.2⟩

/-- Compared to their ends, the ranges do not differ in anything that a form looks at. -/
theorem steady_pace (R : Replacement) (s : Cursor) : ¬ (R.pace true).past s := by
  rintro ⟨⟨⟩, -⟩

theorem limit_pace (R : Replacement) :
    (R.pace false).Limit (fun e e' => e = e' ∧ e.depth ≤ R.levels) R.Behind where
  lasting := R.lasting_behind
  past_of_over h := ⟨rfl, h⟩
  over_of_past {s} hs _ _ := R.lasting_behind s hs.2
  pass := by
    rintro s s' e e' hs hpast he he'
    rcases hs.cases with ⟨b, hshallow, hnext, rfl, rfl⟩ | ⟨-, -, -, hbehind⟩ | ⟨-, hbehind⟩
    · rw [Cursor.current?_extend hnext] at he he'
      exact Or.inr ⟨Option.some.inj (he.symm.trans he'), hshallow e (Cursor.mem_rest_of_current he)⟩
    · exact Or.inl hbehind
    · exact absurd ⟨rfl, hbehind⟩ hpast

theorem keepsConstants_pace (R : Replacement) : (R.pace false).KeepsConstants R.Behind where
  over_of_past _ h := h.2
  recognize ctx hs := (R.pace true).isSome_recognizeConstant R.steady_pace hs ctx

end Replacement

/-! ### The member with the block -/

variable {m : Member} {before : List Element}

theorem body?_of_fieldDecl {inside : Inside} {s t : Cursor}
    (h : fieldDecl inside s = .ok m t) :
    m.body? = none := by
  have w : Walk (fun _ => True) fun _ => True := ⟨fun _ _ _ => trivial, fun _ _ => trivial⟩
  have hcode : ∀ s : Cursor, True → s.isAt .equal = true →
      Gives (codeUntil inside [.comma, .semi]) s.next (fun _ _ => True ∧ True) fun _ => True :=
    fun s _ _ => gives_of_forall (fun _ _ _ => ⟨trivial, trivial⟩) fun _ _ _ => trivial
  have hfield := w.fieldDecl hcode (w.typeWith fun _ _ _ _ _ _ => trivial) (fun _ _ => trivial)
    (s := s) trivial
  obtain ⟨-, head, declarators, rfl, -⟩ := hfield.ok h
  rfl

theorem body?_of_bodiless {ctx : BodyContext} {head : MethodHead} {s t : Cursor}
    (h : bodiless ctx head s = .ok m t) : m.body? = none := by
  have hgives : Gives (bodiless ctx head) s (fun m _ => m.body? = none) fun _ => True := by
    unfold bodiless
    rw [gives_bind, gives_expect]
    refine ⟨fun _ _ _ => ?_, fun _ => trivial⟩
    simp only [gives_ite, gives_pure]
    exact ⟨fun _ => rfl, fun _ => rfl⟩
  exact hgives.ok h

namespace Replacement

variable {R : Replacement} {inside inside' : Inside} {code : Code} {p q : Parser Member}
  {s s' t : Cursor} {m : Member} {old : Code}

/-- Where `p` reads a member whose block is the group, `q` reads it with the code of the other
group. -/
def Exchanges (R : Replacement) (inside : Inside) (code : Code) (p q : Parser Member) : Prop :=
  ∀ s s' t m old, R.Rel s s' → R.UpTo s → p s = .ok m t → R.Behind t → m.body? = some old →
    Code.ofGroup inside R.group = .ok old ∧ q s' = .ok (m.withBody code) t

theorem exchanges_bodiless (h : ∀ {s t m}, p s = .ok m t → m.body? = none) :
    R.Exchanges inside code p q := by
  intro s s' t m old _ _ hp _ hbody
  rw [h hp] at hbody
  cases hbody

theorem exchanges_block (hcode : Code.ofGroup inside' R.other = .ok code) {what : Text}
    {build : Code → Member}
    (hbuild : ∀ c, (build c).body? = some c ∧ (build c).withBody code = build code) :
    R.Exchanges inside code (block inside what build) (block inside' what build) := by
  intro s s' t m old hs hup h ht hbody
  obtain ⟨g, hg, hk, c, hc, rfl, rfl⟩ := block_eq_ok.mp h
  rw [(hbuild c).1] at hbody
  cases hbody
  rcases hs.cases with ⟨b, -, hnext, rfl, -⟩ | ⟨hgroup, hother, hsame, -⟩ | ⟨-, hbehind⟩
  · exact absurd ht (UpTo.not_behind ⟨b.next, next_extend hnext⟩)
  · obtain rfl : R.group = g := by simpa [hgroup] using hg
    exact ⟨hc, block_eq_ok.mpr ⟨R.other, hother, hk, code, hcode, (hbuild _).2, hsame.symm⟩⟩
  · exact absurd hbehind hup.not_behind

theorem exchanges_bind {α : Type} {head : Parser α} {f f' : α → Parser Member}
    (hmirrors : (R.pace false).Mirrors head head) (hkeeps : Keeps R.UpTo (fun _ => True) head)
    (hf : ∀ a, R.Exchanges inside code (f a) (f' a)) :
    R.Exchanges inside code (head >>= f) (head >>= f') := by
  intro s s' t m old hs hup h ht hbody
  obtain ⟨a, u, hhead, h⟩ := bind_eq_ok.mp h
  have hup' := (hkeeps s hup).ok hhead
  obtain ⟨u', hhead', hu⟩ :=
    (Pace.Closes.ok hmirrors hs hhead).resolve_left fun hpast => hup'.not_behind hpast.2
  obtain ⟨hold, h'⟩ := hf a u u' t m old hu hup' h ht hbody
  exact ⟨hold, bind_eq_ok.mpr ⟨a, u', hhead', h'⟩⟩

theorem exchanges_isAtGroup (kind : GroupKind) {p₁ q₁ p₂ q₂ : Parser Member}
    (h₁ : R.Exchanges inside code p₁ q₁) (h₂ : R.Exchanges inside code p₂ q₂) :
    R.Exchanges inside code (get >>= fun s => if s.isAtGroup kind then p₁ else p₂)
      (get >>= fun s => if s.isAtGroup kind then q₁ else q₂) := by
  intro s s' t m old hs hup h ht hbody
  rw [get_bind] at h ⊢
  rw [hs.alike.isAtGroup]
  split_ifs at h ⊢ with hat
  · exact h₁ s s' t m old hs hup h ht hbody
  · exact h₂ s s' t m old hs hup h ht hbody

/-- The form of a member with a block reads the other code in the second range. -/
theorem exists_parse (hcode : Code.ofGroup inside' R.other = .ok code) (kind : FormKind)
    (ctx : BodyContext) (hs : R.Rel s s') (hup : R.UpTo s)
    (h : (kind.form inside).parse ctx s = .ok (.member m) t) (ht : R.Behind t)
    (hbody : m.body? = some old) :
    Code.ofGroup inside R.group = .ok old ∧
      (kind.form inside').parse ctx s' = .ok (.member (m.withBody code)) t := by
  have w := R.walk_upTo
  have hdecl : ∃ p q : Parser Member, (kind.form inside).parse ctx = Node.member <$> p ∧
      (kind.form inside').parse ctx = Node.member <$> q ∧ R.Exchanges inside code p q := by
    cases kind with
    | field => exact ⟨_, _, rfl, rfl, exchanges_bodiless body?_of_fieldDecl⟩
    | method =>
      refine ⟨_, _, rfl, rfl, ?_⟩
      rw [methodDecl_eq, methodDecl_eq]
      refine exchanges_bind Pace.mirrors_methodHead w.methodHead fun head => ?_
      exact exchanges_isAtGroup .curly (exchanges_block hcode fun _ => ⟨rfl, rfl⟩)
        (exchanges_bodiless body?_of_bodiless)
    | nested =>
      refine ⟨_, _, rfl, rfl, exchanges_bodiless fun h => ?_⟩
      obtain ⟨d, -, rfl⟩ := map_eq_ok.mp h
      rfl
    | staticBlock =>
      refine ⟨initializerDecl inside true, initializerDecl inside' true, rfl, rfl, ?_⟩
      rw [initializerDecl_eq, initializerDecl_eq]
      exact exchanges_bind (Pace.mirrors_initializerHead true) (w.initializerHead true) fun head =>
        exchanges_block hcode fun _ => ⟨rfl, rfl⟩
    | instanceBlock =>
      refine ⟨initializerDecl inside false, initializerDecl inside' false, rfl, rfl, ?_⟩
      rw [initializerDecl_eq, initializerDecl_eq]
      exact exchanges_bind (Pace.mirrors_initializerHead false) (w.initializerHead false)
        fun head =>
        exchanges_block hcode fun _ => ⟨rfl, rfl⟩
    | constructor =>
      refine ⟨constructorDecl inside, constructorDecl inside', rfl, rfl, ?_⟩
      rw [constructorDecl_eq, constructorDecl_eq]
      exact exchanges_bind Pace.mirrors_constructorHead w.constructorHead fun head =>
        exchanges_block hcode fun _ => ⟨rfl, rfl⟩
  obtain ⟨p, q, hp, hq, hexchanges⟩ := hdecl
  rw [hp] at h
  obtain ⟨m, h, ⟨⟩⟩ := map_eq_ok.mp h
  obtain ⟨hold, h'⟩ := hexchanges s s' t m old hs hup h ht hbody
  exact ⟨hold, by rw [hq]; exact map_eq_ok.mpr ⟨_, h', rfl⟩⟩

/-- **The member with the block** is read at the same place, with the other code. -/
theorem memberStep {ctx ctx' : BodyContext} (hcode : Code.ofGroup inside' R.other = .ok code)
    (hs : R.Rel s s') (hbehind : ¬ R.Behind s)
    (h : memberStep (constantForm inside) (memberForms inside) ctx s = .read (.member m) ctx' t)
    (ht : R.Behind t) (hbody : m.body? = some old) :
    Code.ofGroup inside R.group = .ok old ∧
      Unnest.memberStep (constantForm inside') (memberForms inside') ctx s' =
        .read (.member (m.withBody code)) ctx' t := by
  obtain ⟨form, decided, ctx₁, m, hsel, hparse, ⟨⟩, rfl⟩ := memberStep_eq_read h
  rw [Member.body?_withSpan] at hbody
  rcases selectForm_cases hsel with ⟨rfl, rfl, hconst, hrec⟩ | ⟨kind, rfl, hnone, rfl, hrec⟩
  · obtain ⟨m, hparse, ⟨⟩⟩ := map_eq_ok.mp hparse
    obtain ⟨head, args, body, rfl, -⟩ := exists_constant_of_constantDecl hparse
    cases hbody
  · obtain ⟨hold, hparse'⟩ := exists_parse hcode kind _ hs (hs.upTo hbehind) hparse ht hbody
    refine ⟨hold, ?_⟩
    have hsteady := R.steady_pace
    have hnone' : ctx.inConstants = true → recognizeConstant ctx s' = none := by
      intro hconst
      have hsame := (R.pace true).isSome_recognizeConstant hsteady hs ctx
      rw [hnone hconst] at hsame
      simpa using hsame
    obtain ⟨decided', hrec', -⟩ := (R.pace true).exists_recognize hs hrec (hsteady decided)
    rw [recognize_form kind inside inside'] at hrec'
    rw [memberStep_of_parse (selectForm_of_kind hnone' hrec') hparse', Member.withBody_withSpan,
      hs.pos]
    simp only [Bool.false_and]
    rfl

end Replacement

/-! ### The whole range -/

theorem Replacement.rel_ofList (R : Replacement)
    (hbefore : depthAll before ≤ R.levels) (closing : Token) :
    R.Rel (.ofList (before ++ .group R.group :: R.after) closing)
      (.ofList (before ++ .group R.other :: R.after) closing) := by
  have hextend : ∀ g : Group, Cursor.ofList (before ++ .group g :: R.after) closing =
      (Cursor.ofList before closing).extend (.group g :: R.after) := by
    intro g
    unfold Cursor.ofList
    rw [← Cursor.settle_extend (by rintro e ⟨⟩; rfl)]
    simp only [Cursor.extend, List.length_append]
  refine Or.inl ⟨.ofList before closing, fun e he => ?_, hextend R.group, hextend R.other⟩
  rw [← depthAll_rest_ofList before closing] at hbefore
  exact (depth_le_of_mem he).trans hbefore

theorem Replacement.behind_iff (R : Replacement) {s : Cursor}
    (hs : s.Over (before ++ .group R.group :: R.after)) : R.Behind s ↔ before.length < s.pos := by
  unfold Replacement.Behind
  rw [hs, List.length_drop, List.length_append, List.length_cons]
  omega

theorem Replacement.subset_of_behind (R : Replacement) {s : Cursor}
    (hs : s.Over (before ++ .group R.group :: R.after)) (hbehind : R.Behind s) :
    s.rest ⊆ R.after := by
  have hrest : s.rest <:+ before ++ .group R.group :: R.after := by
    rw [hs]
    exact List.drop_suffix _ _
  have hafter : R.after <:+ before ++ .group R.group :: R.after :=
    (List.suffix_cons _ _).trans (List.suffix_append _ _)
  exact (List.suffix_of_suffix_length_le hrest hafter hbehind).subset

/-- **A run over the range** is matched by a run over the other one, in which only the member with
the block has other code. -/
theorem Replacement.run {R : Replacement} {inside inside' : Inside}
    {old code : Code} {ctx ctx' : BodyContext} {s s' t : Cursor} {front back : List Member}
    (hin : inside.Agrees (fun e => e.depth ≤ R.levels) inside')
    (hafter : depthAll R.after ≤ R.levels) (hcode : Code.ofGroup inside' R.other = .ok code)
    (hs : R.Rel s s') (hover : s.Over (before ++ .group R.group :: R.after))
    (hrun : Run inside ctx s ((front ++ m :: back).map .member) ctx' t) (hbody : m.body? = some old)
    (hfirst : m.span.first ≤ before.length) (hstop : before.length < m.span.stop) :
    Code.ofGroup inside R.group = .ok old ∧
      ∃ t', Run inside' ctx s' ((front ++ m.withBody code :: back).map .member) ctx' t' ∧
        t'.rest = t.rest := by
  rw [List.map_append, List.map_cons] at hrun
  obtain ⟨ctx₁, s₁, ctx₂, s₂, hfront, hnext, hsemi, hstep, hback⟩ := hrun.exists_of_append_cons
  have hspan : m.span = ⟨s₁.pos, s₂.pos⟩ := by
    obtain ⟨-, -, -, m₀, -, -, ⟨⟩, -⟩ := memberStep_eq_read hstep
    exact m₀.span_withSpan _
  have hlasting := Cursor.lasting_over (before ++ .group R.group :: R.after)
  have hover₁ := hfront.lasts hlasting hover
  have hover₂ := hlasting.memberStep hstep (hlasting _ hover₁)
  rw [hspan] at hfirst hstop
  have hupTo : ¬ R.Behind s₁ := by
    rw [R.behind_iff hover₁]
    exact Nat.not_lt.mpr hfirst
  have hbehind : R.Behind s₂ := (R.behind_iff hover₂).mpr hstop
  -- in front of the group
  obtain ⟨ms, ms', s₁', hms, htwins, hs₁, hfront'⟩ :=
    R.limit_pace.run hin.reads (Or.inr R.keepsConstants_pace) hfront hs hupTo
  obtain rfl := List.map_injective_iff.mpr (fun _ _ h => Node.member.inj h) hms
  obtain rfl := Pace.eq_of_twins htwins fun hs => Replacement.Rel.pos hs
  obtain ⟨hold, hstep'⟩ := Replacement.memberStep hcode hs₁ hupTo hstep hbehind hbody
  -- behind it both cursors are the same
  have hshallow : s₂.Shallow R.levels := by
    intro e he
    exact (depth_le_of_mem (R.subset_of_behind hover₂ hbehind he)).trans hafter
  obtain ⟨ns, ns', t', hns, htwins', ht, hback'⟩ := (Pace.limit_shift 0 _).run hin.reads
    (Or.inr (Pace.keepsConstants (fun _ => id) _)) hback ⟨⟨rfl, rfl, rfl⟩, hshallow⟩ id
  obtain rfl := List.map_injective_iff.mpr (fun _ _ h => Node.member.inj h) hns
  obtain rfl := Pace.eq_of_twins htwins' fun hs => hs.1.pos
  refine ⟨hold, t', ?_, ht.1.rest⟩
  rw [List.map_append, List.map_cons]
  have hlook := Replacement.Rel.alike hs₁
  exact hfront'.trans (.read (by rwa [hlook.hasNext]) (by rwa [hlook.isAt]) hstep' hback')

/-- **Blocks are opaque.** Let a range read without an error, and let a group in braces stand where
a method, a constructor or an initializer of it is. Then the group is the block of that member, and
any other children that can be read as code leave the members of the range as they are, except that
this one member has the other code. -/
theorem dispatch_replace_body (before after : List Element) (g : Group) (children : List Element)
    (closing : Token) (ctx : BodyContext) (members : List Member) (k : Nat) (m : Member)
    (old code : Code)
    (hread : (dispatch ctx (.ofList (before ++ .group g :: after) closing)).toExcept = .ok members)
    (hm : members[k]? = some m) (hbody : m.body? = some old) (hcurly : g.kind = .curly)
    (hfirst : m.span.first ≤ before.length) (hstop : before.length < m.span.stop)
    (hcode : Group.code { g with children } = .ok code) :
    g.code = .ok old ∧
      (dispatch ctx (.ofList (before ++ .group { g with children } :: after) closing)).toExcept =
        .ok (members.set k (m.withBody code)) := by
  let R : Replacement := ⟨g, children, after, max (depthAll before) (depthAll after), hcurly⟩
  have hlevels : ∀ g : Group, depthAll (before ++ .group g :: after) =
      max R.levels (Element.group g).depth := by
    intro g
    simp only [R, depthAll_append, depthAll]
    omega
  obtain ⟨front, back, rfl, rfl⟩ : ∃ front back, members = front ++ m :: back ∧
      front.length = k := by
    obtain ⟨hk, rfl⟩ := List.getElem?_eq_some_iff.mp hm
    refine ⟨members.take k, members.drop (k + 1), ?_, List.length_take_of_le hk.le⟩
    rw [← List.drop_eq_getElem_cons, List.take_append_drop]
  obtain ⟨ctx', t, hrun, hrest⟩ := toExcept_dispatchWith_eq_ok.mp hread
  rw [Inside.ofElements, depthAll_rest_ofList, hlevels] at hrun
  have hin := agrees_insideAt_of_le (Nat.le_max_left R.levels (Element.group g).depth)
    (Nat.le_max_left R.levels (Element.group R.other).depth)
  have hother : Code.ofGroup (insideAt (max R.levels (Element.group R.other).depth)) R.other =
      .ok code := by
    rw [(agrees_insideAt (Nat.le_max_right R.levels (Element.group R.other).depth)).ofGroup le_rfl]
    rw [Element.depth_group]
    exact hcode
  obtain ⟨hold, t', hrun', hrest'⟩ := Replacement.run hin (Nat.le_max_right _ _) hother
    (R.rel_ofList (Nat.le_max_left _ _) closing) (Cursor.Over.settle rfl) hrun hbody hfirst hstop
  constructor
  · rw [(agrees_insideAt (Nat.le_max_right R.levels (Element.group g).depth)).ofGroup le_rfl]
      at hold
    rw [Element.depth_group] at hold
    exact hold
  · refine toExcept_dispatchWith_eq_ok.mpr ⟨ctx', t', ?_, hrest'.trans hrest⟩
    rw [Inside.ofElements, depthAll_rest_ofList, hlevels, List.set_append_right _ _ le_rfl,
      Nat.sub_self, List.set_cons_zero]
    exact hrun'

/-- Tokens in which a class is declared, `class B { }`. -/
def localClass : List Element :=
  [.token { kind := .kwClass, text := lit "class" }, .token { kind := .ident, text := lit "B" },
    .group ⟨.curly, {}, {}, []⟩]

/-- A class that is declared in a block is no member: behind the field there is still only the
block. -/
theorem dispatch_replace_body_with_class :
    let ctx : BodyContext := { className := lit "A" }
    let block (children : List Element) : Group := ⟨.curly, {}, {}, children⟩
    let members := (dispatch ctx (.ofList (oneField ++ [.group (block [])]) {})).members
    members.length = 2 ∧ ∃ m code, members[1]? = some m ∧ (block localClass).code = .ok code ∧
      (dispatch ctx (.ofList (oneField ++ [.group (block localClass)]) {})).toExcept =
        .ok (members.set 1 (m.withBody code)) := by
  intro ctx block members
  have hread : (dispatch ctx (.ofList (oneField ++ [.group (block [])]) {})).failure = none := by
    decide +kernel
  have hspan : members[1]?.map Member.span = some ⟨3, 4⟩ := by decide +kernel
  have hbody : (members[1]?.bind Member.body?).isSome = true := by decide +kernel
  have hcode : (block localClass).code.toOption.isSome = true := by decide +kernel
  obtain ⟨m, hm, hspan⟩ := Option.map_eq_some_iff.mp hspan
  obtain ⟨old, hold⟩ := Option.isSome_iff_exists.mp hbody
  rw [hm] at hold
  obtain ⟨code, hcode⟩ : ∃ code, (block localClass).code = .ok code := by
    cases h : (block localClass).code with
    | ok code => exact ⟨code, rfl⟩
    | error e =>
      rw [h] at hcode
      cases hcode
  refine ⟨by decide +kernel, m, code, hm, hcode, ?_⟩
  exact (dispatch_replace_body oneField [] (block []) localClass {} ctx members 1 m old code
    (Dispatched.toExcept_of_failure hread) hm hold rfl (by rw [hspan]; decide)
    (by rw [hspan]; decide) hcode).2

end Unnest
