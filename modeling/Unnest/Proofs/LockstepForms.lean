import Unnest.Proofs.LockstepHeads
import Unnest.Proofs.MemberHeads
import Unnest.Proofs.Exclusion

/-!
# Members in two ranges

Members that are read in step are the same in both ranges, provided that the groups passed over on
the way are read alike and that the member ends in front of what the ranges do not share
(`Pace.Limit`). How much of the code and of the members in braces has to be the same is up to a
`View`: all of it, or all but the comments.

* `Inside.Agrees`, `Inside.Reads`: groups that are read alike;
* `Pace.Limit.closes_form`, `Pace.Limit.mirrors_constant`: a form reads the same member in both
  ranges.
-/

namespace Unnest

open Unnest.Parser

/-! ### Readings of groups -/

/-- Groups with the property `K` are read alike by `inside` and `inside'`. -/
structure Inside.Agrees (K : Element → Prop) (inside inside' : Inside) : Prop where
  pieces : ∀ {g}, K (.group g) → inside'.pieces g.children = inside.pieces g.children
  members : ∀ {ctx g}, K (.group g) → inside'.members ctx g = inside.members ctx g

namespace Inside.Agrees

variable {K : Element → Prop} {inside inside' : Inside} (h : Inside.Agrees K inside inside')
include h

theorem symm : Inside.Agrees K inside' inside :=
  ⟨fun hes => (h.pieces hes).symm, fun hg => (h.members hg).symm⟩

theorem trans {inside'' : Inside} (h' : Inside.Agrees K inside' inside'') :
    Inside.Agrees K inside inside'' :=
  ⟨fun hes => (h'.pieces hes).trans (h.pieces hes), fun hg => (h'.members hg).trans (h.members hg)⟩

theorem ofGroup {g : Group} (hg : K (.group g)) :
    Code.ofGroup inside' g = Code.ofGroup inside g := by
  unfold Code.ofGroup
  rw [h.pieces hg]

theorem anonymous {es : List Element} (hes : ∀ e ∈ es, K e) {c : Creation}
    (hfind : Creation.find? es = some c) (place : Place) :
    c.anonymous inside' place = c.anonymous inside place := by
  obtain ⟨hargs, hbody, -⟩ := Creation.find?_groups_mem hfind
  rw [Creation.anonymous_eq, Creation.anonymous_eq, h.ofGroup (hes _ hargs),
    h.members (hes _ hbody)]

theorem piecesWith {skip : Nat} {es : List Element} (hes : ∀ e ∈ es, K e) :
    piecesWith inside' skip es = piecesWith inside skip es := by
  induction skip, es using piecesWith.induct with
  | case1 skip => simp only [Unnest.piecesWith]
  | case2 skip x es ih =>
    rw [Unnest.piecesWith, Unnest.piecesWith]
    exact ih fun y hy => hes y (List.mem_cons_of_mem _ hy)
  | case3 x es c hc ih =>
    have hes' : ∀ y ∈ es, K y := fun y hy => hes y (List.mem_cons_of_mem _ hy)
    obtain ⟨t, rfl, ht, hfind⟩ := exists_new_of_find? hc
    rw [piecesWith_creation ht hfind, piecesWith_creation ht hfind, h.anonymous hes' hfind, ih hes']
  | case4 es t hc ih =>
    rw [piecesWith_token hc, piecesWith_token hc, ih fun y hy => hes y (List.mem_cons_of_mem _ hy)]
  | case5 es g hc ih =>
    rw [piecesWith_group, piecesWith_group, h.pieces (hes _ List.mem_cons_self),
      ih fun y hy => hes y (List.mem_cons_of_mem _ hy)]

theorem ofElements {es : List Element} (hes : ∀ e ∈ es, K e) :
    Code.ofElements inside' es = Code.ofElements inside es := by
  unfold Code.ofElements
  rw [h.piecesWith hes]

end Inside.Agrees

/-! ### Views -/

/-- What is compared of code, and of the members in braces. -/
structure View where
  code : Code → Code
  members : List Member → List Member

/-- Everything is compared. -/
def View.whole : View := ⟨id, id⟩

/-- What is compared of a variable. -/
def Declarator.seen (V : View) (d : Declarator) : Declarator := { d with init := d.init.map V.code }

/-- What is compared of an anonymous class. -/
def Anonymous.seen (V : View) (a : Anonymous) : Anonymous :=
  { a with args := a.args.map V.code, members := V.members a.members }

/-- What is compared of a class. -/
def TypeDecl.seen (V : View) (d : TypeDecl) : TypeDecl := { d with members := V.members d.members }

/-- What is compared of a member. -/
def Member.seen (V : View) : Member → Member
  | .field head declarators => .field head (declarators.map (·.seen V))
  | .method head body => .method head (body.map V.code)
  | .constructor head body => .constructor head (V.code body)
  | .nested head members => .nested head (V.members members)
  | .initializer head body => .initializer head (V.code body)
  | .constant head args body => .constant head (args.map V.code) (body.map (·.seen V))

/-- Two nodes are members that are the same as far as is seen of them. -/
def Node.Same (V : View) (n n' : Node) : Prop :=
  ∃ m m', n = .member m ∧ n' = .member m' ∧ m'.seen V = m.seen V

theorem Member.kind_seen (V : View) (m : Member) : (m.seen V).kind = m.kind := by
  cases m <;> rfl

theorem Member.seen_whole (m : Member) : m.seen .whole = m := by
  have hanonymous : Anonymous.seen .whole = id := by
    funext a
    cases a
    simp [Anonymous.seen, View.whole]
  have hdeclarator : Declarator.seen .whole = id := by
    funext d
    cases d
    simp [Declarator.seen, View.whole]
  cases m <;> simp [seen, hanonymous, hdeclarator] <;> simp [View.whole]

/-- Elements that go together are read alike by `inside` and `inside'`, as far as is seen. -/
structure Inside.Reads (V : View) (K : Element → Element → Prop) (inside inside' : Inside) :
    Prop where
  ofGroup : ∀ {g g'}, K (.group g) (.group g') →
    (Code.ofGroup inside' g').map V.code = (Code.ofGroup inside g).map V.code
  ofElements : ∀ {es es'}, List.Forall₂ K es es' →
    (Code.ofElements inside' es').map (fun c => (V.code c, c.isEmpty)) =
      (Code.ofElements inside es).map fun c => (V.code c, c.isEmpty)
  members : ∀ {ctx g g'}, K (.group g) (.group g') →
    (inside'.members ctx g').map V.members = (inside.members ctx g).map V.members
  closing : ∀ {g g'}, K (.group g) (.group g') → g'.closing = g.closing

theorem Inside.Agrees.reads {K : Element → Prop} {inside inside' : Inside}
    (h : inside.Agrees K inside') :
    inside.Reads .whole (fun e e' => e = e' ∧ K e) inside' where
  ofGroup := by
    rintro g g' ⟨⟨⟩, hg⟩
    rw [h.ofGroup hg]
  ofElements := by
    intro es es' hes
    have hsame : es = es' ∧ ∀ e ∈ es, K e := by
      induction hes with
      | nil => exact ⟨rfl, List.forall_mem_nil _⟩
      | cons he _ ih =>
        obtain ⟨rfl, hK⟩ := he
        exact ⟨congrArg _ ih.1, List.forall_mem_cons.mpr ⟨hK, ih.2⟩⟩
    rw [← hsame.1, h.ofElements hsame.2]
  members := by
    rintro ctx g g' ⟨⟨⟩, hg⟩
    rw [h.members hg]
  closing := by
    rintro g g' ⟨⟨⟩, -⟩
    rfl

/-! ### Heads -/

namespace Pace

variable {P : Pace} {α β : Type} {K : Element → Element → Prop} {beyond : Cursor → Prop}
  {inside inside' : Inside}

theorem mirrors_methodHead : P.Mirrors methodHead methodHead := by
  unfold methodHead
  refine mirrors_look fun s s' hs => ?_
  rw [hs.here]
  refine mirrors_bind mirrors_modifiers fun front => mirrors_look fun t t' ht => ?_
  rw [ht.isAtGroup]
  refine mirrors_bind mirrors_typeParams fun typeParams => ?_
  refine mirrors_branch mirrors_modifiers (mirrors_pure rfl) fun behind => ?_
  refine mirrors_bind mirrors_typeRef fun type => mirrors_bind (mirrors_expect _ _) fun name => ?_
  refine mirrors_parameters _ fun params => mirrors_bind mirrors_dims fun extra => ?_
  exact mirrors_bind mirrors_throwing fun throwing => mirrors_pure rfl

theorem mirrors_constructorHead : P.Mirrors constructorHead constructorHead := by
  unfold constructorHead
  refine mirrors_look fun s s' hs => ?_
  rw [hs.here]
  refine mirrors_bind mirrors_modifiers fun modifiers => ?_
  refine mirrors_bind mirrors_typeParams fun typeParams =>
    mirrors_bind (mirrors_expect _ _) fun name => ?_
  refine mirrors_parameters _ fun params => ?_
  exact mirrors_bind mirrors_throwing fun throwing => mirrors_pure rfl

theorem mirrors_initializerHead (isStatic : Bool) :
    P.Mirrors (initializerHead isStatic) (initializerHead isStatic) := by
  unfold initializerHead
  refine mirrors_look fun s s' hs => ?_
  rw [hs.here]
  exact mirrors_ite (mirrors_bind (mirrors_expect _ _) fun _ => mirrors_pure rfl) (mirrors_pure rfl)

theorem mirrors_typeHead : P.Mirrors typeHead typeHead := by
  unfold typeHead
  refine mirrors_look fun s s' hs => ?_
  rw [hs.here]
  refine mirrors_bind mirrors_modifiers fun modifiers =>
    mirrors_bind mirrors_classKeyword fun kind => ?_
  refine mirrors_bind (mirrors_expect _ _) fun name =>
    mirrors_bind mirrors_typeParams fun typeParams => ?_
  refine mirrors_bind (mirrors_typesBehind fun _ _ h => h.isAt _) fun extending => ?_
  refine mirrors_bind (mirrors_typesBehind fun _ _ h => h.isAt _) fun implementing => ?_
  exact mirrors_bind (mirrors_typesBehind fun _ _ h => h.isAtName _) fun _ => mirrors_pure rfl

theorem mirrors_constantHead : P.Mirrors constantHead constantHead := by
  refine mirrors_look fun s s' hs => ?_
  rw [hs.here]
  refine mirrors_bind mirrors_constantAnnotations fun annotations => ?_
  exact mirrors_bind (mirrors_expect _ _) fun name => mirrors_pure rfl

theorem mirrors_optionalComma : P.Mirrors optionalComma optionalComma :=
  mirrors_isAt _ mirrors_advance (mirrors_pure rfl)

/-! ### Where members end -/

/-- A member may end where `beyond` does not hold: up to there the elements of the ranges go
together, and no member is closed by what the ranges do not share. -/
structure Limit (P : Pace) (K : Element → Element → Prop) (beyond : Cursor → Prop) : Prop where
  lasting : Cursor.Lasting beyond
  past_of_over : ∀ {s}, beyond s → P.past s
  over_of_past : ∀ {s}, P.past s → s.hasNext = true → s.isAt .atSign = false → beyond s.next
  pass : ∀ {s s' e e'}, P.rel s s' → ¬ P.past s → s.current? = some e → s'.current? = some e' →
    beyond s.next ∨ K e e'

namespace Limit

variable (hL : P.Limit K beyond)
include hL

/-- An element that is no `@` may be the last one of a member. -/
theorem closes_take {pick : Element → Option α}
    (hpick : ∀ e e', e.Alike e' → (pick e').isSome = (pick e).isSome)
    (hat : ∀ e a, pick e = some a → e.is .atSign = false) (cause : Cause) :
    P.MirrorsWith beyond
    (fun a b => ∃ e e', pick e = some a ∧ pick e' = some b ∧ e.Alike e' ∧ K e e')
      (take pick cause) (take pick cause) := by
  refine mirrors_take_of hpick cause (fun {s e} hs he hsome => ?_) fun hs hpast he he' halike => ?_
  · obtain ⟨a, ha⟩ := Option.isSome_iff_exists.mp hsome
    refine hL.over_of_past hs (Cursor.hasNext_iff.mpr ⟨e, he⟩) ?_
    simp [Cursor.isAt, he, hat e a ha]
  · exact (hL.pass hs hpast he he').imp_right fun hK => ⟨halike, hK⟩

theorem closes_expect {kind : TokenKind} (hk : kind ≠ .atSign) (what : Text) :
    P.Closes beyond (expect kind what) (expect kind what) := by
  rw [expect_eq_take]
  refine (hL.closes_take (fun e e' h => by rw [h.token?]) (fun e t ht => ?_) _).mono ?_
  · obtain ⟨ht, hkind⟩ := Option.filter_eq_some_iff.mp ht
    cases e with
    | token u =>
      cases ht
      simpa [Element.is, of_decide_eq_true hkind] using hk
    | group g => rfl
  · rintro t t' ⟨e, e', ht, ht', halike, -⟩
    rw [halike.token?, ht] at ht'
    exact Option.some.inj ht'

theorem closes_expectGroup (kind : GroupKind) (what : Text) :
    P.MirrorsWith beyond (fun g g' => K (.group g) (.group g')) (expectGroup kind what)
      (expectGroup kind what) := by
  rw [expectGroup_eq_take]
  refine (hL.closes_take (fun e e' => isSome_group?_filter kind) (fun e g hg => ?_) _).mono ?_
  · rw [(eq_group_of_filter hg).1]
    rfl
  · rintro g g' ⟨e, e', hg, hg', -, hK⟩
    rwa [(eq_group_of_filter hg).1, (eq_group_of_filter hg').1] at hK

/-- A value found in what is read last, of which `v` shows the same. -/
theorem closes_value {γ δ : Type} {A : α → α → Prop} {B : δ → δ → Prop} {v : β → γ} {p q : Parser α}
    (hp : P.MirrorsWith beyond A p q) {x x' : α → Except SourceError β}
    (hx : ∀ a a', A a a' → (x' a').map v = (x a).map v) {f f' : α → β → δ}
    (hf : ∀ a a' b b', A a a' → v b' = v b → B (f a b) (f' a' b')) :
    P.MirrorsWith beyond B (p >>= fun a => Parser.ofExcept (x a) >>= fun b => pure (f a b))
      (q >>= fun a => Parser.ofExcept (x' a) >>= fun b => pure (f' a b)) := by
  have hover : ∀ a {t}, beyond t →
      P.Spent beyond ((Parser.ofExcept (x a) >>= fun b => pure (f a b)) t) := by
    intro a t ht
    cases hxa : x a with
    | ok b => exact ht
    | error e => exact hL.past_of_over ht
  refine ⟨fun {s} hs => ?_, fun {s s'} hs => ?_⟩
  · have hspent := hp.stays hs
    change P.Spent beyond (EStateM.bind p _ s)
    unfold EStateM.bind
    revert hspent
    generalize p s = r
    intro hspent
    cases r with
    | ok a t => exact hover a hspent
    | error e t => exact hspent
  · have hmeet := hp.meet hs
    change P.Spent beyond (EStateM.bind p _ s) ∨ P.Same _ (EStateM.bind p _ s) (EStateM.bind q _ s')
    unfold EStateM.bind
    revert hmeet
    generalize p s = r
    generalize q s' = r'
    rintro (hspent | @⟨a, a', t, t', ha, ht⟩ | -)
    · cases r with
      | ok a t => exact Or.inl (hover a hspent)
      | error e t => exact Or.inl hspent
    · obtain ⟨e, hxa, hxa'⟩ | ⟨b, b', hxa, hxa', hb⟩ := Except.eq_error_or_eq_ok (hx a a' ha)
      · simp only [hxa, hxa']
        exact Or.inr .error
      · simp only [hxa, hxa']
        exact Or.inr (.ok (hf a a' b b' ha hb) ht)
    · exact Or.inr .error

/-! ### Members -/

theorem mirrors_takeUntil (stops : List TokenKind) :
    P.MirrorsWith P.past (List.Forall₂ K) (takeUntil stops) (takeUntil stops) := by
  have hstays : ∀ {t}, P.past t → P.Spent P.past (takeElement stops t) := by
    intro t ht
    unfold takeElement
    split
    · split_ifs
      · exact ht
      · exact P.past_next t ht
    · exact ht
  rw [takeUntil_eq_many]
  refine mirrorsWith_many ⟨hstays, fun {s s'} hs => ?_⟩
  by_cases hpast : P.past s
  · exact Or.inl (hstays hpast)
  have hlook := P.look hs hpast
  unfold takeElement
  cases he : s.current? with
  | none =>
    rw [hlook.current?_eq_none he]
    exact Or.inr (.ok .none hs)
  | some e =>
    obtain ⟨e', he', halike⟩ := hlook.exists_current? he
    have hstop : stops.any (e'.is ·) = stops.any (e.is ·) := by simp only [halike.is]
    simp only [he', hstop]
    split_ifs
    · exact Or.inr (.ok .none hs)
    · refine (hL.pass hs hpast he he').imp hL.past_of_over fun hK => ?_
      exact .ok (.some hK) (P.next hs hpast (Cursor.hasNext_iff.mpr ⟨_, he⟩))

section Readings

variable {V : View} (hin : inside.Reads V K inside')
include hin

theorem closes_block (what : Text) {build : Code → Member}
    (hbuild : ∀ c c', V.code c' = V.code c → (build c').seen V = (build c).seen V) :
    P.MirrorsWith beyond (fun m m' => m'.seen V = m.seen V) (block inside what build)
      (block inside' what build) :=
  hL.closes_value (hL.closes_expectGroup .curly what) (fun _ _ hg => hin.ofGroup hg)
    fun _ _ c c' _ => hbuild c c'

theorem mirrors_codeUntil (stops : List TokenKind) :
    P.MirrorsWith P.past (fun c c' => V.code c' = V.code c ∧ c'.isEmpty = c.isEmpty)
      (codeUntil inside stops) (codeUntil inside' stops) :=
  mirrors_bind_of (hL.mirrors_takeUntil stops) (fun _ => (mirrors_ofExcept rfl).stays)
    fun _ _ hes =>
    (mirrors_ofExcept_map (hin.ofElements hes)).mono fun _ _ => Prod.mk.inj

theorem mirrors_declarator :
    P.MirrorsWith P.past (fun d d' => d'.seen V = d.seen V) (declarator inside)
    (declarator inside') := by
  unfold declarator
  refine mirrors_bind (mirrors_expect _ _) fun name => mirrors_bind mirrors_dims fun extraDims => ?_
  refine mirrors_isAt _ (mirrors_bind mirrors_advance fun _ => ?_) (mirrors_pure rfl)
  refine mirrors_bind_rel (hL.mirrors_codeUntil hin _) (fun _ => ⟨rfl, rfl⟩) ?_
  intro init init' hinit
  rw [hinit.2]
  refine mirrors_optional (mirrors_fail _) fun _ => mirrors_pure ?_
  simp only [Declarator.seen, Option.map_some, hinit.1]

theorem closes_fieldDecl :
    P.MirrorsWith beyond (fun m m' => m'.seen V = m.seen V) (fieldDecl inside)
    (fieldDecl inside') := by
  unfold fieldDecl
  refine mirrors_look fun s s' hs => ?_
  rw [hs.here]
  refine mirrors_bind mirrors_modifiers fun modifiers => mirrors_bind mirrors_typeRef fun type => ?_
  refine mirrors_bind_rel (hL.mirrors_declarator hin) (fun _ => rfl) fun first first' hfirst => ?_
  refine mirrors_bind_rel
    (mirrors_many_map (v := Declarator.seen V) (mirrors_isAt _ ?_ (mirrors_pure rfl)))
    (fun _ => rfl) fun rest rest' hrest => ?_
  · refine mirrors_bind mirrors_advance fun _ => ?_
    exact mirrors_bind_rel (hL.mirrors_declarator hin) (fun _ => rfl) fun d d' hd =>
      mirrors_pure (congrArg some hd)
  · refine mirrors_map (hL.closes_expect (by decide) _) fun _ _ _ => ?_
    simp only [Member.seen, List.map_cons, hfirst, hrest]

theorem closes_methodDecl (ctx : BodyContext) :
    P.MirrorsWith beyond (fun m m' => m'.seen V = m.seen V) (methodDecl inside ctx)
      (methodDecl inside' ctx) := by
  rw [methodDecl_eq, methodDecl_eq]
  refine mirrors_bind mirrors_methodHead fun head =>
    mirrors_isAtGroup _ (hL.closes_block hin _ ?_) ?_
  · intro c c' hc
    simp only [Member.seen, Option.map_some, hc]
  · unfold bodiless
    split_ifs
    · exact mirrors_map (hL.closes_expect (by decide) _) fun _ _ _ => rfl
    · exact mirrors_map (hL.closes_expect (by decide) _) fun _ _ _ => rfl

theorem closes_constructorDecl :
    P.MirrorsWith beyond (fun m m' => m'.seen V = m.seen V) (constructorDecl inside)
      (constructorDecl inside') := by
  rw [constructorDecl_eq, constructorDecl_eq]
  exact mirrors_bind mirrors_constructorHead fun head =>
    hL.closes_block hin _ fun _ _ => congrArg (Member.constructor head)

theorem closes_initializerDecl (isStatic : Bool) :
    P.MirrorsWith beyond (fun m m' => m'.seen V = m.seen V) (initializerDecl inside isStatic)
      (initializerDecl inside' isStatic) := by
  rw [initializerDecl_eq, initializerDecl_eq]
  exact mirrors_bind (mirrors_initializerHead isStatic) fun head =>
    hL.closes_block hin _ fun _ _ => congrArg (Member.initializer head)

theorem closes_typeDecl :
    P.MirrorsWith beyond (fun d d' => d'.seen V = d.seen V) (typeDecl inside)
    (typeDecl inside') := by
  rw [typeDecl_eq, typeDecl_eq]
  refine mirrors_bind mirrors_typeHead fun head => ?_
  exact hL.closes_value (hL.closes_expectGroup .curly _) (fun _ _ hg => hin.members hg)
    fun _ _ _ _ _ => congrArg (TypeDecl.mk head)

theorem mirrors_constantArgs :
    P.MirrorsWith P.past (fun args args' => args'.map V.code = args.map V.code)
    (constantArgs inside)
      (constantArgs inside') := by
  refine mirrors_isAtGroup _ (MirrorsWith.weaken ?_ fun _ => hL.past_of_over) (mirrors_pure rfl)
  exact hL.closes_value (hL.closes_expectGroup .round _) (fun _ _ hg => hin.ofGroup hg)
    fun _ _ _ _ _ => congrArg some

theorem mirrors_constantBody (ctx : BodyContext) (head : ConstantHead) (name : Token)
    {args args' : Option Code} (hargs : args'.map V.code = args.map V.code) :
    P.MirrorsWith P.past (fun m m' => m'.seen V = m.seen V) (constantBody inside ctx head name args)
      (constantBody inside' ctx head name args') := by
  refine mirrors_isAtGroup _ (MirrorsWith.weaken ?_ fun _ => hL.past_of_over) (mirrors_pure ?_)
  · refine hL.closes_value (v := V.members) (hL.closes_expectGroup .curly _)
      (fun _ _ hg => hin.members hg) ?_
    intro g g' ms ms' hg hms
    simp only [Member.seen, Anonymous.seen, Option.map_some, hin.closing hg, hargs, hms]
  · simp only [Member.seen, hargs]

theorem mirrors_constantDecl (ctx : BodyContext) :
    P.MirrorsWith P.past (fun m m' => m'.seen V = m.seen V) (constantDecl inside ctx)
      (constantDecl inside' ctx) := by
  rw [constantDecl_eq, constantDecl_eq]
  refine mirrors_bind mirrors_constantHead fun (head, name) => ?_
  refine mirrors_bind_rel (hL.mirrors_constantArgs hin) (fun _ => rfl) fun args args' hargs => ?_
  refine mirrors_bind_rel (hL.mirrors_constantBody hin ctx head name hargs) (fun _ => rfl)
    fun m m' hm => ?_
  exact mirrors_bind mirrors_optionalComma fun _ => mirrors_pure hm

/-! ### Forms -/

theorem closes_form (kind : FormKind) (ctx : BodyContext) :
    P.MirrorsWith beyond (Node.Same V) ((kind.form inside).parse ctx)
    ((kind.form inside').parse ctx) := by
  have hmember : ∀ {p q : Parser Member},
      P.MirrorsWith beyond (fun m m' => m'.seen V = m.seen V) p q →
      P.MirrorsWith beyond (Node.Same V) (Node.member <$> p) (Node.member <$> q) :=
    fun h => mirrors_map h fun m m' hm => ⟨m, m', rfl, rfl, hm⟩
  cases kind with
  | field => exact hmember (hL.closes_fieldDecl hin)
  | method => exact hmember (hL.closes_methodDecl hin ctx)
  | nested =>
    refine hmember (mirrors_map (hL.closes_typeDecl hin) fun d d' hd => ?_)
    exact congrArg (fun d : TypeDecl => Member.nested d.head d.members) hd
  | staticBlock => exact hmember (hL.closes_initializerDecl hin true)
  | instanceBlock => exact hmember (hL.closes_initializerDecl hin false)
  | constructor => exact hmember (hL.closes_constructorDecl hin)

theorem mirrors_constant (ctx : BodyContext) :
    P.MirrorsWith P.past (Node.Same V) ((constantForm inside).parse ctx)
      ((constantForm inside').parse ctx) :=
  mirrors_map (hL.mirrors_constantDecl hin ctx) fun m m' hm => ⟨m, m', rfl, rfl, hm⟩

end Readings

end Limit

end Pace

end Unnest
