import Unnest.Proofs.Progress
import Unnest.Proofs.TwinRuns
import Unnest.Proofs.Brackets

/-!
# Groups inside groups

Class bodies, code and type arguments are read by functions that turn to themselves for the groups
they come across. They do so only for groups that stand in the one they are reading: what they would
do with any other group makes no difference to them (`Inside.SameOn`). As groups are nested to a
finite depth, the readings are determined without any bound on the number of levels: exactly one
reading agrees with itself one level further out (`Inside.outward`).

* `Inside.SameOn.piecesWith`, `Inside.SameOn.outward_members`, `Inside.SameOn.mirrors_file`: only
  nested groups matter;
* `reading_terminates`: every source is read in finitely many rounds, group by nested group.
-/

namespace Unnest

open Unnest.Parser

/-- The group `h` stands in the group `g`, with no other group between. -/
def Group.ChildOf (h g : Group) : Prop := Element.group h ∈ g.children

theorem Group.ChildOf.depthAll_lt {h g : Group} (hg : h.ChildOf g) :
    depthAll h.children < depthAll g.children :=
  depthAll_children_lt (depth_le_of_mem hg)

theorem Group.wellFounded_childOf : WellFounded Group.ChildOf :=
  Subrelation.wf (fun h => h.depthAll_lt) (measure fun g : Group => depthAll g.children).wf

mutual

theorem Element.two_mul_depth_le : ∀ e : Element, 2 * e.depth ≤ e.flatten.length
  | .token t => by simp [Element.depth, Element.flatten]
  | .group ⟨kind, opening, closing, children⟩ => by
    have := two_mul_depthAll_le children
    simp only [Element.depth, Element.flatten, List.length_append, List.length_cons,
      List.length_nil]
    omega

theorem two_mul_depthAll_le : ∀ es : List Element, 2 * depthAll es ≤ (flattenAll es).length
  | [] => by simp [depthAll, flattenAll]
  | e :: es => by
    have he := e.two_mul_depth_le
    have hes := two_mul_depthAll_le es
    simp only [depthAll, flattenAll, List.length_append]
    omega

end

theorem two_mul_depthAll_of_ofTokens {tokens : List Token} {root : Group}
    (h : Group.ofTokens tokens = .ok root) :
    2 * depthAll root.children ≤ tokens.length := by
  have hdepth := two_mul_depthAll_le root.children
  rw [(grouped_of_ofTokens h).2.1] at hdepth
  exact hdepth.trans (List.takeWhile_sublist _).length_le

/-! ### Groups that are turned to -/

theorem Pace.runOn_eq {α : Type} {K : Element → Prop} {p q : Parser α}
    (h : (Pace.shift 0 K).Mirrors p q) {g : Group} (hg : ∀ e ∈ g.children, K e) :
    q.runOn g = p.runOn g := by
  have hrel : (Pace.shift 0 K).rel (.ofGroup g) (.ofGroup g) :=
    ⟨⟨rfl, rfl, rfl⟩, fun e he => hg e (Cursor.rest_ofGroup_subset g he)⟩
  unfold runOn
  cases hp : p (.ofGroup g) with
  | ok a t =>
    obtain ⟨t', hq, -⟩ := (Closes.ok h hrel hp).resolve_left id
    rw [hq]
  | error e t =>
    obtain ⟨t', hq⟩ := (h.error hrel hp).resolve_left id
    rw [hq]

/-- The groups among the elements `es` are read alike by `inside` and `inside'`. -/
structure Inside.SameOn (es : List Element) (inside inside' : Inside) : Prop where
  pieces : ∀ g, .group g ∈ es → inside'.pieces g.children = inside.pieces g.children
  members : ∀ ctx g, .group g ∈ es → inside'.members ctx g = inside.members ctx g

namespace Inside.SameOn

variable {es : List Element} {inside inside' : Inside} (h : SameOn es inside inside')
include h

theorem agrees : inside.Agrees (· ∈ es) inside' := ⟨h.pieces _, h.members _ _⟩

/-- **Code turns to nested groups only.** -/
theorem piecesWith : Unnest.piecesWith inside' 0 es = Unnest.piecesWith inside 0 es :=
  h.agrees.piecesWith fun _ => id

/-- **Files turn to nested groups only.** -/
theorem mirrors_file : (Pace.shift 0 (· ∈ es)).Mirrors (file inside) (file inside') := by
  have hdecl := (Pace.limit_shift 0 (· ∈ es)).closes_typeDecl h.agrees.reads
  refine (Pace.mirrors_file (fun _ => id) (v := id) hdecl ?_).mono fun f f' hf => ?_
  · intro d d' s s' t t' hd hs ht
    obtain rfl : d' = d := hd
    rw [hs.1.pos, ht.1.pos]
    rfl
  · rw [hf.2, ← List.map_id f'.types, hf.1, List.map_id]

end Inside.SameOn

/-! ### Readings without a bound on levels -/

namespace Inside

theorem insideAt_succ (levels : Nat) : insideAt (levels + 1) = (insideAt levels).outward := rfl

theorem SameOn.outward_members {g : Group} {inside inside' : Inside}
    (h : SameOn g.children inside inside') (ctx : BodyContext) :
    inside'.outward.members ctx g = inside.outward.members ctx g :=
  h.agrees.outward_members (fun _ he => Cursor.rest_ofGroup_subset g he) ctx

theorem sameOn_insideAt {inside : Inside} (hout : inside.outward = inside) {levels : Nat}
    {es : List Element} (hes : depthAll es ≤ levels) : SameOn es (insideAt levels) inside := by
  induction levels generalizing es with
  | zero =>
    have hflat : ∀ g, .group g ∈ es → False := by
      intro g hg
      have := depth_le_of_mem hg
      rw [Element.depth_group] at this
      omega
    exact ⟨fun g hg => (hflat g hg).elim, fun ctx g hg => (hflat g hg).elim⟩
  | succ levels ih =>
    have hchildren : ∀ g, .group g ∈ es → SameOn g.children (insideAt levels) inside :=
      fun g hg => ih (Nat.le_of_lt_succ (depthAll_children_lt ((depth_le_of_mem hg).trans hes)))
    refine ⟨fun g hg => ?_, fun ctx g hg => ?_⟩
    · rw [insideAt_succ, ← hout]
      exact (hchildren g hg).piecesWith
    · rw [insideAt_succ, ← hout]
      exact (hchildren g hg).outward_members ctx

/-- Each list of elements and each group read with as many levels as it has. -/
def full : Inside where
  pieces es := (insideAt (depthAll es)).outward.pieces es
  members ctx g := (insideAt (depthAll g.children)).outward.members ctx g

theorem sameOn_insideAt_full {levels : Nat} {es : List Element} (hes : depthAll es ≤ levels) :
    SameOn es (insideAt levels) full := by
  induction levels using Nat.strongRecOn generalizing es with
  | ind levels ih =>
    -- a group inside is read alike with fewer levels, whether these are just enough or more
    have hchildren : ∀ g, .group g ∈ es →
        ∃ n, levels = n + 1 ∧ SameOn g.children (insideAt n) full ∧
        SameOn g.children (insideAt (depthAll g.children)) full := by
      intro g hg
      have hlt := depthAll_children_lt ((depth_le_of_mem hg).trans hes)
      exact ⟨levels - 1, by omega, ih _ (by omega) (by omega), ih _ hlt le_rfl⟩
    refine ⟨fun g hg => ?_, fun ctx g hg => ?_⟩
    · obtain ⟨n, rfl, hn, hown⟩ := hchildren g hg
      rw [insideAt_succ]
      exact hown.piecesWith.symm.trans hn.piecesWith
    · obtain ⟨n, rfl, hn, hown⟩ := hchildren g hg
      rw [insideAt_succ]
      exact (hown.outward_members ctx).symm.trans (hn.outward_members ctx)

theorem outward_full : full.outward = full := by
  have hpieces : full.outward.pieces = full.pieces := by
    funext es
    exact (sameOn_insideAt_full le_rfl).piecesWith
  have hmembers : full.outward.members = full.members := by
    funext ctx g
    exact (sameOn_insideAt_full le_rfl).outward_members ctx
  exact congrArg₂ Inside.mk hpieces hmembers

/-- **Exactly one reading** agrees with itself one level further out. -/
theorem outward_eq_iff (inside : Inside) : inside.outward = inside ↔ inside = full := by
  constructor
  · intro hout
    rw [← hout]
    have hpieces : inside.outward.pieces = full.pieces := by
      funext es
      exact (sameOn_insideAt hout le_rfl).piecesWith
    have hmembers : inside.outward.members = full.members := by
      funext ctx g
      exact (sameOn_insideAt hout le_rfl).outward_members ctx
    exact congrArg₂ Inside.mk hpieces hmembers
  · rintro rfl
    exact outward_full

end Inside

theorem File.ofGroup_eq_full (root : Group) : File.ofGroup root = (file .full).runOn root :=
  (Pace.runOn_eq (Inside.sameOn_insideAt_full le_rfl).mirrors_file fun _ => id).symm

/-- The type arguments of a group, those of the groups in it read by `args`. -/
def typeArgsWith (args : Group → Except SourceError (List TypeRef)) (g : Group) :
    Except SourceError (List TypeRef) :=
  (separated (typeArgument (typeWith args)) (lit "',' or '>' in type arguments")).runOn g

theorem typeArgsWith_congr {args args' : Group → Except SourceError (List TypeRef)} {g : Group}
    (h : ∀ k : Group, k.ChildOf g → args' k = args k) :
    typeArgsWith args' g = typeArgsWith args g := by
  refine Pace.runOn_eq (K := (· ∈ g.children)) (Pace.mirrors_typeArguments ?_ _) fun _ => id
  rintro _ k - ⟨rfl, hk⟩
  exact h k hk

theorem typeArgsAt_eq {levels : Nat} {g : Group} (h : depthAll g.children < levels) :
    typeArgsAt levels g = g.typeArgs := by
  induction levels using Nat.strongRecOn generalizing g with
  | ind levels ih =>
    obtain ⟨n, rfl⟩ : ∃ n, levels = n + 1 := ⟨levels - 1, by omega⟩
    refine typeArgsWith_congr fun k hk => ?_
    have hlt := hk.depthAll_lt
    rw [ih n (by omega) (by omega), ih (depthAll g.children) (by omega) hlt]

/-- **Exactly one way to read type arguments** agrees with itself one level further out. -/
theorem typeArgsWith_eq_iff (args : Group → Except SourceError (List TypeRef)) :
    typeArgsWith args = args ↔ args = Group.typeArgs := by
  constructor
  · intro hargs
    funext g
    induction g using Group.wellFounded_childOf.induction with
    | _ g ih =>
      rw [← hargs]
      refine typeArgsWith_congr fun k hk => ?_
      rw [ih k hk, typeArgsAt_eq hk.depthAll_lt]
  · rintro rfl
    funext g
    exact typeArgsWith_congr fun k hk => (typeArgsAt_eq hk.depthAll_lt).symm

/-- **Reading terminates.** Each round of each repetition consumes elements, and each function that
turns to itself does so for groups that stand in the one it is reading, which is never deeper than
the tokens allow. -/
theorem reading_terminates :
    -- a form that recognises a member announces an end strictly behind the cursor
    (∀ (inside : Inside) (form : MemberForm) (ctx : BodyContext) (s decided : Cursor),
      form ∈ constantForm inside :: memberForms inside → form.recognize ctx s = some decided →
        ∃ n, form.extent ctx s = .ok (some n) ∧ s.pos < n) ∧
    (∀ (inside : Inside) (ctx ctx' : BodyContext) (s t : Cursor) (node : Node), s.hasNext = true →
      memberStep (constantForm inside) (memberForms inside) ctx s = .read node ctx' t →
        t.rest.length < s.rest.length) ∧
    -- whatever a parser repeats consumes elements, and so it ends by itself
    (∀ (inside : Inside) args (α β : Type) (round : Parser (Option α)) (p : Parser β),
      Loop inside args round p →
      PartOf (many round) p ∧ Consumes round ∧
      ∀ s, ∃ n ≤ s.rest.length, Rounds round n s (many round s)) ∧
    -- and so does whatever is skipped
    (∀ round loop, Cursor.SkipLoop round loop → ∀ s,
      (∀ t, round s = some t → t.rest.length < s.rest.length ∧ loop s = loop t) ∧
        (round s = none → loop s = s ∨ loop s = s.next)) ∧
    -- groups are nested to a finite depth
    WellFounded Group.ChildOf ∧
    (∀ tokens root, Group.ofTokens tokens = .ok root → 2 * depthAll root.children ≤ tokens.length) ∧
    -- how code, members and type arguments are read depends on the groups nested in them alone
    (∀ es inside inside', Inside.SameOn es inside inside' →
      inside'.outward.pieces es = inside.outward.pieces es) ∧
    (∀ (g : Group) inside inside', Inside.SameOn g.children inside inside' →
      (∀ ctx, inside'.outward.members ctx g = inside.outward.members ctx g) ∧
        (file inside').runOn g = (file inside).runOn g) ∧
    (∀ g args args', (∀ k : Group, k.ChildOf g → args' k = args k) →
      typeArgsWith args' g = typeArgsWith args g) ∧
    -- so that exactly one reading needs no bound on the levels, and it is the one that files are
    -- read by
    (∀ args, typeArgsWith args = args ↔ args = Group.typeArgs) ∧
    ∃ inside : Inside, (∀ inside' : Inside, inside'.outward = inside' ↔ inside' = inside) ∧
      ∀ tokens, (Group.ofTokens tokens >>= File.ofGroup) = Group.ofTokens tokens >>=
        (file inside).runOn := by
  refine ⟨fun inside form ctx s decided => exists_extent_of_recognize,
    fun inside ctx ctx' s t node hnext hstep => length_rest_of_memberStep hstep hnext,
    fun inside args α β round p hloop =>
      ⟨hloop.partOf, hloop.consumes, hloop.consumes.exists_rounds⟩,
    fun round loop hloop s =>
      ⟨fun t ht => ⟨hloop.consumes ht, hloop.loop_of_some ht⟩, hloop.loop_of_none⟩,
    Group.wellFounded_childOf, fun tokens root => two_mul_depthAll_of_ofTokens,
    fun es inside inside' hsame => hsame.piecesWith,
    fun g inside inside' hsame =>
      ⟨hsame.outward_members, Pace.runOn_eq hsame.mirrors_file fun _ => id⟩,
    fun g args args' => typeArgsWith_congr, typeArgsWith_eq_iff, .full, Inside.outward_eq_iff,
      fun tokens => ?_⟩
  rw [funext File.ofGroup_eq_full]

end Unnest
