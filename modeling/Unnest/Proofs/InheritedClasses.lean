import Unnest.Proofs.ConstantBodies

/-!
# Classes found by inheritance

A class inherits the classes declared in the classes above it. They are searched for while the bases
of the classes are looked up, and then a class may still be above itself, so the search counts its
steps and gives up when it has made more of them than there are classes. Nothing is lost by that: a
class that can be reached at all is reached on a way that comes to no class twice
(`Plan.exists_simple_way`), and such a way is short.

* `Plan.Arises`: the plans of a file from the first lookup of a base on;
* `Plan.Search`: the calls that the search consists of, `Plan.search_iff`: each of them has an end;
* `Plan.member?_finds_inherited`: what is found in the plans of a file.
-/

namespace Unnest.Plan

variable {p s : Plan} {name : Text} {owner above base i depth levels : Nat} {result : Option Nat}

/-! ### The plans of a file -/

/-- A plan of a file during the lookup of the bases or after it. During the lookup the classes
before some class have all their bases, and this class has those of its first few references;
afterwards the classes may also have been put in order. -/
inductive Arises (known : List Text) (f : File) : Plan → Prop
  | during {i : Nat} {c : ClassInfo} {s : Plan} (k : Nat) (hc : f.classes[i]? = some c)
    (hs : soFar (isExternal known f.imports) { classes := f.classes } i c (c.baseRefs.take k) =
      .ok s) :
    Arises known f s
  | after {s : Plan} (emission : List Nat)
    (hs : resolveBases (isExternal known f.imports) { classes := f.classes } = .ok s) :
    Arises known f { s with emission }

theorem extends_of_soFar {external : Text → Bool} {c : ClassInfo} {refs : List TypeRef}
    (hp : Nested 0 p.classes) (hc : p.classes[i]? = some c)
    (h : p.soFar external i c refs = .ok s) : Extends p s := by
  obtain ⟨t, ht, h⟩ := Except.bind_eq_ok.mp h
  have hfront : Extends p t := by
    refine foldlM_invariant (fun u a u' ha hu hstep => ?_) (extends_self hp) ht
    exact extends_of_foldlM hp (List.mk_mem_zipIdx_iff_getElem?.mp (List.mem_of_mem_take ha))
      hu hstep
  exact extends_of_foldlM hp hc hfront h

theorem Arises.lt_size_of_isBase {known : List Text} {f : File} (h : Arises known f s)
    (hbase : s.IsBase base owner) : base < s.size := by
  cases h with
  | during k hc hs => exact ((extends_of_soFar f.nested_classes hc hs).lt_size_of_mem_bases hbase).2
  | after emission hs =>
    exact ((extends_of_resolveBases f.nested_classes hs).lt_size_of_mem_bases hbase).2

/-! ### Classes declared in a class -/

/-- The class `i` has the name `name` and is declared directly in the class `owner`. -/
def DeclaredIn (p : Plan) (name : Text) (owner i : Nat) : Prop :=
  ∃ c, p.class? i = some c ∧ c.parent = some owner ∧ c.isAnonymous = false ∧ c.simpleName = name

theorem declaredIn_iff : p.DeclaredIn name owner i ↔
    i ∈ p.inner owner ∧ (p.class? i).any (fun c => !c.isAnonymous && c.simpleName == name) =
    true := by
  unfold DeclaredIn
  rw [mem_inner, parent?]
  cases p.class? i with
  | none => simp
  | some c => simp

theorem declaredIn_of_child? (h : p.child? name owner = some i) : p.DeclaredIn name owner i := by
  have htest := List.find?_some h
  exact declaredIn_iff.mpr ⟨List.mem_of_find?_eq_some h, htest⟩

theorem isSome_child?_iff : (p.child? name owner).isSome = true ↔
    ∃ i, p.DeclaredIn name owner i := by
  unfold child?
  rw [List.find?_isSome]
  exact exists_congr fun i => declaredIn_iff.symm

/-! ### Ways upwards -/

/-- **A way without detours**: to a class above another one there is a way that comes to no class
twice. -/
theorem exists_simple_way (h : Relation.ReflTransGen p.IsBase above owner) :
    ∃ way : List Nat, (owner :: way).getLast? = some above ∧
      (owner :: way).IsChain (fun cls base => p.IsBase base cls) ∧ (owner :: way).Nodup := by
  induction h with
  | refl => exact ⟨[], rfl, .singleton above, List.nodup_singleton above⟩
  | @tail via owner _ hvia ih =>
    obtain ⟨way, hlast, hchain, hnodup⟩ := ih
    by_cases hmem : owner ∈ via :: way
    · -- the way has been here before, and what lies between is left out
      obtain ⟨detour, rest, hsplit⟩ := List.append_of_mem hmem
      rw [hsplit] at hlast hchain hnodup
      refine ⟨rest, ?_, hchain.right_of_append, hnodup.of_append_right⟩
      rwa [List.getLast?_append_of_ne_nil _ (List.cons_ne_nil owner rest)] at hlast
    · exact ⟨via :: way, by rwa [List.getLast?_cons_cons], hchain.cons_cons hvia,
        List.nodup_cons.mpr ⟨hmem, hnodup⟩⟩

theorem lt_size_of_mem_way (hrange : ∀ {base cls : Nat}, p.IsBase base cls → base < p.size)
    {way : List Nat} (hchain : (owner :: way).IsChain (fun cls base => p.IsBase base cls)) :
    ∀ x ∈ way, x < p.size := by
  induction way generalizing owner with
  | nil => simp
  | cons base way ih =>
    obtain ⟨hbase, hrest⟩ := List.isChain_cons_cons.mp hchain
    exact List.forall_mem_cons.mpr ⟨hrange hbase, ih hrest⟩

/-! ### What the search finds -/

theorem isSome_memberWithin?_of_way {way : List Nat} (hlast : (owner :: way).getLast? = some above)
    (hchain : (owner :: way).IsChain (fun cls base => p.IsBase base cls))
    (hlevels : way.length < levels) (hchild : (p.child? name above).isSome = true) :
    (p.memberWithin? name levels owner).isSome = true := by
  induction way generalizing owner levels with
  | nil =>
    obtain ⟨levels, rfl⟩ := Nat.exists_eq_succ_of_ne_zero (Nat.ne_of_gt hlevels)
    obtain rfl : owner = above := Option.some.inj hlast
    rw [memberWithin?, Option.isSome_or, hchild, Bool.true_or]
  | cons base way ih =>
    obtain ⟨levels, rfl⟩ := Nat.exists_eq_succ_of_ne_zero (Nat.ne_zero_of_lt hlevels)
    obtain ⟨hbase, hrest⟩ := List.isChain_cons_cons.mp hchain
    rw [List.getLast?_cons_cons] at hlast
    have hfound := ih hlast hrest (Nat.lt_of_succ_lt_succ hlevels)
    rw [memberWithin?, Option.isSome_or, Bool.or_eq_true, List.findSome?_isSome_iff]
    exact Or.inr ⟨base, hbase, hfound⟩

theorem isSome_member? (hrange : ∀ {base cls : Nat}, p.IsBase base cls → base < p.size)
    (habove : Relation.ReflTransGen p.IsBase above owner) (hdeclared : p.DeclaredIn name above i) :
    (p.member? owner name).isSome = true := by
  obtain ⟨way, hlast, hchain, hnodup⟩ := exists_simple_way habove
  refine isSome_memberWithin?_of_way hlast hchain ?_ (isSome_child?_iff.mpr ⟨i, hdeclared⟩)
  have hsubset : way ⊆ List.range p.size := fun x hx =>
    List.mem_range.mpr (lt_size_of_mem_way hrange hchain x hx)
  have hlength := (List.nodup_cons.mp hnodup).2.length_le_of_subset hsubset
  rw [List.length_range] at hlength
  exact Nat.lt_succ_of_le hlength

theorem declaredIn_of_memberWithin? (h : p.memberWithin? name levels owner = some i) :
    ∃ above, Relation.ReflTransGen p.IsBase above owner ∧ p.DeclaredIn name above i := by
  obtain ⟨above, habove, hchild⟩ := child?_of_memberWithin? h
  refine ⟨above, Relation.reflTransGen_iff_eq_or_transGen.mpr ?_, declaredIn_of_child? hchild⟩
  exact habove.imp_left Eq.symm

/-! ### The end of the search -/

/-- The calls that a search consists of: `depth` steps from where the search began, the call for the
class `owner` comes to an end and gives `result`. A call that is too far away gives nothing, and so
it does if no class of the name is declared in `owner` and the calls for all its bases give nothing;
otherwise it gives that class or what the first successful call for a base gives. -/
inductive Search (p : Plan) (name : Text) : (depth owner : Nat) → (result : Option Nat) → Prop
  | tooFar {depth owner : Nat} (hdepth : p.size < depth) : Search p name depth owner none
  | declared {depth owner i : Nat} (hdepth : depth ≤ p.size)
      (hchild : p.child? name owner = some i) :
    Search p name depth owner (some i)
  | inherited {depth owner base i : Nat} {before behind : List Nat} (hdepth : depth ≤ p.size)
    (hchild : p.child? name owner = none) (hbases : p.bases owner = before ++ base :: behind)
    (hbefore : ∀ b ∈ before, Search p name (depth + 1) b none)
    (hbase : Search p name (depth + 1) base (some i)) :
    Search p name depth owner (some i)
  | missing {depth owner : Nat} (hdepth : depth ≤ p.size) (hchild : p.child? name owner = none)
    (hbases : ∀ b ∈ p.bases owner, Search p name (depth + 1) b none) :
    Search p name depth owner none

theorem search_memberWithin? (hlevels : levels + depth = p.size + 1) :
    p.Search name depth owner (p.memberWithin? name levels owner) := by
  induction levels generalizing depth owner with
  | zero => exact .tooFar (by omega)
  | succ levels ih =>
    have hdepth : depth ≤ p.size := by omega
    have hcalls : ∀ b, p.Search name (depth + 1) b (p.memberWithin? name levels b) :=
      fun b => ih (by omega)
    rw [memberWithin?]
    cases hchild : p.child? name owner with
    | some i => exact .declared hdepth hchild
    | none =>
      rw [Option.none_or]
      cases hfound : (p.bases owner).findSome? (p.memberWithin? name levels) with
      | none =>
        refine .missing hdepth hchild fun b hb => ?_
        rw [← List.findSome?_eq_none_iff.mp hfound b hb]
        exact hcalls b
      | some i =>
        obtain ⟨before, base, behind, hbases, hbase, hbefore⟩ :=
          List.findSome?_eq_some_iff.mp hfound
        refine .inherited hdepth hchild hbases (fun b hb => ?_) ?_
        · rw [← hbefore b hb]
          exact hcalls b
        · rw [← hbase]
          exact hcalls base

theorem Search.eq_memberWithin? (h : p.Search name depth owner result) :
    result = p.memberWithin? name (p.size + 1 - depth) owner := by
  have hlevels : ∀ {depth : Nat}, depth ≤ p.size →
      p.size + 1 - depth = (p.size + 1 - (depth + 1)) + 1 := fun h => by omega
  induction h with
  | tooFar hdepth => rw [Nat.sub_eq_zero_of_le hdepth, memberWithin?]
  | declared hdepth hchild => rw [hlevels hdepth, memberWithin?, hchild, Option.some_or]
  | inherited hdepth hchild hbases _ _ hbefore hbase =>
    rw [hlevels hdepth, memberWithin?, hchild, Option.none_or, eq_comm, List.findSome?_eq_some_iff]
    exact ⟨_, _, _, hbases, hbase.symm, fun b hb => (hbefore b hb).symm⟩
  | missing hdepth hchild _ hbases =>
    rw [hlevels hdepth, memberWithin?, hchild, Option.none_or, eq_comm, List.findSome?_eq_none_iff]
    exact fun b hb => (hbases b hb).symm

/-- **The search comes to an end**, with one result. -/
theorem search_iff : p.Search name 0 owner result ↔ result = p.member? owner name := by
  refine ⟨Search.eq_memberWithin?, ?_⟩
  rintro rfl
  exact search_memberWithin? (Nat.add_zero _)

/-- **Inherited classes**. In every plan that arises when the bases of the classes of a file are
looked up, with or without classes above themselves, the search for a class of some name in a class
comes to an end. It finds one exactly if a class of that name is declared directly in the class or
in one above it, and what it finds is such a class; so to go on for more steps would not find
more. -/
theorem member?_finds_inherited {known : List Text} {f : File} (hs : Arises known f s) (owner : Nat)
    (name : Text) :
    (∀ result, s.Search name 0 owner result ↔ result = s.member? owner name) ∧
    ((∃ i, s.member? owner name = some i) ↔
      ∃ above i, Relation.ReflTransGen s.IsBase above owner ∧ s.DeclaredIn name above i) ∧
    (∀ i, s.member? owner name = some i →
      ∃ above, Relation.ReflTransGen s.IsBase above owner ∧ s.DeclaredIn name above i) ∧
    ∀ levels, s.member? owner name = none → s.memberWithin? name levels owner = none := by
  have hmiss : ∀ {above i : Nat}, Relation.ReflTransGen s.IsBase above owner →
      s.DeclaredIn name above i →
      (s.member? owner name).isSome = true := isSome_member? hs.lt_size_of_isBase
  refine ⟨fun result => search_iff, ⟨?_, ?_⟩, fun i hi => declaredIn_of_memberWithin? hi,
    fun levels hnone => ?_⟩
  · rintro ⟨i, hi⟩
    obtain ⟨above, habove, hdeclared⟩ := declaredIn_of_memberWithin? hi
    exact ⟨above, i, habove, hdeclared⟩
  · rintro ⟨above, i, habove, hdeclared⟩
    exact Option.isSome_iff_exists.mp (hmiss habove hdeclared)
  · cases hfound : s.memberWithin? name levels owner with
    | none => rfl
    | some i =>
      obtain ⟨above, habove, hdeclared⟩ := declaredIn_of_memberWithin? hfound
      have hsome := hmiss habove hdeclared
      rw [hnone] at hsome
      cases hsome

/-- `class A extends B {}  class B extends A { class T {} }  class C extends A.T {}` -/
def inheritedInCycle : File where
  types := [
    ⟨{ name := lit "A", extending := [{ name := lit "B" }] }, []⟩,
    ⟨{ name := lit "B", extending := [{ name := lit "A" }] }, [.nested { name := lit "T" } []]⟩,
    ⟨{ name := lit "C", extending := [{ name := lit "A.T" }] }, []⟩]

/-- When the base of `C` is looked up, `A` is above itself. The search finds the class `T` that `A`
inherits from `B`, and the search for a class that is not there comes to an end as well. -/
theorem member?_finds_inherited_in_cycle : ∃ s, Arises [] inheritedInCycle s ∧
    s.classes.map (·.bases) = [[1], [0], [], []] ∧ s.Above 0 0 ∧ s.Search (lit "T") 0 0 (some 2) ∧
    s.Search (lit "U") 0 0 none ∧ ∃ above i, Relation.ReflTransGen s.IsBase above 0 ∧
    s.DeclaredIn (lit "T") above i := by
  obtain ⟨c, hc⟩ : ∃ c, inheritedInCycle.classes[3]? = some c := ⟨_, rfl⟩
  have hstate :
      (soFar (isExternal [] inheritedInCycle.imports) { classes := inheritedInCycle.classes } 3 c
      (c.baseRefs.take 0)).map
      (fun s => (s.classes.map (·.bases), s.member? 0 (lit "T"), s.member? 0 (lit "U"))) =
        .ok ([[1], [0], [], []], some 2, none) := by cbv
  obtain ⟨s, hs, hview⟩ := Except.map_eq_ok.mp hstate
  simp only [Prod.mk.injEq] at hview
  obtain ⟨hbases, hfound, hnone⟩ := hview
  have harises : Arises [] inheritedInCycle s := .during 0 hc hs
  obtain ⟨hsearch, hiff, -⟩ := member?_finds_inherited harises 0 (lit "T")
  obtain ⟨hsearch', -⟩ := member?_finds_inherited harises 0 (lit "U")
  have hbase : ∀ i, s.bases i = ([[1], [0], [], []][i]?).getD [] := by
    intro i
    rw [← hbases, List.getElem?_map, bases, class?]
    cases s.classes[i]? <;> rfl
  have hcycle : s.Above 0 0 := by
    refine .tail (.single (b := 1) ?_) ?_
    · rw [IsBase, hbase]
      decide
    · rw [IsBase, hbase]
      decide
  exact ⟨s, harises, hbases, hcycle, (hsearch _).mpr hfound.symm, (hsearch' _).mpr hnone.symm,
    hiff.mp ⟨2, hfound⟩⟩

end Unnest.Plan
