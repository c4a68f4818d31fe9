import Unnest.Proofs.EmittedNames
import Unnest.Header.ClassText
import Mathlib

/-!
# Simple names inside a class

A class gets the simple names of the classes declared in it and in the classes around it as other
names for them (`Header.aliases`), so that its code can go on using them. In its signatures the same
names are looked up in the plan, and there a class that some scope inherits comes before the classes
declared further out. The two agree unless a scope nearer than the declaring one inherits a class of
the same name.

* `Plan.inheritedNearer?`: the inherited class that comes in between;
* `Header.alias_denotes_class`: when the other name and the signatures agree.
-/

namespace Unnest

namespace Plan

/-- The class `i` and the classes around it, up to the first in which a class `name` is declared. -/
def nearerScopes (p : Plan) (name : Text) (i : Nat) : List Nat :=
  (p.outward i).takeWhile fun scope => (p.child? name scope).isNone

/-- The class `name` that is inherited by a scope nearer than the first one in which such a class is
declared. -/
def inheritedNearer? (p : Plan) (name : Text) (i : Nat) : Option Nat :=
  (p.nearerScopes name i).findSome? (p.member? · name)

variable {p : Plan} {i j s z : Nat} {name : Text}

/-! ### From the inside out -/

theorem exists_outward_cons (p : Plan) (i : Nat) : ∃ outer, p.outward i = i :: outer := by
  rw [outward]
  split
  · split <;> exact ⟨_, rfl⟩
  · exact ⟨_, rfl⟩

theorem parent?_of_outward {before outer : List Nat} (h : p.outward i = before ++ z :: s :: outer) :
    p.parent? z = some s := by
  induction i using outward.induct p generalizing before with
  | case1 i k hk hlt ih =>
    rw [outward_of_parent hk hlt] at h
    cases before with
    | nil =>
      obtain ⟨rest, hrest⟩ := p.exists_outward_cons k
      rw [hrest] at h
      cases h
      exact hk
    | cons b before =>
      rw [List.cons_append, List.cons.injEq] at h
      exact ih h.2
  | case2 i k hk hlt =>
    rw [outward] at h
    simp only [hk, hlt, dite_false] at h
    have hlength := congrArg List.length h
    simp only [List.length_append, List.length_cons, List.length_nil] at hlength
    omega
  | case3 i hk =>
    rw [outward] at h
    simp only [hk] at h
    have hlength := congrArg List.length h
    simp only [List.length_append, List.length_cons, List.length_nil] at hlength
    omega

/-! ### Classes with a name -/

theorem child?_eq_some (h : p.child? name s = some j) :
    ∃ c, p.class? j = some c ∧ c.isAnonymous = false ∧ c.simpleName = name ∧ c.parent = some s := by
  have hmem := List.mem_of_find?_eq_some h
  have htest := List.find?_some h
  obtain ⟨c, hc, hparent⟩ := Option.bind_eq_some_iff.mp (mem_inner.mp hmem)
  rw [hc] at htest
  simp only [Option.any_some, Bool.and_eq_true, Bool.not_eq_true', beq_iff_eq] at htest
  exact ⟨c, hc, htest.1, htest.2, hparent⟩

theorem child?_isSome {c : ClassInfo} (hc : p.class? z = some c) (hnamed : c.isAnonymous = false)
    (hparent : c.parent = some s) : (p.child? c.simpleName s).isSome = true := by
  have hmem : z ∈ p.inner s := mem_inner.mpr (Option.bind_eq_some_iff.mpr ⟨c, hc, hparent⟩)
  rw [child?, List.find?_isSome]
  exact ⟨z, hmem, by simp [hc, hnamed]⟩

theorem member?_of_child? (h : p.child? name s = some j) : p.member? s name = some j := by
  rw [member?, memberWithin?, h, Option.some_or]

theorem visible?_of_member? (h : p.member? s name = some j) : p.visible? name s = some j := by
  rw [visible?, h, Option.some_or]

/-- A scope that neither has nor inherits a class of a name stands for the name only if it has that
name itself; then the class around it has a class of that name. -/
theorem visible?_of_member?_eq_none (hname : name ≠ []) (hnone : p.member? z name = none)
    (hparent : p.parent? z = some s) :
    p.visible? name z = none ∨
      p.visible? name z = some z ∧ ∃ c, p.class? z = some c ∧ c.isAnonymous = false ∧
      c.simpleName = name ∧
        c.parent = some s := by
  obtain ⟨c, hc, hcparent⟩ := Option.bind_eq_some_iff.mp hparent
  have hsimple : p.simpleName z = c.simpleName := by simp [simpleName, hc]
  rw [visible?, hnone, Option.none_or, hsimple]
  by_cases hself : c.simpleName = name
  · refine Or.inr ⟨by simp [hself], c, hc, ?_, hself, hcparent⟩
    -- an anonymous class has no name
    cases horigin : c.origin with
    | named head => simp [ClassInfo.isAnonymous, horigin]
    | anonymous place base =>
      simp only [ClassInfo.simpleName, horigin] at hself
      exact absurd hself.symm hname
  · exact Or.inl (by simp [hself])

theorem emitted_eq_of_sameScope {known : List Text} {f : File} (h : ofFile known f = .ok p)
    {c d : ClassInfo} (hc : p.class? z = some c) (hd : p.class? j = some d)
    (hcnamed : c.isAnonymous = false) (hdnamed : d.isAnonymous = false)
    (hcparent : c.parent = some s) (hdparent : d.parent = some s)
    (hname : c.simpleName = d.simpleName) : c.emitted = d.emitted := by
  have hwritten : ∀ {k : Nat} {e : ClassInfo}, p.class? k = some e → e.isAnonymous = false →
      e.parent = some s →
      e.emitted = p.emitted s ++ lit "_" ++ e.simpleName := by
    intro k e he hnamed hparent
    rcases titled_ofFile h k e he with ⟨hnone, -⟩ | ⟨l, outer, hl, houter, hemitted⟩
    · rw [hnone] at hparent
      cases hparent
    · rw [hparent, Nat.zero_add, Option.some.injEq] at hl
      subst hl
      rw [hemitted hnamed, emitted, class?, houter, Option.elim_some]
  rw [hwritten hc hcnamed hcparent, hwritten hd hdnamed hdparent, hname]

/-! ### What a name stands for -/

section Lookup

variable {before outer : List Nat} (hname : name ≠ [])
  (houtward : p.outward i = before ++ s :: outer) (hbefore : ∀ z ∈ before, p.child? name z = none)

include hname houtward hbefore

/-- The scopes nearer than the declaring one stand for the name only through a class they inherit,
except for the last of them, which may have the name itself. -/
theorem findSome?_nearer {more : List Nat} (hmore : more <+: before) :
    (∃ x, more.findSome? (p.member? · name) = some x ∧ more.findSome? (p.visible? name) = some x) ∨
      more.findSome? (p.member? · name) = none ∧
        (more.findSome? (p.visible? name) = none ∨
          more = before ∧ ∃ z c, more.findSome? (p.visible? name) = some z ∧ p.class? z = some c ∧
            c.isAnonymous = false ∧ c.simpleName = name ∧ c.parent = some s) := by
  induction more using List.reverseRecOn with
  | nil => exact Or.inr ⟨rfl, Or.inl rfl⟩
  | append_singleton more z ih =>
    obtain ⟨rest, hrest⟩ := hmore
    rw [List.findSome?_append, List.findSome?_append]
    rcases ih ⟨z :: rest, by simpa using hrest⟩ with ⟨x, hx, hx'⟩ | ⟨hnone, hvisible | ⟨hall, -⟩⟩
    · exact Or.inl ⟨x, by rw [hx, Option.some_or], by rw [hx', Option.some_or]⟩
    · rw [hnone, hvisible, Option.none_or, Option.none_or, List.findSome?_singleton,
        List.findSome?_singleton]
      cases hmember : p.member? z name with
      | some x => exact Or.inl ⟨x, rfl, visible?_of_member? hmember⟩
      | none =>
        refine Or.inr ⟨rfl, ?_⟩
        -- the class around `z` is the next scope
        cases rest with
        | nil =>
          have hchain : p.outward i = more ++ z :: s :: outer := by
            rw [houtward, ← hrest]
            simp
          rcases visible?_of_member?_eq_none hname hmember (parent?_of_outward hchain)
            with hnone | ⟨hself, c, hc⟩
          · exact Or.inl hnone
          · exact Or.inr ⟨by simpa using hrest, z, c, hself, hc⟩
        | cons w rest =>
          have hchain : p.outward i = more ++ z :: w :: (rest ++ s :: outer) := by
            rw [houtward, ← hrest]
            simp
          rcases visible?_of_member?_eq_none hname hmember (parent?_of_outward hchain) with
            hnone | ⟨-, c, hc, hnamed, hsimple, hcparent⟩
          · exact Or.inl hnone
          · have hsome := child?_isSome hc hnamed hcparent
            rw [hsimple, hbefore w (by rw [← hrest]; simp)] at hsome
            cases hsome
    · have hlength := congrArg List.length (hrest.trans hall.symm)
      simp at hlength

end Lookup

/-- **What a name stands for** that is declared in a class or around it: the class that a nearer
scope inherits, if there is one, and else a class that is written under the name of the declared
one. -/
theorem lookup_of_declared {known : List Text} {f : File} (h : ofFile known f = .ok p)
    (hname : name ≠ []) (hfind : (p.outward i).findSome? (p.child? name) = some j) :
    (∀ x, p.inheritedNearer? name i = some x → p.lookup name (some i) = some x) ∧
      (p.inheritedNearer? name i = none →
        ∃ k, p.lookup name (some i) = some k ∧ p.emitted k = p.emitted j) := by
  obtain ⟨before, s, outer, houtward, hs, hbefore⟩ := List.findSome?_eq_some_iff.mp hfind
  have hnearer : p.nearerScopes name i = before := by
    rw [nearerScopes, houtward, List.takeWhile_append_of_pos (by simpa using hbefore),
      List.takeWhile_cons_of_neg (by simp [hs]), List.append_nil]
  have hlookup : p.lookup name (some i) =
      ((before.findSome? (p.visible? name)).or (some j)) := by
    rw [lookup, Option.elim_some, houtward, List.findSome?_append, List.findSome?_cons,
      visible?_of_member? (member?_of_child? hs)]
    cases before.findSome? (p.visible? name) <;> rfl
  rw [inheritedNearer?, hnearer, hlookup]
  rcases findSome?_nearer hname houtward hbefore List.prefix_rfl with
    ⟨x, hx, hvisible⟩ | ⟨hnone, hvisible | ⟨-, z, c, hvisible, hc, hnamed, hsimple, hparent⟩⟩
  · rw [hx, hvisible]
    exact ⟨fun y hy => hy, fun hnone => absurd hnone (Option.some_ne_none x)⟩
  · rw [hnone, hvisible]
    exact ⟨fun y hy => absurd hy.symm (Option.some_ne_none y), fun _ => ⟨j, rfl, rfl⟩⟩
  · rw [hnone, hvisible]
    refine ⟨fun y hy => absurd hy.symm (Option.some_ne_none y), fun _ => ⟨z, rfl, ?_⟩⟩
    obtain ⟨d, hd, hdnamed, hdsimple, hdparent⟩ := child?_eq_some hs
    rw [emitted, emitted, hc, hd]
    exact emitted_eq_of_sameScope h hc hd hnamed hdnamed hparent hdparent
      (hsimple.trans hdsimple.symm)

theorem resolve_eq_lookup (hdot : chr '.' ∉ name) (scope : Option Nat) :
    p.resolve name scope = p.lookup name scope := by
  rw [resolve, Text.splitOn_of_notMem hdot]
  rfl

end Plan

namespace Header

open Plan

/-! ### Other names -/

theorem find?_of_mem_firstNamed {p : Plan} {seen : List Text} {l : List Nat} {j : Nat}
    (h : j ∈ firstNamed p seen l) :
    seen.contains (p.simpleName j) = false ∧
    l.find? (fun k => p.simpleName k == p.simpleName j) = some j := by
  induction l generalizing seen with
  | nil => cases h
  | cons k l ih =>
    rw [firstNamed] at h
    split_ifs at h with hseen
    · obtain ⟨hnew, hfind⟩ := ih h
      refine ⟨hnew, ?_⟩
      rw [List.find?_cons_of_neg, hfind]
      intro hsame
      rw [beq_iff_eq.mp hsame, hnew] at hseen
      cases hseen
    · rcases List.mem_cons.mp h with rfl | h
      · exact ⟨by simpa using hseen, by simp⟩
      · obtain ⟨hnew, hfind⟩ := ih h
        simp only [List.contains_cons, Bool.or_eq_false_iff] at hnew
        refine ⟨hnew.2, ?_⟩
        rw [List.find?_cons_of_neg, hfind]
        intro hsame
        rw [beq_iff_eq.mp hsame, beq_self_eq_true] at hnew
        cases hnew.1

/-- A class with another name is the first one of its name declared in the nearest scope that
declares any. -/
theorem findSome?_of_mem_visibleClasses {p : Plan} {i j : Nat} (h : j ∈ visibleClasses p i) :
    (p.outward i).findSome? (p.child? (p.simpleName j)) = some j := by
  have hfind := (find?_of_mem_firstNamed h).2
  rw [List.find?_flatMap] at hfind
  rw [← hfind]
  congr 1
  funext scope
  rw [List.find?_filter, child?]
  congr 1
  funext k
  have hk : p.simpleName k = (p.class? k).elim [] (·.simpleName) := rfl
  rw [hk]
  cases p.class? k with
  | none => rfl
  | some c => by_cases hsame : c.simpleName = p.simpleName j <;> simp [hsame]

/-- **Other names and signatures**. An entry among the other names that a class gets is the simple
name of some class for the name under which that class is written. If a nearer scope inherits a
class of this simple name, then the name stands for that one in the signatures of the class; and if
none does, then it stands for a class that is written under the same name as the one of the
entry. -/
theorem alias_denotes_class {options : HeaderOptions} {f : File} {h : Header}
    (hh : Header.ofFile options f = .ok h) {i : Nat} {entry : Visibility × Text}
    (hentry : entry ∈ h.aliases i) :
    ∃ j c, h.plan.class? j = some c ∧ entry = (.pub, h.aliasText c) ∧
      (c.simpleName ≠ [] → chr '.' ∉ c.simpleName →
        (∀ x, h.plan.inheritedNearer? c.simpleName i = some x →
          h.plan.resolve c.simpleName (some i) = some x ∧
          ∀ own typeParams, (h.typeScope i own typeParams).classText c.simpleName [] =
          h.plan.emitted x) ∧
        (h.plan.inheritedNearer? c.simpleName i = none →
          ∃ k, h.plan.resolve c.simpleName (some i) = some k ∧ h.plan.emitted k = c.emitted ∧
            ∀ own typeParams, (h.typeScope i own typeParams).classText c.simpleName [] =
            c.emitted)) := by
  obtain ⟨p, hp, hplan⟩ := Except.bind_eq_ok.mp hh
  cases hplan
  obtain ⟨j, hj, hentry⟩ := List.mem_filterMap.mp hentry
  obtain ⟨c, hc, rfl⟩ := Option.map_eq_some_iff.mp hentry
  refine ⟨j, c, hc, rfl, fun hname hdot => ?_⟩
  have hfind := findSome?_of_mem_visibleClasses hj
  have hsimple : p.simpleName j = c.simpleName := by rw [simpleName, hc, Option.elim_some]
  have hemitted : p.emitted j = c.emitted := by rw [emitted, hc, Option.elim_some]
  simp only at hfind
  rw [hsimple] at hfind
  obtain ⟨hinherited, hdeclared⟩ := lookup_of_declared hp hname hfind
  have htext : ∀ {k : Nat}, p.resolve c.simpleName (some i) = some k → ∀ vars,
      TypeScope.classText ⟨p, some i, vars⟩ c.simpleName [] = p.emitted k := by
    intro k hk vars
    rw [TypeScope.classText, hk]
    exact List.append_nil _
  simp only [resolve_eq_lookup hdot] at htext ⊢
  refine ⟨fun x hx => ⟨hinherited x hx, fun own typeParams => htext (hinherited x hx) _⟩,
    fun hnone => ?_⟩
  obtain ⟨k, hk, hkname⟩ := hdeclared hnone
  exact ⟨k, hk, hkname.trans hemitted,
    fun own typeParams => (htext hk _).trans (hkname.trans hemitted)⟩

/-- A class that inherits, but not under the name that it uses. -/
def inheritsOther : Source :=
  ⟨lit "S",
    lit "class Base { class U {} }\nclass Outer { class T {} class Mid extends Base { T t; } }"⟩

/-- In `Mid` the name `T` stands for the class in `Outer`, in the code and in the signatures. -/
theorem alias_denotes_class_around :
    ∃ f h, File.ofSource inheritsOther = .ok f ∧ Header.ofFile {} f = .ok h ∧
    (.pub, lit "    using T = Outer_T;\n") ∈ h.aliases 4 ∧ h.plan.inheritedNearer? (lit "T") 4 =
    none ∧
    ∃ k, h.plan.resolve (lit "T") (some 4) = some k ∧ h.plan.emitted k = lit "Outer_T" := by
  have hview : ((File.ofSource inheritsOther).bind fun f => (Header.ofFile {} f).map fun h =>
      (h.plan.classes.map fun c => (h.aliasText c, c.simpleName, c.emitted), h.aliases 4,
        h.plan.inheritedNearer? (lit "T") 4)) = .ok
      ([(lit "    using Base = Base;\n", lit "Base", lit "Base"),
        (lit "    using U = Base_U;\n", lit "U", lit "Base_U"),
          (lit "    using Outer = Outer;\n", lit "Outer", lit "Outer"),
          (lit "    using T = Outer_T;\n", lit "T", lit "Outer_T"),
          (lit "    using Mid = Outer_Mid;\n", lit "Mid", lit "Outer_Mid")],
        [(.pub, lit "    using T = Outer_T;\n"), (.pub, lit "    using Mid = Outer_Mid;\n")],
        none) := by
    cbv
  obtain ⟨f, hf, hview⟩ := Except.bind_eq_ok.mp hview
  obtain ⟨h, hh, hview⟩ := Except.map_eq_ok.mp hview
  simp only [Prod.mk.injEq] at hview
  obtain ⟨hclasses, haliases, hnone⟩ := hview
  have hentry : (.pub, lit "    using T = Outer_T;\n") ∈ h.aliases 4 := by
    rw [haliases]
    exact List.mem_cons_self
  obtain ⟨j, c, hc, htext, hdenotes⟩ := alias_denotes_class hh hentry
  -- the entry belongs to the only class with this text
  have hmem : (h.aliasText c, c.simpleName, c.emitted) ∈
      h.plan.classes.map fun c => (h.aliasText c, c.simpleName, c.emitted) :=
    List.mem_map_of_mem (List.mem_of_getElem? hc)
  have htext : h.aliasText c = lit "    using T = Outer_T;\n" := (congrArg Prod.snd htext).symm
  rw [hclasses, htext] at hmem
  obtain ⟨hsimple, hemitted⟩ : c.simpleName = lit "T" ∧ c.emitted = lit "Outer_T" := by
    simp only [List.mem_cons, Prod.mk.injEq, List.not_mem_nil, or_false] at hmem
    rcases hmem with ⟨hbase, -⟩ | ⟨hunrelated, -⟩ | ⟨houter, -⟩ | ⟨-, hnames⟩ | ⟨hmid, -⟩
    · exact absurd hbase (by decide)
    · exact absurd hunrelated (by decide)
    · exact absurd houter (by decide)
    · exact hnames
    · exact absurd hmid (by decide)
  rw [hsimple] at hdenotes
  obtain ⟨k, hk, hkname, -⟩ := (hdenotes (by decide) (by decide)).2 hnone
  exact ⟨f, h, hf, hh, hentry, hnone, k, hk, hkname.trans hemitted⟩

/-- A class that inherits a class of the name that it uses. -/
def inheritsSame : Source :=
  ⟨lit "S",
    lit "class Outer { class T {} class Mid extends Base { T t; } }\nclass Base { class T {} }"⟩

/-- In `Mid` the name `T` stands for the class in `Outer` in the code, and for the inherited one in
the signatures. -/
theorem alias_hides_inherited :
    ∃ f h, File.ofSource inheritsSame = .ok f ∧ Header.ofFile {} f = .ok h ∧
    (.pub, lit "    using T = Outer_T;\n") ∈ h.aliases 2 ∧ h.plan.inheritedNearer? (lit "T") 2 =
    some 4 ∧
    h.plan.resolve (lit "T") (some 2) = some 4 ∧ h.plan.emitted 4 = lit "Base_T" := by
  have hview : ((File.ofSource inheritsSame).bind fun f => (Header.ofFile {} f).map fun h =>
      (h.aliases 2, h.plan.inheritedNearer? (lit "T") 2, h.plan.resolve (lit "T") (some 2),
        h.plan.emitted 4)) = .ok
      ([(.pub, lit "    using T = Outer_T;\n"), (.pub, lit "    using Mid = Outer_Mid;\n")], some 4,
        some 4, lit "Base_T") := by
    cbv
  obtain ⟨f, hf, hview⟩ := Except.bind_eq_ok.mp hview
  obtain ⟨h, hh, hview⟩ := Except.map_eq_ok.mp hview
  simp only [Prod.mk.injEq] at hview
  obtain ⟨haliases, hinherited, hresolve, hemitted⟩ := hview
  refine ⟨f, h, hf, hh, ?_, hinherited, hresolve, hemitted⟩
  rw [haliases]
  exact List.mem_cons_self

end Header

end Unnest
