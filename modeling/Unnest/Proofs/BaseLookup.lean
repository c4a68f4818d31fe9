import Unnest.Proofs.Ordering
import Unnest.Header.Basic
import Mathlib

/-!
# When the bases are looked up

The bases of the classes are looked up in declaration order, and each lookup reads the bases noted
so far. The header looks the same names up again when all bases are noted. The second answer is the
first one if every class whose bases the lookup reads was done by then, and it can be another one if
not.

* `Plan.soFar`: the plan at the time when a reference is looked up;
* `Plan.consulted`: the classes whose bases a lookup reads;
* `Plan.bases_of_settled_lookups`: what is noted for a reference, and when it is what the header
  writes.
-/

namespace Unnest

/-! ### Entries tried -/

/-- The entries of a list that are tried until one gives a value, that one included. -/
def tried {α β : Type} (f : α → Option β) : List α → List α
  | [] => []
  | a :: l => if (f a).isSome then [a] else a :: tried f l

theorem findSome?_eq_of_tried {α β : Type} {f g : α → Option β} {l : List α}
    (h : ∀ a ∈ tried g l, f a = g a) : l.findSome? f = l.findSome? g := by
  induction l with
  | nil => rfl
  | cons a l ih =>
    have ha : f a = g a := h a (by unfold tried; split <;> simp)
    rw [List.findSome?_cons, List.findSome?_cons, ha]
    cases hg : g a with
    | some b => rfl
    | none =>
      refine ih fun b hb => h b ?_
      simp only [tried, hg, Option.isSome_none, Bool.false_eq_true, if_false]
      exact List.mem_cons_of_mem a hb

namespace Plan

variable {p q s t : Plan} {i k : Nat} {name : Text} {scope : Option Nat}

/-! ### What does not depend on the bases -/

/-- The classes of a plan without their bases. -/
def withoutBases (p : Plan) : Plan := { classes := p.classes.map ({ · with bases := [] }) }

theorem class?_withoutBases (p : Plan) (i : Nat) :
    p.withoutBases.class? i = (p.class? i).map ({ · with bases := [] }) := by
  simp only [withoutBases, class?, List.getElem?_map]

@[simp]
theorem parent?_withoutBases (p : Plan) (i : Nat) : p.withoutBases.parent? i = p.parent? i := by
  rw [parent?, class?_withoutBases, parent?, Option.bind_map]
  rfl

@[simp]
theorem simpleName_withoutBases (p : Plan) (i : Nat) :
    p.withoutBases.simpleName i = p.simpleName i := by
  rw [simpleName, class?_withoutBases, simpleName]
  cases p.class? i <;> rfl

theorem select_withoutBases (p : Plan) {test : ClassInfo → Bool}
    (h : ∀ c : ClassInfo, test { c with bases := [] } = test c) :
    p.withoutBases.select test = p.select test := by
  simp only [select, withoutBases, List.zipIdx_map, List.filterMap_map]
  refine List.filterMap_congr fun a _ => ?_
  simp only [Function.comp_apply, Prod.map_fst, Prod.map_snd, id_eq, h]

@[simp]
theorem size_withoutBases (p : Plan) : p.withoutBases.size = p.size := by
  simp only [size, withoutBases, List.length_map]

@[simp]
theorem tops_withoutBases (p : Plan) : p.withoutBases.tops = p.tops :=
  select_withoutBases p fun _ => rfl

@[simp]
theorem child?_withoutBases (p : Plan) (name : Text) (owner : Nat) :
    p.withoutBases.child? name owner = p.child? name owner := by
  have hinner : p.withoutBases.inner owner = p.inner owner := select_withoutBases p fun _ => rfl
  rw [child?, child?, hinner]
  congr 1
  funext k
  rw [class?_withoutBases]
  cases p.class? k <;> rfl

@[simp]
theorem outward_withoutBases (p : Plan) (i : Nat) : p.withoutBases.outward i = p.outward i := by
  induction i using outward.induct p with
  | case1 i k hk hlt ih =>
    rw [outward, outward, parent?_withoutBases]
    simp only [hk, hlt, dite_true, ih]
  | case2 i k hk hlt =>
    rw [outward, outward, parent?_withoutBases]
    simp only [hk, hlt, dite_false]
  | case3 i hk =>
    rw [outward, outward, parent?_withoutBases]
    simp only [hk]

theorem withoutBases_of_extends (h : Extends p q) : q.withoutBases = p.withoutBases :=
  congrArg (fun classes => ({ classes } : Plan)) h.same

/-! ### What a lookup reads -/

/-- The classes whose bases are read when `name` is looked for in `owner`. -/
def readWithin (p : Plan) (name : Text) : (levels owner : Nat) → List Nat
  | 0, _ => []
  | levels + 1, owner =>
    if (p.child? name owner).isSome then []
    else owner :: (tried (p.memberWithin? name levels) (p.bases owner)).flatMap
    (p.readWithin name levels)

/-- The classes whose bases are read when `name` is looked for in `owner`, at whatever distance. -/
def read (p : Plan) (name : Text) (owner : Nat) : List Nat := p.readWithin name (p.size + 1) owner

/-- The classes whose bases are read for further parts of a name, behind the class found so far. -/
def readParts (p : Plan) : Option Nat → List Text → List Nat
  | none, _ => []
  | some _, [] => []
  | some owner, part :: parts => p.read part owner ++ p.readParts (p.member? owner part) parts

/-- The classes whose bases are read when a dotted name is looked up. -/
def consulted (p : Plan) (name : Text) (scope : Option Nat) : List Nat :=
  match Text.splitOn (chr '.') name with
  | [] => []
  | first :: rest =>
    (tried (p.visible? first) (scope.elim [] p.outward)).flatMap (p.read first) ++
      p.readParts (p.lookup first scope) rest

section Lookup

variable (hsame : s.withoutBases = q.withoutBases)

include hsame

theorem memberWithin?_eq_of_read {levels owner : Nat}
    (h : ∀ k ∈ q.readWithin name levels owner, s.bases k = q.bases k) :
    s.memberWithin? name levels owner = q.memberWithin? name levels owner := by
  induction levels generalizing owner with
  | zero => rfl
  | succ levels ih =>
    have hchild : s.child? name owner = q.child? name owner := by
      rw [← child?_withoutBases, hsame, child?_withoutBases]
    rw [memberWithin?, memberWithin?, hchild]
    cases hfound : q.child? name owner with
    | some i => rfl
    | none =>
      simp only [readWithin, hfound, Option.isSome_none, Bool.false_eq_true, if_false,
        List.mem_cons, List.mem_flatMap] at h
      rw [Option.none_or, Option.none_or, h owner (Or.inl rfl)]
      refine findSome?_eq_of_tried fun base hbase => ih fun k hk => ?_
      exact h k (Or.inr ⟨base, hbase, hk⟩)

theorem member?_eq_of_read {owner : Nat} (h : ∀ k ∈ q.read name owner, s.bases k = q.bases k) :
    s.member? owner name = q.member? owner name := by
  have hsize : s.size = q.size := by rw [← size_withoutBases, hsame, size_withoutBases]
  rw [member?, member?, hsize]
  exact memberWithin?_eq_of_read hsame h

theorem lookup_eq_of_read
    (h : ∀ owner ∈ tried (q.visible? name) (scope.elim [] q.outward), ∀ k ∈ q.read name owner,
      s.bases k = q.bases k) :
    s.lookup name scope = q.lookup name scope := by
  have houtward : s.outward = q.outward := by
    funext j
    rw [← outward_withoutBases, hsame, outward_withoutBases]
  have hname : s.simpleName = q.simpleName := by
    funext j
    rw [← simpleName_withoutBases, hsame, simpleName_withoutBases]
  have htops : s.tops = q.tops := by rw [← tops_withoutBases, hsame, tops_withoutBases]
  rw [lookup, lookup, houtward, htops, hname]
  congr 1
  refine findSome?_eq_of_tried fun owner howner => ?_
  rw [visible?, visible?, member?_eq_of_read hsame (h owner howner), hname]

theorem foldl_eq_of_readParts {parts : List Text} {found : Option Nat}
    (h : ∀ k ∈ q.readParts found parts, s.bases k = q.bases k) :
    parts.foldl (fun found part => found.bind (s.member? · part)) found =
      parts.foldl (fun found part => found.bind (q.member? · part)) found := by
  induction parts generalizing found with
  | nil => rfl
  | cons part parts ih =>
    cases found with
    | none => exact ih (by simp [readParts])
    | some owner =>
      simp only [readParts, List.mem_append] at h
      rw [List.foldl_cons, List.foldl_cons, Option.bind_some, Option.bind_some,
        member?_eq_of_read hsame fun k hk => h k (Or.inl hk)]
      exact ih fun k hk => h k (Or.inr hk)

/-- A lookup depends on the bases of the classes that it consults, and on no others. -/
theorem resolve_eq_of_consulted (h : ∀ k ∈ q.consulted name scope, s.bases k = q.bases k) :
    s.resolve name scope = q.resolve name scope := by
  unfold consulted at h
  unfold resolve
  cases hparts : Text.splitOn (chr '.') name with
  | nil => rfl
  | cons first rest =>
    simp only [hparts, List.mem_append, List.mem_flatMap] at h
    have hfirst : s.lookup first scope = q.lookup first scope :=
      lookup_eq_of_read hsame fun owner howner k hk => h k (Or.inl ⟨owner, howner, hk⟩)
    simp only [hfirst]
    exact foldl_eq_of_readParts hsame fun k hk => h k (Or.inr hk)

end Lookup

/-! ### The bases noted so far -/

/-- The plan in which the classes before class `i` have all their bases and class `i`, which is `c`,
has those that were found for the references `refs`. -/
def soFar (external : Text → Bool) (p : Plan) (i : Nat) (c : ClassInfo) (refs : List TypeRef) :
    Except SourceError Plan :=
  (p.classes.zipIdx.take i).foldlM
    (fun p a => a.1.baseRefs.foldlM (resolveBase external a.2 a.1) p) p >>=
    refs.foldlM (resolveBase external i c)

/-- The plan `q` has all bases of `p`, and further ones only for classes whose turn it was. -/
structure Grows (turn : Nat → Prop) (p q : Plan) : Prop where
  isPrefix : ∀ k, p.bases k <+: q.bases k
  bases_eq : ∀ k, ¬ turn k → p.bases k = q.bases k

namespace Grows

variable {turn turn' : Nat → Prop}

theorem refl (turn : Nat → Prop) (p : Plan) : Grows turn p p :=
  ⟨fun _ => List.prefix_rfl, fun _ _ => rfl⟩

theorem trans (h : Grows turn s t) (h' : Grows turn t q) : Grows turn s q where
  isPrefix k := (h.isPrefix k).trans (h'.isPrefix k)
  bases_eq k hk := (h.bases_eq k hk).trans (h'.bases_eq k hk)

theorem mono (h : Grows turn s t) (himp : ∀ k, turn k → turn' k) : Grows turn' s t :=
  ⟨h.isPrefix, fun k hk => h.bases_eq k fun hturn => hk (himp k hturn)⟩

theorem bases_eq_of_nil (h : Grows turn s q) (hk : q.bases k = []) : s.bases k = q.bases k := by
  have hprefix := h.isPrefix k
  rw [hk] at hprefix ⊢
  exact List.prefix_nil.mp hprefix

end Grows

section Steps

variable {external : Text → Bool} {c : ClassInfo} {r : TypeRef} {refs : List TypeRef}

theorem bases_addBase (p : Plan) (i base k : Nat) (hi : i < p.size) :
    (p.addBase i base).bases k = p.bases k ++ if k = i then [base] else [] := by
  simp only [bases, class?, addBase, List.getElem?_modify]
  by_cases hk : k = i
  · subst hk
    rw [List.getElem?_eq_getElem hi]
    simp
  · have hik : i ≠ k := fun h => hk h.symm
    cases p.classes[k]? <;> simp [hk, hik]

theorem bases_of_resolveBase (hi : i < s.size) (h : resolveBase external i c s r = .ok t)
    (k : Nat) :
    t.bases k = s.bases k ++ if k = i then (s.resolve r.name c.parent).toList else [] := by
  unfold resolveBase at h
  split at h
  · next base hbase =>
    split_ifs at h
    cases h
    rw [bases_addBase s i base k hi, hbase, Option.toList_some]
  · next hnone =>
    split_ifs at h
    cases h
    rw [hnone, Option.toList_none, ite_self, List.append_nil]

theorem grows_of_resolveBase (hi : i < s.size) (h : resolveBase external i c s r = .ok t) :
    Grows (· = i) s t where
  isPrefix k := by
    rw [bases_of_resolveBase hi h k]
    exact List.prefix_append _ _
  bases_eq k hk := by rw [bases_of_resolveBase hi h k, if_neg hk, List.append_nil]

variable (hp : Nested 0 p.classes) (hc : p.classes[i]? = some c)

include hc in
theorem lt_size_of_extends (h : Extends p s) : i < s.size := by
  rw [h.size_eq]
  exact lt_size_of_getElem? hc

include hp hc

theorem grows_of_foldlM (hs : Extends p s) (h : refs.foldlM (resolveBase external i c) s = .ok t) :
    Grows (· = i) s t := by
  induction refs generalizing s with
  | nil =>
    cases h
    exact .refl _ _
  | cons r refs ih =>
    rw [List.foldlM_cons] at h
    obtain ⟨u, hu, h⟩ := Except.bind_eq_ok.mp h
    have hfirst := grows_of_resolveBase (lt_size_of_extends hc hs) hu
    exact hfirst.trans (ih (extends_of_resolveBase hp hc hs hu) h)

/-- The bases of a class are what is found for its references, in their order, and each of these is
looked up when the ones before it have been noted. -/
theorem exists_found (hs : Extends p s) (h : refs.foldlM (resolveBase external i c) s = .ok t) :
    ∃ found : List (Option Nat), found.length = refs.length ∧
      t.bases i = s.bases i ++ found.reduceOption ∧
      ∀ k r, refs[k]? = some r → ∃ u, (refs.take k).foldlM (resolveBase external i c) s = .ok u ∧
        Extends p u ∧ Grows (· = i) u t ∧ found[k]? = some (u.resolve r.name c.parent) := by
  induction refs generalizing s with
  | nil =>
    cases h
    exact ⟨[], rfl, by simp, by simp⟩
  | cons r refs ih =>
    have hgrows := grows_of_foldlM hp hc hs h
    rw [List.foldlM_cons] at h
    obtain ⟨u, hu, h⟩ := Except.bind_eq_ok.mp h
    obtain ⟨found, hlength, hbases, hfound⟩ := ih (extends_of_resolveBase hp hc hs hu) h
    refine ⟨s.resolve r.name c.parent :: found, congrArg (· + 1) hlength, ?_, fun k r' hr' => ?_⟩
    · rw [hbases, bases_of_resolveBase (lt_size_of_extends hc hs) hu i, if_pos rfl,
        List.append_assoc]
      cases s.resolve r.name c.parent <;> simp
    · cases k with
      | zero =>
        cases hr'
        exact ⟨s, rfl, hs, hgrows, rfl⟩
      | succ k =>
        obtain ⟨v, hv, hext, hgrows', hk⟩ := hfound k r' hr'
        refine ⟨v, ?_, hext, hgrows', hk⟩
        rw [List.take_succ_cons, List.foldlM_cons, hu]
        exact hv

end Steps

section Run

variable {external : Text → Bool} {c : ClassInfo} (hp : Nested 0 p.classes)

include hp

theorem extends_and_grows_of_classes (turn : Nat → Prop) {l : List (ClassInfo × Nat)}
    (hl : ∀ a ∈ l, p.classes[a.2]? = some a.1 ∧ turn a.2) (hs : Extends p s)
    (h : l.foldlM (fun p a => a.1.baseRefs.foldlM (resolveBase external a.2 a.1) p) s = .ok t) :
    Extends p t ∧ Grows turn s t := by
  refine foldlM_invariant (I := fun t => Extends p t ∧ Grows turn s t) ?_ ⟨hs, .refl turn s⟩ h
  rintro u a u' ha ⟨hext, hgrows⟩ hu
  obtain ⟨hc, hturn⟩ := hl a ha
  have hstep := grows_of_foldlM hp hc hext hu
  exact ⟨extends_of_foldlM hp hc hext hu, hgrows.trans (hstep.mono fun k hk => hk ▸ hturn)⟩

/-- The run over all classes, divided into the classes before `i`, the class itself and those behind
it. -/
theorem exists_turn (h : p.resolveBases external = .ok q) (hc : p.classes[i]? = some c) :
    ∃ s t, (p.classes.zipIdx.take i).foldlM
        (fun p a => a.1.baseRefs.foldlM (resolveBase external a.2 a.1) p) p = .ok s ∧
      c.baseRefs.foldlM (resolveBase external i c) s = .ok t ∧
      Extends p s ∧ Grows (· < i) p s ∧ Grows (i < ·) t q := by
  have hget : ∀ (j : Nat) (a : ClassInfo × Nat), p.classes.zipIdx[j]? = some a →
      p.classes[a.2]? = some a.1 ∧ a.2 = j := by
    rintro j ⟨c, k⟩ ha
    have hk := List.mk_mem_zipIdx_iff_getElem?.mp (List.mem_of_getElem? ha)
    simp only [List.getElem?_zipIdx, Nat.zero_add, Option.map_eq_some_iff, Prod.mk.injEq] at ha
    obtain ⟨-, -, -, hj⟩ := ha
    exact ⟨hk, hj.symm⟩
  have hself : p.classes.zipIdx[i]? = some (c, i) := by simp [hc]
  obtain ⟨hi, hself⟩ := List.getElem?_eq_some_iff.mp hself
  have hsplit : p.classes.zipIdx =
      p.classes.zipIdx.take i ++ (c, i) :: p.classes.zipIdx.drop (i + 1) := by
    rw [← hself, ← List.drop_eq_getElem_cons hi, List.take_append_drop]
  unfold resolveBases at h
  rw [hsplit, List.foldlM_append] at h
  obtain ⟨s, hs, h⟩ := Except.bind_eq_ok.mp h
  rw [List.foldlM_cons] at h
  obtain ⟨t, ht, h⟩ := Except.bind_eq_ok.mp h
  obtain ⟨hext, hbefore⟩ := extends_and_grows_of_classes hp (· < i) (fun a ha => by
    obtain ⟨j, hj⟩ := List.mem_iff_getElem?.mp ha
    rw [List.getElem?_take] at hj
    split_ifs at hj with hji
    obtain ⟨hclass, rfl⟩ := hget j a hj
    exact ⟨hclass, hji⟩) (extends_self hp) hs
  obtain ⟨-, hbehind⟩ := extends_and_grows_of_classes hp (i < ·) (fun a ha => by
    obtain ⟨j, hj⟩ := List.mem_iff_getElem?.mp ha
    rw [List.getElem?_drop] at hj
    obtain ⟨hclass, hij⟩ := hget _ a hj
    exact ⟨hclass, by omega⟩) (extends_of_foldlM hp hc hext ht) h
  exact ⟨s, t, hs, ht, hext, hbefore, hbehind⟩

theorem exists_found_of_resolveBases (h : p.resolveBases external = .ok q)
    (hc : p.classes[i]? = some c) :
    ∃ found : List (Option Nat), found.length = c.baseRefs.length ∧ q.bases i = found.reduceOption ∧
      ∀ k r, c.baseRefs[k]? = some r → ∃ u, p.soFar external i c (c.baseRefs.take k) = .ok u ∧
        Extends p u ∧ Grows (i ≤ ·) u q ∧ found[k]? = some (u.resolve r.name c.parent) := by
  obtain ⟨s, t, hs, ht, hext, hbefore, hbehind⟩ := exists_turn hp h hc
  obtain ⟨found, hlength, hbases, hfound⟩ := exists_found hp hc hext ht
  refine ⟨found, hlength, ?_, fun k r hr => ?_⟩
  · have hnone : p.bases i = [] := by simp [bases, class?, hc, (hp i c hc).1]
    rw [← hbehind.bases_eq i (Nat.lt_irrefl i), hbases, ← hbefore.bases_eq i (Nat.lt_irrefl i),
      hnone, List.nil_append]
  · obtain ⟨u, hu, hextu, hgrows, hk⟩ := hfound k r hr
    refine ⟨u, Except.bind_eq_ok.mpr ⟨s, hs, hu⟩, hextu, ?_, hk⟩
    exact (hgrows.mono fun k hk => Nat.le_of_eq hk.symm).trans
      (hbehind.mono fun k hk => Nat.le_of_lt hk)

end Run

/-! ### The finished plan -/

section Finished

variable {known : List Text} {f : File}

theorem exists_of_ofFile (h : ofFile known f = .ok q) :
    ∃ p, resolveBases (isExternal known f.imports) { classes := f.classes } = .ok p ∧
      q = { p with emission := p.arrangement.defined } ∧ p.arrangement.undefined = [] := by
  obtain ⟨p, hp, h⟩ := Except.bind_eq_ok.mp h
  obtain ⟨_, -, horder⟩ := Except.bind_eq_ok.mp h
  refine ⟨p, hp, ?_⟩
  unfold order at horder
  split at horder
  · next hundefined =>
    cases horder
    exact ⟨rfl, hundefined⟩
  · cases horder

theorem arranged_of_resolveBases {p : Plan}
    (hp : resolveBases (isExternal known f.imports) { classes := f.classes } = .ok p) :
    p.Arranged p.arrangement [] := by
  have hext := extends_of_resolveBases f.nested_classes hp
  have hparents : ∀ i j, p.parent? i = some j → j < i := by
    intro i j hij
    rw [hext.parent?_eq] at hij
    obtain ⟨c, hc, hj⟩ := Option.bind_eq_some_iff.mp hij
    have := (f.nested_classes i c hc).2 j hj
    omega
  exact (arranged_tops hparents).arrange fun c b hb => (hext.lt_size_of_mem_bases hb).2

theorem idxOf_lt_of_ofFile (h : ofFile known f = .ok q) {base : Nat} (hbase : base ∈ q.bases i) :
    q.emission.idxOf base < q.emission.idxOf i := by
  obtain ⟨p, hp, rfl, hundefined⟩ := exists_of_ofFile h
  have hext := extends_of_resolveBases f.nested_classes hp
  have harranged := arranged_of_resolveBases hp
  have hperm := harranged.perm
  rw [hundefined, List.append_nil] at hperm
  have hi := hperm.mem_iff.mpr (List.mem_range.mpr (hext.lt_size_of_mem_bases hbase).1)
  exact harranged.basesFirst.idxOf_lt hi hbase

/-- **The bases that are noted and the bases that are written**. For each reference of a class the
plan notes what the name stands for by then. This is what the name stands for in the finished plan,
and so the base written in the header is defined before the class, if every class whose bases the
lookup reads there is declared before the class or has no bases. -/
theorem bases_of_settled_lookups {c : ClassInfo} (h : ofFile known f = .ok q)
    (hc : f.classes[i]? = some c) :
    ∃ found : List (Option Nat), found.length = c.baseRefs.length ∧ q.bases i = found.reduceOption ∧
      (∀ base ∈ q.bases i, q.emission.idxOf base < q.emission.idxOf i) ∧
      ∀ k r, c.baseRefs[k]? = some r →
        (∃ s, soFar (isExternal known f.imports) { classes := f.classes } i c (c.baseRefs.take k) =
          .ok s ∧
          found[k]? = some (s.resolve r.name c.parent)) ∧
        ((∀ j ∈ q.consulted r.name c.parent, j < i ∨ q.bases j = []) →
          found[k]? = some (q.resolve r.name c.parent) ∧
          ∀ base, q.resolve r.name c.parent = some base →
          q.emission.idxOf base < q.emission.idxOf i) := by
  have hfirst : ∀ base ∈ q.bases i, q.emission.idxOf base < q.emission.idxOf i := fun base hbase =>
    idxOf_lt_of_ofFile h hbase
  obtain ⟨p, hp, hq, -⟩ := exists_of_ofFile h
  have hclasses : q.classes = p.classes := by rw [hq]
  have hqbases : q.bases = p.bases := by
    funext j
    simp only [bases, class?, hclasses]
  obtain ⟨found, hlength, hbases, hfound⟩ := exists_found_of_resolveBases f.nested_classes hp hc
  rw [← hqbases] at hbases
  refine ⟨found, hlength, hbases, hfirst, fun k r hr => ?_⟩
  obtain ⟨s, hs, hext, hgrows, hk⟩ := hfound k r hr
  refine ⟨⟨s, hs, hk⟩, fun hsettled => ?_⟩
  have hsame : s.withoutBases = q.withoutBases := by
    have hqsame : q.withoutBases = p.withoutBases := by simp only [withoutBases, hclasses]
    have hext' := extends_of_resolveBases f.nested_classes hp
    rw [hqsame, withoutBases_of_extends hext, withoutBases_of_extends hext']
  have hresolve : s.resolve r.name c.parent = q.resolve r.name c.parent := by
    refine resolve_eq_of_consulted hsame fun j hj => ?_
    rw [hqbases]
    rcases hsettled j hj with hlt | hnone
    · exact hgrows.bases_eq j (Nat.not_le.mpr hlt)
    · rw [hqbases] at hnone
      exact hgrows.bases_eq_of_nil hnone
  rw [hresolve] at hk
  refine ⟨hk, fun base hbase => hfirst base ?_⟩
  rw [hbases, List.reduceOption_mem_iff]
  rw [hbase] at hk
  exact List.mem_of_getElem? hk

end Finished

/-- `class C { class T {} }  class B extends C {}  class A extends B { class X extends T {} }` -/
def inheritedBefore : File where
  types := [
    ⟨{ name := lit "C" }, [.nested { name := lit "T" } []]⟩,
    ⟨{ name := lit "B", extending := [{ name := lit "C" }] }, []⟩,
    ⟨{ name := lit "A", extending := [{ name := lit "B" }] },
      [.nested { name := lit "X", extending := [{ name := lit "T" }] } []]⟩]

/-- The class `T` that `A` inherits from `C` through `B` is the base of `X` from the start: `A` and
`B` are consulted, and both are declared before `X`. -/
theorem bases_of_settled_lookups_inherited :
    ∃ q, ofFile [] inheritedBefore = .ok q ∧ q.consulted (lit "T") (some 3) = [3, 2] ∧
      q.bases 4 = [1] ∧
      ∃ found : List (Option Nat), q.bases 4 = found.reduceOption ∧
        found[0]? = some (q.resolve (lit "T") (some 3)) ∧ q.resolve (lit "T") (some 3) = some 1 ∧
        q.emission.idxOf 1 < q.emission.idxOf 4 := by
  have hplan : ((ofFile [] inheritedBefore).map fun q =>
      (q.consulted (lit "T") (some 3), q.bases 4, q.resolve (lit "T") (some 3))) =
        .ok ([3, 2], [1], some 1) := by cbv
  obtain ⟨q, hq, hvalues⟩ := Except.map_eq_ok.mp hplan
  simp only [Prod.mk.injEq] at hvalues
  obtain ⟨hconsulted, hbases, hresolve⟩ := hvalues
  obtain ⟨c, hc, href, hparent⟩ : ∃ c, inheritedBefore.classes[4]? = some c ∧
      c.baseRefs[0]? = some { name := lit "T" } ∧ c.parent = some 3 := ⟨_, rfl, rfl, rfl⟩
  obtain ⟨found, -, hfound, -, hlookups⟩ := bases_of_settled_lookups hq hc
  obtain ⟨-, hsettled⟩ := hlookups 0 _ href
  rw [hparent] at hsettled
  obtain ⟨hfirst, hdefined⟩ := hsettled fun j hj => by
    simp only [hconsulted, List.mem_cons, List.not_mem_nil, or_false] at hj
    omega
  exact ⟨q, hq, hconsulted, hbases, found, hfound, hfirst, hresolve, hdefined 1 hresolve⟩

/-- `class A extends B { class X extends T {} } class B extends C {} class C { class T {} } class T
  {}` -/
def inheritedLater : File where
  types := [
    ⟨{ name := lit "A", extending := [{ name := lit "B" }] },
      [.nested { name := lit "X", extending := [{ name := lit "T" }] } []]⟩,
    ⟨{ name := lit "B", extending := [{ name := lit "C" }] }, []⟩,
    ⟨{ name := lit "C" }, [.nested { name := lit "T" } []]⟩,
    ⟨{ name := lit "T" }, []⟩]

/-- Where the classes are declared the other way round, `A` inherits `T` only when the base of `B`
is noted, which is after the base of `X` was looked up. So the top-level `T` is noted for `X`, but
the header derives `X` from the inherited one, which is defined behind `X`. -/
theorem written_base_not_noted :
    ∃ q, ofFile [] inheritedLater = .ok q ∧ q.consulted (lit "T") (some 0) = [0, 2] ∧
      q.bases 1 = [5] ∧ q.resolve (lit "T") (some 0) = some 4 ∧
      (q.class? 1).map (Header.baseNames ⟨{}, inheritedLater, q⟩) = some [lit "C_T"] ∧
      q.emitted 4 = lit "C_T" ∧ ¬ q.emission.idxOf 4 < q.emission.idxOf 1 := by
  have hplan : ((ofFile [] inheritedLater).map fun q =>
      (q.consulted (lit "T") (some 0), q.bases 1, q.resolve (lit "T") (some 0),
        (q.class? 1).map (Header.baseNames ⟨{}, inheritedLater, q⟩), q.emitted 4, q.emission)) =
      .ok ([0, 2], [5], some 4, some [lit "C_T"], lit "C_T", [5, 1, 4, 3, 2, 0]) := by cbv
  obtain ⟨q, hq, hvalues⟩ := Except.map_eq_ok.mp hplan
  simp only [Prod.mk.injEq] at hvalues
  obtain ⟨hconsulted, hbases, hresolve, hnames, hemitted, hemission⟩ := hvalues
  refine ⟨q, hq, hconsulted, hbases, hresolve, hnames, hemitted, ?_⟩
  rw [hemission]
  decide

end Plan

end Unnest
