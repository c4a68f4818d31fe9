import Unnest.Proofs.Turns

/-!
# Other numbers for the classes

Classes refer to each other by their numbers, so a plan can give its classes other numbers without a
change of meaning. Only the order of the classes inside a class must stay, and the names of the
top-level classes must be different, because names are looked up in the order of the numbers.

* `Plan.Renumbers`: a plan with other numbers;
* `Plan.Renumbers.turns`: the classes find the same bases.
-/

namespace Unnest

/-- A class in which the numbers of classes are replaced. -/
def ClassInfo.renumbered (σ : Nat → Nat) (c : ClassInfo) : ClassInfo :=
  { c with parent := c.parent.map σ, top := σ c.top, bases := c.bases.map σ }

theorem findSome?_map_eq {σ : Nat → Nat} {f f' : Nat → Option Nat} {l : List Nat}
    (h : ∀ a ∈ l, f' (σ a) = (f a).map σ) : (l.map σ).findSome? f' = (l.findSome? f).map σ := by
  induction l with
  | nil => rfl
  | cons a l ih =>
    rw [List.map_cons, List.findSome?_cons, List.findSome?_cons, h a List.mem_cons_self]
    cases f a with
    | some b => rfl
    | none => exact ih fun b hb => h b (List.mem_cons_of_mem a hb)

namespace Plan

variable {σ : Nat → Nat} {p p' : Plan} {i j k : Nat} {name : Text} {scope : Option Nat}

theorem pairwise_select (p : Plan) (test : ClassInfo → Bool) :
    (p.select test).Pairwise (· < ·) := by
  have hzip : p.classes.zipIdx.Pairwise fun a b => a.2 < b.2 := by
    rw [← List.pairwise_map, List.zipIdx_map_snd]
    exact List.pairwise_lt_range'
  refine List.pairwise_filterMap.mpr (hzip.imp fun {a b} hab k hk l hl => ?_)
  simp only [Option.ite_none_right_eq_some, Option.some.injEq] at hk hl
  obtain ⟨-, rfl⟩ := hk
  obtain ⟨-, rfl⟩ := hl
  exact hab

/-- The plan `p'` is the plan `p` with other numbers: `σ i` is the number in `p'` of the class `i`
of `p`. -/
structure Renumbers (σ : Nat → Nat) (p p' : Plan) : Prop where
  size_eq : p'.size = p.size
  class?_eq : ∀ i < p.size, p'.class? (σ i) = (p.class? i).map (·.renumbered σ)
  inj : ∀ i < p.size, ∀ j < p.size, σ i = σ j → i = j
  surj : ∀ k < p.size, ∃ i < p.size, σ i = k
  parent_lt : ∀ i j, p.parent? i = some j → j < i
  parent_lt' : ∀ i j, p'.parent? i = some j → j < i
  /-- Classes inside the same class keep their order. -/
  inner_lt : ∀ i j owner, p.parent? i = some owner → p.parent? j = some owner → i < j → σ i < σ j
  /-- The names of the top-level classes are different. -/
  tops_inj : ∀ i ∈ p.tops, ∀ j ∈ p.tops, p.simpleName i = p.simpleName j → i = j
  bases_lt : ∀ i, ∀ b ∈ p.bases i, b < p.size

theorem lt_size_of_parent? (h : p.parent? i = some j) : i < p.size := by
  obtain ⟨c, hc, -⟩ := Option.bind_eq_some_iff.mp h
  exact lt_size_of_getElem? hc

namespace Renumbers

variable (h : Renumbers σ p p')

include h

/-! ### The classes -/

theorem parent?_eq (hi : i < p.size) : p'.parent? (σ i) = (p.parent? i).map σ := by
  rw [parent?, parent?, h.class?_eq i hi]
  cases p.class? i <;> rfl

theorem simpleName_eq (hi : i < p.size) : p'.simpleName (σ i) = p.simpleName i := by
  rw [simpleName, simpleName, h.class?_eq i hi]
  cases p.class? i <;> rfl

theorem emitted_eq (hi : i < p.size) : p'.emitted (σ i) = p.emitted i := by
  rw [emitted, emitted, h.class?_eq i hi]
  cases p.class? i <;> rfl

theorem bases_eq (hi : i < p.size) : p'.bases (σ i) = (p.bases i).map σ := by
  rw [bases, bases, h.class?_eq i hi]
  cases p.class? i <;> rfl

theorem lt_size (hi : i < p.size) : σ i < p'.size := by
  have hclass := h.class?_eq i hi
  rw [class?, class?, List.getElem?_eq_getElem hi] at hclass
  exact lt_size_of_getElem? hclass

theorem exists_number (hk : k < p'.size) : ∃ i < p.size, σ i = k := h.surj k (by rwa [← h.size_eq])

theorem inner_eq (hj : j < p.size) : p'.inner (σ j) = (p.inner j).map σ := by
  refine List.Pairwise.eq_of_mem_iff (pairwise_select p' _) ?_ fun k => ?_
  · exact List.pairwise_map.mpr ((pairwise_select p _).imp_of_mem fun ha hb hlt =>
      h.inner_lt _ _ j (mem_inner.mp ha) (mem_inner.mp hb) hlt)
  · rw [mem_inner, List.mem_map]
    constructor
    · intro hk
      obtain ⟨i, hi, rfl⟩ := h.exists_number (lt_size_of_parent? hk)
      rw [h.parent?_eq hi, Option.map_eq_some_iff] at hk
      obtain ⟨j', hj', hσ⟩ := hk
      obtain rfl := h.inj j' ((h.parent_lt i j' hj').trans hi) j hj hσ
      exact ⟨i, mem_inner.mpr hj', rfl⟩
    · rintro ⟨i, hi, rfl⟩
      have hparent := mem_inner.mp hi
      rw [h.parent?_eq (lt_size_of_parent? hparent), hparent, Option.map_some]

theorem mem_tops_iff (hi : i < p.size) : σ i ∈ p'.tops ↔ i ∈ p.tops := by
  rw [mem_tops, mem_tops, h.parent?_eq hi, Option.map_eq_none_iff]
  exact ⟨fun ⟨_, hnone⟩ => ⟨hi, hnone⟩, fun ⟨_, hnone⟩ => ⟨h.lt_size hi, hnone⟩⟩

theorem find?_tops (name : Text) : (p'.tops.find? fun i => p'.simpleName i == name) =
    (p.tops.find? fun i => p.simpleName i == name).map σ := by
  cases hfound : p.tops.find? fun i => p.simpleName i == name with
  | none =>
    refine List.find?_eq_none.mpr fun k hk => ?_
    obtain ⟨i, hi, rfl⟩ := h.exists_number (mem_tops.mp hk).1
    rw [h.simpleName_eq hi]
    exact List.find?_eq_none.mp hfound i ((h.mem_tops_iff hi).mp hk)
  | some i =>
    have hi := List.mem_of_find?_eq_some hfound
    have hname := List.find?_some hfound
    obtain ⟨hlt, -⟩ := mem_tops.mp hi
    cases hfound' : p'.tops.find? fun i => p'.simpleName i == name with
    | none =>
      have hnot := List.find?_eq_none.mp hfound' (σ i) ((h.mem_tops_iff hlt).mpr hi)
      rw [h.simpleName_eq hlt] at hnot
      exact absurd hname hnot
    | some k =>
      -- there is only one top-level class with the name
      have hk := List.mem_of_find?_eq_some hfound'
      have hname' := List.find?_some hfound'
      obtain ⟨j, hj, rfl⟩ := h.exists_number (mem_tops.mp hk).1
      rw [h.simpleName_eq hj] at hname'
      rw [beq_iff_eq] at hname hname'
      rw [Option.map_some, h.tops_inj i hi j ((h.mem_tops_iff hj).mp hk) (hname.trans hname'.symm)]

/-! ### Names -/

theorem child?_eq (hj : j < p.size) : p'.child? name (σ j) = (p.child? name j).map σ := by
  unfold child?
  rw [h.inner_eq hj, List.find?_map]
  congr 1
  refine List.find?_congr fun i hi => ?_
  rw [Function.comp_apply, h.class?_eq i (lt_size_of_mem_select hi)]
  cases p.class? i <;> rfl

theorem memberWithin?_eq {levels : Nat} (hj : j < p.size) :
    p'.memberWithin? name levels (σ j) = (p.memberWithin? name levels j).map σ := by
  induction levels generalizing j with
  | zero => rfl
  | succ levels ih =>
    rw [memberWithin?, memberWithin?, h.child?_eq hj, h.bases_eq hj, Option.map_or,
      findSome?_map_eq fun b hb => ih (h.bases_lt j b hb)]

theorem member?_eq (hj : j < p.size) : p'.member? (σ j) name = (p.member? j name).map σ := by
  rw [member?, member?, h.size_eq, h.memberWithin?_eq hj]

theorem outward_eq (hi : i < p.size) : p'.outward (σ i) = (p.outward i).map σ := by
  have hparent := h.parent?_eq hi
  induction i using outward.induct p with
  | case1 i j hj hlt ih =>
    rw [hj, Option.map_some] at hparent
    have hlt' := h.parent_lt' _ _ hparent
    have hsize := hlt.trans hi
    rw [outward, outward]
    simp only [hparent, hj, hlt, hlt', dite_true, List.map_cons, ih hsize (h.parent?_eq hsize)]
  | case2 i j hj hlt => exact absurd (h.parent_lt i j hj) hlt
  | case3 i hnone =>
    rw [hnone, Option.map_none] at hparent
    rw [outward, outward]
    simp only [hparent, hnone, List.map_cons, List.map_nil]

theorem visible?_eq (hi : i < p.size) : p'.visible? name (σ i) = (p.visible? name i).map σ := by
  rw [visible?, visible?, h.member?_eq hi, h.simpleName_eq hi, Option.map_or]
  congr 1
  split <;> rfl

theorem lookup_eq (hscope : ∀ j, scope = some j → j < p.size) :
    p'.lookup name (scope.map σ) = (p.lookup name scope).map σ := by
  have hsearch : ((scope.map σ).elim [] p'.outward).findSome? (p'.visible? name) =
      ((scope.elim [] p.outward).findSome? (p.visible? name)).map σ := by
    cases scope with
    | none => rfl
    | some j =>
      have hj := hscope j rfl
      rw [Option.map_some, Option.elim_some, Option.elim_some, h.outward_eq hj]
      exact findSome?_map_eq fun i hi => h.visible?_eq ((le_of_mem_outward hi).trans_lt hj)
  rw [lookup, lookup, hsearch, h.find?_tops, Option.map_or]

/-- **A name stands for the same class**, whatever the numbers are. -/
theorem resolve_eq (hscope : ∀ j, scope = some j → j < p.size) :
    p'.resolve name (scope.map σ) = (p.resolve name scope).map σ := by
  have hparts : ∀ (parts : List Text) (found : Option Nat), (∀ j, found = some j → j < p.size) →
      parts.foldl (fun found part => found.bind (p'.member? · part)) (found.map σ) =
        (parts.foldl (fun found part => found.bind (p.member? · part)) found).map σ := by
    intro parts
    induction parts with
    | nil => exact fun _ _ => rfl
    | cons part parts ih =>
      intro found hfound
      rw [List.foldl_cons, List.foldl_cons]
      have hstep : (found.map σ).bind (p'.member? · part) =
          (found.bind (p.member? · part)).map σ := by
        cases found with
        | none => rfl
        | some j => exact h.member?_eq (hfound j rfl)
      rw [hstep]
      refine ih _ fun j hj => ?_
      obtain ⟨owner, -, hj⟩ := Option.bind_eq_some_iff.mp hj
      exact lt_size_of_memberWithin? hj
  unfold resolve
  split
  · rfl
  · rw [h.lookup_eq hscope]
    exact hparts _ _ fun j hj => lt_size_of_lookup hscope hj

end Renumbers

/-! ### Bases -/

theorem class?_addBase (p : Plan) (i base k : Nat) : (p.addBase i base).class? k =
    (p.class? k).map fun c => if i = k then { c with bases := c.bases ++ [base] } else c := by
  rw [class?, addBase, List.getElem?_modify]
  cases hk : p.classes[k]? <;> by_cases hik : i = k <;> simp [class?, hk, hik]

@[simp]
theorem size_addBase (p : Plan) (i base : Nat) : (p.addBase i base).size = p.size := by
  simp only [size, addBase, List.length_modify]

@[simp]
theorem parent?_addBase (p : Plan) (i base k : Nat) :
    (p.addBase i base).parent? k = p.parent? k := by
  rw [parent?, class?_addBase, parent?]
  cases p.class? k with
  | none => rfl
  | some c => by_cases hik : i = k <;> simp [hik]

@[simp]
theorem simpleName_addBase (p : Plan) (i base k : Nat) :
    (p.addBase i base).simpleName k = p.simpleName k := by
  rw [simpleName, class?_addBase, simpleName]
  cases p.class? k with
  | none => rfl
  | some c => by_cases hik : i = k <;> simp [hik, ClassInfo.simpleName]

namespace Renumbers

variable {external : Text → Bool} {c : ClassInfo} {s s' t : Plan}

theorem addBase (h : Renumbers σ p p') (hi : i < p.size) (hj : j < p.size) :
    Renumbers σ (p.addBase i j) (p'.addBase (σ i) (σ j)) where
  size_eq := by simpa using h.size_eq
  class?_eq k hk := by
    rw [size_addBase] at hk
    rw [class?_addBase, class?_addBase, h.class?_eq k hk]
    have hik : σ i = σ k ↔ i = k := ⟨h.inj i hi k hk, fun hik => by rw [hik]⟩
    cases p.class? k with
    | none => rfl
    | some c => by_cases heq : i = k <;> simp [hik, heq, ClassInfo.renumbered]
  inj := by simpa using h.inj
  surj := by simpa using h.surj
  parent_lt := by simpa using h.parent_lt
  parent_lt' := by simpa using h.parent_lt'
  inner_lt := by simpa using h.inner_lt
  tops_inj := by simpa [mem_tops] using h.tops_inj
  bases_lt k b hb := by
    rw [bases_addBase p i j k hi, List.mem_append] at hb
    rw [size_addBase]
    rcases hb with hb | hb
    · exact h.bases_lt k b hb
    · split at hb
      · rwa [List.mem_singleton.mp hb]
      · cases hb

theorem resolveBase (h : Renumbers σ s s') {r : TypeRef} (hi : i < s.size)
    (hparent : ∀ j, c.parent = some j → j < s.size) (ht : resolveBase external i c s r = .ok t) :
    ∃ t', Plan.resolveBase external (σ i) (c.renumbered σ) s' r = .ok t' ∧ Renumbers σ t t' := by
  have hresolve : s'.resolve r.name (c.renumbered σ).parent = (s.resolve r.name c.parent).map σ :=
    h.resolve_eq hparent
  unfold Plan.resolveBase at ht ⊢
  rw [hresolve]
  split at ht
  · next base hbase =>
    split_ifs at ht with hself
    cases ht
    have hlt := lt_size_of_resolve hparent hbase
    rw [hbase, Option.map_some]
    dsimp only
    rw [if_neg fun heq => hself (h.inj base hlt i hi heq)]
    exact ⟨_, rfl, h.addBase hi hlt⟩
  · next hnone =>
    split_ifs at ht with hexternal
    cases ht
    rw [hnone, Option.map_none]
    dsimp only
    rw [if_pos hexternal]
    exact ⟨s', rfl, h⟩

section Run

variable (hp : Nested 0 p.classes) (hpp' : Renumbers σ p p')

include hp

theorem foldlM (h : Renumbers σ s s') (hs : Extends p s) (hc : p.classes[i]? = some c)
    {refs : List TypeRef} (ht : refs.foldlM (Plan.resolveBase external i c) s = .ok t) :
    ∃ t', refs.foldlM (Plan.resolveBase external (σ i) (c.renumbered σ)) s' = .ok t' ∧
      Renumbers σ t t' := by
  induction refs generalizing s s' with
  | nil =>
    cases ht
    exact ⟨s', rfl, h⟩
  | cons r refs ih =>
    rw [List.foldlM_cons] at ht
    obtain ⟨u, hu, ht⟩ := Except.bind_eq_ok.mp ht
    have hi := lt_size_of_extends hc hs
    have hparent : ∀ j, c.parent = some j → j < s.size := by
      intro j hj
      have := (hp i c hc).2 j hj
      omega
    obtain ⟨u', hu', hrenumbers⟩ := h.resolveBase hi hparent hu
    obtain ⟨t', ht', hrenumbers'⟩ := ih hrenumbers (extends_of_resolveBase hp hc hs hu) ht
    rw [List.foldlM_cons]
    exact ⟨t', Except.bind_eq_ok.mpr ⟨u', hu', ht'⟩, hrenumbers'⟩

include hpp'

/-- **The classes find the same bases** in their turns, whatever their numbers are. -/
theorem turns (h : Renumbers σ s s') (hs : Extends p s) {order : List Nat}
    (horder : ∀ i ∈ order, i < p.size) (ht : order.foldlM (p.turn external) s = .ok t) :
    ∃ t', (order.map σ).foldlM (p'.turn external) s' = .ok t' ∧ Renumbers σ t t' := by
  induction order generalizing s s' with
  | nil =>
    cases ht
    exact ⟨s', rfl, h⟩
  | cons i order ih =>
    rw [List.foldlM_cons] at ht
    obtain ⟨u, hu, ht⟩ := Except.bind_eq_ok.mp ht
    have hi := horder i List.mem_cons_self
    have hc : p.classes[i]? = some p.classes[i] := List.getElem?_eq_getElem hi
    rw [turn, class?, hc] at hu
    obtain ⟨u', hu', hrenumbers⟩ := foldlM hp h hs hc hu
    have hturn : p'.turn external s' (σ i) = .ok u' := by
      rw [turn, hpp'.class?_eq i hi, class?, hc]
      exact hu'
    obtain ⟨t', ht', hrenumbers'⟩ := ih hrenumbers (extends_of_foldlM hp hc hs hu)
      (fun j hj => horder j (List.mem_cons_of_mem i hj)) ht
    rw [List.map_cons, List.foldlM_cons]
    exact ⟨t', Except.bind_eq_ok.mpr ⟨u', hturn, ht'⟩, hrenumbers'⟩

end Run

theorem exists_order (h : Renumbers σ p p') : ∃ order : List Nat, order.Perm (List.range p.size) ∧
    order.map σ = List.range p.size ∧ ∀ i < p.size, order.idxOf i = σ i := by
  choose! number hlt hnumber using h.surj
  have hσ : ∀ i < p.size, σ i < p.size := fun i hi => by
    rw [← h.size_eq]
    exact h.lt_size hi
  have hback : ∀ i < p.size, number (σ i) = i := fun i hi =>
    h.inj _ (hlt _ (hσ i hi)) i hi (hnumber _ (hσ i hi))
  have hmap : ((List.range p.size).map number).map σ = List.range p.size := by
    rw [List.map_map]
    refine (List.map_congr_left fun k hk => ?_).trans (List.map_id _)
    exact hnumber k (List.mem_range.mp hk)
  have hnodup : ((List.range p.size).map number).Nodup := by
    refine List.Nodup.of_map σ ?_
    rw [hmap]
    exact List.nodup_range
  refine ⟨(List.range p.size).map number, ?_, hmap, fun i hi => ?_⟩
  · refine (List.perm_ext_iff_of_nodup hnodup List.nodup_range).mpr fun i => ?_
    rw [List.mem_map, List.mem_range]
    constructor
    · rintro ⟨k, hk, rfl⟩
      exact hlt k (List.mem_range.mp hk)
    · exact fun hi => ⟨σ i, List.mem_range.mpr (hσ i hi), hback i hi⟩
  · have hlength : σ i < ((List.range p.size).map number).length := by simpa using hσ i hi
    have hget : ((List.range p.size).map number)[σ i] = i := by
      simp only [List.getElem_map, List.getElem_range, hback i hi]
    conv_lhs => rw [← hget]
    exact hnodup.idxOf_getElem _ hlength

theorem acc (h : Renumbers σ p p') (hacc : Acc p.IsBase i) (hi : i < p.size) :
    Acc p'.IsBase (σ i) := by
  induction hacc with
  | intro i _ ih =>
    refine Acc.intro _ fun k hk => ?_
    rw [IsBase, h.bases_eq hi] at hk
    obtain ⟨b, hb, rfl⟩ := List.mem_map.mp hk
    exact ih b hb (h.bases_lt i b hb)

end Renumbers

end Plan

end Unnest
