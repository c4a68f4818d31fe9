import Unnest.Proofs.Classes
import Unnest.Plan.Order
import Mathlib.Data.List.Basic

/-!
# The order of definition

When no class is derived from itself, all classes can be put in order. There are two searches to
follow. The search for cycles visits the bases of a class before it leaves the class, so that every
class it has left is accessible (`Plan.Searching`). The arrangement keeps an account of the classes
that are not defined yet (`Plan.Arranged`): each of them is still to be taken up, or one step will
conclude it, or it waits once for a base that is not defined either. So no class is defined twice,
and at the end only the last case is left, which would lead down forever.

* `Plan.Arranged.arrange`: the account, from the first step to the last;
* `Plan.order_defines_bases_first`: the order of definition.
-/

namespace Unnest.Plan

variable {p : Plan}

/-- The class `base` is a base of the class `cls`. -/
def IsBase (p : Plan) (base cls : Nat) : Prop := base ∈ p.bases cls

/-! ### The search for cycles -/

/-- The steps of a search that stands at the end of `path`. Every class of the path has its
remaining bases in front of its own end; a base that it has no step for is accessible, or it is the
class `child` that is visited now. -/
inductive Searching (p : Plan) : (child : Option Nat) → (path : List Nat) → List SearchStep → Prop
  | starts {child} (classes : List Nat) : Searching p child [] (classes.map .start)
  | visit {child cls path steps} (todo : List Nat) (htodo : todo ⊆ p.bases cls)
    (hbases : ∀ b ∈ p.bases cls, Acc p.IsBase b ∨ b ∈ todo ∨ child = some b)
    (h : Searching p (some cls) path steps) :
    Searching p child (cls :: path) (todo.map (.follow cls) ++ .leave :: steps)

namespace Searching

variable {child : Option Nat} {path : List Nat} {steps : List SearchStep} {cls base : Nat}

/-- A class that is left need not be mentioned any more, once it is accessible. -/
theorem of_acc (h : Searching p (some cls) path steps) (hacc : Acc p.IsBase cls) :
    Searching p child path steps := by
  cases h with
  | starts classes => exact .starts classes
  | visit todo htodo hbases h =>
    refine .visit todo htodo (fun b hb => ?_) h
    rcases hbases b hb with hb | hb | hb
    · exact Or.inl hb
    · exact Or.inr (Or.inl hb)
    · cases hb
      exact Or.inl hacc

/-- Leaving a class: it is accessible, since all its bases are. -/
theorem leave (h : Searching p none path (.leave :: steps)) :
    ∃ cls path', path = cls :: path' ∧ Acc p.IsBase cls ∧ Searching p none path' steps := by
  generalize hsteps : SearchStep.leave :: steps = all at h
  cases h with
  | starts classes => cases classes <;> cases hsteps
  | @visit _ cls path' steps' todo _ hbases h =>
    cases todo with
    | cons b todo => cases hsteps
    | nil =>
      cases hsteps
      have hacc : Acc p.IsBase cls := by
        refine Acc.intro cls fun b hb => ?_
        rcases hbases b hb with hb | hb | hb
        · exact hb
        · cases hb
        · cases hb
      exact ⟨cls, path', rfl, hacc, h.of_acc hacc⟩

theorem start (h : Searching p none path (.start cls :: steps)) :
    path = [] ∧ ∀ child, Searching p child [] steps := by
  generalize hsteps : SearchStep.start cls :: steps = all at h
  cases h with
  | starts classes =>
    cases classes with
    | nil => cases hsteps
    | cons c cs =>
      cases hsteps
      exact ⟨rfl, fun _ => .starts cs⟩
  | visit todo _ _ _ => cases todo <;> cases hsteps

/-- Following a base that is visited next. -/
theorem enter (h : Searching p none path (.follow cls base :: steps)) :
    base ∈ p.bases cls ∧ Searching p (some base) path steps := by
  generalize hsteps : SearchStep.follow cls base :: steps = all at h
  cases h with
  | starts classes => cases classes <;> cases hsteps
  | visit todo htodo hbases h =>
    cases todo with
    | nil => cases hsteps
    | cons b todo =>
      cases hsteps
      obtain ⟨hbase, htodo⟩ := List.cons_subset.mp htodo
      refine ⟨hbase, .visit todo htodo (fun c hc => ?_) h⟩
      rcases hbases c hc with hc | hc | hc
      · exact Or.inl hc
      · rcases List.mem_cons.mp hc with rfl | hc
        · exact Or.inr (Or.inr rfl)
        · exact Or.inr (Or.inl hc)
      · cases hc

end Searching

theorem seen_cons {fresh path : List Nat}
    (hseen : ∀ c, c < p.size → c ∈ fresh ∨ c ∈ path ∨ Acc p.IsBase c) (cls : Nat) :
    ∀ c, c < p.size → c ∈ fresh.erase cls ∨ c ∈ cls :: path ∨ Acc p.IsBase c := by
  intro c hc
  rcases hseen c hc with h | h | h
  · by_cases heq : c = cls
    · exact Or.inr (Or.inl (by simp [heq]))
    · exact Or.inl ((List.mem_erase_of_ne heq).mpr h)
  · exact Or.inr (Or.inl (List.mem_cons_of_mem _ h))
  · exact Or.inr (Or.inr h)

/-- **A search that finds nothing** has seen that every class is accessible. -/
theorem acc_of_findCycle (hrange : ∀ c, ∀ b ∈ p.bases c, b < p.size) {fresh path : List Nat}
    {steps : List SearchStep} (hsearch : p.Searching none path steps) (hnodup : fresh.Nodup)
    (hseen : ∀ c, c < p.size → c ∈ fresh ∨ c ∈ path ∨ Acc p.IsBase c)
    (hfresh : ∀ c ∈ fresh, .start c ∈ steps)
    (hnone : p.findCycle fresh path steps = none) : ∀ c, c < p.size → Acc p.IsBase c := by
  induction fresh, path, steps using findCycle.induct p with
  | case1 fresh path =>
    -- no step is left: nothing is fresh, and no class is being visited
    intro c hc
    rcases hseen c hc with h | h | h
    · cases hfresh c h
    · generalize hsteps : ([] : List SearchStep) = all at hsearch
      cases hsearch with
      | starts classes => cases h
      | visit todo _ _ _ => cases todo <;> cases hsteps
    · exact h
  | case2 fresh path steps ih =>
    rw [findCycle] at hnone
    obtain ⟨cls, path', rfl, hacc, hsearch'⟩ := hsearch.leave
    refine ih hsearch' hnodup (fun c hc => ?_) (fun c hc => ?_) hnone
    · rcases hseen c hc with h | h | h
      · exact Or.inl h
      · rcases List.mem_cons.mp h with rfl | h
        · exact Or.inr (Or.inr hacc)
        · exact Or.inr (Or.inl h)
      · exact Or.inr (Or.inr h)
    · simpa using hfresh c hc
  | case3 fresh path cls steps hcls ih =>
    rw [findCycle, dif_pos hcls] at hnone
    obtain ⟨rfl, hsearch'⟩ := hsearch.start
    refine ih (.visit _ (List.Subset.refl _) (fun b hb => Or.inr (Or.inl hb)) (hsearch' _))
      (hnodup.erase cls)
      (seen_cons hseen cls) (fun c hc => ?_) hnone
    obtain ⟨hne, hc⟩ := hnodup.mem_erase_iff.mp hc
    have := hfresh c hc
    simp only [List.mem_cons, SearchStep.start.injEq, hne, false_or] at this
    simp [this]
  | case4 fresh path cls steps hcls ih =>
    rw [findCycle, dif_neg hcls] at hnone
    obtain ⟨rfl, hsearch'⟩ := hsearch.start
    refine ih (hsearch' _) hnodup hseen (fun c hc => ?_) hnone
    have := hfresh c hc
    rcases List.mem_cons.mp this with h | h
    · cases h
      exact absurd hc hcls
    · exact h
  | case5 fresh path cls base steps hpath =>
    rw [findCycle, if_pos hpath] at hnone
    cases hnone
  | case6 fresh path cls base steps hpath hbase ih =>
    rw [findCycle, if_neg hpath, dif_pos hbase] at hnone
    refine ih (.visit _ (List.Subset.refl _) (fun b hb => Or.inr (Or.inl hb)) hsearch.enter.2)
      (hnodup.erase base) (seen_cons hseen base) (fun c hc => ?_) hnone
    have := hfresh c (List.mem_of_mem_erase hc)
    simp only [List.mem_cons, reduceCtorEq, false_or] at this
    simp [this]
  | case7 fresh path cls base steps hpath hbase ih =>
    rw [findCycle, if_neg hpath, dif_neg hbase] at hnone
    obtain ⟨hmem, hsearch'⟩ := hsearch.enter
    have hacc := ((hseen base (hrange cls base hmem)).resolve_left hbase).resolve_left hpath
    refine ih (hsearch'.of_acc hacc) hnodup hseen (fun c hc => ?_) hnone
    simpa using hfresh c hc

theorem acc_of_checkCycles (hrange : ∀ c, ∀ b ∈ p.bases c, b < p.size)
    (h : p.checkCycles = .ok ()) :
    ∀ c, c < p.size → Acc p.IsBase c := by
  have hnone : p.cyclicEdge? = none := by
    unfold checkCycles at h
    split at h
    · assumption
    · cases h
  refine acc_of_findCycle hrange (.starts (List.range p.size)) List.nodup_range (fun c hc => ?_)
    (fun c hc => ?_) hnone
  · exact Or.inl (List.mem_range.mpr hc)
  · exact List.mem_map_of_mem hc

/-! ### The arrangement -/

/-- Every class of a list stands behind its bases. -/
def BasesFirst (p : Plan) (order : List Nat) : Prop :=
  ∀ front cls back, order = front ++ cls :: back → ∀ b ∈ p.bases cls, b ∈ front

theorem basesFirst_append {order : List Nat} {cls : Nat} (h : p.BasesFirst order)
    (hcls : ∀ b ∈ p.bases cls, b ∈ order) : p.BasesFirst (order ++ [cls]) := by
  intro front c back heq b hb
  rcases List.eq_nil_or_concat back with rfl | ⟨back, last, rfl⟩
  · obtain ⟨rfl, hc⟩ := List.append_inj' heq rfl
    cases hc
    exact hcls b hb
  · rw [List.concat_eq_append, ← List.cons_append, ← List.append_assoc] at heq
    obtain ⟨rfl, -⟩ := List.append_inj' heq rfl
    exact h front c back rfl b hb

/-- What is known of an arrangement while `steps` are left. -/
structure Arranged (p : Plan) (o : Arrangement) (steps : List OrderStep) : Prop where
  /-- A class that is to be taken up has a step of its own, or it is inside of such a class. -/
  fresh : ∀ c ∈ o.fresh, .place c ∈ steps ∨ ∃ j ∈ o.fresh, j < c ∧ c ∈ p.inner j
  /-- Each class that is not defined is to be taken up, is concluded by one step or waits once. -/
  account : (o.fresh ++ o.outstanding steps).Perm o.undefined
  waiting : ∀ w ∈ o.waiting, w.1 ∈ p.bases w.2 ∧ w.1 ∈ o.undefined
  perm : (o.defined ++ o.undefined).Perm (List.range p.size)
  basesFirst : p.BasesFirst o.defined

namespace Arranged

variable {o : Arrangement} {steps : List OrderStep} {cls : Nat}

theorem undefined_nodup (h : p.Arranged o steps) : o.undefined.Nodup :=
  (List.nodup_append.mp (h.perm.nodup_iff.mpr List.nodup_range)).2.1

theorem fresh_nodup (h : p.Arranged o steps) : o.fresh.Nodup :=
  (List.nodup_append.mp (h.account.nodup_iff.mpr h.undefined_nodup)).1

theorem mem_undefined (h : p.Arranged o (.conclude cls :: steps)) : cls ∈ o.undefined := by
  refine h.account.mem_iff.mp (List.mem_append_right _ (List.mem_append_left _ ?_))
  exact List.mem_filterMap.mpr ⟨.conclude cls, by simp, rfl⟩

theorem place (h : p.Arranged o (.place cls :: steps)) (hcls : cls ∈ o.fresh) :
    p.Arranged { o with fresh := o.fresh.erase cls }
      ((p.inner cls).map .place ++ .settle cls :: steps) where
  fresh := by
    intro c hc
    obtain ⟨hne, hc⟩ := h.fresh_nodup.mem_erase_iff.mp hc
    rcases h.fresh c hc with hstep | ⟨j, hj, hlt, hin⟩
    · simp only [List.mem_cons, OrderStep.place.injEq, hne, false_or] at hstep
      exact Or.inl (by simp [hstep])
    · by_cases hjc : j = cls
      · rw [hjc] at hin
        exact Or.inl (by simp [hin])
      · exact Or.inr ⟨j, (List.mem_erase_of_ne hjc).mpr hj, hlt, hin⟩
  account := by
    rw [Arrangement.outstanding_place]
    exact List.perm_middle.trans (((List.perm_cons_erase hcls).symm.append_right _).trans h.account)
  waiting := h.waiting
  perm := h.perm
  basesFirst := h.basesFirst

theorem skip_place (h : p.Arranged o (.place cls :: steps)) (hcls : cls ∉ o.fresh) :
    p.Arranged o steps where
  fresh := by
    intro c hc
    refine (h.fresh c hc).imp_left fun hstep => ?_
    rcases List.mem_cons.mp hstep with heq | hstep
    · cases heq
      exact absurd hc hcls
    · exact hstep
  account := h.account
  waiting := h.waiting
  perm := h.perm
  basesFirst := h.basesFirst

theorem settle (h : p.Arranged o (.settle cls :: steps)) :
    p.Arranged o ((p.bases cls).map .place ++ .conclude cls :: steps) where
  fresh := by
    intro c hc
    refine (h.fresh c hc).imp_left fun hstep => ?_
    simp only [List.mem_cons, reduceCtorEq, false_or] at hstep
    simp [hstep]
  account := by
    rw [o.outstanding_settle]
    exact h.account
  waiting := h.waiting
  perm := h.perm
  basesFirst := h.basesFirst

theorem wait (h : p.Arranged o (.conclude cls :: steps)) {base : Nat} (hbase : base ∈ p.bases cls)
    (hundefined : base ∈ o.undefined) : p.Arranged (o.wait cls base) steps := by
  have hinsert : (o.wait cls base).undefined = o.undefined := List.insert_of_mem h.mem_undefined
  exact
    { fresh := fun c hc => by simpa [Arrangement.wait] using h.fresh c hc
      account := by
        rw [hinsert]
        exact ((o.outstanding_wait cls base steps).append_left _).trans h.account
      waiting := fun w hw => by
        rw [hinsert]
        rcases List.mem_append.mp hw with hw | hw
        · exact h.waiting w hw
        · rw [List.mem_singleton.mp hw]
          exact ⟨hbase, hundefined⟩
      perm := by
        rw [hinsert]
        exact h.perm
      basesFirst := h.basesFirst }

/-- A class is defined behind its bases, and the classes that waited for it will be settled. -/
theorem define (h : p.Arranged o (.conclude cls :: steps)) (hrange : ∀ b ∈ p.bases cls, b < p.size)
    (hbases : ∀ b ∈ p.bases cls, b ∉ o.undefined) :
    p.Arranged (o.define cls) ((o.waitingFor cls).map .settle ++ steps) where
  fresh := by
    intro c hc
    refine (h.fresh c hc).imp_left fun hstep => ?_
    simp only [List.mem_cons, reduceCtorEq, false_or] at hstep
    simp [hstep]
  account := by
    refine List.Perm.cons_inv (List.Perm.trans ?_ (List.perm_cons_erase h.mem_undefined))
    exact List.perm_middle.symm.trans
      (((o.outstanding_define cls steps).append_left _).trans h.account)
  waiting := by
    intro w hw
    obtain ⟨hw, hne⟩ := List.mem_filter.mp hw
    obtain ⟨hbase, hundefined⟩ := h.waiting w hw
    exact ⟨hbase, (List.mem_erase_of_ne (by simpa using hne)).mpr hundefined⟩
  perm := by
    refine List.Perm.trans ?_ h.perm
    simp only [Arrangement.define, List.append_assoc, List.singleton_append]
    exact (List.perm_cons_erase h.mem_undefined).symm.append_left _
  basesFirst := by
    refine basesFirst_append h.basesFirst fun b hb => ?_
    have := h.perm.mem_iff.mpr (List.mem_range.mpr (hrange b hb))
    exact (List.mem_append.mp this).resolve_right (hbases b hb)

/-- **The arrangement** keeps the account to the last step. -/
theorem arrange (hrange : ∀ c, ∀ b ∈ p.bases c, b < p.size) (h : p.Arranged o steps) :
    p.Arranged (p.arrange o steps) [] := by
  induction o, steps using arrange.induct p with
  | case1 o =>
    rw [Plan.arrange]
    exact h
  | case2 o cls steps hcls ih =>
    rw [Plan.arrange, dif_pos hcls]
    exact ih (h.place hcls)
  | case3 o cls steps hcls ih =>
    rw [Plan.arrange, dif_neg hcls]
    exact ih (h.skip_place hcls)
  | case4 o cls steps ih =>
    rw [Plan.arrange]
    exact ih h.settle
  | case5 o cls steps base hbase ih =>
    rw [Plan.arrange, hbase]
    refine ih (h.wait (List.mem_of_find?_eq_some hbase) ?_)
    simpa using List.find?_some hbase
  | case6 o cls steps hnone ih =>
    rw [Plan.arrange, hnone]
    refine ih (h.define (hrange cls) fun b hb => ?_)
    simpa using List.find?_eq_none.mp hnone b hb

/-- At the end every class has been taken up: the first that had not would be inside of an earlier
one. -/
theorem fresh_eq_nil (h : p.Arranged o []) : o.fresh = [] := by
  have hnot : ∀ c, c ∉ o.fresh := by
    intro c
    induction c using Nat.strongRecOn with
    | ind c ih =>
      intro hc
      rcases h.fresh c hc with hstep | ⟨j, hj, hlt, -⟩
      · cases hstep
      · exact ih j hlt hj
  exact List.eq_nil_iff_forall_not_mem.mpr hnot

/-- At the end every class is defined: one that is not would wait for another, and so on forever. -/
theorem undefined_eq_nil (h : p.Arranged o []) (hacc : ∀ c, c < p.size → Acc p.IsBase c) :
    o.undefined = [] := by
  have hnot : ∀ c, Acc p.IsBase c → c ∉ o.undefined := by
    intro c hc
    induction hc with
    | intro c _ ih =>
      intro hu
      have hwaits := h.account.mem_iff.mpr hu
      rw [h.fresh_eq_nil] at hwaits
      obtain ⟨w, hw, rfl⟩ := List.mem_map.mp hwaits
      obtain ⟨hbase, hundefined⟩ := h.waiting w hw
      exact ih w.1 hbase hundefined
  refine List.eq_nil_iff_forall_not_mem.mpr fun c hc => hnot c (hacc c ?_) hc
  exact List.mem_range.mp (h.perm.mem_iff.mp (List.mem_append_right _ hc))

end Arranged

/-! ### The order -/

theorem arranged_tops (hparents : ∀ i j, p.parent? i = some j → j < i) :
    p.Arranged { fresh := List.range p.size, undefined := List.range p.size }
    (p.tops.map .place) where
  fresh := by
    intro c hc
    have hlt := List.mem_range.mp hc
    cases hparent : p.parent? c with
    | none => exact Or.inl (List.mem_map_of_mem (mem_tops.mpr ⟨hlt, hparent⟩))
    | some j =>
      have hj := hparents c j hparent
      exact Or.inr ⟨j, List.mem_range.mpr (Nat.lt_trans hj hlt), hj, mem_inner.mpr hparent⟩
  account := by
    have houtstanding :=
      Arrangement.outstanding_place { fresh := List.range p.size, undefined := [] } p.tops []
    rw [List.append_nil] at houtstanding
    exact List.Perm.of_eq (houtstanding ▸ List.append_nil _)
  waiting := by
    intro w hw
    cases hw
  perm := List.Perm.refl _
  basesFirst := fun front cls back h => by simp at h

theorem BasesFirst.idxOf_lt {order : List Nat} (h : p.BasesFirst order) {cls base : Nat}
    (hcls : cls ∈ order) (hbase : base ∈ p.bases cls) : order.idxOf base < order.idxOf cls := by
  obtain ⟨front, back, rfl, hfront⟩ := List.eq_append_cons_of_mem hcls
  have hmem := h front cls back rfl base hbase
  rw [List.idxOf_append_of_mem hmem, List.idxOf_append_of_notMem hfront]
  have := List.idxOf_lt_length_iff.mpr hmem
  omega

/-- **The order of definition**. When the bases of the classes of a file are filled in and no class
is derived from itself, the classes can be put in order: each of them is listed once, behind all its
bases. -/
theorem order_defines_bases_first {known : List Text} {f : File}
    (hbases : resolveBases (isExternal known f.imports) { classes := f.classes } = .ok p)
    (hcycles : p.checkCycles = .ok ()) :
    ∃ q, p.order = .ok q ∧ q.classes = p.classes ∧ q.emission.Perm (List.range f.classes.length) ∧
      ∀ cls, ∀ base ∈ q.bases cls, q.emission.idxOf base < q.emission.idxOf cls := by
  have hext := extends_of_resolveBases f.nested_classes hbases
  have hrange : ∀ c, ∀ b ∈ p.bases c, b < p.size := fun c b hb => (hext.lt_size_of_mem_bases hb).2
  have hparents : ∀ i j, p.parent? i = some j → j < i := by
    intro i j hij
    rw [hext.parent?_eq] at hij
    obtain ⟨c, hc, hj⟩ := Option.bind_eq_some_iff.mp hij
    have := (f.nested_classes i c hc).2 j hj
    omega
  have harranged : p.Arranged p.arrangement [] := (arranged_tops hparents).arrange hrange
  have hundefined := harranged.undefined_eq_nil (acc_of_checkCycles hrange hcycles)
  have hperm := harranged.perm
  rw [hundefined, List.append_nil] at hperm
  refine ⟨{ p with emission := p.arrangement.defined }, by simp [order, hundefined], rfl, ?_, ?_⟩
  · rwa [hext.size_eq] at hperm
  · intro cls base hbase
    have hcls := hperm.mem_iff.mpr (List.mem_range.mpr (hext.lt_size_of_mem_bases hbase).1)
    exact harranged.basesFirst.idxOf_lt hcls hbase

/-- A class inside its own base, which is in turn derived from a class declared later. -/
def innerOfBase : File where
  types := [
    ⟨{ name := lit "A", extending := [{ name := lit "B" }] },
      [.nested { name := lit "C", extending := [{ name := lit "A" }] } []]⟩,
    ⟨{ name := lit "B" }, []⟩]

/-- The inner class waits for the class around it, and that one for the last. -/
theorem order_defines_bases_first_inner :
    ∃ p q, resolveBases (isExternal [] innerOfBase.imports) { classes := innerOfBase.classes } =
      .ok p ∧
      p.checkCycles = .ok () ∧ p.order = .ok q ∧ q.emission.Perm (List.range 3) ∧
      (q.bases 0 = [2] ∧ q.bases 1 = [0]) ∧
      ∀ cls, ∀ base ∈ q.bases cls, q.emission.idxOf base < q.emission.idxOf cls := by
  have hfound : (resolveBases (isExternal [] innerOfBase.imports)
      { classes := innerOfBase.classes } >>= fun p =>
        pure (p.size, p.bases 0, p.bases 1, p.bases 2)) = .ok (3, [2], [0], []) := by decide +kernel
  obtain ⟨p, hbases, hp⟩ := Except.bind_eq_ok.mp hfound
  simp only [pure, Except.pure, Except.ok.injEq, Prod.mk.injEq] at hp
  obtain ⟨hsize, h0, h1, h2⟩ := hp
  have hcycles : p.checkCycles = .ok () := by
    simp [checkCycles, cyclicEdge?, hsize, List.range_succ, findCycle, h0, h1, h2]
  obtain ⟨q, horder, hclasses, hperm, hfirst⟩ := order_defines_bases_first hbases hcycles
  refine ⟨p, q, hbases, hcycles, horder, hperm, ?_, hfirst⟩
  simp only [bases, class?, hclasses] at h0 h1 ⊢
  exact ⟨h0, h1⟩

end Unnest.Plan
