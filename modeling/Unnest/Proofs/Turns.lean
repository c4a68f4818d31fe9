import Unnest.Proofs.BaseLookup

/-!
# Classes in another order of their turns

The bases of the classes are looked up class by class. What is found for a class depends on the
bases that are known by then, so the classes could take their turns in another order as well, as
long as it leaves no class before another one whose bases it reads, nor behind one that it used to
precede.

* `Plan.turn`, `Plan.resolveBases_eq`: the bases of one class, and of all classes in their turns;
* `Plan.reads`: which classes are read for which classes.
-/

namespace Unnest.Plan

variable {external : Text → Bool} {p q s t : Plan} {i k : Nat} {c : ClassInfo} {r : TypeRef}
  {refs : List TypeRef}

/-! ### Turns -/

/-- Looks up the bases of one class of `p` and notes them in `s`. -/
def turn (external : Text → Bool) (p s : Plan) (i : Nat) : Except SourceError Plan :=
  match p.class? i with
  | none => .ok s
  | some c => c.baseRefs.foldlM (resolveBase external i c) s

theorem foldlM_zipIdx {ε α σ : Type} (f : σ → α × Nat → Except ε σ) (l : List α) (s : σ) :
    l.zipIdx.foldlM f s = (List.range l.length).foldlM
      (fun s i => l[i]?.elim (.ok s) fun a => f s (a, i)) s := by
  have hmap : l.zipIdx.map some = (List.range l.length).map fun i => l[i]?.map (·, i) := by
    refine List.ext_getElem (by simp) fun i hi hi' => ?_
    simp at hi
    simp [hi]
  calc l.zipIdx.foldlM f s = (l.zipIdx.map some).foldlM (fun s a => a.elim (.ok s) (f s)) s := by
        rw [List.foldlM_map]
        rfl
    _ = _ := by
        rw [hmap, List.foldlM_map]
        congr 1
        funext s i
        cases l[i]? <;> rfl

theorem resolveBases_eq (external : Text → Bool) (p : Plan) :
    p.resolveBases external = (List.range p.size).foldlM (p.turn external) p := by
  rw [resolveBases, foldlM_zipIdx]
  congr 1
  funext s i
  unfold turn class?
  cases p.classes[i]? <;> rfl

/-! ### What is read for a class -/

/-- For each class the classes whose bases are read while its own bases are looked up. -/
def reads (external : Text → Bool) (p : Plan) : List (Nat × Nat) :=
  p.classes.zipIdx.flatMap fun (c, i) => c.baseRefs.zipIdx.flatMap fun (r, j) =>
    match p.soFar external i c (c.baseRefs.take j) with
    | .ok u => (u.consulted r.name c.parent).map (i, ·)
    | .error _ => []

theorem mem_reads {u : Plan} {j : Nat} (hc : p.classes[i]? = some c) (hr : c.baseRefs[j]? = some r)
    (hu : p.soFar external i c (c.baseRefs.take j) = .ok u) (hk : k ∈ u.consulted r.name c.parent) :
    (i, k) ∈ p.reads external := by
  refine List.mem_flatMap.mpr ⟨(c, i), List.mk_mem_zipIdx_iff_getElem?.mpr hc, ?_⟩
  refine List.mem_flatMap.mpr ⟨(r, j), List.mk_mem_zipIdx_iff_getElem?.mpr hr, ?_⟩
  simp only [hu]
  exact List.mem_map_of_mem hk

theorem lt_size_of_mem_reads (h : (i, k) ∈ p.reads external) : i < p.size := by
  obtain ⟨⟨c, j⟩, hc, h⟩ := List.mem_flatMap.mp h
  obtain ⟨⟨r, l⟩, -, h⟩ := List.mem_flatMap.mp h
  have hj := lt_size_of_getElem? (List.mk_mem_zipIdx_iff_getElem?.mp hc)
  dsimp only at h
  split at h
  · obtain ⟨k', -, heq⟩ := List.mem_map.mp h
    cases heq
    exact hj
  · cases h

/-! ### The account of one turn -/

theorem bases_eq_nil (hp : Nested 0 p.classes) (k : Nat) : p.bases k = [] := by
  unfold bases class?
  cases hk : p.classes[k]? with
  | none => rfl
  | some c => exact (hp k c hk).1

section Account

variable (hp : Nested 0 p.classes) (hc : p.classes[i]? = some c)

include hp hc

theorem exists_account_of_foldlM (hs : Extends p s)
    (h : refs.foldlM (resolveBase external i c) s = .ok t) :
    ∃ found : List (Option Nat), found.length = refs.length ∧
      (∀ k, t.bases k = s.bases k ++ if k = i then found.reduceOption else []) ∧
      ∀ j r, refs[j]? = some r → ∃ u v, (refs.take j).foldlM (resolveBase external i c) s = .ok u ∧
        resolveBase external i c u r = .ok v ∧ Extends p u ∧
        found[j]? = some (u.resolve r.name c.parent) ∧
        ∀ k, u.bases k = s.bases k ++ if k = i then (found.take j).reduceOption else [] := by
  induction refs generalizing s with
  | nil =>
    cases h
    exact ⟨[], rfl, by simp, by simp⟩
  | cons r refs ih =>
    rw [List.foldlM_cons] at h
    obtain ⟨u, hu, h⟩ := Except.bind_eq_ok.mp h
    obtain ⟨found, hlength, hbases, hfound⟩ := ih (extends_of_resolveBase hp hc hs hu) h
    have hfirst := bases_of_resolveBase (lt_size_of_extends hc hs) hu
    -- the bases noted for the first reference, and those behind them
    have hcons : ∀ (k : Nat) (rest : List (Option Nat)), u.bases k ++
        (if k = i then rest.reduceOption else []) =
        s.bases k ++ if k = i then (s.resolve r.name c.parent :: rest).reduceOption else [] := by
      intro k rest
      rw [hfirst k, List.append_assoc]
      split
      · cases s.resolve r.name c.parent <;> simp
      · rfl
    refine ⟨s.resolve r.name c.parent :: found, congrArg (· + 1) hlength,
      fun k => ?_, fun j r' hr' => ?_⟩
    · rw [hbases k, hcons]
    · cases j with
      | zero =>
        cases hr'
        exact ⟨s, u, rfl, hu, hs, rfl, by simp⟩
      | succ j =>
        obtain ⟨v, v', hv, hstep, hext, hj, hbasesj⟩ := hfound j r' hr'
        refine ⟨v, v', ?_, hstep, hext, hj, fun k => ?_⟩
        · rw [List.take_succ_cons, List.foldlM_cons, hu]
          exact hv
        · rw [hbasesj k, List.take_succ_cons, hcons]

theorem exists_account (h : p.resolveBases external = .ok q) :
    ∃ found : List (Option Nat), found.length = c.baseRefs.length ∧ q.bases i = found.reduceOption ∧
      ∀ j r, c.baseRefs[j]? = some r → ∃ u v, p.soFar external i c (c.baseRefs.take j) = .ok u ∧
        resolveBase external i c u r = .ok v ∧ Extends p u ∧
        found[j]? = some (u.resolve r.name c.parent) ∧
        ∀ k, u.bases k =
          (if k < i then q.bases k else []) ++ if k = i then (found.take j).reduceOption
          else [] := by
  obtain ⟨s, t, hs, ht, hext, hbefore, hbehind⟩ := exists_turn hp h hc
  obtain ⟨found, hlength, hbases, hfound⟩ := exists_account_of_foldlM hp hc hext ht
  have hsbases : ∀ k, s.bases k = if k < i then q.bases k else [] := by
    intro k
    split
    · next hk =>
      rw [← hbehind.bases_eq k (by omega), hbases k, if_neg (by omega), List.append_nil]
    · next hk => rw [← hbefore.bases_eq k hk, bases_eq_nil hp]
  refine ⟨found, hlength, ?_, fun j r hr => ?_⟩
  · rw [← hbehind.bases_eq i (Nat.lt_irrefl i), hbases i, hsbases i, if_neg (Nat.lt_irrefl i),
      if_pos rfl, List.nil_append]
  · obtain ⟨u, v, hu, hv, hextu, hj, hbasesu⟩ := hfound j r hr
    refine ⟨u, v, Except.bind_eq_ok.mpr ⟨s, hs, hu⟩, hv, hextu, hj, fun k => ?_⟩
    rw [hbasesu k, hsbases k]

end Account

/-! ### Another order -/

theorem exists_resolveBase {u v : Plan}
    (hresolve : s.resolve r.name c.parent = u.resolve r.name c.parent)
    (hv : resolveBase external i c u r = .ok v) : ∃ t, resolveBase external i c s r = .ok t := by
  unfold resolveBase at hv ⊢
  rw [hresolve]
  split at hv
  · split_ifs at hv with hbase
    rw [if_neg hbase]
    exact ⟨_, rfl⟩
  · split_ifs at hv with hexternal
    rw [if_pos hexternal]
    exact ⟨_, rfl⟩

theorem classes_eq_of_extends (hs : Extends p s) (hq : Extends p q)
    (h : ∀ k < p.size, s.bases k = q.bases k) :
    s.classes = q.classes := by
  have hsame := hs.same.trans hq.same.symm
  refine List.ext_getElem? fun k => ?_
  have hk := congrArg (·[k]?) hsame
  simp only [List.getElem?_map] at hk
  cases hc : s.classes[k]? with
  | none =>
    rw [hc, Option.map_none, eq_comm, Option.map_eq_none_iff] at hk
    exact hk.symm
  | some c =>
    rw [hc, Option.map_some, eq_comm, Option.map_eq_some_iff] at hk
    obtain ⟨c', hc', heq⟩ := hk
    have hlt : k < p.size := by
      rw [← hs.size_eq]
      exact lt_size_of_getElem? hc
    have hbases := h k hlt
    simp only [bases, class?, hc, hc', Option.elim_some] at hbases
    rw [hc']
    cases c
    cases c'
    simp_all

/-- The plan `s` has the bases that the classes `done` have in `q`, and no others. -/
structure Partway (p q s : Plan) (done : List Nat) : Prop where
  ext : Extends p s
  bases_eq : ∀ k, s.bases k = if k ∈ done then q.bases k else []

theorem idxOf_lt_idxOf_iff {done rest : List Nat} (hi : i ∉ done) :
    (done ++ i :: rest).idxOf k < (done ++ i :: rest).idxOf i ↔ k ∈ done := by
  rw [List.idxOf_append_of_notMem hi, List.idxOf_cons_self, Nat.add_zero]
  by_cases hk : k ∈ done
  · simp [List.idxOf_append_of_mem hk, List.idxOf_lt_length_iff, hk]
  · simp [List.idxOf_append_of_notMem hk, hk]

section Turns

variable (hp : Nested 0 p.classes) (h : p.resolveBases external = .ok q) {done : List Nat}

include hp h

/-- A class finds the same bases in another turn, if the classes that are read for it and have bases
are the ones declared before it. -/
theorem Partway.turn (hs : Partway p q s done) (hc : p.classes[i]? = some c) (hi : i ∉ done)
    (hreads : ∀ k, (i, k) ∈ p.reads external → q.bases k = [] ∨ (k ∈ done ↔ k < i)) :
    ∃ t, p.turn external s i = .ok t ∧ Partway p q t (done ++ [i]) := by
  obtain ⟨found, hlength, hbases, hfound⟩ := exists_account hp hc h
  -- by induction on the references that have been looked up
  have hrefs : ∀ j ≤ c.baseRefs.length,
      ∃ t, (c.baseRefs.take j).foldlM (resolveBase external i c) s = .ok t ∧
      Extends p t ∧ ∀ k, t.bases k =
        (if k ∈ done then q.bases k else []) ++ if k = i then (found.take j).reduceOption
        else [] := by
    intro j
    induction j with
    | zero => exact fun _ => ⟨s, rfl, hs.ext, by simpa using hs.bases_eq⟩
    | succ j ih =>
      intro hj
      obtain ⟨t, ht, hext, htbases⟩ := ih (by omega)
      obtain ⟨r, hr⟩ : ∃ r, c.baseRefs[j]? = some r := ⟨_, List.getElem?_eq_getElem hj⟩
      obtain ⟨u, v, hu, hv, hextu, hjfound, hubases⟩ := hfound j r hr
      have hresolve : t.resolve r.name c.parent = u.resolve r.name c.parent := by
        refine resolve_eq_of_consulted ?_ fun k hk => ?_
        · rw [withoutBases_of_extends hext, withoutBases_of_extends hextu]
        · rw [htbases k, hubases k]
          rcases hreads k (mem_reads hc hr hu hk) with hnone | hiff
          · simp [hnone]
          · simp only [hiff]
      obtain ⟨t', ht'⟩ := exists_resolveBase hresolve hv
      refine ⟨t', ?_, extends_of_resolveBase hp hc hext ht', fun k => ?_⟩
      · rw [List.take_add_one, hr, Option.toList_some, List.foldlM_append]
        exact Except.bind_eq_ok.mpr ⟨t, ht, by simpa using ht'⟩
      · have hlast : (found.take (j + 1)).reduceOption =
            (found.take j).reduceOption ++ (u.resolve r.name c.parent).toList := by
          rw [List.take_add_one, hjfound]
          cases u.resolve r.name c.parent <;> simp [List.reduceOption]
        rw [bases_of_resolveBase (lt_size_of_extends hc hext) ht' k, htbases k, hresolve, hlast]
        by_cases hk : k = i <;> simp [hk]
  obtain ⟨t, ht, hext, htbases⟩ := hrefs _ le_rfl
  rw [List.take_length] at ht
  refine ⟨t, ?_, hext, fun k => ?_⟩
  · rw [Plan.turn, class?, hc]
    exact ht
  · rw [htbases k, List.take_of_length_le hlength.le]
    by_cases hk : k = i
    · subst hk
      simp [hi, hbases]
    · simp [hk]

/-- **Another order of the turns** gives the same bases, if it leaves every class before, or behind,
the classes with bases that are read for it. -/
theorem exists_turns {order : List Nat} (hperm : order.Perm (List.range p.size))
    (hreads : ∀ i k, (i, k) ∈ p.reads external → q.bases k = [] ∨
      (order.idxOf k < order.idxOf i ↔ k < i)) :
    ∃ s, order.foldlM (p.turn external) p = .ok s ∧ s.classes = q.classes := by
  have hnodup : order.Nodup := hperm.nodup_iff.mpr List.nodup_range
  have hrun : ∀ (rest done : List Nat) (s : Plan), order = done ++ rest → Partway p q s done →
      ∃ t, rest.foldlM (p.turn external) s = .ok t ∧ Partway p q t order := by
    intro rest
    induction rest with
    | nil =>
      rintro done s rfl hs
      exact ⟨s, rfl, by rwa [List.append_nil]⟩
    | cons i rest ih =>
      intro done s horder hs
      rw [horder] at hnodup hreads hperm
      have hi : i ∉ done := fun hi => (List.nodup_append.mp hnodup).2.2 i hi i (by simp) rfl
      have hlt : i < p.classes.length := List.mem_range.mp (hperm.mem_iff.mp (by simp))
      obtain ⟨t, ht, hpart⟩ := hs.turn hp h (List.getElem?_eq_getElem hlt) hi fun k hk => by
        rw [← idxOf_lt_idxOf_iff hi]
        exact hreads i k hk
      obtain ⟨t', ht', hpart'⟩ := ih (done ++ [i]) t (by rw [horder, List.append_assoc]; rfl) hpart
      exact ⟨t', by rw [List.foldlM_cons]; exact Except.bind_eq_ok.mpr ⟨t, ht, ht'⟩, hpart'⟩
  obtain ⟨s, hs, hpart⟩ := hrun order [] p rfl ⟨extends_self hp, by simpa using bases_eq_nil hp⟩
  refine ⟨s, hs, classes_eq_of_extends hpart.ext (extends_of_resolveBases hp h) fun k hk => ?_⟩
  rw [hpart.bases_eq k, if_pos (hperm.mem_iff.mpr (List.mem_range.mpr hk))]

end Turns

/-! ### Cycles -/

theorem Searching.exists_path {path : List Nat} {steps : List SearchStep} {cls base : Nat}
    (h : Searching p none path (.follow cls base :: steps)) : ∃ rest, path = cls :: rest := by
  generalize hsteps : SearchStep.follow cls base :: steps = all at h
  cases h with
  | starts classes => cases classes <;> cases hsteps
  | visit todo _ _ _ =>
    cases todo with
    | nil => cases hsteps
    | cons b todo =>
      cases hsteps
      exact ⟨_, rfl⟩

theorem not_transGen_self (h : Acc p.IsBase i) : ¬ Relation.TransGen p.IsBase i i := by
  have htrans := h.transGen
  clear h
  induction htrans with
  | intro i _ ih => exact fun hi => ih i hi hi

theorem reflTransGen_of_mem_path {cls base : Nat} {rest : List Nat}
    (hchain : (cls :: rest).IsChain p.IsBase) (hmem : base ∈ cls :: rest) :
    Relation.ReflTransGen p.IsBase cls base := by
  rcases List.mem_cons.mp hmem with rfl | hmem
  · exact .refl
  · have htrans : (cls :: rest).IsChain (Relation.TransGen p.IsBase) :=
      hchain.imp fun _ _ => .single
    exact ((List.pairwise_cons.mp (List.isChain_iff_pairwise.mp htrans)).1 base
      hmem).to_reflTransGen

theorem notMem_path {cls base : Nat} {rest : List Nat} (hchain : (cls :: rest).IsChain p.IsBase)
    (hbase : p.IsBase base cls) (hacc : Acc p.IsBase base) : base ∉ cls :: rest := by
  intro hmem
  exact not_transGen_self hacc (.head' hbase (reflTransGen_of_mem_path hchain hmem))

theorem findCycle_eq_none (hrange : ∀ c, ∀ b ∈ p.bases c, b < p.size)
    (hacc : ∀ c, c < p.size → Acc p.IsBase c) {fresh path : List Nat} {steps : List SearchStep}
    (hsearch : p.Searching none path steps) (hchain : path.IsChain p.IsBase) :
    p.findCycle fresh path steps = none := by
  induction fresh, path, steps using findCycle.induct p with
  | case1 fresh path => rw [findCycle]
  | case2 fresh path steps ih =>
    obtain ⟨cls, path', rfl, -, hsearch'⟩ := hsearch.leave
    rw [findCycle]
    exact ih hsearch' hchain.tail
  | case3 fresh path cls steps hcls ih =>
    obtain ⟨rfl, hsearch'⟩ := hsearch.start
    rw [findCycle, dif_pos hcls]
    exact ih (.visit _ (List.Subset.refl _) (fun b hb => Or.inr (Or.inl hb)) (hsearch' _))
      (.singleton cls)
  | case4 fresh path cls steps hcls ih =>
    obtain ⟨rfl, hsearch'⟩ := hsearch.start
    rw [findCycle, dif_neg hcls]
    exact ih (hsearch' _) hchain
  | case5 fresh path cls base steps hpath =>
    obtain ⟨rest, rfl⟩ := hsearch.exists_path
    have hbase := hsearch.enter.1
    exact absurd hpath (notMem_path hchain hbase (hacc base (hrange cls base hbase)))
  | case6 fresh path cls base steps hpath hbase ih =>
    obtain ⟨rest, rfl⟩ := hsearch.exists_path
    obtain ⟨hmem, hsearch'⟩ := hsearch.enter
    rw [findCycle, if_neg hpath, dif_pos hbase]
    exact ih (.visit _ (List.Subset.refl _) (fun b hb => Or.inr (Or.inl hb)) hsearch')
      (hchain.cons_cons hmem)
  | case7 fresh path cls base steps hpath hbase ih =>
    obtain ⟨hmem, hsearch'⟩ := hsearch.enter
    rw [findCycle, if_neg hpath, dif_neg hbase]
    exact ih (hsearch'.of_acc (hacc base (hrange cls base hmem))) hchain

theorem checkCycles_of_acc (hrange : ∀ c, ∀ b ∈ p.bases c, b < p.size)
    (hacc : ∀ c, c < p.size → Acc p.IsBase c) : p.checkCycles = .ok () := by
  have hnone : p.cyclicEdge? = none := findCycle_eq_none hrange hacc (.starts _) .nil
  rw [checkCycles, hnone]

/-- A file has a plan exactly if the bases of its classes are found and no class is derived from
itself. -/
theorem ofFile_eq_ok_iff {known : List Text} {f : File} : ofFile known f = .ok q ↔
    ∃ p, resolveBases (isExternal known f.imports) { classes := f.classes } = .ok p ∧
      (∀ c, c < p.size → Acc p.IsBase c) ∧ q = { p with emission := p.arrangement.defined } := by
  have hrange : ∀ p, resolveBases (isExternal known f.imports) { classes := f.classes } = .ok p →
      ∀ c, ∀ b ∈ p.bases c, b < p.size := fun p hp c b hb =>
    ((extends_of_resolveBases f.nested_classes hp).lt_size_of_mem_bases hb).2
  constructor
  · intro h
    obtain ⟨p, hp, hq, -⟩ := exists_of_ofFile h
    obtain ⟨p', hp', h⟩ := Except.bind_eq_ok.mp h
    obtain rfl : p = p' := Except.ok.inj (hp.symm.trans hp')
    obtain ⟨_, hcycles, -⟩ := Except.bind_eq_ok.mp h
    exact ⟨p, hp, acc_of_checkCycles (hrange p hp) hcycles, hq⟩
  · rintro ⟨p, hp, hacc, rfl⟩
    have hcycles := checkCycles_of_acc (hrange p hp) hacc
    have horder : p.order = .ok { p with emission := p.arrangement.defined } := by
      rw [order, (arranged_of_resolveBases hp).undefined_eq_nil hacc]
    exact Except.bind_eq_ok.mpr ⟨p, hp, Except.bind_eq_ok.mpr ⟨(), hcycles, horder⟩⟩

end Unnest.Plan
