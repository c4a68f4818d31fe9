import Unnest.Proofs.Turns
import Unnest.Grammar.File
import Mathlib

/-!
# Classes derived from themselves

The search for a cycle follows the bases of each class until it comes to a class that it has left
before, or to one that it is still visiting. In the second case the class that it stands at and the
base that it looks at lie on one cycle: the classes being visited lead from the class back to the
base. In the first case nothing is lost, since no cycle leads through a class that was left
(`Plan.acc_of_findCycle`).

* `Plan.Above`: the bases of a class, and the bases of these;
* `Plan.checkCycles_reports_cycle`: when a plan is refused, and for which class.
-/

namespace Unnest.Plan

variable {p : Plan}

/-- The class `base` is above the class `cls`: a base of it, directly or through other classes. -/
def Above (p : Plan) : (base cls : Nat) → Prop := Relation.TransGen p.IsBase

/-- **An edge that the search finds** is part of a cycle: the class is above its own base. -/
theorem cycle_of_findCycle (hrange : ∀ c, ∀ b ∈ p.bases c, b < p.size) {fresh path : List Nat}
    {steps : List SearchStep} (hsearch : p.Searching none path steps)
    (hseen : ∀ c, c < p.size → c ∈ fresh ∨ c ∈ path ∨ Acc p.IsBase c)
    (hchain : path.IsChain p.IsBase) {cls base : Nat}
    (h : p.findCycle fresh path steps = some (cls, base)) :
    p.IsBase base cls ∧ p.Above cls base := by
  induction fresh, path, steps using findCycle.induct p with
  | case1 fresh path =>
    rw [findCycle] at h
    cases h
  | case2 fresh path steps ih =>
    rw [findCycle] at h
    obtain ⟨last, path', rfl, hacc, hsearch'⟩ := hsearch.leave
    refine ih hsearch' (fun c hc => ?_) hchain.tail h
    rcases hseen c hc with hc | hc | hc
    · exact Or.inl hc
    · rcases List.mem_cons.mp hc with rfl | hc
      · exact Or.inr (Or.inr hacc)
      · exact Or.inr (Or.inl hc)
    · exact Or.inr (Or.inr hc)
  | case3 fresh path first steps hfirst ih =>
    rw [findCycle, dif_pos hfirst] at h
    obtain ⟨rfl, hsearch'⟩ := hsearch.start
    exact ih (.visit _ (List.Subset.refl _) (fun b hb => Or.inr (Or.inl hb)) (hsearch' _))
      (seen_cons hseen first)
      (.singleton first) h
  | case4 fresh path first steps hfirst ih =>
    rw [findCycle, dif_neg hfirst] at h
    obtain ⟨rfl, hsearch'⟩ := hsearch.start
    exact ih (hsearch' _) hseen hchain h
  | case5 fresh path last next steps hpath =>
    -- the path leads from the class back to the base, or it is the class itself
    rw [findCycle, if_pos hpath] at h
    obtain ⟨rest, rfl⟩ := hsearch.exists_path
    cases h
    have hbase := hsearch.enter.1
    refine ⟨hbase, ?_⟩
    rcases Relation.reflTransGen_iff_eq_or_transGen.mp (reflTransGen_of_mem_path hchain hpath)
      with rfl | habove
    · exact .single hbase
    · exact habove
  | case6 fresh path last next steps hpath hnext ih =>
    rw [findCycle, if_neg hpath, dif_pos hnext] at h
    obtain ⟨rest, rfl⟩ := hsearch.exists_path
    obtain ⟨hmem, hsearch'⟩ := hsearch.enter
    exact ih (.visit _ (List.Subset.refl _) (fun b hb => Or.inr (Or.inl hb)) hsearch')
      (seen_cons hseen next)
      (hchain.cons_cons hmem) h
  | case7 fresh path last next steps hpath hnext ih =>
    rw [findCycle, if_neg hpath, dif_neg hnext] at h
    obtain ⟨hmem, hsearch'⟩ := hsearch.enter
    have hacc := ((hseen next (hrange last next hmem)).resolve_left hnext).resolve_left hpath
    exact ih (hsearch'.of_acc hacc) hseen hchain h

theorem cycle_of_cyclicEdge? (hrange : ∀ c, ∀ b ∈ p.bases c, b < p.size) {cls base : Nat}
    (h : p.cyclicEdge? = some (cls, base)) : p.IsBase base cls ∧ p.Above cls base :=
  cycle_of_findCycle hrange (.starts (List.range p.size))
    (fun _ hc => Or.inl (List.mem_range.mpr hc)) .nil h

theorem exists_class_of_isBase {cls base : Nat} (h : p.IsBase base cls) :
    ∃ c, p.class? cls = some c := by
  unfold IsBase bases at h
  cases hc : p.class? cls with
  | none => simp [hc] at h
  | some c => exact ⟨c, rfl⟩

theorem not_above_self (hacc : ∀ c, c < p.size → Acc p.IsBase c) (i : Nat) : ¬ p.Above i i := by
  intro habove
  obtain ⟨base, -, hbase⟩ := Relation.TransGen.tail'_iff.mp habove
  obtain ⟨c, hc⟩ := exists_class_of_isBase hbase
  exact not_transGen_self (hacc i (lt_size_of_getElem? hc)) habove

theorem lt_size_of_ofFile {known : List Text} {f : File} {q : Plan} (h : ofFile known f = .ok q)
    {cls base : Nat} (hbase : q.IsBase base cls) : base < q.size := by
  obtain ⟨p, hp, -, rfl⟩ := ofFile_eq_ok_iff.mp h
  exact ((extends_of_resolveBases f.nested_classes hp).lt_size_of_mem_bases hbase).2

theorem not_above_self_of_ofFile {known : List Text} {f : File} {q : Plan}
    (h : ofFile known f = .ok q) (i : Nat) :
    ¬ q.Above i i := by
  obtain ⟨p, -, hacc, rfl⟩ := ofFile_eq_ok_iff.mp h
  exact not_above_self (p := p) hacc i

/-- **Cycles**. When the bases of the classes of a file are known, they are refused exactly if some
class is above itself. The error stands at a class that is above itself and names a base of this
class that has the class above it, so that both lie on one cycle; and there is no other reason to
refuse the file. -/
theorem checkCycles_reports_cycle {known : List Text} {f : File}
    (hp : resolveBases (isExternal known f.imports) { classes := f.classes } = .ok p) :
    ((∃ e, p.checkCycles = .error e) ↔ ∃ i, p.Above i i) ∧
    (∀ e, p.checkCycles = .error e →
      ∃ cls base c b, p.class? cls = some c ∧ p.class? base = some b ∧
      p.IsBase base cls ∧ p.Above cls base ∧ p.Above cls cls ∧
      e = .ofPlace (.cyclicBase b.emitted) c.place b.emitted) ∧
    ∀ e, ofFile known f = .error e ↔ p.checkCycles = .error e := by
  have hext := extends_of_resolveBases f.nested_classes hp
  have hrange : ∀ c, ∀ b ∈ p.bases c, b < p.size := fun c b hb => (hext.lt_size_of_mem_bases hb).2
  have herror : ∀ e, p.checkCycles = .error e →
      ∃ cls base c b, p.class? cls = some c ∧ p.class? base = some b ∧
      p.IsBase base cls ∧ p.Above cls base ∧ p.Above cls cls ∧
      e = .ofPlace (.cyclicBase b.emitted) c.place b.emitted := by
    intro e he
    unfold checkCycles at he
    split at he
    · cases he
    · next cls base hedge =>
      cases he
      obtain ⟨hbase, habove⟩ := cycle_of_cyclicEdge? hrange hedge
      obtain ⟨c, hc⟩ := exists_class_of_isBase hbase
      have hb : p.class? base = some (p.classes.get ⟨base, hrange cls base hbase⟩) :=
        List.getElem?_eq_getElem (hrange cls base hbase)
      refine ⟨cls, base, c, _, hc, hb, hbase, habove, .tail habove hbase, ?_⟩
      rw [emitted, hc, hb, Option.elim_some, Option.elim_some]
  refine ⟨⟨?_, ?_⟩, herror, fun e => ?_⟩
  · rintro ⟨e, he⟩
    obtain ⟨cls, -, -, -, -, -, -, -, habove, -⟩ := herror e he
    exact ⟨cls, habove⟩
  · rintro ⟨i, habove⟩
    cases hcycles : p.checkCycles with
    | ok _ => exact absurd habove (not_above_self (acc_of_checkCycles hrange hcycles) i)
    | error e => exact ⟨e, rfl⟩
  · cases hcycles : p.checkCycles with
    | error e' =>
      have herr : ofFile known f = .error e' := by
        rw [ofFile, hp]
        exact congrArg (· >>= fun _ => p.order) hcycles
      rw [herr, Except.error.injEq, Except.error.injEq]
    | ok _ =>
      -- without a cycle the classes can be put in order
      have hok := ofFile_eq_ok_iff.mpr ⟨p, hp, acc_of_checkCycles hrange hcycles, rfl⟩
      refine iff_of_false (fun h => ?_) (fun h => ?_)
      · rw [hok] at h
        cases h
      · cases h

/-- A class with a cycle above it, behind a base that is no part of the cycle. -/
def cycleAbove : Source :=
  ⟨lit "S",
    lit "class A extends B {}\nclass B implements D, C {}\nclass C extends B {}\nclass D {}"⟩

/-- The error stands at `C` and names `B`: these two are on the cycle, and `A` is not. -/
theorem checkCycles_reports_cycle_above : ∃ f p, File.ofSource cycleAbove = .ok f ∧
    resolveBases (isExternal libraryTypes f.imports) { classes := f.classes } = .ok p ∧
    p.classes.map (·.bases) = [[1], [3, 2], [1], []] ∧ (∃ i, p.Above i i) ∧
    p.checkCycles = .error (.ofPlace (.cyclicBase (lit "B")) ⟨lit "S", 3, 1⟩ (lit "B")) ∧
    ofFile libraryTypes f =
    .error (.ofPlace (.cyclicBase (lit "B")) ⟨lit "S", 3, 1⟩ (lit "B")) := by
  have hview : ((File.ofSource cycleAbove).bind fun f =>
      (resolveBases (isExternal libraryTypes f.imports) { classes := f.classes }).map fun p =>
        (p.classes.map (·.bases), p.checkCycles)) =
      .ok ([[1], [3, 2], [1], []],
        .error (.ofPlace (.cyclicBase (lit "B")) ⟨lit "S", 3, 1⟩ (lit "B"))) := by
    cbv
  obtain ⟨f, hf, hview⟩ := Except.bind_eq_ok.mp hview
  obtain ⟨p, hp, hview⟩ := Except.map_eq_ok.mp hview
  simp only [Prod.mk.injEq] at hview
  obtain ⟨hbases, herror⟩ := hview
  obtain ⟨hiff, -, hofFile⟩ := checkCycles_reports_cycle hp
  exact ⟨f, p, hf, hp, hbases, hiff.mp ⟨_, herror⟩, herror, (hofFile _).mpr herror⟩

end Unnest.Plan
