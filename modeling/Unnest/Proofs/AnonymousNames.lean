import Unnest.Proofs.ClassNodes

/-!
# The names of the anonymous classes

The anonymous classes anywhere inside a top-level class `T` are written as `T_1`, `T_2`, … in the
order of their declaration. A class is inside `T` if `T` is among the classes around it, and this is
noted in the class itself: all classes between one top-level class and the next have the number of
the first one.

* `Plan.mem_outward_iff`: the classes around a class lead to the top-level class noted in it;
* `Plan.emitted_anonymous`: the names of the anonymous classes inside a top-level class.
-/

namespace Unnest

/-! ### Top-level classes -/

/-- Classes below the class `within`, the first of them with the number `next`: each has a class
around it, which is that one or one of themselves. -/
def Housed (within : Enclosing) (next : Nat) (cs : List ClassInfo) : Prop :=
  ∀ c ∈ cs, c.top = within.top ∧ ∃ j, c.parent = some j ∧ (j = within.self ∨ next ≤ j)

section Housed

variable {within : Enclosing} {next next' : Nat} {c : ClassInfo} {cs cs' : List ClassInfo}

theorem housed_nil : Housed within next [] := by simp [Housed]

theorem Housed.append (h : Housed within next cs) (h' : Housed within (next + cs.length) cs') :
    Housed within next (cs ++ cs') := by
  intro c hc
  rcases List.mem_append.mp hc with hc | hc
  · exact h c hc
  · obtain ⟨htop, j, hj, hle⟩ := h' c hc
    exact ⟨htop, j, hj, hle.imp_right fun hle => by omega⟩

theorem housed_cons (htop : c.top = within.top) (hparent : c.parent = some within.self)
    {emitted : Text} (hbeside : Housed within (next + 1) cs)
    (hbelow : Housed ⟨next, within.top, emitted⟩ (next + 1 + cs.length) cs') :
    Housed within next (c :: (cs ++ cs')) := by
  intro c' hc'
  rcases List.mem_cons.mp hc' with rfl | hc'
  · exact ⟨htop, within.self, hparent, Or.inl rfl⟩
  rcases List.mem_append.mp hc' with hc' | hc'
  · obtain ⟨htop, j, hj, hle⟩ := hbeside c' hc'
    exact ⟨htop, j, hj, hle.imp_right fun hle => by omega⟩
  · obtain ⟨htop, j, hj, hle⟩ := hbelow c' hc'
    refine ⟨htop, j, hj, Or.inr ?_⟩
    simp only at hle
    omega

end Housed

theorem Listed.housed {within : Enclosing} {next : Nat} {cs : List ClassInfo}
    (h : Listed within next cs) :
    Housed within next cs := by
  induction h with
  | nil => exact housed_nil
  | append _ _ ih ih' => exact ih.append ih'
  | cons hparent htop _ _ _ _ _ ihbeside ihbelow => exact housed_cons htop hparent ihbeside ihbelow

theorem housed_members (ms : List Member) (within : Enclosing) (next : Nat) :
    Housed within next (memberClasses within next ms) := (listed_members ms within next).housed

/-- Classes numbered from `next` on: a class with none around it is noted as its own top-level
class, any other one has the top-level class of the class around it. -/
def Rooted (next : Nat) (cs : List ClassInfo) : Prop :=
  ∀ (k : Nat) c, cs[k]? = some c → (c.parent = none ∧ c.top = next + k) ∨
    ∃ j c', c.parent = some (next + j) ∧ j < k ∧ cs[j]? = some c' ∧ c'.top = c.top

theorem Rooted.append {next : Nat} {cs cs' : List ClassInfo} (h : Rooted next cs)
    (h' : Rooted (next + cs.length) cs') : Rooted next (cs ++ cs') := by
  intro k c hc
  rcases Nat.lt_or_ge k cs.length with hk | hk
  · rw [List.getElem?_append_left hk] at hc
    refine (h k c hc).imp_right ?_
    rintro ⟨j, c', hparent, hj, hc', htop⟩
    exact ⟨j, c', hparent, hj, by rw [List.getElem?_append_left (hj.trans hk), hc'], htop⟩
  · rw [List.getElem?_append_right hk] at hc
    rcases h' _ c hc with ⟨hparent, htop⟩ | ⟨j, c', hparent, hj, hc', htop⟩
    · exact Or.inl ⟨hparent, by omega⟩
    · refine Or.inr ⟨cs.length + j, c', by rw [hparent, Nat.add_assoc], by omega, ?_, htop⟩
      rw [List.getElem?_append_right (Nat.le_add_right _ _), Nat.add_sub_cancel_left, hc']

theorem TypeDecl.parent_classes {d : TypeDecl} {next k : Nat} {c : ClassInfo}
    (hc : (d.classes next)[k]? = some c) : c.top = next ∧ (c.parent = none ↔ k = 0) := by
  cases k with
  | zero =>
    cases hc
    exact ⟨rfl, by simp⟩
  | succ k =>
    obtain ⟨htop, j, hj, -⟩ := housed_members d.members ⟨next, next, d.head.name⟩ (next + 1) c
      (List.mem_of_getElem? hc)
    exact ⟨htop, by simp [hj]⟩

theorem TypeDecl.rooted_classes (d : TypeDecl) (next : Nat) : Rooted next (d.classes next) := by
  intro k c hc
  obtain ⟨htop, hparent⟩ := TypeDecl.parent_classes hc
  cases k with
  | zero => exact Or.inl ⟨hparent.mpr rfl, htop⟩
  | succ k =>
    have hmem : (memberClasses ⟨next, next, d.head.name⟩ (next + 1) d.members)[k]? = some c := hc
    obtain ⟨-, j, hj, hle⟩ := housed_members d.members _ (next + 1) c (List.mem_of_getElem? hmem)
    have hlt := (nested_memberClasses d.members (Nat.lt_succ_self next) k c hmem).2 j hj
    have hnext : next ≤ j := by
      rcases hle with rfl | hle
      · exact le_rfl
      · omega
    have hlength : j - next < (d.classes next).length := by
      have := (List.getElem?_eq_some_iff.mp hc).1
      omega
    refine Or.inr ⟨j - next, (d.classes next)[j - next], ?_, by omega,
      List.getElem?_eq_getElem hlength, ?_⟩
    · rw [hj, Nat.add_sub_cancel' hnext]
    · rw [htop]
      exact (TypeDecl.parent_classes (List.getElem?_eq_getElem hlength)).1

theorem rooted_types (next : Nat) (ds : List TypeDecl) : Rooted next (typeClasses next ds) := by
  induction ds generalizing next with
  | nil =>
    intro k c hc
    cases hc
  | cons d ds ih => exact (d.rooted_classes next).append (ih _)

namespace Plan

variable {known : List Text} {f : File} {p : Plan}

theorem rooted_ofFile (h : ofFile known f = .ok p) : Rooted 0 p.classes := by
  have hbases : ∀ cs : List ClassInfo, Rooted 0 (cs.map ({ · with bases := [] })) ↔
      Rooted 0 cs := by
    intro cs
    simp [Rooted]
  rw [← hbases, classes_ofFile h, hbases]
  exact rooted_types 0 f.types

/-- **The classes around a class** lead to the top-level class that is noted in it, and to no other
one. -/
theorem mem_outward_iff (h : ofFile known f = .ok p) {t i : Nat} {c : ClassInfo} (ht : t ∈ p.tops)
    (hc : p.classes[i]? = some c) : t ∈ p.outward i ↔ c.top = t := by
  have htop : p.parent? t = none := (mem_tops.mp ht).2
  have hparent : p.parent? i = c.parent := by simp [parent?, class?, hc]
  have hrooted := rooted_ofFile h i c hc
  simp only [Nat.zero_add] at hrooted
  induction i using outward.induct p generalizing c with
  | case1 i k hk hlt ih =>
    have hne : t ≠ i := by
      rintro rfl
      rw [htop] at hk
      cases hk
    rw [hparent] at hk
    obtain ⟨j, c', hj, -, hc', hsame⟩ := hrooted.resolve_left fun hnone => by simp [hk] at hnone
    obtain rfl : k = j := by simpa [hk] using hj
    have hrooted' := rooted_ofFile h k c' hc'
    simp only [Nat.zero_add] at hrooted'
    rw [outward]
    simp only [hparent, hk, hlt, dite_true, List.mem_cons, hne, false_or]
    rw [← hsame]
    exact ih hc' (by simp [parent?, class?, hc']) hrooted'
  | case2 i k hk hlt =>
    rw [hparent] at hk
    rcases hrooted with ⟨hnone, -⟩ | ⟨j, -, hj, hji, -⟩
    · simp [hk] at hnone
    · obtain rfl : k = j := by simpa [hk] using hj
      exact absurd hji hlt
  | case3 i hk =>
    rw [hparent] at hk
    rcases hrooted with ⟨-, hself⟩ | ⟨j, -, hj, -⟩
    · rw [outward]
      simp only [hparent, hk, List.mem_singleton, hself]
      exact eq_comm
    · simp [hk] at hj

end Plan

/-! ### Names -/

theorem emitted_of_described {nodes : List ClassNode} {cs : List ClassInfo}
    (h : Described nodes cs) :
    (cs.filter (·.isAnonymous)).map (·.emitted) = (nodes.filterMap (·.anonymous?)).map
    (·.label.getD []) := by
  induction h with
  | nil => rfl
  | @cons node c nodes cs hc _ ih =>
    cases node with
    | named head members =>
      have hanonymous : c.isAnonymous = false := by simp [ClassInfo.isAnonymous, hc.1]
      rw [List.filter_cons_of_neg (by simp [hanonymous])]
      exact ih
    | anonymous a =>
      have hanonymous : c.isAnonymous = true := by simp [ClassInfo.isAnonymous, hc.1]
      rw [List.filter_cons_of_pos hanonymous, List.map_cons, hc.2.2, ih]
      rfl

theorem TypeDecl.emitted_anonymous (d : TypeDecl) (next : Nat) :
    ∃ k, ((d.labelled.classes next).filter (·.isAnonymous)).map (·.emitted) =
      (List.range' 1 k).map (anonymousName d.head.name) := by
  obtain ⟨m, -, k, -, hlabels⟩ := d.numbered_labelled
  refine ⟨k, ?_⟩
  have hnames := congrArg (List.map (·.getD [])) hlabels
  rw [List.map_map, List.map_map] at hnames
  rw [emitted_of_described (d.labelled.described next)]
  exact hnames

theorem le_top_of_mem_types {next : Nat} {ds : List TypeDecl} {c : ClassInfo}
    (hc : c ∈ typeClasses next ds) :
    next ≤ c.top := by
  induction ds generalizing next with
  | nil => cases hc
  | cons d ds ih =>
    rcases List.mem_append.mp hc with hc | hc
    · obtain ⟨k, hk⟩ := List.mem_iff_getElem?.mp hc
      exact (TypeDecl.parent_classes hk).1.ge
    · exact (Nat.le_add_right _ _).trans (ih hc)

theorem emitted_anonymous_types (ds : List TypeDecl) (next : Nat) {t : Nat} {c : ClassInfo}
    (hc : (typeClasses next (ds.map (·.labelled)))[t]? = some c) (hparent : c.parent = none) :
    ∃ k, ((typeClasses next (ds.map (·.labelled))).filter
      fun c => c.isAnonymous && c.top == next + t).map (·.emitted) =
      (List.range' 1 k).map (anonymousName c.simpleName) := by
  induction ds generalizing next t with
  | nil => cases hc
  | cons d ds ih =>
    have hblock : ∀ c ∈ d.labelled.classes next, c.top = next := by
      intro c hc
      obtain ⟨k, hk⟩ := List.mem_iff_getElem?.mp hc
      exact (TypeDecl.parent_classes hk).1
    have hlength : 0 < (d.labelled.classes next).length := Nat.succ_pos _
    simp only [List.map_cons, typeClasses] at hc ⊢
    rw [List.filter_append, List.map_append]
    rcases Nat.lt_or_ge t (d.labelled.classes next).length with ht | ht
    · rw [List.getElem?_append_left ht] at hc
      obtain rfl : t = 0 := (TypeDecl.parent_classes hc).2.mp hparent
      obtain rfl : _ = c := Option.some.inj hc
      obtain ⟨k, hk⟩ := d.emitted_anonymous next
      refine ⟨k, ?_⟩
      have hsame : (d.labelled.classes next).filter (fun c => c.isAnonymous && c.top == next + 0) =
          (d.labelled.classes next).filter (·.isAnonymous) :=
        List.filter_congr fun c hc => by simp [hblock c hc]
      have hrest :
          (typeClasses (next + (d.labelled.classes next).length) (ds.map (·.labelled))).filter
          (fun c => c.isAnonymous && c.top == next + 0) = [] := by
        refine List.filter_eq_nil_iff.mpr fun c hc => ?_
        have := le_top_of_mem_types hc
        simp only [Bool.and_eq_true, beq_iff_eq, not_and]
        omega
      rw [hsame, hrest, hk, List.map_nil, List.append_nil]
      rfl
    · rw [List.getElem?_append_right ht] at hc
      obtain ⟨k, hk⟩ := ih (next + (d.labelled.classes next).length) hc
      refine ⟨k, ?_⟩
      have hnone : (d.labelled.classes next).filter (fun c => c.isAnonymous && c.top == next + t) =
          [] := by
        refine List.filter_eq_nil_iff.mpr fun c hc => ?_
        have := hblock c hc
        simp only [Bool.and_eq_true, beq_iff_eq, not_and]
        omega
      rw [hnone, List.map_nil, List.nil_append, ← hk]
      congr 2
      funext c
      rw [show next + (d.labelled.classes next).length + (t - (d.labelled.classes next).length) =
        next + t by omega]

namespace Plan

variable {known : List Text} {f : File} {p : Plan}

/-- The anonymous classes anywhere inside a class, in declaration order. -/
def anonymousInside (p : Plan) (t : Nat) : List Nat :=
  (p.select (·.isAnonymous)).filter fun i => decide (t ∈ p.outward i)

theorem emitted_anonymousInside (h : ofFile known f = .ok p) {t : Nat} (ht : t ∈ p.tops) :
    (p.anonymousInside t).map p.emitted =
      (p.classes.filter fun c => c.isAnonymous && c.top == t).map (·.emitted) := by
  have hclasses : p.classes = p.classes.zipIdx.map (·.1) := (List.zipIdx_map_fst 0 p.classes).symm
  rw [hclasses, List.filter_map, List.map_map]
  unfold anonymousInside select
  rw [List.filter_filterMap, List.map_filterMap, ← List.filterMap_eq_map, List.filterMap_filter]
  refine List.filterMap_congr fun ⟨c, i⟩ hmem => ?_
  have hc := List.mk_mem_zipIdx_iff_getElem?.mp hmem
  have hiff := mem_outward_iff h ht hc
  have hemitted : p.emitted i = c.emitted := by simp [emitted, class?, hc]
  cases hanonymous : c.isAnonymous with
  | false => simp [hanonymous]
  | true => by_cases htop : c.top = t <;> simp [hanonymous, hiff, htop, hemitted, Option.filter]

/-- **The names of the anonymous classes** anywhere inside a top-level class, in declaration
order. -/
theorem emitted_anonymous (h : ofFile known f.labelled = .ok p) {t : Nat} (ht : t ∈ p.tops) :
    (p.anonymousInside t).map p.emitted = (List.range (p.anonymousInside t).length).map fun n =>
      anonymousName (p.simpleName t) (n + 1) := by
  have hnames := emitted_anonymousInside h ht
  obtain ⟨hsize, hparent⟩ := mem_tops.mp ht
  have hclass : p.classes[t]? = some p.classes[t] := List.getElem?_eq_getElem hsize
  -- what is noted in the classes of the plan was noted in the classes of the file
  have hbases : ∀ cs : List ClassInfo, ((cs.map ({ · with bases := [] })).filter fun c =>
      c.isAnonymous && c.top == t).map (·.emitted) =
        (cs.filter fun c => c.isAnonymous && c.top == t).map (·.emitted) := by
    intro cs
    rw [List.filter_map, List.map_map]
    rfl
  have hfile : f.labelled.classes[t]?.map ({ · with bases := [] }) =
      some { p.classes[t] with bases := [] } := by
    rw [← List.getElem?_map, ← classes_ofFile h, List.getElem?_map, hclass]
    rfl
  obtain ⟨c, hc, hsame⟩ := Option.map_eq_some_iff.mp hfile
  obtain ⟨horigin, -, -, hsame, -⟩ := ClassInfo.mk.inj hsame
  have hname : c.simpleName = p.simpleName t := by
    simp only [simpleName, class?, hclass, Option.elim_some, ClassInfo.simpleName, horigin]
  have hnone : c.parent = none := by
    rw [parent?, class?, hclass] at hparent
    exact hsame.trans hparent
  obtain ⟨k, hk⟩ := emitted_anonymous_types f.types 0 hc hnone
  rw [Nat.zero_add, hname] at hk
  rw [← hbases, classes_ofFile h, hbases] at hnames
  have hall := hnames.trans hk
  have hlength : (p.anonymousInside t).length = k := by simpa using congrArg List.length hall
  rw [hall, hlength, List.range'_eq_map_range, List.map_map]
  refine List.map_congr_left fun n _ => ?_
  rw [Function.comp_apply, Nat.add_comm]

end Plan

end Unnest
