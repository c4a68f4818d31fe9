import Unnest.Proofs.AnonymousNames
import Unnest.Proofs.Rescan
import Unnest.Proofs.Separators

/-!
# The names of the classes in the header

A class with a name of its own is written under this name at the top level, and elsewhere under the
name of the class around it, an underscore and its own name. An anonymous class is written under the
name of its top-level class, an underscore and a number. So what is behind the last underscore of a
written name tells the last step on the way from the top level to the class, unless names have
underscores themselves.

* `Plan.emitted_ne_of_plain`: different classes have different names, if there is no underscore in
  the names in the source;
* `Plan.emitted_eq_of_underscore`: with an underscore two classes can have the same name.
-/

namespace Unnest

/-! ### Numbers -/

theorem Text.decimal_ne_nil (n : Nat) : Text.decimal n ≠ [] := by
  rw [Text.decimal]
  split <;> simp

theorem Text.decimal_injective : Function.Injective Text.decimal := by
  have hdigit : ∀ m < 10, ∀ k < 10, chr '0' + m.toUInt8 = chr '0' + k.toUInt8 → m = k := by decide
  intro n
  induction n using Text.decimal.induct with
  | case1 n hn =>
    intro m h
    rw [Text.decimal.eq_def n, if_pos hn, Text.decimal.eq_def m] at h
    split_ifs at h with hm
    · exact hdigit n hn m hm (List.singleton_injective h)
    · exact absurd (List.append_eq_singleton_iff.mp h.symm) (by simp [Text.decimal_ne_nil])
  | case2 n hn ih =>
    intro m h
    rw [Text.decimal.eq_def n, if_neg hn, Text.decimal.eq_def m] at h
    split_ifs at h with hm
    · exact absurd (List.append_eq_singleton_iff.mp h) (by simp [Text.decimal_ne_nil])
    · obtain ⟨hfront, hlast⟩ := List.append_inj' h rfl
      have hten : n / 10 = m / 10 := ih hfront
      have hone : n % 10 = m % 10 :=
        hdigit _ (Nat.mod_lt n (by decide)) _ (Nat.mod_lt m (by decide))
        (List.singleton_injective hlast)
      omega

theorem underscore_notMem_decimal (n : Nat) : chr '_' ∉ Text.decimal n := by
  intro h
  have := isDigit_of_mem_decimal h
  revert this
  decide

/-! ### Names behind names -/

/-- Classes below the class `within`, the first of them with the number `next`: one with a name of
its own is written under the name of the class around it, an underscore and that name. -/
def Prefixed (within : Enclosing) (next : Nat) (cs : List ClassInfo) : Prop :=
  ∀ (k : Nat) c, cs[k]? = some c → ∃ outer,
    (c.isAnonymous = false → c.emitted = outer ++ lit "_" ++ c.simpleName) ∧
      (c.parent = some within.self ∧ outer = within.emitted ∨
        ∃ j d, c.parent = some (next + j) ∧ cs[j]? = some d ∧ outer = d.emitted)

section Prefixed

variable {within : Enclosing} {next : Nat} {c : ClassInfo} {cs cs' : List ClassInfo}

theorem prefixed_nil : Prefixed within next [] := by simp [Prefixed]

/-- Classes and further ones behind them: these are below the same class or below one of the
former. -/
theorem Prefixed.append_of {within' : Enclosing} (h : Prefixed within next cs)
    (h' : Prefixed within' (next + cs.length) cs')
    (hwithin : within' = within ∨
      ∃ j d, within'.self = next + j ∧ cs[j]? = some d ∧ within'.emitted = d.emitted) :
    Prefixed within next (cs ++ cs') := by
  intro k c hc
  rcases Nat.lt_or_ge k cs.length with hk | hk
  · rw [List.getElem?_append_left hk] at hc
    obtain ⟨outer, hemitted, hparent⟩ := h k c hc
    refine ⟨outer, hemitted, hparent.imp_right ?_⟩
    rintro ⟨j, d, hj, hd, houter⟩
    have hlt := (List.getElem?_eq_some_iff.mp hd).1
    exact ⟨j, d, hj, by rw [List.getElem?_append_left hlt, hd], houter⟩
  · rw [List.getElem?_append_right hk] at hc
    obtain ⟨outer, hemitted, hparent⟩ := h' _ c hc
    refine ⟨outer, hemitted, ?_⟩
    rcases hparent with ⟨hself, houter⟩ | ⟨j, d, hj, hd, houter⟩
    · rcases hwithin with rfl | ⟨j, d, hj, hd, hname⟩
      · exact Or.inl ⟨hself, houter⟩
      · have hlt := (List.getElem?_eq_some_iff.mp hd).1
        refine Or.inr ⟨j, d, by rw [hself, hj], ?_, by rw [houter, hname]⟩
        rw [List.getElem?_append_left hlt, hd]
    · refine Or.inr ⟨cs.length + j, d, by rw [hj, Nat.add_assoc], ?_, houter⟩
      rw [List.getElem?_append_right (Nat.le_add_right _ _), Nat.add_sub_cancel_left, hd]

theorem Prefixed.append (h : Prefixed within next cs)
    (h' : Prefixed within (next + cs.length) cs') :
    Prefixed within next (cs ++ cs') := h.append_of h' (Or.inl rfl)

theorem prefixed_cons (hparent : c.parent = some within.self)
    (hemitted : c.isAnonymous = false → c.emitted = within.emitted ++ lit "_" ++ c.simpleName)
    (hbeside : Prefixed within (next + 1) cs)
    (hbelow : Prefixed ⟨next, within.top, c.emitted⟩ (next + 1 + cs.length) cs') :
    Prefixed within next (c :: (cs ++ cs')) := by
  have hfirst : Prefixed within next [c] := by
    intro k c' hc
    obtain ⟨rfl, rfl⟩ : k = 0 ∧ c = c' := by simpa [List.getElem?_singleton] using hc
    exact ⟨_, hemitted, Or.inl ⟨hparent, rfl⟩⟩
  have hlength : next + ([c] ++ cs).length = next + 1 + cs.length := by simp; omega
  rw [← hlength] at hbelow
  exact (hfirst.append hbeside).append_of hbelow (Or.inr ⟨0, c, rfl, rfl, rfl⟩)

end Prefixed

theorem Listed.prefixed {within : Enclosing} {next : Nat} {cs : List ClassInfo}
    (h : Listed within next cs) :
    Prefixed within next cs := by
  induction h with
  | nil => exact prefixed_nil
  | append _ _ ih ih' => exact ih.append ih'
  | cons hparent _ _ hemitted _ _ _ ihbeside ihbelow =>
    exact prefixed_cons hparent hemitted ihbeside ihbelow

theorem prefixed_members (ms : List Member) (within : Enclosing) (next : Nat) :
    Prefixed within next (memberClasses within next ms) := (listed_members ms within next).prefixed

/-- Classes numbered from `next` on: one that is in no other class has a name of its own and is
written under this name; any other one with a name of its own is written behind the name of the
class around it. -/
def Titled (next : Nat) (cs : List ClassInfo) : Prop :=
  ∀ (k : Nat) c, cs[k]? = some c →
    (c.parent = none ∧ c.isAnonymous = false ∧ c.emitted = c.simpleName) ∨
      ∃ j d, c.parent = some (next + j) ∧ cs[j]? = some d ∧
        (c.isAnonymous = false → c.emitted = d.emitted ++ lit "_" ++ c.simpleName)

theorem TypeDecl.titled_classes (d : TypeDecl) (next : Nat) : Titled next (d.classes next) := by
  intro k c hc
  cases k with
  | zero =>
    cases hc
    exact Or.inl ⟨rfl, rfl, rfl⟩
  | succ k =>
    obtain ⟨outer, hemitted, hparent⟩ :=
      prefixed_members d.members ⟨next, next, d.head.name⟩ (next + 1) k c hc
    refine Or.inr ?_
    rcases hparent with ⟨hself, rfl⟩ | ⟨j, c', hj, hc', rfl⟩
    · exact ⟨0, _, hself, rfl, hemitted⟩
    · exact ⟨j + 1, c', by rw [hj]; congr 1; omega, hc', hemitted⟩

theorem titled_types (next : Nat) (ds : List TypeDecl) : Titled next (typeClasses next ds) := by
  induction ds generalizing next with
  | nil =>
    intro k c hc
    cases hc
  | cons d ds ih =>
    intro k c hc
    rw [typeClasses] at hc ⊢
    rcases Nat.lt_or_ge k (d.classes next).length with hk | hk
    · rw [List.getElem?_append_left hk] at hc
      refine (d.titled_classes next k c hc).imp_right ?_
      rintro ⟨j, c', hj, hc', hemitted⟩
      have hlt := (List.getElem?_eq_some_iff.mp hc').1
      exact ⟨j, c', hj, by rw [List.getElem?_append_left hlt, hc'], hemitted⟩
    · rw [List.getElem?_append_right hk] at hc
      refine (ih _ _ c hc).imp_right ?_
      rintro ⟨j, c', hj, hc', hemitted⟩
      refine ⟨(d.classes next).length + j, c', by rw [hj, Nat.add_assoc], ?_, hemitted⟩
      rw [List.getElem?_append_right (Nat.le_add_right _ _), Nat.add_sub_cancel_left, hc']

namespace Plan

variable {known : List Text} {f : File} {p : Plan} {i j k : Nat}

theorem titled_ofFile (h : ofFile known f = .ok p) : Titled 0 p.classes := by
  have hbases : ∀ cs : List ClassInfo, Titled 0 (cs.map ({ · with bases := [] })) ↔
      Titled 0 cs := by
    intro cs
    simp [Titled, ClassInfo.isAnonymous, ClassInfo.simpleName]
  rw [← hbases, classes_ofFile h, hbases]
  exact titled_types 0 f.types

/-- The classes with a name of their own. -/
def namedClasses (p : Plan) : List Nat := p.select (!·.isAnonymous)

/-- The names in the source, each with the class in which it is declared. -/
def scopedNames (p : Plan) : List (Option Nat × Text) :=
  p.namedClasses.map fun i => (p.parent? i, p.simpleName i)

/-! ### Where a class gets its name from -/

theorem top_mem_tops (h : ofFile known f = .ok p) {c : ClassInfo} (hc : p.classes[i]? = some c) :
    c.top ∈ p.tops := by
  induction i using Nat.strongRecOn generalizing c with
  | ind i ih =>
    rcases rooted_ofFile h i c hc with ⟨hnone, htop⟩ | ⟨j, d, -, hj, hd, htop⟩
    · rw [htop, Nat.zero_add]
      exact mem_tops.mpr ⟨lt_size_of_getElem? hc, by simp [parent?, class?, hc, hnone]⟩
    · rw [← htop]
      exact ih j hj hd

/-- The three ways in which a class gets its name. -/
inductive Title (p : Plan) (i : Nat) : Prop
  | top (hnamed : i ∈ p.namedClasses) (hparent : p.parent? i = none)
      (hname : p.emitted i = p.simpleName i)
  | inner (j : Nat) (hnamed : i ∈ p.namedClasses) (hparent : p.parent? i = some j) (hlt : j < i)
    (hname : p.emitted i = p.emitted j ++ chr '_' :: p.simpleName i)
  | anonymous (t n : Nat) (ht : t ∈ p.tops) (hmem : i ∈ p.anonymousInside t)
    (hname : p.emitted i = p.simpleName t ++ chr '_' :: Text.decimal n)

theorem titled (h : ofFile known f.labelled = .ok p) (hi : i < p.size) : p.Title i := by
  have hclass : p.classes[i]? = some p.classes[i] := List.getElem?_eq_getElem hi
  have hunder : lit "_" = [chr '_'] := by decide
  cases hkind : p.classes[i].isAnonymous with
  | true =>
    have htop := top_mem_tops h hclass
    have hmem : i ∈ p.anonymousInside p.classes[i].top := by
      refine List.mem_filter.mpr ⟨mem_select.mpr ⟨_, hclass, hkind⟩, ?_⟩
      exact decide_eq_true ((mem_outward_iff h htop hclass).mpr rfl)
    have hnames := List.mem_map_of_mem (f := p.emitted) hmem
    rw [emitted_anonymous h htop] at hnames
    obtain ⟨n, -, hn⟩ := List.mem_map.mp hnames
    refine .anonymous _ (n + 1) htop hmem ?_
    rw [← hn, anonymousName, hunder, List.append_assoc, List.singleton_append]
  | false =>
    have hnamed : i ∈ p.namedClasses := mem_select.mpr ⟨_, hclass, by simp [hkind]⟩
    have hemitted : p.emitted i = p.classes[i].emitted := by simp [emitted, class?, hclass]
    have hsimple : p.simpleName i = p.classes[i].simpleName := by simp [simpleName, class?, hclass]
    have hparent : p.parent? i = p.classes[i].parent := by simp [parent?, class?, hclass]
    rcases titled_ofFile h i _ hclass with ⟨hnone, -, hname⟩ | ⟨j, d, hj, hd, hname⟩
    · exact .top hnamed (by rw [hparent, hnone]) (by rw [hemitted, hname, hsimple])
    · rw [Nat.zero_add] at hj
      have hlt : j < i := by
        rcases rooted_ofFile h i _ hclass with ⟨hnone, -⟩ | ⟨j', -, hj', hlt, -⟩
        · simp [hnone] at hj
        · rw [hj, Nat.zero_add, Option.some.injEq] at hj'
          omega
      refine .inner j hnamed (by rw [hparent, hj]) hlt ?_
      rw [hemitted, hname hkind, hsimple, hunder, List.append_assoc, List.singleton_append]
      simp [emitted, class?, hd]

/-! ### Different names -/

/-- Whether a name has no underscore and does not begin with a digit. No name in a source begins
with one. -/
def isPlain (name : Text) : Bool := !name.contains (chr '_') && !name.head?.any isDigit

theorem underscore_notMem_of_isPlain {name : Text} (h : isPlain name = true) : chr '_' ∉ name := by
  simp only [isPlain, Bool.and_eq_true, Bool.not_eq_true', List.contains_eq_mem,
    decide_eq_false_iff_not] at h
  exact h.1

theorem ne_decimal_of_isPlain {name : Text} (h : isPlain name = true) (n : Nat) :
    name ≠ Text.decimal n := by
  rintro rfl
  obtain ⟨b, bs, hb⟩ := List.exists_cons_of_ne_nil (Text.decimal_ne_nil n)
  have hdigit : isDigit b = true := isDigit_of_mem_decimal (n := n) (by simp [hb])
  simp [isPlain, hb, hdigit] at h

theorem mem_outward_self (p : Plan) (i : Nat) : i ∈ p.outward i := by
  rw [outward]
  split
  · split <;> simp
  · simp

theorem outward_of_parent (hparent : p.parent? i = some j) (hlt : j < i) :
    p.outward i = i :: p.outward j := by
  rw [outward]
  simp [hparent, hlt]

section Distinct

variable (hnames : p.scopedNames.Nodup)

include hnames

theorem eq_of_sameScope (hi : i ∈ p.namedClasses) (hj : j ∈ p.namedClasses)
    (hparent : p.parent? i = p.parent? j) (hname : p.simpleName i = p.simpleName j) : i = j :=
  List.inj_on_of_nodup_map hnames hi hj (Prod.ext hparent hname)

theorem eq_of_sameNumber (h : ofFile known f.labelled = .ok p) {t t' n n' : Nat} (ht : t ∈ p.tops)
    (ht' : t' ∈ p.tops) (hi : i ∈ p.anonymousInside t) (hj : j ∈ p.anonymousInside t')
    (hin : p.emitted i = p.simpleName t ++ chr '_' :: Text.decimal n)
    (hjn : p.emitted j = p.simpleName t' ++ chr '_' :: Text.decimal n')
    (heq : p.emitted i = p.emitted j) :
    i = j := by
  have htop : ∀ t ∈ p.tops, t ∈ p.namedClasses := by
    intro t ht
    obtain ⟨hsize, hnone⟩ := mem_tops.mp ht
    have hclass : p.classes[t]? = some p.classes[t] := List.getElem?_eq_getElem hsize
    rcases titled_ofFile h t _ hclass with ⟨-, hnamed, -⟩ | ⟨k, d, hk, -⟩
    · exact mem_select.mpr ⟨_, hclass, by simp [hnamed]⟩
    · simp [parent?, class?, hclass, hk] at hnone
  have hsame : t = t' := by
    refine eq_of_sameScope hnames (htop t ht) (htop t' ht') ?_ ?_
    · rw [(mem_tops.mp ht).2, (mem_tops.mp ht').2]
    · rw [hin, hjn] at heq
      exact (Text.append_separator_inj (underscore_notMem_decimal n) (underscore_notMem_decimal n')
        heq).1
  subst hsame
  -- the names inside one top-level class are counted up
  have hnodup : ((p.anonymousInside t).map p.emitted).Nodup := by
    rw [emitted_anonymous h ht]
    refine List.Nodup.map_on (fun m _ k _ hmk => ?_) List.nodup_range
    have := Text.decimal_injective (List.append_cancel_left hmk)
    omega
  exact List.inj_on_of_nodup_map hnodup hi hj heq

theorem eq_of_emitted_eq (h : ofFile known f.labelled = .ok p) (hi : i < p.size) (hj : j < p.size)
    (hplaini : ∀ k ∈ p.outward i, isPlain (p.simpleName k) = true)
    (hplainj : ∀ k ∈ p.outward j, isPlain (p.simpleName k) = true)
    (heq : p.emitted i = p.emitted j) :
    i = j := by
  have hplain : ∀ {i}, (∀ k ∈ p.outward i, isPlain (p.simpleName k) = true) →
      isPlain (p.simpleName i) = true := fun {i} hplain => hplain i (mem_outward_self p i)
  have hname : ∀ {i}, (∀ k ∈ p.outward i, isPlain (p.simpleName k) = true) →
      chr '_' ∉ p.simpleName i :=
    fun {i} hi => underscore_notMem_of_isPlain (hplain hi)
  -- a name of the top level has no underscore, and any other name has one
  have htop : ∀ {i : Nat} {outer name : Text},
      (∀ k ∈ p.outward i, isPlain (p.simpleName k) = true) →
      p.simpleName i ≠ outer ++ chr '_' :: name := by
    intro i outer name hi hsimple
    exact hname hi (by simp [hsimple])
  induction i using Nat.strongRecOn generalizing j with
  | ind i ih =>
    cases titled h hi with
    | top hnamed hparent hin =>
      cases titled h hj with
      | top hnamed' hparent' hjn =>
        refine eq_of_sameScope hnames hnamed hnamed' (by rw [hparent, hparent']) ?_
        rw [← hin, ← hjn, heq]
      | inner l hnamed' hparent' hlt' hjn => exact absurd (by rw [← hin, heq, hjn]) (htop hplaini)
      | anonymous t n ht hmem hjn => exact absurd (by rw [← hin, heq, hjn]) (htop hplaini)
    | inner k hnamed hparent hlt hin =>
      cases titled h hj with
      | top hnamed' hparent' hjn => exact absurd (by rw [← hjn, ← heq, hin]) (htop hplainj)
      | inner l hnamed' hparent' hlt' hjn =>
        rw [hin, hjn] at heq
        obtain ⟨houter, hsimple⟩ := Text.append_separator_inj (hname hplaini) (hname hplainj) heq
        rw [outward_of_parent hparent hlt] at hplaini
        rw [outward_of_parent hparent' hlt'] at hplainj
        have hsame : k = l := ih k hlt (hlt.trans hi) (hlt'.trans hj)
          (fun m hm => hplaini m (List.mem_cons_of_mem _ hm))
          (fun m hm => hplainj m (List.mem_cons_of_mem _ hm)) houter
        exact eq_of_sameScope hnames hnamed hnamed' (by rw [hparent, hparent', hsame]) hsimple
      | anonymous t n ht hmem hjn =>
        rw [hin, hjn] at heq
        have hsimple :=
          (Text.append_separator_inj (hname hplaini) (underscore_notMem_decimal n) heq).2
        exact absurd hsimple (ne_decimal_of_isPlain (hplain hplaini) n)
    | anonymous t n ht hmem hin =>
      cases titled h hj with
      | top hnamed' hparent' hjn => exact absurd (by rw [← hjn, ← heq, hin]) (htop hplainj)
      | inner l hnamed' hparent' hlt' hjn =>
        rw [hin, hjn] at heq
        have hsimple :=
          (Text.append_separator_inj (underscore_notMem_decimal n) (hname hplainj) heq).2
        exact absurd hsimple.symm (ne_decimal_of_isPlain (hplain hplainj) n)
      | anonymous t' n' ht' hmem' hjn =>
        exact eq_of_sameNumber hnames h ht ht' hmem hmem' hin hjn heq

end Distinct

/-- **Different classes have different names** in the header, if classes declared in the same class,
or at the top level, have different names in the source, and if there is no underscore in the names
of the two classes and of those around them. -/
theorem emitted_ne_of_plain (h : ofFile known f.labelled = .ok p) (hnames : p.scopedNames.Nodup)
    (hi : i < p.size) (hj : j < p.size) (hne : i ≠ j)
    (hplain : ∀ k ∈ p.outward i ++ p.outward j, isPlain (p.simpleName k) = true) :
    p.emitted i ≠ p.emitted j := by
  intro heq
  refine hne (eq_of_emitted_eq hnames h hi hj (fun k hk => ?_) (fun k hk => ?_) heq)
  · exact hplain k (List.mem_append_left _ hk)
  · exact hplain k (List.mem_append_right _ hk)

/-- Nested and anonymous classes, with one name in two scopes. -/
def nestedAndAnonymous : Source :=
  ⟨lit "N",
    lit "class A { class B { Object o = new Object() { class A {} }; class A {} } }\nclass B {}"⟩

/-- The class in the anonymous class and the one beside it have different names. -/
theorem emitted_ne_of_plain_nested : ∃ f p, File.ofSource nestedAndAnonymous = .ok f ∧
    ofFile libraryTypes f.labelled = .ok p ∧ p.scopedNames.Nodup ∧
    (p.simpleName 3 = lit "A" ∧ p.simpleName 4 = lit "A") ∧
    p.emitted 3 = lit "A_1_A" ∧ p.emitted 4 = lit "A_B_A" ∧ p.emitted 3 ≠ p.emitted 4 := by
  have hview : ((File.ofSource nestedAndAnonymous).bind
      fun f => (ofFile libraryTypes f.labelled).map fun p =>
      (p.scopedNames, p.size, (p.outward 3 ++ p.outward 4).map p.simpleName,
        (p.simpleName 3, p.simpleName 4), p.emitted 3, p.emitted 4)) = .ok
      ([(none, lit "A"), (some 0, lit "B"), (some 2, lit "A"), (some 1, lit "A"), (none, lit "B")],
        6, [lit "A", [], lit "B", lit "A", lit "A", lit "B", lit "A"], (lit "A", lit "A"),
        lit "A_1_A", lit "A_B_A") := by
    cbv
  obtain ⟨f, hf, hview⟩ := Except.bind_eq_ok.mp hview
  obtain ⟨p, hp, hview⟩ := Except.map_eq_ok.mp hview
  simp only [Prod.mk.injEq] at hview
  obtain ⟨hscoped, hsize, houtward, hsimple, hthree, hfour⟩ := hview
  have hnames : p.scopedNames.Nodup := by
    rw [hscoped]
    decide
  have hplain : ∀ k ∈ p.outward 3 ++ p.outward 4, isPlain (p.simpleName k) = true := by
    intro k hk
    have hmem := List.mem_map_of_mem (f := p.simpleName) hk
    rw [houtward] at hmem
    exact List.all_eq_true.mp (by decide) _ hmem
  exact ⟨f, p, hf, hp, hnames, hsimple, hthree, hfour,
    emitted_ne_of_plain hp hnames (by omega) (by omega) (by omega) hplain⟩

/-- A class whose name has an underscore where another name ends. -/
def underscored : Source := ⟨lit "U", lit "class A { class B {} }\nclass A_B {}"⟩

/-- With an underscore in the name of a class two classes can have the same name in the header,
although no two classes of a scope have the same name in the source. -/
theorem emitted_eq_of_underscore : ∃ f p, File.ofSource underscored = .ok f ∧
    ofFile libraryTypes f.labelled = .ok p ∧ p.scopedNames.Nodup ∧ 1 < p.size ∧ 2 < p.size ∧
    p.emitted 1 = lit "A_B" ∧ p.emitted 2 = lit "A_B" := by
  have hview :
      ((File.ofSource underscored).bind fun f => (ofFile libraryTypes f.labelled).map fun p =>
      (p.scopedNames, p.size, p.emitted 1, p.emitted 2)) = .ok
      ([(none, lit "A"), (some 0, lit "B"), (none, lit "A_B")], 3, lit "A_B", lit "A_B") := by
    cbv
  obtain ⟨f, hf, hview⟩ := Except.bind_eq_ok.mp hview
  obtain ⟨p, hp, hview⟩ := Except.map_eq_ok.mp hview
  simp only [Prod.mk.injEq] at hview
  obtain ⟨hscoped, hsize, hone, htwo⟩ := hview
  refine ⟨f, p, hf, hp, ?_, by omega, by omega, hone, htwo⟩
  rw [hscoped]
  decide

end Plan

end Unnest
