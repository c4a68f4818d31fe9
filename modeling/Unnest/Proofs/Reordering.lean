import Unnest.Proofs.AnonymousNames
import Unnest.Proofs.Renumbering

/-!
# Top-level classes in another order

The classes of a file come in blocks, one for each top-level class, and a block looks the same
wherever it stands. If the top-level classes have different names, their order matters only for the
turns in which the bases are looked up.

* `Plan.renumbers_reordered`: the numbers of the classes when the blocks are put in another order;
* `Plan.ofFile_reordered_iff`: when the order of the top-level classes does not matter.
-/

namespace Unnest

/-! ### A block at another place -/

/-- The surrounding class when all classes are numbered from `n` on. -/
def Enclosing.moved (n : Nat) (within : Enclosing) : Enclosing :=
  { within with self := within.self + n, top := within.top + n }

mutual

theorem pieceClasses_moved (n : Nat) : ∀ (ps : List Piece) (within : Enclosing) (next : Nat),
    pieceClasses (within.moved n) (next + n) ps = (pieceClasses within next ps).map
    (·.renumbered (· + n))
  | [], _, _ => rfl
  | .token _ :: ps, within, next => pieceClasses_moved n ps within next
  | .creation a :: ps, within, next => by
    simp only [pieceClasses, List.map_append]
    rw [Anonymous.classes_moved n a within next, List.length_map, Nat.add_right_comm,
      pieceClasses_moved n ps within]

theorem Anonymous.classes_moved (n : Nat) : ∀ (a : Anonymous) (within : Enclosing) (next : Nat),
    a.classes (within.moved n) (next + n) = (a.classes within next).map (·.renumbered (· + n))
  | ⟨place, base, none, members, _, label⟩, within, next => by
    have hbelow := memberClasses_moved n members ⟨next, within.top, label.getD []⟩ (next + 1)
    rw [Nat.add_right_comm] at hbelow
    simp only [Anonymous.classes, List.map_cons]
    exact congrArg _ hbelow
  | ⟨place, base, some ⟨_, pieces⟩, members, _, label⟩, within, next => by
    have hbeside := pieceClasses_moved n pieces within (next + 1)
    have hbelow := memberClasses_moved n members ⟨next, within.top, label.getD []⟩
      (next + 1 + (pieceClasses within (next + 1) pieces).length)
    rw [Nat.add_right_comm next 1 n] at hbeside
    rw [Nat.add_right_comm, Nat.add_right_comm next 1 n] at hbelow
    simp only [Anonymous.classes, List.map_cons, List.map_append, List.cons_append]
    rw [hbeside, List.length_map]
    exact congrArg _ (congrArg _ hbelow)

theorem declaratorClasses_moved (n : Nat) :
    ∀ (ds : List Declarator) (within : Enclosing) (next : Nat), declaratorClasses (within.moved n)
      (next + n) ds =
      (declaratorClasses within next ds).map (·.renumbered (· + n))
  | [], _, _ => rfl
  | ⟨_, _, _, _, none⟩ :: ds, within, next => declaratorClasses_moved n ds within next
  | ⟨_, _, _, _, some ⟨_, pieces⟩⟩ :: ds, within, next => by
    simp only [declaratorClasses, List.map_append]
    rw [pieceClasses_moved n pieces within next, List.length_map, Nat.add_right_comm,
      declaratorClasses_moved n ds within]

theorem Member.classes_moved (n : Nat) : ∀ (m : Member) (within : Enclosing) (next : Nat),
    m.classes (within.moved n) (next + n) = (m.classes within next).map (·.renumbered (· + n))
  | .field _ declarators, within, next => declaratorClasses_moved n declarators within next
  | .method _ none, _, _ => rfl
  | .method _ (some ⟨_, pieces⟩), within, next => pieceClasses_moved n pieces within next
  | .constructor _ ⟨_, pieces⟩, within, next => pieceClasses_moved n pieces within next
  | .nested head members, within, next => by
    have hbelow := memberClasses_moved n members
      ⟨next, within.top, within.emitted ++ lit "_" ++ head.name⟩ (next + 1)
    rw [Nat.add_right_comm] at hbelow
    simp only [Member.classes, List.map_cons]
    exact congrArg _ hbelow
  | .initializer _ ⟨_, pieces⟩, within, next => pieceClasses_moved n pieces within next
  | .constant _ none none, _, _ => rfl
  | .constant _ (some ⟨_, pieces⟩) none, within, next => pieceClasses_moved n pieces within next
  | .constant _ none (some body), within, next => Anonymous.classes_moved n body within next
  | .constant _ (some ⟨_, pieces⟩) (some body), within, next => by
    simp only [Member.classes, List.map_append]
    rw [pieceClasses_moved n pieces within next, List.length_map, Nat.add_right_comm,
      Anonymous.classes_moved n body within]

theorem memberClasses_moved (n : Nat) : ∀ (ms : List Member) (within : Enclosing) (next : Nat),
    memberClasses (within.moved n) (next + n) ms = (memberClasses within next ms).map
    (·.renumbered (· + n))
  | [], _, _ => rfl
  | m :: ms, within, next => by
    simp only [memberClasses, List.map_append]
    rw [Member.classes_moved n m within next, List.length_map, Nat.add_right_comm,
      memberClasses_moved n ms within]

end

/-- A block looks the same wherever it stands. -/
theorem TypeDecl.classes_eq (d : TypeDecl) (n : Nat) :
    d.classes n = (d.classes 0).map (·.renumbered (· + n)) := by
  have hbelow := memberClasses_moved n d.members ⟨0, 0, d.head.name⟩ 1
  simp only [TypeDecl.classes, List.map_cons]
  rw [← hbelow]
  simp [ClassInfo.renumbered, Enclosing.moved, Nat.add_comm]

/-! ### Places in a list of blocks -/

/-- The number of the first class in the block with index `t`. -/
def firstNumber (ds : List TypeDecl) (t : Nat) : Nat :=
  ((ds.take t).map fun d => (d.classes 0).length).sum

/-- The class `i` stands at place `a` in the block of `d`, which has the index `t`. -/
structure InBlock (ds : List TypeDecl) (i t : Nat) (d : TypeDecl) (a : Nat) : Prop where
  block : ds[t]? = some d
  lt : a < (d.classes 0).length
  eq : i = firstNumber ds t + a

section InBlock

variable {ds : List TypeDecl} {d d' : TypeDecl} {i i' t t' a a' next : Nat}

theorem firstNumber_succ (h : ds[t]? = some d) :
    firstNumber ds (t + 1) = firstNumber ds t + (d.classes 0).length := by
  simp [firstNumber, List.take_add_one, h]

theorem firstNumber_mono (h : t ≤ t') : firstNumber ds t ≤ firstNumber ds t' := by
  have hfront : ds.take t <+: ds.take t' := List.take_prefix_take_left h
  exact (hfront.sublist.map _).sum_le_sum (by simp)

theorem length_typeClasses (next : Nat) (ds : List TypeDecl) :
    (typeClasses next ds).length = (ds.map fun d => (d.classes 0).length).sum := by
  induction ds generalizing next with
  | nil => rfl
  | cons d ds ih =>
    rw [typeClasses, List.length_append, ih, d.classes_eq next, List.length_map]; rfl

theorem exists_inBlock (hi : i < (typeClasses next ds).length) : ∃ t d a, InBlock ds i t d a := by
  rw [length_typeClasses] at hi
  induction ds generalizing i with
  | nil => simp at hi
  | cons d ds ih =>
    rw [List.map_cons, List.sum_cons] at hi
    by_cases hd : i < (d.classes 0).length
    · exact ⟨0, d, i, rfl, hd, by simp [firstNumber]⟩
    · obtain ⟨t, d', a, hblock, hlt, heq⟩ := ih (i := i - (d.classes 0).length) (by omega)
      refine ⟨t + 1, d', a, by simpa using hblock, hlt, ?_⟩
      simp only [firstNumber, List.take_succ_cons, List.map_cons, List.sum_cons] at heq ⊢
      omega

theorem InBlock.getElem? (h : InBlock ds i t d a) (next : Nat) : (typeClasses next ds)[i]? =
    (d.classes 0)[a]?.map (·.renumbered (· + (next + firstNumber ds t))) := by
  obtain ⟨hblock, hlt, rfl⟩ := h
  induction ds generalizing next t with
  | nil => simp at hblock
  | cons d₀ ds ih =>
    rw [typeClasses]
    cases t with
    | zero =>
      obtain rfl : d₀ = d := by simpa using hblock
      rw [firstNumber, List.take_zero, List.map_nil, List.sum_nil, Nat.zero_add, d₀.classes_eq next,
        List.getElem?_append_left (by simpa using hlt), List.getElem?_map, Nat.add_zero]
    | succ t =>
      have hfirst : firstNumber (d₀ :: ds) (t + 1) = (d₀.classes next).length +
          firstNumber ds t := by
        rw [d₀.classes_eq next, List.length_map]
        simp [firstNumber]
      rw [hfirst, Nat.add_assoc, List.getElem?_append_right (Nat.le_add_right _ _),
        Nat.add_sub_cancel_left, ih _ (by simpa using hblock), Nat.add_assoc]

theorem InBlock.lt_iff (h : InBlock ds i t d a) (h' : InBlock ds i' t' d' a') :
    i < i' ↔ t < t' ∨ t = t' ∧ a < a' := by
  have hbound := firstNumber_succ h.block
  have hbound' := firstNumber_succ h'.block
  have hlt := h.lt
  have hlt' := h'.lt
  rw [h.eq, h'.eq]
  rcases Nat.lt_trichotomy t t' with htt | rfl | htt
  · have hmono : firstNumber ds (t + 1) ≤ firstNumber ds t' := firstNumber_mono htt
    omega
  · simp
  · have hmono : firstNumber ds (t' + 1) ≤ firstNumber ds t := firstNumber_mono htt
    omega

theorem InBlock.unique (h : InBlock ds i t d a) (h' : InBlock ds i t' d' a') :
    t = t' ∧ d = d' ∧ a = a' := by
  have hnot := mt (h.lt_iff h').mpr (lt_irrefl i)
  have hnot' := mt (h'.lt_iff h).mpr (lt_irrefl i)
  obtain rfl : t = t' := by omega
  refine ⟨rfl, ?_, by omega⟩
  exact Option.some.inj (h.block.symm.trans h'.block)

end InBlock

/-! ### Blocks in another order -/

/-- The names of top-level classes in order. -/
def topNames (ds : List TypeDecl) : List Text := ds.map (·.head.name)

namespace Plan

/-- The number of the top-level class around a class, or its own. -/
def top (p : Plan) (i : Nat) : Nat := (p.class? i).elim i (·.top)

/-- The name of the top-level class around a class, or its own. -/
def topName (p : Plan) (i : Nat) : Text := p.simpleName (p.top i)

/-- The classes of top-level classes, without bases. -/
abbrev ofTypes (ds : List TypeDecl) : Plan := { classes := typeClasses 0 ds }

/-- The number of a class of `p` when the blocks of its top-level classes are put in the order
`ds`. -/
def numberIn (p : Plan) (ds : List TypeDecl) (i : Nat) : Nat :=
  firstNumber ds ((topNames ds).idxOf (p.topName i)) + (i - p.top i)

end Plan

section Blocks

variable {ds ds' : List TypeDecl} {d : TypeDecl} {i t t' a : Nat}

theorem idxOf_topNames (hnames : (topNames ds).Nodup) (h : ds[t]? = some d) :
    (topNames ds).idxOf d.head.name = t := by
  obtain ⟨ht, rfl⟩ := List.getElem?_eq_some_iff.mp h
  have hlt : t < (topNames ds).length := by simpa [topNames] using ht
  have hget : (topNames ds)[t] = ds[t].head.name := by simp [topNames]
  rw [← hget]
  exact hnames.idxOf_getElem t hlt

theorem index_unique (hnames : (topNames ds).Nodup) (h : ds[t]? = some d) (h' : ds[t']? = some d) :
    t = t' :=
  (idxOf_topNames hnames h).symm.trans (idxOf_topNames hnames h')

namespace InBlock

theorem exists_class (h : InBlock ds i t d a) : ∃ c, (d.classes 0)[a]? = some c ∧
    (Plan.ofTypes ds).class? i = some (c.renumbered (· + firstNumber ds t)) := by
  have hc := List.getElem?_eq_getElem h.lt
  have hget := h.getElem? 0
  rw [hc, Option.map_some, Nat.zero_add] at hget
  exact ⟨_, hc, hget⟩

theorem first (h : InBlock ds i t d a) : InBlock ds (firstNumber ds t) t d 0 where
  block := h.block
  lt := Nat.zero_lt_of_lt h.lt
  eq := rfl

theorem lt_size (h : InBlock ds i t d a) : i < (Plan.ofTypes ds).size := by
  obtain ⟨c, -, hclass⟩ := h.exists_class
  exact Plan.lt_size_of_getElem? hclass

theorem top_eq (h : InBlock ds i t d a) : (Plan.ofTypes ds).top i = firstNumber ds t := by
  obtain ⟨c, hc, hclass⟩ := h.exists_class
  rw [Plan.top, hclass, Option.elim_some, ClassInfo.renumbered, (TypeDecl.parent_classes hc).1,
    Nat.zero_add]

theorem parent?_eq_none_iff (h : InBlock ds i t d a) : (Plan.ofTypes ds).parent? i = none ↔
    a = 0 := by
  obtain ⟨c, hc, hclass⟩ := h.exists_class
  rw [Plan.parent?, hclass, Option.bind_some, ClassInfo.renumbered, Option.map_eq_none_iff,
    (TypeDecl.parent_classes hc).2]

theorem topName_eq (h : InBlock ds i t d a) : (Plan.ofTypes ds).topName i = d.head.name := by
  rw [Plan.topName, h.top_eq]
  obtain ⟨c, hc, hclass⟩ := h.first.exists_class
  rw [Plan.simpleName, hclass]
  cases hc
  rfl

theorem numberIn (h : InBlock ds i t d a) (hnames : (topNames ds').Nodup)
    (hblock : ds'[t']? = some d) :
    InBlock ds' ((Plan.ofTypes ds).numberIn ds' i) t' d a := by
  refine ⟨hblock, h.lt, ?_⟩
  rw [Plan.numberIn, h.topName_eq, h.top_eq, idxOf_topNames hnames hblock, h.eq,
    Nat.add_sub_cancel_left]

end InBlock

section Reordered

variable (hperm : ds'.Perm ds) (hnames : (topNames ds).Nodup)

include hperm hnames

theorem nodup_topNames : (topNames ds').Nodup := (hperm.map _).nodup_iff.mpr hnames

theorem exists_places (hi : i < (Plan.ofTypes ds).size) :
    ∃ t t' d a, InBlock ds i t d a ∧ InBlock ds' ((Plan.ofTypes ds).numberIn ds' i) t' d a := by
  obtain ⟨t, d, a, h⟩ := exists_inBlock hi
  obtain ⟨t', ht'⟩ := List.mem_iff_getElem?.mp (hperm.mem_iff.mpr (List.mem_of_getElem? h.block))
  exact ⟨t, t', d, a, h, h.numberIn (nodup_topNames hperm hnames) ht'⟩

theorem class?_reordered (hi : i < (Plan.ofTypes ds).size) :
    (Plan.ofTypes ds').class? ((Plan.ofTypes ds).numberIn ds' i) =
      ((Plan.ofTypes ds).class? i).map (·.renumbered ((Plan.ofTypes ds).numberIn ds')) := by
  obtain ⟨t, t', d, a, h, h'⟩ := exists_places hperm hnames hi
  obtain ⟨c, hc, hclass⟩ := h.exists_class
  obtain ⟨c', hc', hclass'⟩ := h'.exists_class
  obtain rfl : c = c' := Option.some.inj (hc.symm.trans hc')
  -- the numbers of the classes in the same block
  have hnumber : ∀ j < (d.classes 0).length,
      (Plan.ofTypes ds).numberIn ds' (j + firstNumber ds t) = j + firstNumber ds' t' := by
    intro j hj
    have hplace : InBlock ds (j + firstNumber ds t) t d j := ⟨h.block, hj, Nat.add_comm _ _⟩
    rw [(hplace.numberIn (nodup_topNames hperm hnames) h'.block).eq, Nat.add_comm]
  have hnested : Nested 0 (d.classes 0) := by
    have hnested := nested_typeClasses 0 [d]
    rwa [typeClasses, typeClasses, List.append_nil] at hnested
  obtain ⟨hbases, hparent⟩ := hnested a c hc
  have htop := (TypeDecl.parent_classes hc).1
  have hlt := h.lt
  have hparent' : c.parent.map (· + firstNumber ds' t') =
      (c.parent.map (· + firstNumber ds t)).map ((Plan.ofTypes ds).numberIn ds') := by
    cases hj : c.parent with
    | none => rfl
    | some j =>
      have hja := hparent j hj
      simp only [Option.map_some]
      rw [hnumber j (by omega)]
  rw [hclass, hclass', Option.map_some]
  simp only [ClassInfo.renumbered, hbases, htop, List.map_nil, hparent', hnumber 0 (by omega)]

end Reordered

theorem top_eq_of_parent? {j : Nat} (h : (Plan.ofTypes ds).parent? i = some j) :
    (Plan.ofTypes ds).top i = (Plan.ofTypes ds).top j := by
  obtain ⟨c, hc, hj⟩ := Option.bind_eq_some_iff.mp h
  rcases rooted_types 0 ds i c hc with ⟨hnone, -⟩ | ⟨k, c', hparent, -, hc', htop⟩
  · rw [hnone] at hj
    cases hj
  · rw [hparent, Nat.zero_add] at hj
    cases hj
    have hclass' : (Plan.ofTypes ds).class? j = some c' := hc'
    rw [Plan.top, Plan.top, hc, hclass', Option.elim_some, Option.elim_some, htop]

theorem parent_lt_ofTypes (ds : List TypeDecl) (i j : Nat)
    (h : (Plan.ofTypes ds).parent? i = some j) : j < i := by
  obtain ⟨c, hc, hj⟩ := Option.bind_eq_some_iff.mp h
  have hlt := (nested_typeClasses 0 ds i c hc).2 j hj
  omega

theorem Plan.renumbers_reordered (hperm : ds'.Perm ds) (hnames : (topNames ds).Nodup) :
    Renumbers ((ofTypes ds).numberIn ds') (ofTypes ds) (ofTypes ds') where
  size_eq := by
    rw [size, size, length_typeClasses, length_typeClasses]
    exact (hperm.map _).sum_eq
  class?_eq i hi := class?_reordered hperm hnames hi
  inj i hi j hj heq := by
    obtain ⟨t, t', d, a, h, h'⟩ := exists_places hperm hnames hi
    obtain ⟨u, u', e, b, g, g'⟩ := exists_places hperm hnames hj
    rw [heq] at h'
    obtain ⟨-, rfl, rfl⟩ := h'.unique g'
    obtain rfl := index_unique hnames h.block g.block
    rw [h.eq, g.eq]
  surj k hk := by
    have hk' : k < (typeClasses 0 ds').length := by
      rw [length_typeClasses, (hperm.map _).sum_eq, ← length_typeClasses 0]
      exact hk
    obtain ⟨t', d, a, h'⟩ := exists_inBlock hk'
    obtain ⟨t, ht⟩ := List.mem_iff_getElem?.mp (hperm.mem_iff.mp (List.mem_of_getElem? h'.block))
    have h : InBlock ds (firstNumber ds t + a) t d a := ⟨ht, h'.lt, rfl⟩
    refine ⟨_, h.lt_size, ?_⟩
    rw [(h.numberIn (nodup_topNames hperm hnames) h'.block).eq, h'.eq]
  parent_lt := parent_lt_ofTypes ds
  parent_lt' := parent_lt_ofTypes ds'
  inner_lt i j owner hi hj hlt := by
    obtain ⟨t, t', d, a, h, h'⟩ := exists_places hperm hnames (lt_size_of_parent? hi)
    obtain ⟨u, u', e, b, g, g'⟩ := exists_places hperm hnames (lt_size_of_parent? hj)
    -- both are in the block of the class around them
    have htop : firstNumber ds t = firstNumber ds u := by
      rw [← h.top_eq, ← g.top_eq, top_eq_of_parent? hi, top_eq_of_parent? hj]
    obtain ⟨rfl, rfl, -⟩ := h.first.unique (htop ▸ g.first)
    obtain rfl := index_unique (nodup_topNames hperm hnames) h'.block g'.block
    refine (h'.lt_iff g').mpr (Or.inr ⟨rfl, ?_⟩)
    have hab := (h.lt_iff g).mp hlt
    omega
  tops_inj i hi j hj hname := by
    obtain ⟨hi, hparent⟩ := mem_tops.mp hi
    obtain ⟨hj, hparent'⟩ := mem_tops.mp hj
    obtain ⟨t, d, a, h⟩ := exists_inBlock hi
    obtain ⟨u, e, b, g⟩ := exists_inBlock hj
    obtain rfl := h.parent?_eq_none_iff.mp hparent
    obtain rfl := g.parent?_eq_none_iff.mp hparent'
    have hd : (ofTypes ds).simpleName i = d.head.name := by
      rw [← h.topName_eq, topName, h.top_eq, h.eq, Nat.add_zero]
    have he : (ofTypes ds).simpleName j = e.head.name := by
      rw [← g.topName_eq, topName, g.top_eq, g.eq, Nat.add_zero]
    have htu : t = u := by
      rw [← idxOf_topNames hnames h.block, ← idxOf_topNames hnames g.block, ← hd, ← he, hname]
    rw [h.eq, g.eq, htu]
  bases_lt i b hb := by
    rw [bases_eq_nil (nested_typeClasses 0 ds)] at hb
    cases hb

end Blocks

/-! ### Files in another order -/

namespace Plan

variable {known : List Text} {f : File} {p q s : Plan} {ds' : List TypeDecl}

/-- The pairs of names of a class and of a base of it in the same file. -/
def basePairs (p : Plan) : List (Text × Text) :=
  (List.range p.size).flatMap fun i => (p.bases i).map fun b => (p.emitted i, p.emitted b)

theorem mem_basePairs {pair : Text × Text} :
    pair ∈ p.basePairs ↔ ∃ i < p.size, ∃ b ∈ p.bases i, (p.emitted i, p.emitted b) = pair := by
  simp only [basePairs, List.mem_flatMap, List.mem_range, List.mem_map]

theorem Renumbers.mem_basePairs_iff {σ : Nat → Nat} {p' : Plan} (h : Renumbers σ p p')
    {pair : Text × Text} :
    pair ∈ p'.basePairs ↔ pair ∈ p.basePairs := by
  rw [mem_basePairs, mem_basePairs]
  constructor
  · rintro ⟨k, hk, b, hb, rfl⟩
    obtain ⟨i, hi, rfl⟩ := h.exists_number hk
    rw [h.bases_eq hi] at hb
    obtain ⟨b, hbase, rfl⟩ := List.mem_map.mp hb
    exact ⟨i, hi, b, hbase, by rw [h.emitted_eq hi, h.emitted_eq (h.bases_lt i b hbase)]⟩
  · rintro ⟨i, hi, b, hb, rfl⟩
    refine ⟨σ i, h.lt_size hi, σ b, ?_, ?_⟩
    · rw [h.bases_eq hi]
      exact List.mem_map_of_mem hb
    · rw [h.emitted_eq hi, h.emitted_eq (h.bases_lt i b hb)]

/-- Whether an order of the top-level classes of a file leaves every class before, or behind, the
classes that are read for it, classes without bases apart. -/
def KeepsReads (known : List Text) (f : File) (q : Plan) (names : List Text) : Prop :=
  ∀ a ∈ reads (isExternal known f.imports) { classes := f.classes }, q.bases a.2 = [] ∨
    (names.idxOf (q.topName a.2) < names.idxOf (q.topName a.1) ↔
      (topNames f.types).idxOf (q.topName a.2) < (topNames f.types).idxOf (q.topName a.1))

theorem topName_eq_of_extends (h : Extends p q) (i : Nat) : q.topName i = p.topName i := by
  have htop : ∀ p : Plan, p.withoutBases.topName i = p.topName i := by
    intro p
    rw [topName, simpleName_withoutBases, topName, top, class?_withoutBases, top]
    cases p.class? i <;> rfl
  rw [← htop q, withoutBases_of_extends h, htop]

theorem numberIn_lt_iff (hperm : ds'.Perm f.types) (hnames : (topNames f.types).Nodup) {i k : Nat}
    (hi : i < (ofTypes f.types).size) (hk : k < (ofTypes f.types).size)
    (h : (topNames ds').idxOf ((ofTypes f.types).topName k) <
      (topNames ds').idxOf ((ofTypes f.types).topName i) ↔
      (topNames f.types).idxOf ((ofTypes f.types).topName k) <
        (topNames f.types).idxOf ((ofTypes f.types).topName i)) :
    (ofTypes f.types).numberIn ds' k < (ofTypes f.types).numberIn ds' i ↔ k < i := by
  have hnames' := nodup_topNames hperm hnames
  obtain ⟨t, t', d, a, hd, hd'⟩ := exists_places hperm hnames hi
  obtain ⟨u, u', e, b, he, he'⟩ := exists_places hperm hnames hk
  rw [hd.topName_eq, he.topName_eq, idxOf_topNames hnames hd.block, idxOf_topNames hnames he.block,
    idxOf_topNames hnames' hd'.block, idxOf_topNames hnames' he'.block] at h
  have hsame : u' = t' ↔ u = t := by
    constructor
    · rintro rfl
      obtain rfl : d = e := Option.some.inj (hd'.block.symm.trans he'.block)
      exact index_unique hnames he.block hd.block
    · rintro rfl
      obtain rfl : d = e := Option.some.inj (hd.block.symm.trans he.block)
      exact index_unique hnames' he'.block hd'.block
  rw [he'.lt_iff hd', he.lt_iff hd, h, hsame]

section SameClasses

variable (h : q.classes = p.classes)

include h

theorem bases_of_classes_eq : q.bases = p.bases := by
  funext i
  simp only [bases, class?, h]

theorem topName_of_classes_eq : q.topName = p.topName := by
  funext i
  simp only [topName, simpleName, top, class?, h]

theorem basePairs_of_classes_eq : q.basePairs = p.basePairs := by
  simp only [basePairs, size, emitted, class?, bases_of_classes_eq h, h]

end SameClasses

theorem exists_ofFile_reordered (hperm : ds'.Perm f.types) (hnames : (topNames f.types).Nodup)
    (h : ofFile known f = .ok q) (hreads : KeepsReads known f q (topNames ds')) :
    ∃ q', ofFile known { f with types := ds' } = .ok q' ∧ ∀ pair, pair ∈ q.basePairs ↔
      pair ∈ q'.basePairs := by
  obtain ⟨p, hp, hacc, hq⟩ := ofFile_eq_ok_iff.mp h
  have hclasses : q.classes = p.classes := by rw [hq]
  have hnested := nested_typeClasses 0 f.types
  have hext : Extends (ofTypes f.types) p := extends_of_resolveBases hnested hp
  have hrenumbers := renumbers_reordered hperm hnames
  obtain ⟨order, hordered, hmap, hidx⟩ := hrenumbers.exists_order
  -- the same bases are found in the other order, and with the other numbers
  obtain ⟨s, hs, hsclasses⟩ := exists_turns hnested hp hordered fun i k hik => by
    have hi := lt_size_of_mem_reads hik
    have hkeeps := hreads (i, k) hik
    rw [bases_of_classes_eq hclasses, topName_of_classes_eq hclasses, topName_eq_of_extends hext,
      topName_eq_of_extends hext] at hkeeps
    refine hkeeps.elim Or.inl fun hkeeps => ?_
    by_cases hk : k < (ofTypes f.types).size
    · rw [hidx i hi, hidx k hk]
      exact Or.inr (numberIn_lt_iff hperm hnames hi hk hkeeps)
    · refine Or.inl (List.eq_nil_iff_forall_not_mem.mpr fun b hb => hk ?_)
      rw [← hext.size_eq]
      exact (hext.lt_size_of_mem_bases hb).1
  obtain ⟨s', hs', hss'⟩ := Renumbers.turns hnested hrenumbers hrenumbers (extends_self hnested)
    (fun i hi => List.mem_range.mp (hordered.mem_iff.mp hi)) hs
  rw [hmap, ← hrenumbers.size_eq, ← resolveBases_eq] at hs'
  -- and no class is derived from itself
  have hacc' : ∀ c, c < s'.size → Acc s'.IsBase c := by
    intro c hc
    obtain ⟨i, hi, rfl⟩ := hss'.exists_number hc
    have hbase : s.IsBase = p.IsBase := by
      funext b c
      rw [IsBase, IsBase, bases_of_classes_eq hsclasses]
    refine hss'.acc ?_ hi
    rw [hbase]
    exact hacc i (by rwa [size, ← hsclasses])
  have hclasses' : Plan.classes { s' with emission := s'.arrangement.defined } = s'.classes := rfl
  refine ⟨_, ofFile_eq_ok_iff.mpr ⟨s', hs', hacc', rfl⟩, fun pair => ?_⟩
  rw [basePairs_of_classes_eq hclasses, basePairs_of_classes_eq hclasses',
    ← basePairs_of_classes_eq hsclasses, hss'.mem_basePairs_iff]

theorem topNames_labelled (ds : List TypeDecl) : topNames (ds.map (·.labelled)) = topNames ds := by
  rw [topNames, List.map_map]
  rfl

/-- **Top-level classes in another order**. A file whose top-level classes have different names has
a plan exactly if it has one in another order of these classes, and both plans have the same pairs
of a class and a base, if the order of a class and the classes whose bases are read for it is the
same in both, as far as these have bases. -/
theorem ofFile_reordered_iff (hperm : ds'.Perm f.types) (hnames : (topNames f.types).Nodup)
    (h : ∀ q, ofFile known f.labelled = .ok q → KeepsReads known f.labelled q (topNames ds'))
    (h' : ∀ q, ofFile known (File.labelled { f with types := ds' }) = .ok q →
      KeepsReads known (File.labelled { f with types := ds' }) q (topNames f.types)) :
    ((∃ q, ofFile known f.labelled = .ok q) ↔
      ∃ q, ofFile known (File.labelled { f with types := ds' }) = .ok q) ∧
    ∀ q q', ofFile known f.labelled = .ok q →
      ofFile known (File.labelled { f with types := ds' }) = .ok q' →
      ∀ pair, pair ∈ q.basePairs ↔ pair ∈ q'.basePairs := by
  have hnames' := nodup_topNames hperm hnames
  rw [← topNames_labelled] at hnames hnames'
  have hlabelled := hperm.map (·.labelled)
  have hthere : ∀ q, ofFile known f.labelled = .ok q →
      ∃ q', ofFile known (File.labelled { f with types := ds' }) =
      .ok q' ∧ ∀ pair, pair ∈ q.basePairs ↔ pair ∈ q'.basePairs := fun q hq => by
    have hkeeps := h q hq
    rw [← topNames_labelled] at hkeeps
    exact exists_ofFile_reordered (f := f.labelled) hlabelled hnames hq hkeeps
  have hback : ∀ q, ofFile known (File.labelled { f with types := ds' }) = .ok q →
      ∃ q', ofFile known f.labelled =
      .ok q' ∧ ∀ pair, pair ∈ q.basePairs ↔ pair ∈ q'.basePairs := fun q hq => by
    have hkeeps := h' q hq
    rw [← topNames_labelled] at hkeeps
    exact exists_ofFile_reordered (f := File.labelled { f with types := ds' }) hlabelled.symm
      hnames' hq hkeeps
  refine ⟨⟨fun ⟨q, hq⟩ => ?_, fun ⟨q, hq⟩ => ?_⟩, fun q q' hq hq' => ?_⟩
  · obtain ⟨q', hq', -⟩ := hthere q hq
    exact ⟨q', hq'⟩
  · obtain ⟨q', hq', -⟩ := hback q hq
    exact ⟨q', hq'⟩
  · obtain ⟨q₀, hq₀, hpairs⟩ := hthere q hq
    obtain rfl : q' = q₀ := Except.ok.inj (hq'.symm.trans hq₀)
    exact hpairs

/-- The classes `B`, `A` and `C` in this order. -/
def baseLast : File :=
  { inheritedBefore with types := inheritedBefore.types.rotate 1 }

/-- The class `B` is read for `X` and has a base, so it must stay before `A`, but its base `C` can
come last. -/
theorem ofFile_reordered_iff_rotated : ∃ q q', ofFile [] inheritedBefore.labelled = .ok q ∧
    ofFile [] baseLast.labelled = .ok q' ∧
    (lit "A_X", lit "C_T") ∈ q.basePairs ∧ ∀ pair, pair ∈ q.basePairs ↔ pair ∈ q'.basePairs := by
  have hplan : (ofFile [] inheritedBefore.labelled).map (fun q =>
      (q.topName 2, q.topName 3, q.topName 4, q.basePairs)) = .ok (lit "B", lit "A", lit "A",
        [(lit "B", lit "C"), (lit "A", lit "B"), (lit "A_X", lit "C_T")]) := by cbv
  have hplan' : (ofFile [] baseLast.labelled).map
      (fun q => (q.topName 0, q.topName 1, q.topName 2)) =
      .ok (lit "B", lit "A", lit "A") := by cbv
  have hreads : reads (isExternal [] inheritedBefore.labelled.imports)
      { classes := inheritedBefore.labelled.classes } = [(4, 3), (4, 2)] := by cbv
  have hreads' : reads (isExternal [] baseLast.labelled.imports)
      { classes := baseLast.labelled.classes } = [(2, 1), (2, 0)] := by cbv
  obtain ⟨q, hq, hvalues⟩ := Except.map_eq_ok.mp hplan
  obtain ⟨q', hq', hvalues'⟩ := Except.map_eq_ok.mp hplan'
  simp only [Prod.mk.injEq] at hvalues hvalues'
  obtain ⟨hB, hA, hX, hpairs⟩ := hvalues
  obtain ⟨hB', hA', hX'⟩ := hvalues'
  have hkeeps : KeepsReads [] inheritedBefore.labelled q (topNames baseLast.types) := by
    intro a ha
    rw [hreads, List.mem_pair] at ha
    rcases ha with rfl | rfl
    · exact Or.inr (by simp only [hA, hX, lt_irrefl])
    · exact Or.inr (by simp only [hB, hX]; decide)
  have hkeeps' : KeepsReads [] baseLast.labelled q' (topNames inheritedBefore.types) := by
    intro a ha
    rw [hreads', List.mem_pair] at ha
    rcases ha with rfl | rfl
    · exact Or.inr (by simp only [hA', hX', lt_irrefl])
    · exact Or.inr (by simp only [hB', hX']; decide)
  have hsame := ofFile_reordered_iff (List.rotate_perm inheritedBefore.types 1) (by decide)
    (fun r hr => Except.ok.inj (hq.symm.trans hr) ▸ hkeeps) fun r hr =>
    Except.ok.inj (hq'.symm.trans hr) ▸ hkeeps'
  refine ⟨q, q', hq, hq', ?_, hsame.2 q q' hq hq'⟩
  rw [hpairs]
  decide

/-- With the classes the other way round, `A` inherits `T` only when the base of `B` is noted, which
is after the base of `X` was looked up. So there is a plan in one order and none in the other. -/
theorem no_plan_in_other_order : (topNames inheritedBefore.types).Nodup ∧
    (∃ q, ofFile [] inheritedBefore.labelled = .ok q) ∧
    ¬ ∃ q, ofFile []
    (File.labelled { inheritedBefore with types := inheritedBefore.types.reverse }) = .ok q := by
  have hplan : ((ofFile [] inheritedBefore.labelled).map fun _ => ()) = .ok () := by cbv
  have hnone : (ofFile []
      (File.labelled { inheritedBefore with types := inheritedBefore.types.reverse })).isOk =
      false := by cbv
  refine ⟨by decide, ?_, ?_⟩
  · obtain ⟨q, hq, -⟩ := Except.map_eq_ok.mp hplan
    exact ⟨q, hq⟩
  · rintro ⟨q, hq⟩
    rw [hq] at hnone
    cases hnone

end Plan

end Unnest
