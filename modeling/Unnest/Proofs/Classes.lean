import Unnest.Proofs.Outcome
import Unnest.Plan.Bases
import Mathlib.Tactic.Common

/-!
# The numbers of the classes of a file

The classes of a file are numbered in declaration order, so the class around a class has a smaller
number. Looking up a name gives the number of a class, and filling in the bases changes nothing but
the bases.

* `Listed`, `listed_members`: how the classes inside a class are listed;
* `Plan.Extends`: what filling in bases keeps.
-/

namespace Unnest

/-! ### Classes inside a class -/

/-- The classes below the class `within`, the first of them with the number `next`. Each stands in
front of the classes that are created in its arguments, which are beside it, and of those inside
it. -/
inductive Listed : (within : Enclosing) → (next : Nat) → List ClassInfo → Prop
  | nil {within : Enclosing} {next : Nat} : Listed within next []
  | append {within : Enclosing} {next : Nat} {cs cs' : List ClassInfo}
      (first : Listed within next cs)
    (rest : Listed within (next + cs.length) cs') : Listed within next (cs ++ cs')
  | cons {within : Enclosing} {next : Nat} {c : ClassInfo} {cs cs' : List ClassInfo}
    (parent : c.parent = some within.self) (top : c.top = within.top) (bases : c.bases = [])
    (emitted : c.isAnonymous = false → c.emitted = within.emitted ++ lit "_" ++ c.simpleName)
    (inside : cs' = memberClasses ⟨next, within.top, c.emitted⟩ (next + 1 + cs.length) c.members)
    (beside : Listed within (next + 1) cs)
    (below : Listed ⟨next, within.top, c.emitted⟩ (next + 1 + cs.length) cs') :
    Listed within next (c :: (cs ++ cs'))

mutual

theorem listed_pieces : ∀ (ps : List Piece) (within : Enclosing) (next : Nat),
    Listed within next (pieceClasses within next ps)
  | [], _, _ => .nil
  | .token _ :: ps, within, next => listed_pieces ps within next
  | .creation a :: ps, within, next =>
    .append (Anonymous.listed a within next) (listed_pieces ps within _)

theorem Anonymous.listed : ∀ (a : Anonymous) (within : Enclosing) (next : Nat),
    Listed within next (a.classes within next)
  | ⟨_, _, none, members, _, _⟩, _, _ =>
    .cons rfl rfl rfl (by simp [ClassInfo.isAnonymous]) rfl .nil (listed_members members _ _)
  | ⟨_, _, some ⟨_, pieces⟩, members, _, _⟩, _, _ =>
    .cons rfl rfl rfl (by simp [ClassInfo.isAnonymous]) rfl (listed_pieces pieces _ _)
    (listed_members members _ _)

theorem listed_declarators : ∀ (ds : List Declarator) (within : Enclosing) (next : Nat),
    Listed within next (declaratorClasses within next ds)
  | [], _, _ => .nil
  | ⟨_, _, _, _, none⟩ :: ds, within, next => listed_declarators ds within next
  | ⟨_, _, _, _, some ⟨_, pieces⟩⟩ :: ds, within, next =>
    .append (listed_pieces pieces within next) (listed_declarators ds within _)

theorem Member.listed : ∀ (m : Member) (within : Enclosing) (next : Nat),
    Listed within next (m.classes within next)
  | .field _ declarators, within, next => listed_declarators declarators within next
  | .method _ none, _, _ => .nil
  | .method _ (some ⟨_, pieces⟩), within, next => listed_pieces pieces within next
  | .constructor _ ⟨_, pieces⟩, within, next => listed_pieces pieces within next
  | .nested _ members, _, _ =>
    .cons rfl rfl rfl (fun _ => rfl) rfl .nil (listed_members members _ _)
  | .initializer _ ⟨_, pieces⟩, within, next => listed_pieces pieces within next
  | .constant _ none none, _, _ => .nil
  | .constant _ (some ⟨_, pieces⟩) none, within, next => listed_pieces pieces within next
  | .constant _ none (some body), within, next => Anonymous.listed body within next
  | .constant _ (some ⟨_, pieces⟩) (some body), within, next =>
    .append (listed_pieces pieces within next) (Anonymous.listed body within _)

theorem listed_members : ∀ (ms : List Member) (within : Enclosing) (next : Nat),
    Listed within next (memberClasses within next ms)
  | [], _, _ => .nil
  | m :: ms, within, next => .append (Member.listed m within next) (listed_members ms within _)

end

/-! ### Parents -/

/-- In a list of classes numbered from `next` on, the class around a class comes before it, and no
bases are known yet. -/
def Nested (next : Nat) (cs : List ClassInfo) : Prop :=
  ∀ (k : Nat) c, cs[k]? = some c → c.bases = [] ∧ ∀ j, c.parent = some j → j < next + k

section Nested

variable {next : Nat} {within : Enclosing} {c : ClassInfo} {cs cs' : List ClassInfo}

theorem nested_nil : Nested next [] := by simp [Nested]

theorem nested_append (h : Nested next cs) (h' : Nested (next + cs.length) cs') :
    Nested next (cs ++ cs') := by
  intro k c hc
  rcases Nat.lt_or_ge k cs.length with hk | hk
  · rw [List.getElem?_append_left hk] at hc
    exact h k c hc
  · rw [List.getElem?_append_right hk] at hc
    obtain ⟨hbases, hparent⟩ := h' _ c hc
    refine ⟨hbases, fun j hj => ?_⟩
    have := hparent j hj
    omega

theorem nested_cons (hbases : c.bases = []) (h : ∀ j, c.parent = some j → j < next)
    (h' : Nested (next + 1) cs) : Nested next (c :: cs) := by
  change Nested next ([c] ++ cs)
  refine nested_append (fun k c' hc => ?_) h'
  obtain ⟨rfl, rfl⟩ : k = 0 ∧ c = c' := by
    cases k with
    | zero => exact ⟨rfl, by simpa using hc⟩
    | succ k => simp at hc
  exact ⟨hbases, h⟩

end Nested

theorem Listed.nested {within : Enclosing} {next : Nat} {cs : List ClassInfo}
    (h : Listed within next cs) (hnext : within.self < next) : Nested next cs := by
  induction h with
  | nil => exact nested_nil
  | append _ _ ih ih' => exact nested_append (ih hnext) (ih' (by omega))
  | @cons _ next _ cs _ hparent _ hbases _ _ _ _ ihbeside ihbelow =>
    refine nested_cons hbases (fun j hj => ?_) (nested_append (ihbeside (by omega)) (ihbelow ?_))
    · rw [hparent, Option.some.injEq] at hj
      omega
    · change next < next + 1 + cs.length
      omega

theorem nested_memberClasses (ms : List Member) {within : Enclosing} {next : Nat}
    (h : within.self < next) :
    Nested next (memberClasses within next ms) := (listed_members ms within next).nested h

theorem nested_typeClasses (next : Nat) (ds : List TypeDecl) :
    Nested next (typeClasses next ds) := by
  induction ds generalizing next with
  | nil => exact nested_nil
  | cons d ds ih =>
    refine nested_append (nested_cons rfl (by simp) ?_) (ih _)
    exact nested_memberClasses d.members (Nat.lt_succ_self next)

theorem File.nested_classes (f : File) : Nested 0 f.classes := nested_typeClasses 0 f.types

namespace Plan

variable {p q : Plan} {i j : Nat}

/-! ### Selections -/

theorem mem_select {test : ClassInfo → Bool} :
    i ∈ p.select test ↔ ∃ c, p.classes[i]? = some c ∧ test c = true := by
  unfold select
  rw [List.mem_filterMap]
  constructor
  · rintro ⟨⟨c, k⟩, hmem, h⟩
    rw [List.mk_mem_zipIdx_iff_getElem?] at hmem
    simp only [Option.ite_none_right_eq_some, Option.some.injEq] at h
    obtain ⟨htest, rfl⟩ := h
    exact ⟨c, hmem, htest⟩
  · rintro ⟨c, hc, htest⟩
    exact ⟨(c, i), List.mk_mem_zipIdx_iff_getElem?.mpr hc, by simp [htest]⟩

theorem lt_size_of_getElem? {c : ClassInfo} (h : p.classes[i]? = some c) : i < p.size :=
  (List.getElem?_eq_some_iff.mp h).1

theorem lt_size_of_mem_select {test : ClassInfo → Bool} (h : i ∈ p.select test) : i < p.size := by
  obtain ⟨c, hc, -⟩ := mem_select.mp h
  exact lt_size_of_getElem? hc

theorem mem_inner : i ∈ p.inner j ↔ p.parent? i = some j := by
  unfold inner parent? class?
  rw [mem_select]
  cases p.classes[i]? with
  | none => simp
  | some c => simp

theorem mem_tops : i ∈ p.tops ↔ i < p.size ∧ p.parent? i = none := by
  unfold tops parent? class? size
  rw [mem_select]
  cases h : p.classes[i]? with
  | none => simpa using h
  | some c => simpa using fun _ => (List.getElem?_eq_some_iff.mp h).1

/-! ### Names -/

theorem lt_size_of_child? {name : Text} {owner : Nat} (h : p.child? name owner = some i) :
    i < p.size :=
  lt_size_of_mem_select (List.mem_of_find?_eq_some h)

theorem lt_size_of_memberWithin? {name : Text} {levels owner : Nat}
    (h : p.memberWithin? name levels owner = some i) : i < p.size := by
  induction levels generalizing owner with
  | zero => cases h
  | succ levels ih =>
    rw [memberWithin?, Option.or_eq_some_iff] at h
    rcases h with h | ⟨-, h⟩
    · exact lt_size_of_child? h
    · obtain ⟨base, -, h⟩ := List.exists_of_findSome?_eq_some h
      exact ih h

theorem le_of_mem_outward (h : j ∈ p.outward i) : j ≤ i := by
  induction i using outward.induct p with
  | case1 i k hk hlt ih =>
    rw [outward] at h
    simp only [hk, hlt, dite_true] at h
    rcases List.mem_cons.mp h with rfl | h
    · exact Nat.le_refl _
    · exact Nat.le_of_lt (Nat.lt_of_le_of_lt (ih h) hlt)
  | case2 i k hk hlt =>
    rw [outward] at h
    simp only [hk, hlt, dite_false, List.mem_singleton] at h
    exact Nat.le_of_eq h
  | case3 i hk =>
    rw [outward] at h
    simp only [hk, List.mem_singleton] at h
    exact Nat.le_of_eq h

theorem lt_size_of_visible? {name : Text} {scope : Nat} (hscope : scope < p.size)
    (h : p.visible? name scope = some i) : i < p.size := by
  unfold visible? at h
  rcases Option.or_eq_some_iff.mp h with h | ⟨-, h⟩
  · exact lt_size_of_memberWithin? h
  · split_ifs at h
    cases h
    exact hscope

theorem lt_size_of_lookup {name : Text} {scope : Option Nat}
    (hscope : ∀ j, scope = some j → j < p.size) (h : p.lookup name scope = some i) :
    i < p.size := by
  unfold lookup at h
  rcases Option.or_eq_some_iff.mp h with h | ⟨-, h⟩
  · obtain ⟨k, hk, hvisible⟩ := List.exists_of_findSome?_eq_some h
    cases scope with
    | none => cases hk
    | some j =>
      have hkj := le_of_mem_outward hk
      exact lt_size_of_visible? (Nat.lt_of_le_of_lt hkj (hscope j rfl)) hvisible
  · exact lt_size_of_mem_select (List.mem_of_find?_eq_some h)

theorem lt_size_of_resolve {name : Text} {scope : Option Nat}
    (hscope : ∀ j, scope = some j → j < p.size) (h : p.resolve name scope = some i) :
    i < p.size := by
  have hparts : ∀ (parts : List Text) (found : Option Nat), (∀ j, found = some j → j < p.size) →
      ∀ i, parts.foldl (fun found part => found.bind (p.member? · part)) found = some i →
        i < p.size := by
    intro parts
    induction parts with
    | nil => exact fun found hfound i h => hfound i h
    | cons part parts ih =>
      refine fun found hfound i h => ih _ (fun j hj => ?_) i h
      obtain ⟨k, -, hj⟩ := Option.bind_eq_some_iff.mp hj
      exact lt_size_of_memberWithin? hj
  unfold resolve at h
  split at h
  · cases h
  · exact hparts _ _ (fun j hj => lt_size_of_lookup hscope hj) i h

/-! ### Filling in the bases -/

/-- The plan `q` is the plan `p` with further bases, all of them classes of the plan. -/
structure Extends (p q : Plan) : Prop where
  /-- Apart from their bases the classes are the same. -/
  same : q.classes.map ({ · with bases := [] }) = p.classes.map ({ · with bases := [] })
  bases_lt : ∀ c ∈ q.classes, ∀ b ∈ c.bases, b < q.size

namespace Extends

theorem size_eq (h : Extends p q) : q.size = p.size := by
  have := congrArg List.length h.same
  rwa [List.length_map, List.length_map] at this

theorem parent?_eq (h : Extends p q) (i : Nat) : q.parent? i = p.parent? i := by
  have := congrArg (·[i]?.bind (·.parent)) h.same
  simp only [List.getElem?_map, Option.bind_map] at this
  exact this

theorem lt_size_of_mem_bases (h : Extends p q) (hj : j ∈ q.bases i) : i < q.size ∧ j < q.size := by
  unfold bases class? at hj
  cases hc : q.classes[i]? with
  | none => simp [hc] at hj
  | some c =>
    rw [hc] at hj
    exact ⟨lt_size_of_getElem? hc, h.bases_lt c (List.mem_of_getElem? hc) j hj⟩

theorem addBase (h : Extends p q) (hj : j < q.size) (i : Nat) : Extends p (q.addBase i j) where
  same := by
    rw [← h.same]
    refine List.ext_getElem? fun k => ?_
    simp only [Plan.addBase, List.getElem?_map, List.getElem?_modify]
    cases q.classes[k]? with
    | none => rfl
    | some c => by_cases hk : i = k <;> simp [hk]
  bases_lt := by
    intro c hc b hb
    obtain ⟨k, hk⟩ := List.mem_iff_getElem?.mp hc
    simp only [Plan.addBase, List.getElem?_modify, Option.map_eq_map, Option.map_eq_some_iff] at hk
    simp only [size, Plan.addBase, List.length_modify]
    obtain ⟨c₀, hc₀, rfl⟩ := hk
    have hold := h.bases_lt c₀ (List.mem_of_getElem? hc₀)
    split_ifs at hb with hik
    · rcases List.mem_append.mp hb with hb | hb
      · exact hold b hb
      · rw [List.mem_singleton.mp hb]
        exact hj
    · exact hold b hb

end Extends

/-- A property of the state that every step keeps holds at the end of a successful fold. -/
theorem foldlM_invariant {ε α σ : Type} {step : σ → α → Except ε σ} {I : σ → Prop} {l : List α}
    (hstep : ∀ s a s', a ∈ l → I s → step s a = .ok s' → I s') {s s' : σ} (hs : I s)
    (h : l.foldlM step s = .ok s') : I s' := by
  induction l generalizing s with
  | nil =>
    cases h
    exact hs
  | cons a l ih =>
    rw [List.foldlM_cons] at h
    obtain ⟨s₁, h₁, h⟩ := Except.bind_eq_ok.mp h
    exact ih (fun s b s' hb => hstep s b s' (List.mem_cons_of_mem _ hb))
      (hstep s a s₁ List.mem_cons_self hs h₁) h

theorem foldlM_error {ε α σ : Type} {step : σ → α → Except ε σ} {P : ε → Prop} {l : List α}
    (hstep : ∀ s, ∀ a ∈ l, ∀ e, step s a = .error e → P e) {s : σ} {e : ε}
    (h : l.foldlM step s = .error e) :
    P e := by
  induction l generalizing s with
  | nil => cases h
  | cons a l ih =>
    rw [List.foldlM_cons] at h
    rcases Except.bind_eq_error.mp h with h | ⟨s₁, -, h⟩
    · exact hstep s a List.mem_cons_self e h
    · exact ih (fun s b hb => hstep s b (List.mem_cons_of_mem _ hb)) h

section Steps

variable {external : Text → Bool} {c : ClassInfo} {q' : Plan} (hp : Nested 0 p.classes)
  (hc : p.classes[i]? = some c)

include hp hc

theorem extends_of_resolveBase {ref : TypeRef} (h : Extends p q)
    (hq : resolveBase external i c q ref = .ok q') : Extends p q' := by
  have hscope : ∀ j, c.parent = some j → j < q.size := by
    intro j hj
    have hji := (hp i c hc).2 j hj
    have hi := lt_size_of_getElem? hc
    rw [h.size_eq]
    omega
  unfold resolveBase at hq
  split at hq
  · next base hbase =>
    split_ifs at hq
    cases hq
    exact h.addBase (lt_size_of_resolve hscope hbase) i
  · split_ifs at hq
    cases hq
    exact h

theorem extends_of_foldlM {refs : List TypeRef} (h : Extends p q)
    (hq : refs.foldlM (resolveBase external i c) q = .ok q') : Extends p q' :=
  foldlM_invariant (fun _ _ _ _ hr hr' => extends_of_resolveBase hp hc hr hr') h hq

end Steps

theorem extends_self (hp : Nested 0 p.classes) : Extends p p := by
  refine ⟨rfl, fun c hc b hb => ?_⟩
  obtain ⟨k, hk⟩ := List.mem_iff_getElem?.mp hc
  rw [(hp k c hk).1] at hb
  cases hb

theorem extends_of_resolveBases {external : Text → Bool} (hp : Nested 0 p.classes)
    (h : p.resolveBases external = .ok q) : Extends p q := by
  refine foldlM_invariant (fun s a s' ha hs hstep => ?_) (extends_self hp) h
  exact extends_of_foldlM hp (List.mk_mem_zipIdx_iff_getElem?.mp ha) hs hstep

end Plan

end Unnest
