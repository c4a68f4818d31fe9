import Unnest.Group.Nest
import Mathlib.Tactic.Common

/-!
# The tree of a list of tokens

Grouping loses nothing and reorders nothing: the tokens of the tree are the tokens up to the end.
Its angle groups are the pairs that `matchAngle?` finds.

An element of a tree is found again by the numbers of its first and its last token (`placedAll`).
While the groups are still open the same numbers are those of a `Nest`, and the invariant
`Nest.Grouped` ties them to the tokens read so far.

* `Placed`, `placedAll`: the elements of a tree, at all depths, with their numbers;
* `Nest.Grouped.step`, `Nest.Grouped.run`: the invariant, for one token and for a whole list;
* `flatten_and_angles_of_ofTokens`: the tree of a list of tokens.
-/

namespace Unnest

/-- An element of a tree, with the numbers of its first and last token among the tokens of the
tree. -/
structure Placed where
  first : Nat
  last : Nat
  element : Element

mutual

/-- An element and all the elements in it; its first token has the number `start`. -/
def Element.placed (start : Nat) : Element → List Placed
  | .token t => [⟨start, start, .token t⟩]
  | .group ⟨kind, opening, closing, children⟩ =>
    ⟨start, start + 1 + (flattenAll children).length, .group ⟨kind, opening, closing, children⟩⟩ ::
      placedAll (start + 1) children

def placedAll (start : Nat) : List Element → List Placed
  | [] => []
  | e :: es => e.placed start ++ placedAll (start + e.flatten.length) es

end

/-- The elements inside a root group. -/
def Group.placed (root : Group) : List Placed := placedAll 0 root.children

/-! ### Trees -/

section Trees

variable {start i : Nat} {t : Token} {es es' : List Element}

theorem flattenAll_append (es es' : List Element) :
    flattenAll (es ++ es') = flattenAll es ++ flattenAll es' := by
  induction es with
  | nil => rfl
  | cons e es ih => simp [flattenAll, ih]

theorem placedAll_append (start : Nat) (es es' : List Element) :
    placedAll start (es ++ es') =
      placedAll start es ++ placedAll (start + (flattenAll es).length) es' := by
  induction es generalizing start with
  | nil => simp [placedAll, flattenAll]
  | cons e es ih => simp [placedAll, flattenAll, ih, Nat.add_assoc]

theorem Element.flatten_group (g : Group) :
    (Element.group g).flatten = g.opening :: flattenAll g.children ++ [g.closing] := by
  cases g
  rfl

theorem flattenAll_group (g : Group) (es : List Element) :
    flattenAll (.group g :: es) =
    g.opening :: (flattenAll g.children ++ g.closing :: flattenAll es) := by
  simp [flattenAll, Element.flatten_group]

theorem flattenAll_group_append (g : Group) (es : List Element) (ts : List Token) :
    flattenAll (.group g :: es) ++ ts =
      g.opening :: (flattenAll g.children ++ g.closing :: (flattenAll es ++ ts)) := by
  simp [flattenAll_group]

theorem Element.placed_group (g : Group) :
    (Element.group g).placed start =
      ⟨start, start + 1 + (flattenAll g.children).length, .group g⟩ ::
        placedAll (start + 1) g.children := by
  cases g
  rfl

mutual

theorem Element.exists_placed :
    ∀ (e : Element) (start : Nat) {i : Nat} {t : Token}, e.flatten[i]? = some t →
    ⟨start + i, start + i, .token t⟩ ∈ e.placed start ∨
    ∃ p ∈ e.placed start, ∃ g, p.element = .group g ∧
      (start + i = p.first ∧ t = g.opening ∨ start + i = p.last ∧ t = g.closing)
  | .token u, start, i, t, h => by
    cases i with
    | zero =>
      simp only [Element.flatten, List.getElem?_cons_zero, Option.some.injEq] at h
      exact Or.inl (by simp [Element.placed, h])
    | succ i => simp [Element.flatten] at h
  | .group ⟨kind, opening, closing, children⟩, start, i, t, h => by
    rcases Nat.lt_or_ge i 1 with hi | hi
    · obtain rfl : i = 0 := by omega
      simp only [Element.flatten, List.cons_append, List.getElem?_cons_zero, Option.some.injEq] at h
      exact Or.inr ⟨_, List.mem_cons_self, _, rfl, Or.inl ⟨rfl, h.symm⟩⟩
    · obtain ⟨i, rfl⟩ := Nat.exists_eq_add_of_le' hi
      simp only [Element.flatten, List.cons_append, List.getElem?_cons_succ] at h
      rcases Nat.lt_or_ge i (flattenAll children).length with hi | hi
      · rw [List.getElem?_append_left hi] at h
        rw [show start + (i + 1) = start + 1 + i by omega]
        rcases exists_placedAll children (start + 1) h with hp | ⟨p, hp, hg⟩
        · exact Or.inl (List.mem_cons_of_mem _ hp)
        · exact Or.inr ⟨p, List.mem_cons_of_mem _ hp, hg⟩
      · rw [List.getElem?_append_right hi] at h
        rcases hd : i - (flattenAll children).length with _ | k
        · rw [hd] at h
          simp only [List.getElem?_cons_zero, Option.some.injEq] at h
          refine Or.inr ⟨_, List.mem_cons_self, _, rfl, Or.inr ⟨?_, h.symm⟩⟩
          simp only
          omega
        · simp [hd] at h

theorem exists_placedAll : ∀ (es : List Element) (start : Nat) {i : Nat} {t : Token},
    (flattenAll es)[i]? = some t →
    ⟨start + i, start + i, .token t⟩ ∈ placedAll start es ∨ ∃ p ∈ placedAll start es, ∃ g,
      p.element = .group g ∧
        (start + i = p.first ∧ t = g.opening ∨ start + i = p.last ∧ t = g.closing)
  | [], start, i, t, h => by simp [flattenAll] at h
  | e :: es, start, i, t, h => by
    simp only [flattenAll] at h
    simp only [placedAll, List.mem_append]
    rcases Nat.lt_or_ge i e.flatten.length with hi | hi
    · rw [List.getElem?_append_left hi] at h
      rcases Element.exists_placed e start h with hp | ⟨p, hp, hg⟩
      · exact Or.inl (Or.inl hp)
      · exact Or.inr ⟨p, Or.inl hp, hg⟩
    · rw [List.getElem?_append_right hi] at h
      have := exists_placedAll es (start + e.flatten.length) h
      rw [show start + e.flatten.length + (i - e.flatten.length) = start + i by omega] at this
      rcases this with hp | ⟨p, hp, hg⟩
      · exact Or.inl (Or.inr hp)
      · exact Or.inr ⟨p, Or.inr hp, hg⟩

end

mutual

theorem Element.flatten_of_placed : ∀ (e : Element) {start : Nat} {p : Placed}, p ∈ e.placed start →
    ∃ front back, e.flatten = front ++ p.element.flatten ++ back ∧ p.first = start + front.length ∧
      p.last + 1 = p.first + p.element.flatten.length
  | .token u, start, p, h => by
    simp only [Element.placed, List.mem_singleton] at h
    subst h
    exact ⟨[], [], by simp [Element.flatten], rfl, rfl⟩
  | .group ⟨kind, opening, closing, children⟩, start, p, h => by
    rcases List.mem_cons.mp h with rfl | h
    · exact ⟨[], [], by simp, rfl, by simp [Element.flatten]; omega⟩
    · obtain ⟨front, back, hflat, hfirst, hlast⟩ := flattenAll_of_placedAll children h
      refine ⟨opening :: front, back ++ [closing], ?_, ?_, hlast⟩
      · simp [Element.flatten, hflat]
      · rw [hfirst, List.length_cons]
        omega

theorem flattenAll_of_placedAll : ∀ (es : List Element) {start : Nat} {p : Placed},
    p ∈ placedAll start es →
    ∃ front back, flattenAll es = front ++ p.element.flatten ++ back ∧
      p.first = start + front.length ∧ p.last + 1 = p.first + p.element.flatten.length
  | [], start, p, h => by simp [placedAll] at h
  | e :: es, start, p, h => by
    rcases List.mem_append.mp h with h | h
    · obtain ⟨front, back, hflat, hfirst, hlast⟩ := Element.flatten_of_placed e h
      exact ⟨front, back ++ flattenAll es, by simp [flattenAll, hflat], hfirst, hlast⟩
    · obtain ⟨front, back, hflat, hfirst, hlast⟩ := flattenAll_of_placedAll es h
      refine ⟨e.flatten ++ front, back, by simp [flattenAll, hflat], ?_, hlast⟩
      rw [hfirst, List.length_append]
      omega

end

theorem Element.exists_placed_self (e : Element) (start : Nat) :
    ∃ p ∈ e.placed start, p.element = e := by
  cases e with
  | token t => exact ⟨_, List.mem_singleton_self _, rfl⟩
  | group g =>
    rw [Element.placed_group]
    exact ⟨_, List.mem_cons_self, rfl⟩

theorem exists_placed_of_mem {e : Element} (he : e ∈ es) (start : Nat) :
    ∃ p ∈ placedAll start es, p.element = e := by
  induction es generalizing start with
  | nil => cases he
  | cons x es ih =>
    rw [placedAll]
    rcases List.mem_cons.mp he with rfl | he
    · obtain ⟨p, hp, hpe⟩ := e.exists_placed_self start
      exact ⟨p, List.mem_append_left _ hp, hpe⟩
    · obtain ⟨p, hp, hpe⟩ := ih he (start + x.flatten.length)
      exact ⟨p, List.mem_append_right _ hp, hpe⟩

mutual

theorem Element.exists_placed_child : ∀ (e : Element) {start : Nat} {p : Placed} {g : Group},
    p ∈ e.placed start → p.element = .group g →
    ∀ x ∈ g.children, ∃ q ∈ e.placed start, q.element = x
  | .token u, start, p, g, h, hg, x, hx => by
    simp only [Element.placed, List.mem_singleton] at h
    subst h
    cases hg
  | .group ⟨kind, opening, closing, children⟩, start, p, g, h, hg, x, hx => by
    rcases List.mem_cons.mp h with rfl | h
    · cases hg
      obtain ⟨q, hq, hqx⟩ := exists_placed_of_mem hx (start + 1)
      exact ⟨q, List.mem_cons_of_mem _ hq, hqx⟩
    · obtain ⟨q, hq, hqx⟩ := exists_placedAll_child children h hg x hx
      exact ⟨q, List.mem_cons_of_mem _ hq, hqx⟩

theorem exists_placedAll_child : ∀ (es : List Element) {start : Nat} {p : Placed} {g : Group},
    p ∈ placedAll start es → p.element = .group g → ∀ x ∈ g.children,
      ∃ q ∈ placedAll start es, q.element = x
  | [], start, p, g, h, hg, x, hx => by simp [placedAll] at h
  | e :: es, start, p, g, h, hg, x, hx => by
    rcases List.mem_append.mp h with h | h
    · obtain ⟨q, hq, hqx⟩ := Element.exists_placed_child e h hg x hx
      exact ⟨q, List.mem_append_left _ hq, hqx⟩
    · obtain ⟨q, hq, hqx⟩ := exists_placedAll_child es h hg x hx
      exact ⟨q, List.mem_append_right _ hq, hqx⟩

end

end Trees

theorem TokenKind.opens?_ne_angle (kind : TokenKind) : kind.opens? ≠ some .angle := by
  cases kind <;> simp [opens?]

theorem TokenKind.closes?_ne_angle (kind : TokenKind) : kind.closes? ≠ some .angle := by
  cases kind <;> simp [closes?]

namespace Nest

/-! ### Open groups -/

/-- The tokens read before and inside the open groups. -/
def flattenFrames (roots : List Element) : List Frame → List Token
  | [] => flattenAll roots.reverse
  | f :: fs => flattenFrames roots fs ++ f.opening :: flattenAll f.children.reverse

/-- The elements before and inside the open groups; the open groups themselves are left out. -/
def placedFrames (roots : List Element) : List Frame → List Placed
  | [] => placedAll 0 roots.reverse
  | f :: fs =>
    placedFrames roots fs ++
      placedAll ((flattenFrames roots fs).length + 1) f.children.reverse

/-- The open groups with the numbers of their opening brackets, without their elements. -/
def numberFrames (roots : List Element) : List Frame → List (Nat × Frame)
  | [] => []
  | f :: fs => ((flattenFrames roots fs).length, { f with children := [] }) :: numberFrames roots fs

/-- The tokens read so far. -/
def flatten (nest : Nest) : List Token := flattenFrames nest.roots nest.frames

/-- The elements read so far. -/
def placed (nest : Nest) : List Placed := placedFrames nest.roots nest.frames

/-- The open groups of a nest with the numbers of their opening brackets. -/
def numbered (nest : Nest) : List (Nat × Frame) := numberFrames nest.roots nest.frames

variable {nest next : Nest} {f : Frame} {fs : List Frame} {closing : Token}

theorem flatten_add (nest : Nest) (e : Element) :
    (nest.add e).flatten = nest.flatten ++ e.flatten := by
  rcases nest with ⟨_ | ⟨f, fs⟩, roots⟩
  · simp [flatten, add, flattenFrames, flattenAll_append, flattenAll]
  · simp [flatten, add, flattenFrames, flattenAll_append, flattenAll]

theorem flatten_enter (nest : Nest) (hf : f.children = []) :
    (nest.enter f).flatten = nest.flatten ++ [f.opening] := by
  simp [flatten, enter, flattenFrames, hf, flattenAll]

theorem flatten_leave (h : nest.frames = f :: fs) :
    (nest.leave closing).flatten = nest.flatten ++ [closing] := by
  unfold leave
  simp only [h]
  rw [flatten_add, Element.flatten_group]
  simp [flatten, h, flattenFrames]

theorem placed_add (nest : Nest) (e : Element) :
    (nest.add e).placed = nest.placed ++ e.placed nest.flatten.length := by
  rcases nest with ⟨_ | ⟨f, fs⟩, roots⟩
  · simp [placed, flatten, add, placedFrames, flattenFrames, placedAll_append, placedAll]
  · simp [placed, flatten, add, placedFrames, flattenFrames, placedAll_append, placedAll,
      Nat.add_assoc, Nat.add_comm 1]

theorem placed_enter (nest : Nest) (hf : f.children = []) :
    (nest.enter f).placed = nest.placed := by
  simp [placed, enter, placedFrames, hf, placedAll]

theorem mem_placed_leave (h : nest.frames = f :: fs) {p : Placed} :
    p ∈ (nest.leave closing).placed ↔ p ∈ nest.placed ∨
      p = ⟨(flattenFrames nest.roots fs).length, nest.flatten.length,
        .group { kind := f.kind, opening := f.opening, closing, children :=
          f.children.reverse }⟩ := by
  unfold leave
  simp only [h]
  rw [placed_add, Element.placed_group]
  simp only [placed, flatten, h, placedFrames, flattenFrames, List.mem_append, List.mem_cons,
    List.length_append, List.length_cons]
  rw [show (flattenFrames nest.roots fs).length + 1 + (flattenAll f.children.reverse).length =
    (flattenFrames nest.roots fs).length + ((flattenAll f.children.reverse).length + 1) by omega]
  tauto

theorem numbered_add (nest : Nest) (e : Element) : (nest.add e).numbered = nest.numbered := by
  rcases nest with ⟨_ | ⟨f, fs⟩, roots⟩
  · rfl
  · rfl

theorem numbered_enter (nest : Nest) (hf : f.children = []) :
    (nest.enter f).numbered = (nest.flatten.length, f) :: nest.numbered := by
  cases f
  cases hf
  rfl

theorem numbered_leave (h : nest.frames = f :: fs) (closing : Token) :
    nest.numbered = ((flattenFrames nest.roots fs).length, { f with children := [] }) ::
      (nest.leave closing).numbered := by
  unfold leave
  simp only [h]
  rw [numbered_add]
  simp [numbered, h, numberFrames]

/-! ### One token -/

/-- All that one token can do: open a group, open an angle group, close the innermost group, or
stand for itself. -/
theorem step_cases {index : Nat} {t : Token} {rest : List Token}
    (h : nest.step index t rest = .ok next) :
    (∃ kind, t.kind.opens? = some kind ∧ next = nest.enter { kind, opening := t }) ∨
    (∃ d, t.kind = .lt ∧ matchAngle? (t :: rest) = some d ∧
      next = nest.enter { kind := .angle, opening := t, closeAt := index + d }) ∨
    (∃ f fs, nest.frames = f :: fs ∧ next = nest.leave t ∧
      (t.kind = .gt ∧ f.kind = .angle ∧ f.closeAt = index ∨ t.kind.closes? = some f.kind)) ∨
    ((t.kind = .lt → matchAngle? (t :: rest) = none) ∧ next = nest.add (.token t)) := by
  unfold step at h
  split at h
  · next kind hopens =>
    cases h
    exact Or.inl ⟨kind, hopens, rfl⟩
  split at h
  · next d hd =>
    cases h
    split_ifs at hd with hlt
    exact Or.inr (Or.inl ⟨d, hlt, hd, rfl⟩)
  next hnone =>
  have hlt : t.kind = .lt → matchAngle? (t :: rest) = none := by
    intro hk
    rwa [if_pos hk] at hnone
  split_ifs at h with hgt
  · -- a `>` that an angle group waits for
    cases h
    rw [Bool.and_eq_true, decide_eq_true_eq] at hgt
    obtain ⟨hk, hawaits⟩ := hgt
    unfold awaitsAngle at hawaits
    split at hawaits
    · cases hawaits
    · next f fs hf =>
      simp only [Bool.and_eq_true, beq_iff_eq] at hawaits
      exact Or.inr (Or.inr (Or.inl ⟨f, fs, hf, rfl, Or.inl ⟨hk, hawaits⟩⟩))
  · split at h
    · next kind hcloses =>
      unfold leaveWith at h
      split at h
      · cases h
      · next f fs hf =>
        split_ifs at h with hkind
        cases h
        exact Or.inr (Or.inr (Or.inl ⟨f, fs, hf, rfl, Or.inr (hkind ▸ hcloses)⟩))
    · cases h
      exact Or.inr (Or.inr (Or.inr ⟨hlt, rfl⟩))

/-! ### The invariant -/

/-- `<` with number `i` and the token `d` further on are a pair of angle brackets. -/
def AnglePair (tokens : List Token) (i d : Nat) : Prop :=
  (∃ t, tokens[i]? = some t ∧ t.kind = .lt) ∧ matchAngle? (tokens.drop i) = some d

/-- What is known of a nest when the first tokens `done` of `tokens` are read. -/
structure Grouped (tokens done : List Token) (nest : Nest) : Prop where
  flatten : nest.flatten = done
  /-- An open angle group waits for the end of its pair; any other has an opening bracket. -/
  opened : ∀ i f, (i, f) ∈ nest.numbered →
    (f.kind = .angle ∧ ∃ d, AnglePair tokens i d ∧ f.closeAt = i + d) ∨
      f.opening.kind.opens? = some f.kind
  /-- An angle group is a pair; any other has an opening and a closing bracket. -/
  closed : ∀ i j g, ⟨i, j, .group g⟩ ∈ nest.placed →
    (g.kind = .angle ∧ g.closing.kind = .gt ∧ ∃ d, AnglePair tokens i d ∧ j = i + d) ∨
      (g.opening.kind.opens? = some g.kind ∧ g.closing.kind.closes? = some g.kind)
  /-- Every pair is an angle group, closed or still open. -/
  pairs : ∀ i d, i < done.length → AnglePair tokens i d →
    (∃ f, (i, f) ∈ nest.numbered ∧ f.kind = .angle ∧ f.closeAt = i + d) ∨
      ∃ g, g.kind = .angle ∧ ⟨i, i + d, .group g⟩ ∈ nest.placed

theorem grouped_empty (tokens : List Token) : Grouped tokens [] {} where
  flatten := rfl
  opened := by simp [numbered, numberFrames]
  closed := by simp [placed, placedFrames, placedAll]
  pairs := by simp

namespace Grouped

variable {tokens done rest : List Token} {t : Token}

theorem enter (h : Grouped tokens done nest) (hf : f.children = []) (ht : f.opening = t)
    (hopened : (f.kind = .angle ∧ ∃ d, AnglePair tokens done.length d ∧
      f.closeAt = done.length + d) ∨
      t.kind.opens? = some f.kind)
    (hpair : ∀ d, AnglePair tokens done.length d → f.kind = .angle ∧ f.closeAt = done.length + d) :
    Grouped tokens (done ++ [t]) (nest.enter f) where
  flatten := by rw [flatten_enter _ hf, h.flatten, ht]
  opened := by
    intro i f' hf'
    rw [numbered_enter _ hf, h.flatten] at hf'
    rcases List.mem_cons.mp hf' with heq | hf'
    · cases heq
      rw [ht]
      exact hopened
    · exact h.opened i f' hf'
  closed := by
    rw [placed_enter _ hf]
    exact h.closed
  pairs := by
    intro i d hi hp
    rw [numbered_enter _ hf, placed_enter _ hf, h.flatten]
    rw [List.length_append, List.length_singleton] at hi
    rcases Nat.lt_or_eq_of_le (Nat.le_of_lt_succ hi) with hi | rfl
    · rcases h.pairs i d hi hp with ⟨f', hf', hk⟩ | hg
      · exact Or.inl ⟨f', List.mem_cons_of_mem _ hf', hk⟩
      · exact Or.inr hg
    · exact Or.inl ⟨f, List.mem_cons_self, hpair d hp⟩

/-- Closing the innermost group keeps the invariant. This is the only way in which an angle group is
closed, and it happens at the end of its pair. -/
theorem leave (h : Grouped tokens done nest) (hframes : nest.frames = f :: fs)
    (hclose : t.kind = .gt ∧ f.kind = .angle ∧ f.closeAt = done.length ∨
      t.kind.closes? = some f.kind)
    (hpair : ∀ d, ¬ AnglePair tokens done.length d) :
    Grouped tokens (done ++ [t]) (nest.leave t) := by
  have hnumbered := numbered_leave hframes t
  have hown := h.opened _ _ (by rw [hnumbered]; exact List.mem_cons_self)
  simp only at hown
  have hangle : f.kind = .angle → t.kind = .gt ∧ f.closeAt = done.length := by
    intro hk
    rcases hclose with ⟨hgt, -, hclose⟩ | hclose
    · exact ⟨hgt, hclose⟩
    · exact absurd (hk ▸ hclose) (TokenKind.closes?_ne_angle _)
  refine ⟨by rw [flatten_leave hframes, h.flatten], fun i f' hf' => ?_, fun i j g hg => ?_,
    fun i d hi hp => ?_⟩
  · exact h.opened i f' (by rw [hnumbered]; exact List.mem_cons_of_mem _ hf')
  · rcases (mem_placed_leave hframes).mp hg with hg | hg
    · exact h.closed i j g hg
    · rw [h.flatten] at hg
      cases hg
      rcases hown with ⟨hk, d, hp, hd⟩ | hopens
      · exact Or.inl ⟨hk, (hangle hk).1, d, hp, by rw [← hd, (hangle hk).2]⟩
      · refine Or.inr ⟨hopens, hclose.resolve_left fun hk => ?_⟩
        exact absurd (hk.2.1 ▸ hopens) (TokenKind.opens?_ne_angle _)
  · rw [List.length_append, List.length_singleton] at hi
    rcases Nat.lt_or_eq_of_le (Nat.le_of_lt_succ hi) with hi | rfl
    · rcases h.pairs i d hi hp with ⟨f', hf', hk, hd⟩ | ⟨g, hk, hg⟩
      · rw [hnumbered] at hf'
        rcases List.mem_cons.mp hf' with heq | hf'
        · cases heq
          refine Or.inr ⟨⟨f.kind, f.opening, t, f.children.reverse⟩, hk,
            (mem_placed_leave hframes).mpr (Or.inr ?_)⟩
          rw [← hd, h.flatten, (hangle hk).2]
        · exact Or.inl ⟨f', hf', hk, hd⟩
      · exact Or.inr ⟨g, hk, (mem_placed_leave hframes).mpr (Or.inl hg)⟩
    · exact absurd hp (hpair d)

theorem add (h : Grouped tokens done nest) (hpair : ∀ d, ¬ AnglePair tokens done.length d) :
    Grouped tokens (done ++ [t]) (nest.add (.token t)) where
  flatten := by rw [flatten_add, h.flatten]; rfl
  opened := by
    rw [numbered_add]
    exact h.opened
  closed := by
    intro i j g hg
    rw [placed_add] at hg
    rcases List.mem_append.mp hg with hg | hg
    · exact h.closed i j g hg
    · simp [Element.placed] at hg
  pairs := by
    intro i d hi hp
    rw [numbered_add, placed_add]
    rw [List.length_append, List.length_singleton] at hi
    rcases Nat.lt_or_eq_of_le (Nat.le_of_lt_succ hi) with hi | rfl
    · rcases h.pairs i d hi hp with hf | ⟨g, hk, hg⟩
      · exact Or.inl hf
      · exact Or.inr ⟨g, hk, List.mem_append_left _ hg⟩
    · exact absurd hp (hpair d)

/-- **One token** keeps the invariant. -/
theorem step (h : Grouped tokens done nest) (htokens : tokens = done ++ t :: rest)
    (hstep : nest.step done.length t rest = .ok next) : Grouped tokens (done ++ [t]) next := by
  have hdrop : tokens.drop done.length = t :: rest := by rw [htokens, List.drop_left]
  have hget : tokens[done.length]? = some t := by simp [htokens]
  have hpair : ∀ d, AnglePair tokens done.length d → t.kind = .lt ∧
      matchAngle? (t :: rest) = some d := by
    rintro d ⟨⟨u, hu, hk⟩, hd⟩
    rw [hget] at hu
    cases hu
    exact ⟨hk, hdrop ▸ hd⟩
  rcases step_cases hstep with ⟨kind, hopens, rfl⟩ | ⟨d, hlt, hd, rfl⟩ | ⟨f, fs, hf, rfl, hclose⟩ |
    ⟨hnone, rfl⟩
  · refine h.enter rfl rfl (Or.inr hopens) fun d hp => ?_
    rw [(hpair d hp).1] at hopens
    cases hopens
  · refine h.enter rfl rfl (Or.inl ⟨rfl, d, ⟨⟨t, hget, hlt⟩, hdrop ▸ hd⟩, rfl⟩) fun d' hp =>
      ⟨rfl, ?_⟩
    have := (hpair d' hp).2
    rw [hd] at this
    cases this
    rfl
  · refine h.leave hf hclose fun d hp => ?_
    have hk := (hpair d hp).1
    rcases hclose with ⟨hgt, -⟩ | hclose
    · rw [hk] at hgt
      cases hgt
    · rw [hk] at hclose
      cases hclose
  · refine h.add fun d hp => ?_
    have := hnone (hpair d hp).1
    rw [(hpair d hp).2] at this
    cases this

/-- **A whole list of tokens** is grouped with the invariant, up to its end. -/
theorem run {root : Group} (h : Grouped tokens done nest) (htokens : tokens = done ++ rest)
    (hrun : nest.run done.length rest = .ok root) :
    ∃ last : Nest, last.frames = [] ∧ root.kind = .root ∧ root.children = last.roots.reverse ∧
      Grouped tokens (done ++ rest.takeWhile (·.kind != .eof)) last := by
  induction rest generalizing done nest with
  | nil =>
    unfold Nest.run Nest.finish at hrun
    split at hrun
    · next hf =>
      cases hrun
      exact ⟨nest, hf, rfl, rfl, by simpa using h⟩
    · cases hrun
  | cons t ts ih =>
    unfold Nest.run at hrun
    split_ifs at hrun with heof
    · unfold Nest.finish at hrun
      split at hrun
      · next hf =>
        cases hrun
        exact ⟨nest, hf, rfl, rfl, by simpa [heof] using h⟩
      · cases hrun
    · split at hrun
      · next next hstep =>
        have htokens' : tokens = (done ++ [t]) ++ ts := by simp [htokens]
        have hlen : (done ++ [t]).length = done.length + 1 := by simp
        rw [← hlen] at hrun
        obtain ⟨last, hf, hk, hc, hl⟩ := ih (h.step htokens hstep) htokens' hrun
        refine ⟨last, hf, hk, hc, ?_⟩
        rw [List.takeWhile_cons_of_pos (by simpa using heof)]
        simpa using hl
      · cases hrun

end Grouped

end Nest

/-! ### The tree -/

theorem grouped_of_ofTokens {tokens : List Token} {root : Group}
    (h : Group.ofTokens tokens = .ok root) :
    root.kind = .root ∧ flattenAll root.children = tokens.takeWhile (·.kind != .eof) ∧
    Nest.Grouped tokens (tokens.takeWhile (·.kind != .eof)) { roots := root.children.reverse } := by
  obtain ⟨⟨frames, roots⟩, rfl, hk, hc, hl⟩ := (Nest.grouped_empty tokens).run rfl h
  simp only [List.nil_append] at hl hc
  refine ⟨hk, ?_, ?_⟩
  · rw [← hl.flatten, hc]
    rfl
  · rw [hc, List.reverse_reverse]
    exact hl

theorem getElem?_of_placed {es : List Element} {i j : Nat} {g : Group}
    (h : ⟨i, j, .group g⟩ ∈ placedAll 0 es) :
    (flattenAll es)[i]? = some g.opening ∧ (flattenAll es)[j]? = some g.closing := by
  obtain ⟨front, back, hflat, hfirst, hlast⟩ := flattenAll_of_placedAll es h
  simp only [Element.flatten_group, List.length_append, List.length_cons, List.length_nil]
    at hflat hfirst hlast
  have hi : i = front.length := by omega
  have hj : j = front.length + 1 + (flattenAll g.children).length := by omega
  rw [hflat]
  refine ⟨by simp [hi], ?_⟩
  rw [List.getElem?_append_left (by simp; omega), List.getElem?_append_right (by omega), hj]
  rw [show front.length + 1 + (flattenAll g.children).length - front.length =
    (flattenAll g.children).length + 1 by omega]
  simp

theorem Nest.Grouped.angle_of_bracket {tokens done : List Token} {nest : Nest}
    (h : nest.Grouped tokens done) {i j : Nat} {g : Group} (hg : ⟨i, j, .group g⟩ ∈ nest.placed)
    {t : Token} (ht : t = g.opening ∨ t = g.closing) (hk : t.kind = .lt ∨ t.kind = .gt) :
    g.kind = .angle := by
  rcases h.closed i j g hg with ⟨hangle, -⟩ | ⟨hopens, hcloses⟩
  · exact hangle
  · rcases ht with rfl | rfl
    · rcases hk with hk | hk <;> simp [hk, TokenKind.opens?] at hopens
    · rcases hk with hk | hk <;> simp [hk, TokenKind.closes?] at hcloses

/-- Whether a token can be the closing bracket of a group. -/
def TokenKind.isClosing : TokenKind → Bool
  | .rbrace | .rparen | .rbracket | .gt => true
  | _ => false

theorem TokenKind.isClosing_of_closes? {kind : TokenKind} {k : GroupKind}
    (h : kind.closes? = some k) :
    kind.isClosing = true := by
  cases kind <;> simp [closes?] at h <;> rfl

theorem isClosing_of_placed {tokens : List Token} {root : Group}
    (h : Group.ofTokens tokens = .ok root) {p : Placed} (hp : p ∈ root.placed) {g : Group}
    (hg : p.element = .group g) :
    g.closing.kind.isClosing = true := by
  obtain ⟨-, -, hgrouped⟩ := grouped_of_ofTokens h
  obtain ⟨i, j, e⟩ := p
  subst hg
  have hplaced : ({ roots := root.children.reverse } : Nest).placed = root.placed := by
    simp [Nest.placed, Nest.placedFrames, Group.placed]
  rcases hgrouped.closed i j g (by rwa [hplaced]) with ⟨-, hgt, -⟩ | ⟨-, hcloses⟩
  · rw [hgt]
    rfl
  · exact TokenKind.isClosing_of_closes? hcloses

/-- **The tree of a list of tokens**. Its tokens are those before the end, in order. Its angle
groups are exactly the pairs that `matchAngle?` finds at a `<` before the end, with the tokens of
those numbers as brackets. Every other `<` and `>` is a token of the tree. -/
theorem flatten_and_angles_of_ofTokens {tokens : List Token} {root : Group}
    (h : Group.ofTokens tokens = .ok root) :
    root.flatten = tokens.takeWhile (·.kind != .eof) ∧
    (∀ i j g, g.kind = .angle → ⟨i, j, .group g⟩ ∈ root.placed →
      tokens[i]? = some g.opening ∧ tokens[j]? = some g.closing) ∧
    (∀ i j, (∃ g, g.kind = .angle ∧ ⟨i, j, .group g⟩ ∈ root.placed) ↔
      (∃ t, (tokens.takeWhile (·.kind != .eof))[i]? = some t ∧ t.kind = .lt) ∧
        ∃ d, matchAngle? (tokens.drop i) = some d ∧ j = i + d) ∧
    ∀ (i : Nat) t, (tokens.takeWhile (·.kind != .eof))[i]? = some t → t.kind = .lt ∨ t.kind = .gt →
      (∀ first last g, g.kind = .angle → ⟨first, last, .group g⟩ ∈ root.placed →
        i ≠ first ∧ i ≠ last) →
      ⟨i, i, .token t⟩ ∈ root.placed := by
  obtain ⟨hroot, hflat, hgrouped⟩ := grouped_of_ofTokens h
  have hplaced : ({ roots := root.children.reverse } : Nest).placed =
      placedAll 0 root.children := by
    simp [Nest.placed, Nest.placedFrames]
  have htokens : ∀ {i : Nat} {t}, (tokens.takeWhile (·.kind != .eof))[i]? = some t →
      tokens[i]? = some t := by
    intro i t hi
    rw [← List.takeWhile_append_dropWhile (p := (·.kind != .eof)) (l := tokens),
      List.getElem?_append_left (List.getElem?_eq_some_iff.mp hi).1]
    exact hi
  refine ⟨by simp [Group.flatten, hroot, hflat], ?_, fun i j => ⟨?_, ?_⟩, ?_⟩
  · intro i j g _ hg
    obtain ⟨hi, hj⟩ := getElem?_of_placed hg
    rw [hflat] at hi hj
    exact ⟨htokens hi, htokens hj⟩
  · rintro ⟨g, hk, hg⟩
    have hi := (getElem?_of_placed hg).1
    rw [hflat] at hi
    rcases hgrouped.closed i j g (by rwa [hplaced]) with
      ⟨-, -, d, ⟨⟨t, ht, hlt⟩, hd⟩, hj⟩ | ⟨hopens, -⟩
    · rw [htokens hi] at ht
      cases ht
      exact ⟨⟨_, hi, hlt⟩, d, hd, hj⟩
    · exact absurd (hk ▸ hopens) (TokenKind.opens?_ne_angle _)
  · rintro ⟨⟨t, ht, hlt⟩, d, hd, rfl⟩
    have hi := (List.getElem?_eq_some_iff.mp ht).1
    rcases hgrouped.pairs i d hi ⟨⟨t, htokens ht, hlt⟩, hd⟩ with ⟨f, hf, -⟩ | ⟨g, hk, hg⟩
    · simp [Nest.numbered, Nest.numberFrames] at hf
    · rw [hplaced] at hg
      exact ⟨g, hk, hg⟩
  · intro i t ht hk hother
    rw [← hflat] at ht
    rcases exists_placedAll root.children 0 ht with hp | ⟨⟨first, last, e⟩, hp, g, rfl, hbracket⟩
    · rwa [Nat.zero_add] at hp
    · have hangle : g.kind = .angle :=
        hgrouped.angle_of_bracket (by rwa [hplaced]) (hbracket.imp And.right And.right) hk
      obtain ⟨hfirst, hlast⟩ := hother first last g hangle hp
      rw [Nat.zero_add] at hbracket
      exact (hbracket.elim (fun hb => hfirst hb.1) fun hb => hlast hb.1).elim

/-- One pair inside another, with square brackets in it, and a comparison behind them. -/
theorem flatten_and_angles_of_nested_pairs :
    ∃ root, Group.ofTokens
      ([.ident, .lt, .ident, .lt, .ident, .lbracket, .rbracket, .gt, .gt, .ident,
        .lt, .intLit, .eof].map fun kind => { kind }) = .ok root ∧
      root.flatten.map (·.kind) = [.ident, .lt, .ident, .lt, .ident, .lbracket, .rbracket, .gt, .gt,
        .ident, .lt, .intLit] ∧
      (∃ g, g.kind = .angle ∧ ⟨1, 8, .group g⟩ ∈ root.placed) ∧
      (∃ g, g.kind = .angle ∧ ⟨3, 7, .group g⟩ ∈ root.placed) ∧
      ¬ ∃ j g, g.kind = .angle ∧ ⟨10, j, .group g⟩ ∈ root.placed := by
  refine ⟨_, rfl, ?_⟩
  obtain ⟨hflat, -, hangles, -⟩ :=
    @flatten_and_angles_of_ofTokens ([.ident, .lt, .ident, .lt, .ident, .lbracket, .rbracket, .gt,
      .gt, .ident, .lt, .intLit, .eof].map fun kind => { kind }) _ rfl
  refine ⟨by rw [hflat]; rfl, (hangles 1 8).mpr ⟨⟨_, rfl, rfl⟩, 7, rfl, rfl⟩,
    (hangles 3 7).mpr ⟨⟨_, rfl, rfl⟩, 4, rfl, rfl⟩, ?_⟩
  rintro ⟨j, hg⟩
  obtain ⟨-, d, hd, -⟩ := (hangles 10 j).mp hg
  cases hd

end Unnest
