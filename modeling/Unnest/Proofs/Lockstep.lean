import Unnest.Proofs.Runs
import Unnest.Proofs.Shadows

/-!
# Two ranges walked over in step

The same parser can be run on two ranges that have much in common: a range and its beginning, a
range and the range that goes on behind it, ranges that differ in the contents of one group in
braces, a range with and without its comments. A `Pace` says which cursors of the two ranges go
together and from where on the first cursor has got to what the ranges do not share. Until then a
parser sees the same in both ranges, and so it does the same.

* `Element.Alike`, `Cursor.Alike`: what a parser cannot tell apart;
* `Pace`: two ranges that are walked over in step;
* `Pace.MirrorsWith`: parsers with related results in both ranges, with a rule for each way of
  putting parsers together.
-/

namespace Unnest

open Unnest.Parser

/-! ### Elements that look alike -/

/-- What a parser sees of an element in front of it: a token, a group without its comments, and of a
group in braces only the braces. -/
def Element.outline : Element → Element
  | .token t => .token t
  | .group g => .group (if g.kind = .curly then { g with children := [] } else g.uncommented)

/-- A parser cannot tell the two elements apart. -/
def Element.Alike (e e' : Element) : Prop := e'.outline = e.outline

namespace Element.Alike

variable {e e' : Element}

theorem refl (e : Element) : e.Alike e := rfl

theorem symm (h : e.Alike e') : e'.Alike e := Eq.symm h

theorem uncommented (e : Element) : e.Alike e.uncommented := by
  cases e with
  | token t => rfl
  | group g =>
    have hagain : g.uncommented.uncommented = g.uncommented := by
      simp only [Group.uncommented, uncommentedAll_uncommentedAll]
    rw [Alike, uncommented_group, outline, outline, hagain]
    rfl

section

variable (h : e.Alike e')
include h

theorem cases :
    (∃ t, e = .token t ∧ e' = .token t) ∨
      ∃ g g', e = .group g ∧ e' = .group g' ∧ g'.kind = g.kind ∧ g'.opening = g.opening ∧
        (g.kind ≠ .curly → g'.uncommented = g.uncommented) := by
  rcases e with t | g <;> rcases e' with t' | g'
  · exact Or.inl ⟨t, rfl, h⟩
  · cases h
  · cases h
  · refine Or.inr ⟨g, g', rfl, rfl, ?_⟩
    have hsame := Element.group.inj h
    split_ifs at hsame with hk' hk hk
    · exact ⟨hk'.trans hk.symm, (Group.mk.inj hsame).2.1, fun hne => absurd hk hne⟩
    · exact absurd ((congrArg Group.kind hsame).symm.trans hk') hk
    · exact absurd ((congrArg Group.kind hsame).trans hk) hk'
    · obtain ⟨hkind, hopening, -⟩ := Group.mk.inj hsame
      exact ⟨hkind, hopening, fun _ => hsame⟩

theorem is (kind : TokenKind) : e'.is kind = e.is kind := by
  rcases h.cases with ⟨t, rfl, rfl⟩ | ⟨g, g', rfl, rfl, -⟩ <;> rfl

theorem isGroup (kind : GroupKind) : e'.isGroup kind = e.isGroup kind := by
  rcases h.cases with ⟨t, rfl, rfl⟩ | ⟨g, g', rfl, rfl, hk, -⟩
  · rfl
  · rw [Element.isGroup, Element.isGroup, hk]

theorem firstToken : e'.firstToken = e.firstToken := by
  rcases h.cases with ⟨t, rfl, rfl⟩ | ⟨g, g', rfl, rfl, -, hopening, -⟩
  · rfl
  · exact hopening

theorem token? : e'.token? = e.token? := by
  rcases h.cases with ⟨t, rfl, rfl⟩ | ⟨g, g', rfl, rfl, -⟩ <;> rfl

theorem isEmptyGroup {kind : GroupKind} (hk : kind ≠ .curly) :
    e'.isEmptyGroup kind = e.isEmptyGroup kind := by
  rcases h.cases with ⟨t, rfl, rfl⟩ | ⟨g, g', rfl, rfl, hkind, -, hsame⟩
  · rfl
  · rw [Element.isEmptyGroup, Element.isEmptyGroup, hkind]
    by_cases hg : g.kind = kind
    · have hchildren : uncommentedAll g'.children = uncommentedAll g.children :=
        congrArg Group.children (hsame (hg ▸ hk))
      rw [← all_isComment_uncommentedAll g'.children, hchildren, all_isComment_uncommentedAll]
    · have hne : (g.kind == kind) = false := by simpa using hg
      rw [hne, Bool.false_and, Bool.false_and]

end

end Element.Alike

namespace Cursor

/-- What stands at two cursors looks alike. -/
structure Alike (s s' : Cursor) : Prop where
  current : Option.Rel Element.Alike s.current? s'.current?
  here : s'.here = s.here

namespace Alike

variable {s s' : Cursor} {e : Element}

theorem refl (s : Cursor) : s.Alike s where
  current := by
    cases s.current? with
    | none => exact .none
    | some e => exact .some (.refl e)
  here := rfl

/-- The tokens at which errors are noted are those of the elements, or the one that closes the
range. -/
theorem of_current (hcurrent : Option.Rel Element.Alike s.current? s'.current?)
    (hclosing : s'.closing = s.closing) : s.Alike s' where
  current := hcurrent
  here := by
    unfold Cursor.here
    rw [hclosing]
    revert hcurrent
    generalize s.current? = x
    generalize s'.current? = x'
    rintro (halike | -)
    · simp only [Option.map_some, halike.firstToken]
    · rfl

theorem of_eq (hcurrent : s'.current? = s.current?) (hclosing : s'.closing = s.closing) :
    s.Alike s' := by
  refine of_current ?_ hclosing
  rw [hcurrent]
  exact (refl s).current

section

variable (h : s.Alike s')
include h

theorem exists_current? (he : s.current? = some e) : ∃ e', s'.current? = some e' ∧ e.Alike e' := by
  have hcurrent := h.current
  rw [he] at hcurrent
  cases hs' : s'.current? with
  | none =>
    rw [hs'] at hcurrent
    cases hcurrent
  | some e' =>
    rw [hs'] at hcurrent
    cases hcurrent with
    | some halike => exact ⟨e', rfl, halike⟩

theorem current?_eq_none (he : s.current? = none) : s'.current? = none := by
  have hcurrent := h.current
  rw [he] at hcurrent
  cases hs' : s'.current? with
  | none => rfl
  | some e' =>
    rw [hs'] at hcurrent
    cases hcurrent

theorem symm : s'.Alike s where
  current := by
    cases he : s.current? with
    | none =>
      rw [h.current?_eq_none he]
      exact .none
    | some e =>
      obtain ⟨e', he', halike⟩ := h.exists_current? he
      rw [he']
      exact .some halike.symm
  here := h.here.symm

theorem any {p : Element → Bool} (hp : ∀ e e', e.Alike e' → p e' = p e) :
    s'.current?.any p = s.current?.any p := by
  cases he : s.current? with
  | none => rw [h.current?_eq_none he]
  | some e =>
    obtain ⟨e', he', halike⟩ := h.exists_current? he
    rw [he']
    exact hp e e' halike

theorem isAt (kind : TokenKind) : s'.isAt kind = s.isAt kind := h.any fun _ _ he => he.is kind

theorem isAtGroup (kind : GroupKind) : s'.isAtGroup kind = s.isAtGroup kind :=
  h.any fun _ _ he => he.isGroup kind

theorem isAtEmptyGroup {kind : GroupKind} (hk : kind ≠ .curly) :
    s'.isAtEmptyGroup kind = s.isAtEmptyGroup kind :=
  h.any fun _ _ he => he.isEmptyGroup hk

theorem isAtName (name : Text) : s'.isAtName name = s.isAtName name := by
  unfold Cursor.isAtName
  rw [h.isAt, h.any fun _ _ he => by rw [he.firstToken]]

theorem hasNext : s'.hasNext = s.hasNext := by
  have hnext : ∀ s : Cursor, s.hasNext = s.current?.any fun _ => true := by
    intro s
    unfold Cursor.hasNext current?
    cases s.rest <;> rfl
  rw [hnext, hnext, h.any fun _ _ _ => rfl]

theorem groupAt? {kind : GroupKind} (hk : kind ≠ .curly) :
    Option.Rel (fun g g' => g'.uncommented = g.uncommented) (s.groupAt? kind)
    (s'.groupAt? kind) := by
  unfold Cursor.groupAt?
  cases he : s.current? with
  | none =>
    rw [h.current?_eq_none he]
    exact .none
  | some e =>
    obtain ⟨e', he', halike⟩ := h.exists_current? he
    rw [he', Option.bind_some, Option.bind_some, halike.isGroup]
    split_ifs with hgroup
    · rcases halike.cases with ⟨t, rfl, rfl⟩ | ⟨g, g', rfl, rfl, -, -, hsame⟩
      · exact .none
      · exact .some (hsame (beq_iff_eq.mp hgroup ▸ hk))
    · exact .none

end

end Alike

end Cursor

/-! ### Paces -/

/-- Two ranges that are walked over in step. -/
structure Pace where
  /-- Cursors that go together. -/
  rel : Cursor → Cursor → Prop
  /-- The first cursor has got to what the ranges do not share. -/
  past : Cursor → Prop
  look : ∀ {s s'}, rel s s' → ¬ past s → s.Alike s'
  next : ∀ {s s'}, rel s s' → ¬ past s → s.hasNext = true → rel s.next s'.next
  /-- One cursor gets on if and only if the other does. -/
  lt : ∀ {s s' t t'}, rel s s' → rel t t' → ¬ past s → ¬ past t →
    (t'.rest.length < s'.rest.length ↔ t.rest.length < s.rest.length)
  past_next : Cursor.Lasting past
  /-- Whether an `@` begins an annotation is seen from the element behind it. -/
  past_at : ∀ {s s'}, rel s s' → s.isAt .atSign = true → past s.next → past s
  /-- What is known about groups at which such cursors stand. -/
  Pairs : Group → Group → Prop := fun _ _ => True
  pairs : ∀ {s s' g g'}, rel s s' → ¬ past s → s.current? = some (.group g) →
    s'.current? = some (.group g') → Pairs g g' := by intros; trivial

namespace Parser

variable {α : Type}

/-- Takes the element at the cursor, if it is of the right sort. -/
def take (pick : Element → Option α) (cause : Cause) : Parser α := fun s =>
  match s.current?.bind pick with
  | some a => .ok a s.next
  | none => .error (s.error cause) s

theorem advance_eq_take : advance = take (fun _ => some ()) .endOfInput := by
  funext s
  unfold advance take Cursor.hasNext Cursor.current?
  cases s.rest <;> rfl

theorem expect_eq_take (kind : TokenKind) (what : Text) :
    expect kind what = take (fun e => e.token?.filter (·.kind = kind)) (.expected what) := by
  funext s
  unfold expect take
  rcases s.current? with _ | t | g
  · rfl
  · by_cases hk : t.kind = kind <;> simp [hk, Element.token?, Option.filter]
  · rfl

theorem expectGroup_eq_take (kind : GroupKind) (what : Text) :
    expectGroup kind what = take (fun e => e.group?.filter (·.kind = kind)) (.expected what) := by
  funext s
  unfold expectGroup take
  rcases s.current? with _ | t | g
  · rfl
  · rfl
  · by_cases hk : g.kind = kind <;> simp [hk, Element.group?, Option.filter]

theorem take_of_some {pick : Element → Option α} {cause : Cause} {s : Cursor} {e : Element} {a : α}
    (he : s.current? = some e) (ha : pick e = some a) : take pick cause s = .ok a s.next := by
  simp [take, he, ha]

theorem take_of_none {pick : Element → Option α} {cause : Cause} {s : Cursor}
    (h : s.current?.bind pick = none) :
    take pick cause s = .error (s.error cause) s := by
  simp [take, h]

end Parser

namespace Pace

variable {P : Pace} {α β γ δ : Type}

/-- The outcome tells nothing about the second range: an error comes from what the ranges do not
share, or a result ends where `beyond` holds. -/
def Spent (P : Pace) (beyond : Cursor → Prop) : EStateM.Result SourceError Cursor α → Prop
  | .ok _ t => beyond t
  | .error _ t => P.past t

/-- Two outcomes are the same error, or results related by `A` at cursors that go together. -/
inductive Same (P : Pace) (A : α → β → Prop) :
    EStateM.Result SourceError Cursor α → EStateM.Result SourceError Cursor β → Prop
  | ok {a : α} {b : β} {t t' : Cursor} (hab : A a b) (ht : P.rel t t') :
      Same P A (.ok a t) (.ok b t')
  | error {e : SourceError} {t t' : Cursor} : Same P A (.error e t) (.error e t')

/-- Unless it ends where `beyond` holds, `q` does in the second range what `p` does in the first,
with results related by `A`. -/
structure MirrorsWith (P : Pace) (beyond : Cursor → Prop) (A : α → β → Prop) (p : Parser α)
    (q : Parser β) : Prop where
  stays : ∀ {s}, P.past s → P.Spent beyond (p s)
  meet : ∀ {s s'}, P.rel s s' → P.Spent beyond (p s) ∨ P.Same A (p s) (q s')

/-- Unless it ends where `beyond` holds, `q` reads in the second range what `p` reads in the
first. -/
abbrev Closes (P : Pace) (beyond : Cursor → Prop) (p q : Parser α) : Prop :=
  P.MirrorsWith beyond Eq p q

/-- Until it gets to what the ranges do not share, `q` does in the second range what `p` does in the
first. -/
abbrev Mirrors (P : Pace) (p q : Parser α) : Prop := P.Closes P.past p q

section Rules

variable {beyond : Cursor → Prop} {A : α → β → Prop} {B : γ → δ → Prop} {p p₁ p₂ : Parser α}
  {q q₁ q₂ : Parser β} {f : α → Parser γ} {g : β → Parser δ}

variable {r : EStateM.Result SourceError Cursor β} {c : Prop}

theorem Same.of_ok {a : α} {t : Cursor}
    (h : P.Same A (.ok a t) r) : ∃ b t', r = .ok b t' ∧ P.rel t t' ∧ A a b := by
  cases h with
  | ok hab ht => exact ⟨_, _, rfl, ht, hab⟩

theorem Same.of_error {e : SourceError} {t : Cursor}
    (h : P.Same A (.error e t) r) : ∃ t', r = .error e t' := by
  cases h with
  | error => exact ⟨_, rfl⟩

theorem Spent.mono {beyond' : Cursor → Prop} {r : EStateM.Result SourceError Cursor α}
    (h : P.Spent beyond r) (hover : ∀ t, beyond t → beyond' t) : P.Spent beyond' r := by
  cases r with
  | ok a t => exact hover t h
  | error e t => exact h

namespace MirrorsWith

variable (h : P.MirrorsWith beyond A p q)
include h

theorem ok {s s' t : Cursor} {a : α} (hs : P.rel s s') (hp : p s = .ok a t) :
    beyond t ∨ ∃ b t', q s' = .ok b t' ∧ P.rel t t' ∧ A a b := by
  have hmeet := h.meet hs
  rw [hp] at hmeet
  exact hmeet.imp_right fun hsame => hsame.of_ok

theorem error {s s' t : Cursor} {e : SourceError} (hs : P.rel s s') (hp : p s = .error e t) :
    P.past t ∨ ∃ t', q s' = .error e t' := by
  have hmeet := h.meet hs
  rw [hp] at hmeet
  exact hmeet.imp_right fun hsame => hsame.of_error

theorem not_past {s : Cursor} {r : EStateM.Result SourceError Cursor α} (hp : p s = r)
    (hr : ¬ P.Spent beyond r) : ¬ P.past s := by
  subst hp
  exact fun hs => hr (h.stays hs)

theorem mono {A' : α → β → Prop} (hA : ∀ a b, A a b → A' a b) : P.MirrorsWith beyond A' p q where
  stays := h.stays
  meet := by
    intro s s' hs
    refine (h.meet hs).imp_right fun hsame => ?_
    revert hsame
    generalize p s = r
    generalize q s' = r'
    rintro (⟨hab, ht⟩ | -)
    · exact .ok (hA _ _ hab) ht
    · exact .error

theorem weaken {beyond' : Cursor → Prop} (hover : ∀ t, beyond t → beyond' t) :
    P.MirrorsWith beyond' A p q where
  stays := fun hs => (h.stays hs).mono hover
  meet := fun hs => (h.meet hs).imp_left fun hspent => hspent.mono hover

end MirrorsWith

theorem Closes.ok {p q : Parser α} (h : P.Closes beyond p q) {s s' t : Cursor} {a : α}
    (hs : P.rel s s') (hp : p s = .ok a t) : beyond t ∨ ∃ t', q s' = .ok a t' ∧ P.rel t t' := by
  refine (MirrorsWith.ok h hs hp).imp_right ?_
  rintro ⟨_, t', hq, ht, rfl⟩
  exact ⟨t', hq, ht⟩

theorem mirrors_pure {a : α} {b : β} (hab : A a b) : P.MirrorsWith P.past A (pure a) (pure b) where
  stays := id
  meet := fun hs => Or.inr (.ok hab hs)

theorem mirrors_fail (cause : Cause) : P.MirrorsWith beyond A (fail cause) (fail cause) where
  stays := id
  meet := by
    intro s s' hs
    by_cases hpast : P.past s
    · exact Or.inl hpast
    · refine Or.inr ?_
      unfold fail Cursor.error
      rw [(P.look hs hpast).here]
      exact .error

/-- Values found elsewhere that are the same as far as `v` shows. -/
theorem mirrors_ofExcept_map {v : α → γ} {x y : Except SourceError α} (h : y.map v = x.map v) :
    P.MirrorsWith P.past (fun a b => v b = v a) (Parser.ofExcept x) (Parser.ofExcept y) := by
  obtain ⟨e, rfl, rfl⟩ | ⟨a, b, rfl, rfl, hab⟩ := Except.eq_error_or_eq_ok h
  · exact ⟨id, fun _ => Or.inr .error⟩
  · exact ⟨id, fun hs => Or.inr (.ok hab hs)⟩

theorem mirrors_ofExcept {x y : Except SourceError α} (h : y = x) :
    P.Mirrors (Parser.ofExcept x) (Parser.ofExcept y) :=
  (mirrors_ofExcept_map (v := id) (by rw [h])).mono fun _ _ => Eq.symm

/-- One parser behind another. -/
theorem mirrors_bind_of (hp : P.MirrorsWith P.past A p q)
    (hstays : ∀ a {s}, P.past s → P.Spent beyond (f a s))
    (hf : ∀ a b, A a b → P.MirrorsWith beyond B (f a) (g b)) :
    P.MirrorsWith beyond B (p >>= f) (q >>= g) where
  stays := by
    intro s hs
    have hpast := hp.stays hs
    change P.Spent beyond (EStateM.bind p f s)
    unfold EStateM.bind
    revert hpast
    generalize p s = r
    intro hpast
    cases r with
    | ok a t => exact hstays a hpast
    | error e t => exact hpast
  meet := by
    intro s s' hs
    have hmeet := hp.meet hs
    change P.Spent beyond (EStateM.bind p f s) ∨ P.Same B (EStateM.bind p f s) (EStateM.bind q g s')
    unfold EStateM.bind
    revert hmeet
    generalize p s = r
    generalize q s' = r'
    rintro (hpast | ⟨hab, ht⟩ | -)
    · cases r with
      | ok a t => exact Or.inl (hstays a hpast)
      | error e t => exact Or.inl hpast
    · exact (hf _ _ hab).meet ht
    · exact Or.inr .error

/-- One parser behind another, when the first one may give the same in both ranges. -/
theorem mirrors_bind_rel {A : α → α → Prop} {p q : Parser α} {g : α → Parser δ}
    (hp : P.MirrorsWith P.past A p q) (hA : ∀ a, A a a)
    (hf : ∀ a b, A a b → P.MirrorsWith beyond B (f a) (g b)) :
    P.MirrorsWith beyond B (p >>= f) (q >>= g) :=
  mirrors_bind_of hp (fun a => (hf a a (hA a)).stays) hf

/-- One parser behind another, in ranges that share everything. -/
theorem mirrors_bind_steady (hsteady : ∀ s, ¬ P.past s) (hp : P.MirrorsWith P.past A p q)
    (hf : ∀ a b, A a b → P.MirrorsWith beyond B (f a) (g b)) :
    P.MirrorsWith beyond B (p >>= f) (q >>= g) :=
  mirrors_bind_of hp (fun _ {s} hs => absurd hs (hsteady s)) hf

/-- When the first parser gives the same in both ranges, only the rest is left to compare. -/
theorem mirrors_bind {p q : Parser α} {g : α → Parser δ} (hp : P.Mirrors p q)
    (hf : ∀ a, P.MirrorsWith beyond B (f a) (g a)) : P.MirrorsWith beyond B (p >>= f) (q >>= g) :=
  mirrors_bind_rel hp (fun _ => rfl) fun a _ hab => hab ▸ hf a

theorem mirrors_map {v : α → γ} {w : β → δ} (hp : P.MirrorsWith beyond A p q)
    (hv : ∀ a b, A a b → B (v a) (w b)) : P.MirrorsWith beyond B (v <$> p) (w <$> q) where
  stays := by
    intro s hs
    have hpast := hp.stays hs
    change P.Spent beyond (EStateM.map v p s)
    unfold EStateM.map
    revert hpast
    generalize p s = r
    intro hpast
    cases r <;> exact hpast
  meet := by
    intro s s' hs
    have hmeet := hp.meet hs
    change P.Spent beyond (EStateM.map v p s) ∨ P.Same _ (EStateM.map v p s) (EStateM.map w q s')
    unfold EStateM.map
    revert hmeet
    generalize p s = r
    generalize q s' = r'
    rintro (hpast | ⟨hab, ht⟩ | -)
    · exact Or.inl (by cases r <;> exact hpast)
    · exact Or.inr (.ok (hv _ _ hab) ht)
    · exact Or.inr .error

theorem mirrors_ite [Decidable c] (h₁ : P.MirrorsWith beyond A p₁ q₁)
    (h₂ : P.MirrorsWith beyond A p₂ q₂) :
    P.MirrorsWith beyond A (if c then p₁ else p₂) (if c then q₁ else q₂) := by
  split_ifs
  · exact h₁
  · exact h₂

theorem mirrors_branch [Decidable c] {p₁ q₁ p₂ q₂ : Parser α} {g : α → Parser δ}
    (h₁ : P.Mirrors p₁ q₁) (h₂ : P.Mirrors p₂ q₂) (hf : ∀ a, P.MirrorsWith beyond B (f a) (g a)) :
    P.MirrorsWith beyond B (if c then p₁ >>= f else p₂ >>= f) (if c then q₁ >>= g else q₂ >>= g) :=
  mirrors_ite (mirrors_bind h₁ hf) (mirrors_bind h₂ hf)

theorem mirrors_optional [Decidable c] {p q : Parser Unit} {f : Unit → Parser γ}
    {g : Unit → Parser δ} (hp : P.Mirrors p q) (hf : ∀ a, P.MirrorsWith beyond B (f a) (g a)) :
    P.MirrorsWith beyond B (if c then p >>= f else f ()) (if c then q >>= g else g ()) :=
  mirrors_ite (mirrors_bind hp hf) (hf ())

theorem mirrors_look {f : Cursor → Parser α} {g : Cursor → Parser β}
    (h : ∀ s s', s.Alike s' → P.MirrorsWith beyond A (f s) (g s')) :
    P.MirrorsWith beyond A (get >>= f) (get >>= g) where
  stays := fun {s} hs => (h s s (.refl s)).stays hs
  meet := by
    intro s s' hs
    by_cases hpast : P.past s
    · exact Or.inl ((h s s (.refl s)).stays hpast)
    · exact (h s s' (P.look hs hpast)).meet hs

/-- A look at the cursor in ranges that share everything. -/
theorem mirrors_get (hsteady : ∀ s, ¬ P.past s) {f : Cursor → Parser α} {g : Cursor → Parser β}
    (h : ∀ s s', P.rel s s' → P.MirrorsWith beyond A (f s) (g s')) :
    P.MirrorsWith beyond A (get >>= f) (get >>= g) where
  stays := fun {s} hs => absurd hs (hsteady s)
  meet := fun {s s'} hs => (h s s' hs).meet hs

theorem mirrors_test {test : Cursor → Bool} (htest : ∀ s s', s.Alike s' → test s' = test s)
    (h₁ : P.MirrorsWith beyond A p₁ q₁) (h₂ : P.MirrorsWith beyond A p₂ q₂) :
    P.MirrorsWith beyond A (get >>= fun s => if test s then p₁ else p₂)
      (get >>= fun s => if test s then q₁ else q₂) := by
  refine mirrors_look fun s s' hs => ?_
  rw [htest s s' hs]
  exact mirrors_ite h₁ h₂

theorem mirrors_isAt (kind : TokenKind) (h₁ : P.MirrorsWith beyond A p₁ q₁)
    (h₂ : P.MirrorsWith beyond A p₂ q₂) :
    P.MirrorsWith beyond A (get >>= fun s => if s.isAt kind then p₁ else p₂)
      (get >>= fun s => if s.isAt kind then q₁ else q₂) :=
  mirrors_test (fun _ _ hs => hs.isAt kind) h₁ h₂

theorem mirrors_isAtGroup (kind : GroupKind) (h₁ : P.MirrorsWith beyond A p₁ q₁)
    (h₂ : P.MirrorsWith beyond A p₂ q₂) :
    P.MirrorsWith beyond A (get >>= fun s => if s.isAtGroup kind then p₁ else p₂)
      (get >>= fun s => if s.isAtGroup kind then q₁ else q₂) :=
  mirrors_test (fun _ _ hs => hs.isAtGroup kind) h₁ h₂

/-- An element is taken in both ranges, where those that are passed over are related by `D`. -/
theorem mirrors_take_of {pick : Element → Option α} {D : Element → Element → Prop}
    (hpick : ∀ e e', e.Alike e' → (pick e').isSome = (pick e).isSome) (cause : Cause)
    (hpast : ∀ {s e}, P.past s → s.current? = some e → (pick e).isSome = true → beyond s.next)
    (hpass : ∀ {s s' e e'}, P.rel s s' → ¬ P.past s → s.current? = some e →
      s'.current? = some e' → e.Alike e' → beyond s.next ∨ D e e') :
    P.MirrorsWith beyond (fun a b => ∃ e e', pick e = some a ∧ pick e' = some b ∧ D e e')
      (take pick cause) (take pick cause) := by
  have hstays : ∀ {s}, P.past s → P.Spent beyond (take pick cause s) := by
    intro s hs
    cases ha : s.current?.bind pick with
    | some a =>
      obtain ⟨e, he, ha⟩ := Option.bind_eq_some_iff.mp ha
      rw [take_of_some he ha]
      exact hpast hs he (by rw [ha]; rfl)
    | none =>
      rw [take_of_none ha]
      exact hs
  refine ⟨hstays, fun {s s'} hs => ?_⟩
  by_cases hbefore : P.past s
  · exact Or.inl (hstays hbefore)
  have hlook := P.look hs hbefore
  cases ha : s.current?.bind pick with
  | some a =>
    obtain ⟨e, he, ha⟩ := Option.bind_eq_some_iff.mp ha
    obtain ⟨e', he', halike⟩ := hlook.exists_current? he
    obtain ⟨b, hb⟩ := Option.isSome_iff_exists.mp ((hpick e e' halike).trans (by rw [ha]; rfl))
    rw [take_of_some he ha, take_of_some he' hb]
    rcases hpass hs hbefore he he' halike with hover | hD
    · exact Or.inl hover
    · exact Or.inr (.ok ⟨e, e', ha, hb, hD⟩ (P.next hs hbefore (Cursor.hasNext_iff.mpr ⟨e, he⟩)))
  | none =>
    have ha' : s'.current?.bind pick = none := by
      cases he : s.current? with
      | none => rw [hlook.current?_eq_none he, Option.bind_none]
      | some e =>
        obtain ⟨e', he', halike⟩ := hlook.exists_current? he
        rw [he, Option.bind_some] at ha
        rw [he', Option.bind_some, ← Option.not_isSome_iff_eq_none, hpick e e' halike, ha]
        exact Bool.false_ne_true
    rw [take_of_none ha, take_of_none ha']
    unfold Cursor.error
    rw [hlook.here]
    exact Or.inr .error

theorem mirrors_take {pick : Element → Option α}
    (hpick : ∀ e e', e.Alike e' → pick e' = pick e) (cause : Cause) :
    P.Mirrors (take pick cause) (take pick cause) := by
  refine (mirrors_take_of (D := Element.Alike) (fun e e' h => by rw [hpick e e' h]) cause
    (fun hs _ _ => P.past_next _ hs) fun _ _ _ _ h => Or.inr h).mono fun a b => ?_
  rintro ⟨e, e', ha, hb, halike⟩
  rw [hpick e e' halike, ha] at hb
  exact Option.some.inj hb

theorem stays_many {step : Parser (Option α)} (h : ∀ {s}, P.past s → P.Spent P.past (step s))
    {s : Cursor} (hs : P.past s) : P.Spent P.past (many step s) := by
  have hpast := h hs
  induction s using many.induct step with
  | case1 s e t hstep =>
    rw [hstep] at hpast
    rwa [many, hstep]
  | case2 s t hstep =>
    rw [hstep] at hpast
    rwa [many, hstep]
  | case3 s a t hstep hlt as u hmany ih =>
    rw [hstep] at hpast
    have hrest := ih hpast (h hpast)
    rw [hmany] at hrest
    rw [many, hstep]
    simp only [hlt, if_true, hmany]
    exact hrest
  | case4 s a t hstep hlt e u hmany ih =>
    rw [hstep] at hpast
    have hrest := ih hpast (h hpast)
    rw [hmany] at hrest
    rw [many, hstep]
    simp only [hlt, if_true, hmany]
    exact hrest
  | case5 s a t hstep hlt =>
    rw [hstep] at hpast
    rw [many, hstep]
    simp only [hlt, if_false]
    exact hpast

/-- One round of a repetition gets on in both ranges or in none. -/
theorem MirrorsWith.exists_round {step : Parser (Option α)} {step' : Parser (Option β)}
    (h : P.MirrorsWith P.past (Option.Rel A) step step') {s s' t : Cursor} {a : α}
    (hs : P.rel s s') (hstep : step s = .ok (some a) t) (ht : ¬ P.past t) :
    ∃ b t', step' s' = .ok (some b) t' ∧ P.rel t t' ∧ A a b ∧
      (t'.rest.length < s'.rest.length ↔ t.rest.length < s.rest.length) := by
  obtain ⟨_, t', hstep', hrel, hab⟩ := (h.ok hs hstep).resolve_left ht
  cases hab with
  | some hab => exact ⟨_, t', hstep', hrel, hab, P.lt hs hrel (h.not_past hstep ht) ht⟩

theorem mirrorsWith_many {step : Parser (Option α)} {step' : Parser (Option β)}
    (h : P.MirrorsWith P.past (Option.Rel A) step step') :
    P.MirrorsWith P.past (List.Forall₂ A) (many step) (many step') where
  stays := stays_many h.stays
  meet := by
    intro s s' hs
    rw [or_iff_not_imp_left]
    intro hpast
    have hbefore : ∀ {t : Cursor} {r}, many step t = r → ¬ P.Spent P.past r → ¬ P.past t := by
      rintro t _ rfl hr
      exact mt (stays_many h.stays) hr
    induction s using many.induct step generalizing s' with
    | case1 s e t hstep =>
      rw [many, hstep] at hpast ⊢
      obtain ⟨t', hstep'⟩ := (h.error hs hstep).resolve_left hpast
      rw [many, hstep']
      exact .error
    | case2 s t hstep =>
      rw [many, hstep] at hpast ⊢
      obtain ⟨_, t', hstep', ht, ⟨⟩⟩ := (h.ok hs hstep).resolve_left hpast
      rw [many, hstep']
      exact .ok .nil ht
    | case3 s a t hstep hlt as u hmany ih =>
      rw [many, hstep] at hpast ⊢
      simp only [hlt, if_true, hmany] at hpast ⊢
      obtain ⟨b, t', hstep', ht, hab, hiff⟩ := h.exists_round hs hstep (hbefore hmany hpast)
      have hrest := ih ht (by rw [hmany]; exact hpast)
      rw [hmany] at hrest
      obtain ⟨bs, u', hmany', hu, has⟩ := hrest.of_ok
      rw [many, hstep']
      simp only [hiff.mpr hlt, if_true, hmany']
      exact .ok (.cons hab has) hu
    | case4 s a t hstep hlt e u hmany ih =>
      rw [many, hstep] at hpast ⊢
      simp only [hlt, if_true, hmany] at hpast ⊢
      obtain ⟨b, t', hstep', ht, hab, hiff⟩ := h.exists_round hs hstep (hbefore hmany hpast)
      have hrest := ih ht (by rw [hmany]; exact hpast)
      rw [hmany] at hrest
      obtain ⟨u', hmany'⟩ := hrest.of_error
      rw [many, hstep']
      simp only [hiff.mpr hlt, if_true, hmany']
      exact .error
    | case5 s a t hstep hlt =>
      rw [many, hstep] at hpast ⊢
      simp only [hlt, if_false] at hpast ⊢
      obtain ⟨b, t', hstep', ht, hab, hiff⟩ := h.exists_round hs hstep hpast
      rw [many, hstep']
      simp only [mt hiff.mp hlt, if_false]
      exact .ok (.cons hab .nil) ht

theorem mirrors_many_map {v : α → γ} {step step' : Parser (Option α)}
    (h : P.MirrorsWith P.past (fun a b => b.map v = a.map v) step step') :
    P.MirrorsWith P.past (fun as bs => bs.map v = as.map v) (many step) (many step') := by
  refine (mirrorsWith_many (A := fun a b => v b = v a) (h.mono fun a b hab => ?_)).mono
    fun as bs h => ?_
  · cases a with
    | none =>
      rw [Option.map_eq_none_iff.mp hab]
      exact .none
    | some a =>
      obtain ⟨b, rfl, hv⟩ := Option.map_eq_some_iff.mp hab
      exact .some hv
  · induction h with
    | nil => rfl
    | cons hab _ ih => rw [List.map_cons, List.map_cons, hab, ih]

theorem mirrors_many {step step' : Parser (Option α)} (h : P.Mirrors step step') :
    P.Mirrors (many step) (many step') := by
  refine (mirrors_many_map (v := id) (h.mono fun a b hab => by rw [hab])).mono fun as bs h => ?_
  rw [List.map_id, List.map_id] at h
  exact h.symm

end Rules

/-! ### The element at the cursor -/

theorem mirrors_advance : P.Mirrors advance advance := by
  rw [advance_eq_take]
  exact mirrors_take (fun _ _ _ => rfl) _

theorem mirrors_expect (kind : TokenKind) (what : Text) :
    P.Mirrors (expect kind what) (expect kind what) := by
  rw [expect_eq_take]
  exact mirrors_take (fun _ _ h => by rw [h.token?]) _

theorem isSome_group?_filter (kind : GroupKind) {e e' : Element} (h : e.Alike e') :
    (e'.group?.filter (·.kind = kind)).isSome = (e.group?.filter (·.kind = kind)).isSome := by
  rcases h.cases with ⟨t, rfl, rfl⟩ | ⟨g, g', rfl, rfl, hkind, -⟩
  · rfl
  · by_cases hk : g.kind = kind <;> simp [Element.group?, Option.filter, hkind, hk]

theorem eq_group_of_filter {kind : GroupKind} {e : Element} {g : Group}
    (h : e.group?.filter (·.kind = kind) = some g) : e = .group g ∧ g.kind = kind := by
  obtain ⟨hg, hk⟩ := Option.filter_eq_some_iff.mp h
  cases e with
  | token t => cases hg
  | group g' =>
    cases hg
    exact ⟨rfl, of_decide_eq_true hk⟩

/-- Groups in braces apart, a group is the same in both ranges, but for its comments. -/
theorem mirrors_expectGroup {kind : GroupKind} (hk : kind ≠ .curly) (what : Text) :
    P.MirrorsWith P.past (fun g g' => g'.uncommented = g.uncommented ∧ P.Pairs g g')
      (expectGroup kind what) (expectGroup kind what) := by
  rw [expectGroup_eq_take]
  refine (mirrors_take_of (D := fun e e' => e.Alike e' ∧
      ∀ g g', e = .group g → e' = .group g' → P.Pairs g g')
        (fun e e' => isSome_group?_filter kind) _
    (fun hs _ _ => P.past_next _ hs) fun hs hpast he he' halike => Or.inr ⟨halike, ?_⟩).mono ?_
  · rintro g g' rfl rfl
    exact P.pairs hs hpast he he'
  · rintro g g' ⟨e, e', hg, hg', halike, hpairs⟩
    obtain ⟨rfl, rfl⟩ := eq_group_of_filter hg
    obtain ⟨rfl, -⟩ := eq_group_of_filter hg'
    rcases halike.cases with ⟨t, ⟨⟩, -⟩ | ⟨_, _, ⟨⟩, ⟨⟩, -, -, hsame⟩
    exact ⟨hsame hk, hpairs g g' rfl rfl⟩

theorem mirrors_current : P.MirrorsWith P.past Element.Alike current current where
  stays := by
    intro s hs
    unfold current
    split <;> exact hs
  meet := by
    intro s s' hs
    by_cases hpast : P.past s
    · left
      unfold current
      split <;> exact hpast
    have hlook := P.look hs hpast
    right
    unfold current Cursor.error
    rw [hlook.here]
    cases he : s.current? with
    | none =>
      rw [hlook.current?_eq_none he]
      exact .error
    | some e =>
      obtain ⟨e', he', halike⟩ := hlook.exists_current? he
      rw [he']
      exact .ok halike hs

theorem mirrors_separated {item item' : Parser α} (hitem : P.Mirrors item item') (what : Text) :
    P.Mirrors (separated item what) (separated item' what) := by
  refine mirrors_many (mirrors_test (fun _ _ hs => hs.hasNext) ?_ (mirrors_pure rfl))
  refine mirrors_bind hitem fun a => mirrors_test (fun _ _ hs => hs.hasNext) ?_ (mirrors_pure rfl)
  exact mirrors_bind (mirrors_expect _ _) fun _ => mirrors_pure rfl

end Pace

end Unnest
