import Unnest.Cursor

/-!
# Outcomes of parsers

What a parser does at a cursor is stated by `Gives`: a result with a property of the result and of
the cursor behind it, or an error with a property of the error. Every way of putting parsers
together has one rule here, so that a statement about a parser comes down to statements about the
elements it looks at and no proof elsewhere has to open the parser monad.

* `gives_many`: repetition, by an invariant of the cursor;
* `Gives.ok`, `Gives.error`: back from a statement to a run.
-/

namespace Unnest

/-! ### Results without a cursor -/

section Except

variable {ε α β : Type} {x : Except ε α} {f : α → Except ε β}

theorem Except.bind_eq_ok {b : β} : x >>= f = .ok b ↔ ∃ a, x = .ok a ∧ f a = .ok b := by
  cases x with
  | ok a => exact ⟨fun h => ⟨a, rfl, h⟩, fun ⟨a', ha, h⟩ => by cases ha; exact h⟩
  | error e => exact ⟨fun h => (nomatch h), fun ⟨a', ha, _⟩ => (nomatch ha)⟩

theorem Except.map_eq_ok {g : α → β} {b : β} : x.map g = .ok b ↔ ∃ a, x = .ok a ∧ g a = b := by
  cases x <;> simp [Except.map]

theorem Except.map_eq_error {g : α → β} {e : ε} : x.map g = .error e ↔ x = .error e := by
  cases x <;> simp [Except.map]

theorem Except.bind_eq_error {e : ε} :
    x >>= f = .error e ↔ x = .error e ∨ ∃ a, x = .ok a ∧ f a = .error e := by
  cases x with
  | ok a =>
    refine ⟨fun h => Or.inr ⟨a, rfl, h⟩, fun h => ?_⟩
    rcases h with h | ⟨a', ha, h⟩
    · cases h
    · cases ha
      exact h
  | error e' =>
    refine ⟨fun h => Or.inl (by cases h; rfl), fun h => ?_⟩
    rcases h with h | ⟨a', ha, -⟩
    · cases h
      rfl
    · cases ha

/-- Two results that look alike through `v` are the same error, or values that look alike. -/
theorem Except.eq_error_or_eq_ok {γ : Type} {v : α → γ} {x' : Except ε α} (h : x'.map v = x.map v) :
    (∃ e, x = .error e ∧ x' = .error e) ∨ ∃ a a', x = .ok a ∧ x' = .ok a' ∧ v a' = v a := by
  cases x with
  | ok a =>
    obtain ⟨a', rfl, ha⟩ := Except.map_eq_ok.mp h
    exact Or.inr ⟨a, a', rfl, rfl, ha⟩
  | error e =>
    cases x' with
    | ok a' => cases h
    | error e' =>
      cases h
      exact Or.inl ⟨e, rfl, rfl⟩

/-- Results that look alike through `v` go on alike, when what follows looks alike through `w`. -/
theorem Except.map_bind_congr {γ δ : Type} {v : α → γ} {w : β → δ} {x' : Except ε α}
    {f' : α → Except ε β} (hx : x'.map v = x.map v)
    (hf : ∀ a a', v a' = v a → (f' a').map w = (f a).map w) :
    (x' >>= f').map w = (x >>= f).map w := by
  obtain ⟨e, rfl, rfl⟩ | ⟨a, a', rfl, rfl, ha⟩ := Except.eq_error_or_eq_ok hx
  · rfl
  · exact hf a a' ha

end Except

namespace Parser

variable {α β : Type} {s s' : Cursor} {Q : α → Cursor → Prop} {E : SourceError → Prop}

/-- At the cursor `s` the parser `p` gives a result and a cursor in `Q`, or an error in `E`. -/
def Gives (p : Parser α) (s : Cursor) (Q : α → Cursor → Prop) (E : SourceError → Prop) : Prop :=
  match p s with
  | .ok a s' => Q a s'
  | .error e _ => E e

variable {p : Parser α} {what : Text} {step : Parser (Option α)}

theorem Gives.ok (h : Gives p s Q E) {a : α} (hp : p s = .ok a s') : Q a s' := by
  unfold Gives at h
  rw [hp] at h
  exact h

theorem Gives.error (h : Gives p s Q E) {e : SourceError} (hp : p s = .error e s') :
    E e := by
  unfold Gives at h
  rw [hp] at h
  exact h

theorem gives_of_forall (hok : ∀ a s', p s = .ok a s' → Q a s')
    (herror : ∀ e s', p s = .error e s' → E e) : Gives p s Q E := by
  unfold Gives
  split
  · next h => exact hok _ _ h
  · next h => exact herror _ _ h

theorem Gives.mono {Q' : α → Cursor → Prop} {E' : SourceError → Prop}
    (h : Gives p s Q E) (hQ : ∀ a s', Q a s' → Q' a s') (hE : ∀ e, E e → E' e) :
    Gives p s Q' E' :=
  gives_of_forall (fun _ _ hp => hQ _ _ (h.ok hp)) (fun _ _ hp => hE _ (h.error hp))

/-! ### The monad -/

theorem gives_pure {a : α} : Gives (pure a) s Q E ↔ Q a s := Iff.rfl

theorem gives_get {Q : Cursor → Cursor → Prop} : Gives get s Q E ↔ Q s s := Iff.rfl

theorem gives_set {Q : PUnit → Cursor → Prop} : Gives (set s') s Q E ↔ Q ⟨⟩ s' := Iff.rfl

theorem gives_bind {f : α → Parser β} {Q : β → Cursor → Prop} :
    Gives (p >>= f) s Q E ↔ Gives p s (fun a s' => Gives (f a) s' Q E) E := by
  unfold Gives
  show (match EStateM.bind p f s with | .ok a s' => Q a s' | .error e _ => E e) ↔ _
  unfold EStateM.bind
  cases p s <;> rfl

theorem Gives.bind {f : α → Parser β} {R : β → Cursor → Prop} (h : Gives p s Q E)
    (hf : ∀ a s', Q a s' → Gives (f a) s' R E) : Gives (p >>= f) s R E :=
  gives_bind.mpr (h.mono hf fun _ => id)

theorem get_bind (f : Cursor → Parser α) (s : Cursor) : (get >>= f) s = f s s := rfl

theorem bind_eq_ok {f : α → Parser β} {b : β} :
    (p >>= f) s = .ok b s' ↔ ∃ a s₁, p s = .ok a s₁ ∧ f a s₁ = .ok b s' := by
  show EStateM.bind p f s = _ ↔ _
  unfold EStateM.bind
  cases p s with
  | ok a s₁ =>
    refine ⟨fun h => ⟨a, s₁, rfl, h⟩, ?_⟩
    rintro ⟨_, _, ⟨⟩, h⟩
    exact h
  | error e s₁ => simp

theorem gives_map {f : α → β} {Q : β → Cursor → Prop} :
    Gives (f <$> p) s Q E ↔ Gives p s (fun a => Q (f a)) E := by
  unfold Gives
  show (match EStateM.map f p s with | .ok a s' => Q a s' | .error e _ => E e) ↔ _
  unfold EStateM.map
  cases p s <;> rfl

theorem map_eq_ok {f : α → β} {b : β} :
    (f <$> p) s = .ok b s' ↔ ∃ a, p s = .ok a s' ∧ f a = b := by
  show EStateM.map f p s = _ ↔ _
  unfold EStateM.map
  cases p s with
  | ok a s₁ =>
    simp only [EStateM.Result.ok.injEq]
    constructor
    · rintro ⟨rfl, rfl⟩
      exact ⟨a, ⟨rfl, rfl⟩, rfl⟩
    · rintro ⟨_, ⟨rfl, rfl⟩, rfl⟩
      exact ⟨rfl, rfl⟩
  | error e s₁ => simp

theorem gives_ite {c : Prop} [Decidable c] {p q : Parser α} :
    Gives (if c then p else q) s Q E ↔ (c → Gives p s Q E) ∧ (¬ c → Gives q s Q E) := by
  by_cases h : c
  · simp [h]
  · simp [h]

theorem gives_get_ite {c : Cursor → Prop} [∀ s, Decidable (c s)] {p q : Cursor → Parser α} :
    Gives (get >>= fun s => if c s then p s else q s) s Q E ↔
      (c s → Gives (p s) s Q E) ∧ (¬ c s → Gives (q s) s Q E) := by
  rw [gives_bind, gives_get, gives_ite]

theorem gives_branch {c : Prop} [Decidable c] {p q : Parser α} {f : α → Parser β}
    {Q : β → Cursor → Prop} :
    Gives (if c then p >>= f else q >>= f) s Q E ↔
      Gives (if c then p else q) s (fun a s' => Gives (f a) s' Q E) E := by
  simp only [gives_ite, gives_bind]

/-! ### The element at the cursor -/

theorem gives_fail {cause : Cause} : Gives (fail cause) s Q E ↔ E (s.error cause) := Iff.rfl

theorem gives_ofExcept {result : Except SourceError α} :
    Gives (ofExcept result) s Q E ↔ (∀ a, result = .ok a → Q a s) ∧ ∀ e, result = .error e →
    E e := by
  cases result with
  | ok a => simp [Gives, ofExcept]
  | error e => simp [Gives, ofExcept]

theorem ofExcept_eq_ok {result : Except SourceError α} {a : α} :
    ofExcept result s = .ok a s' ↔ result = .ok a ∧ s = s' := by
  unfold ofExcept
  cases result <;> simp

theorem runOn_eq_ok {g : Group} {a : α} :
    p.runOn g = .ok a ↔ ∃ s', p (.ofGroup g) = .ok a s' := by
  unfold runOn
  cases p (.ofGroup g) <;> simp

theorem gives_current {Q : Element → Cursor → Prop} :
    Gives current s Q E ↔
      (∀ e, s.current? = some e → Q e s) ∧ (s.current? = none → E (s.error .endOfInput)) := by
  unfold Gives current
  cases s.current? <;> simp

theorem gives_advance {Q : Unit → Cursor → Prop} :
    Gives advance s Q E ↔
      (s.hasNext = true → Q () s.next) ∧ (s.hasNext = false → E (s.error .endOfInput)) := by
  unfold Gives advance
  cases s.hasNext <;> simp

theorem gives_expect {kind : TokenKind} {Q : Token → Cursor → Prop} :
    Gives (expect kind what) s Q E ↔
      (∀ t, s.current? = some (.token t) → t.kind = kind → Q t s.next) ∧
        (s.isAt kind = false → E (s.error (.expected what))) := by
  unfold Gives expect Cursor.isAt
  rcases s.current? with _ | t | g
  · simp
  · by_cases h : t.kind = kind
    · simp [h, Element.is]
    · simp [h, Element.is]
  · simp [Element.is]

theorem gives_expectGroup {kind : GroupKind} {Q : Group → Cursor → Prop} :
    Gives (expectGroup kind what) s Q E ↔
      (∀ g, s.current? = some (.group g) → g.kind = kind → Q g s.next) ∧
        (s.isAtGroup kind = false → E (s.error (.expected what))) := by
  unfold Gives expectGroup Cursor.isAtGroup
  rcases s.current? with _ | t | g
  · simp
  · simp [Element.isGroup]
  · by_cases h : g.kind = kind
    · simp [h, Element.isGroup]
    · simp [h, Element.isGroup]

theorem expectGroup_eq_ok {kind : GroupKind} {g : Group} {s t : Cursor} :
    expectGroup kind what s = .ok g t ↔ s.current? = some (.group g) ∧ g.kind = kind ∧
    t = s.next := by
  constructor
  · intro h
    have hgives : Gives (expectGroup kind what) s
        (fun g t => s.current? = some (.group g) ∧ g.kind = kind ∧ t = s.next) fun _ => True :=
      gives_expectGroup.mpr ⟨fun _ hg hk => ⟨hg, hk, rfl⟩, fun _ => trivial⟩
    exact hgives.ok h
  · rintro ⟨hg, hk, rfl⟩
    unfold expectGroup
    simp [hg, hk]

/-! ### Repetition -/

/-- What `many` gives, by an invariant `I` of the cursor at the start of each round and a property
`X` of the cursor behind the last one. -/
theorem gives_many_until (I X : Cursor → Prop) {A : α → Prop}
    (hstep : ∀ s, I s → Gives step s (fun a s' => (a = none → X s') ∧
      ∀ b, a = some b → A b ∧ I s' ∧ (s'.rest.length < s.rest.length ∨ X s')) E) (hs : I s) :
    Gives (many step) s (fun as s' => X s' ∧ ∀ a ∈ as, A a) E := by
  induction s using many.induct step with
  | case1 s e s' h =>
    unfold Gives
    rw [many, h]
    exact (hstep s hs).error h
  | case2 s s' h =>
    unfold Gives
    rw [many, h]
    exact ⟨((hstep s hs).ok h).1 rfl, by simp⟩
  | case3 s a s' h hlt as s'' hmany ih =>
    obtain ⟨hA, hI, -⟩ := ((hstep s hs).ok h).2 a rfl
    obtain ⟨hX, hA'⟩ := (ih hI).ok hmany
    unfold Gives
    rw [many, h]
    simp only [hlt, if_true, hmany]
    refine ⟨hX, fun b hb => ?_⟩
    rcases List.mem_cons.mp hb with rfl | hb
    · exact hA
    · exact hA' b hb
  | case4 s a s' h hlt e s'' hmany ih =>
    have he := (ih (((hstep s hs).ok h).2 a rfl).2.1).error hmany
    unfold Gives
    rw [many, h]
    simp only [hlt, if_true, hmany]
    exact he
  | case5 s a s' h hlt =>
    obtain ⟨hA, -, hX⟩ := ((hstep s hs).ok h).2 a rfl
    unfold Gives
    rw [many, h]
    simp only [hlt, if_false]
    refine ⟨hX.resolve_left hlt, fun b hb => ?_⟩
    rw [List.mem_singleton.mp hb]
    exact hA

theorem gives_many (I : Cursor → Prop) {A : α → Prop}
    (hstep : ∀ s, I s → Gives step s (fun a s' => I s' ∧ ∀ b, a = some b → A b) E) (hs : I s) :
    Gives (many step) s (fun as s' => I s' ∧ ∀ a ∈ as, A a) E := by
  refine gives_many_until I I (fun s hs => ?_) hs
  refine (hstep s hs).mono (fun a s' h => ?_) fun _ => id
  exact ⟨fun _ => h.1, fun b hb => ⟨h.2 b hb, h.1, Or.inr h.1⟩⟩

/-- What `many` gives, by an invariant that takes account of what was found in the results so
far. -/
theorem gives_many_collect {f : α → List β} (I : List β → Cursor → Prop)
    {found : List β} (hstep : ∀ found s, I found s →
      Gives step s (fun a s' => I (found ++ a.elim [] f) s') E) (hs : I found s) :
    Gives (many step) s (fun as s' => I (found ++ as.flatMap f) s') E := by
  induction s using many.induct step generalizing found with
  | case1 s e s' h =>
    unfold Gives
    rw [many, h]
    exact (hstep found s hs).error h
  | case2 s s' h =>
    unfold Gives
    rw [many, h]
    exact (hstep found s hs).ok h
  | case3 s a s' h hlt as s'' hmany ih =>
    have hmore := (ih ((hstep found s hs).ok h)).ok hmany
    unfold Gives
    rw [many, h]
    simp only [hlt, if_true, hmany]
    rw [List.flatMap_cons, ← List.append_assoc]
    exact hmore
  | case4 s a s' h hlt e s'' hmany ih =>
    have he := (ih ((hstep found s hs).ok h)).error hmany
    unfold Gives
    rw [many, h]
    simp only [hlt, if_true, hmany]
    exact he
  | case5 s a s' h hlt =>
    have hlast := (hstep found s hs).ok h
    unfold Gives
    rw [many, h]
    simp only [hlt, if_false]
    rw [List.flatMap_singleton]
    exact hlast

theorem gives_separated {item : Parser α} (I : Cursor → Prop) {A : α → Prop}
    (hitem : ∀ s, I s → Gives item s (fun a s' => I s' ∧ A a) E)
    (hcomma : ∀ s, I s → s.isAt .comma = true → I s.next)
    (herror : ∀ s, I s → E (s.error (.expected what))) (hs : I s) :
    Gives (separated item what) s (fun as s' => I s' ∧ ∀ a ∈ as, A a) E := by
  refine gives_many I (fun s hs => ?_) hs
  rw [gives_get_ite]
  refine ⟨fun _ => ?_, fun _ => ?_⟩
  · refine (hitem s hs).bind fun a s₁ ha => ?_
    rw [gives_get_ite]
    refine ⟨fun _ => ?_, fun _ => ?_⟩
    · rw [gives_bind, gives_expect]
      refine ⟨fun t ht hk => ?_, fun _ => herror s₁ ha.1⟩
      rw [gives_pure]
      refine ⟨hcomma s₁ ha.1 (by simp [Cursor.isAt, ht, Element.is, hk]), ?_⟩
      rintro b ⟨⟩
      exact ha.2
    · rw [gives_pure]
      refine ⟨ha.1, ?_⟩
      rintro b ⟨⟩
      exact ha.2
  · rw [gives_pure]
    exact ⟨hs, by simp⟩

end Parser

end Unnest
