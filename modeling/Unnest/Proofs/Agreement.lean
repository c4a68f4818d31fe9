import Unnest.Proofs.Extent
import Unnest.Proofs.TypeReading
import Mathlib

/-!
# Skipping and reading agree

The functions that skip over syntax cannot fail; the parsers that read it can. Where a parser
succeeds, it ends where its twin does. Here the other cases are added: what skipping says when
reading fails. A run of modifiers fails only within an annotation, and skipping it stops in front of
this annotation. A type that can be skipped fails only within its type arguments, which skipping
does not look into.

That skipping cannot fail is part of its type, since `Cursor.next` stays where it is at the end of
the range. `Parser.passType` and its like do the same with moves that fail there, and they never do.

* `gives_typeWith_error`: why a type cannot be read;
* `skipping_agrees_with_reading`: the two together.
-/

namespace Unnest

namespace Cursor

variable {s t : Cursor}

theorem skipModifiers_of_broken_annot (h : s.isAt .atSign = true) (ha : s.skipAnnot = (false, t)) :
    s.skipModifiers = s :=
  iterate_of_none (by simp only [h, if_true, ha])

theorem isAt_of_not_hasNext (h : s.hasNext = false) (kind : TokenKind) : s.isAt kind = false := by
  rw [Bool.eq_false_iff]
  intro hat
  rw [hasNext_of_isAt hat] at h
  cases h

theorem current?_of_not_hasNext (h : s.hasNext = false) : s.current? = none := by
  rw [Option.eq_none_iff_forall_ne_some]
  intro e he
  rw [hasNext_iff.mpr ⟨e, he⟩] at h
  cases h

theorem groupAt?_of_current {g : Group} {kind : GroupKind} (hg : s.current? = some (.group g))
    (hk : g.kind = kind) :
    s.groupAt? kind = some g := by
  simp [groupAt?, hg, Element.isGroup, Element.group?, hk]

end Cursor

namespace Parser

variable {α β : Type} {s t : Cursor} {e : SourceError} {Q : α → Cursor → Prop}
  {E : SourceError → Prop}

/-! ### Runs of parsers -/

theorem bind_eq_error {p : Parser α} {f : α → Parser β} :
    (p >>= f) s = .error e t ↔ p s = .error e t ∨ ∃ a u, p s = .ok a u ∧ f a u = .error e t := by
  show EStateM.bind p f s = _ ↔ _
  unfold EStateM.bind
  cases p s <;> simp

theorem Gives.exists_ok {p : Parser α} (h : Gives p s Q fun _ => False) :
    ∃ a s', p s = .ok a s' ∧ Q a s' := by
  cases hp : p s with
  | ok a s' => exact ⟨a, s', rfl, h.ok hp⟩
  | error e s' => exact (h.error hp).elim

theorem exists_error_of_runOn {p : Parser α} {g : Group} (h : (p.runOn g).isOk = false) :
    ∃ e t, p (.ofGroup g) = .error e t := by
  unfold runOn at h
  cases hp : p (.ofGroup g) with
  | error e t => exact ⟨e, t, rfl⟩
  | ok a t =>
    rw [hp] at h
    cases h

/-- A repetition that fails does so in one of its rounds, behind rounds that went well. -/
theorem exists_round_of_many_eq_error {step : Parser (Option α)} (h : many step s = .error e t) :
    ∃ u, Relation.ReflTransGen (fun u v => ∃ a, step u = .ok (some a) v) s u ∧
      step u = .error e t := by
  induction s using many.induct step with
  | case1 s e' s' hstep =>
    rw [many, hstep] at h
    cases h
    exact ⟨s, .refl, hstep⟩
  | case2 s s' hstep =>
    rw [many, hstep] at h
    cases h
  | case3 s a s' hstep hlt as s'' hmany ih =>
    rw [many, hstep] at h
    simp only [hlt, if_true, hmany] at h
    cases h
  | case4 s a s' hstep hlt e' s'' hmany ih =>
    rw [many, hstep] at h
    simp only [hlt, if_true, hmany] at h
    cases h
    obtain ⟨u, hrounds, hu⟩ := ih hmany
    exact ⟨u, .head ⟨a, hstep⟩ hrounds, hu⟩
  | case5 s a s' hstep hlt =>
    rw [many, hstep] at h
    simp only [hlt, if_false] at h
    cases h

theorem gives_advance_bind (h : s.hasNext = true) {f : Unit → Parser α}
    (hnext : Gives (f ()) s.next Q E) :
    Gives (advance >>= f) s Q E := by
  refine gives_bind.mpr (gives_advance.mpr ⟨fun _ => hnext, fun hend => ?_⟩)
  rw [h] at hend
  cases hend

/-! ### Skipping by moves that may fail -/

/-- Repeats `round` until it gives something. A round that gives nothing without moving the cursor
forward is the last one, and then the result is `stuck`. -/
def loop (round : Parser (Option α)) (stuck : α) : Parser α := fun s =>
  match round s with
  | .error e s' => .error e s'
  | .ok (some a) s' => .ok a s'
  | .ok none s' => if s'.rest.length < s.rest.length then loop round stuck s' else .ok stuck s'
termination_by s => s.rest.length

/-- What `loop` gives, by an invariant `I` of the cursor at the start of each round. -/
theorem gives_loop {round : Parser (Option α)} {stuck : α} (I : Cursor → Prop)
    (hround : ∀ s, I s → Gives round s (fun a s' => (∀ b, a = some b → Q b s') ∧
      (a = none → I s' ∧ s'.rest.length < s.rest.length)) E) (hs : I s) :
      Gives (loop round stuck) s Q E := by
  induction s using loop.induct round with
  | case1 s e s' h =>
    unfold Gives
    rw [loop, h]
    exact (hround s hs).error h
  | case2 s a s' h =>
    unfold Gives
    rw [loop, h]
    exact ((hround s hs).ok h).1 a rfl
  | case3 s s' h hlt ih =>
    have hrest := ih (((hround s hs).ok h).2 rfl).1
    unfold Gives at hrest ⊢
    rw [loop, h]
    simp only [hlt, if_true]
    exact hrest
  | case4 s s' h hlt => exact absurd (((hround s hs).ok h).2 rfl).2 hlt

/-- Moves over further parts of a dotted name, with `behind` for what may follow a part. -/
def passParts (behind : Parser Unit) : Parser Bool :=
  loop (do
    if (← get).isAt .dot then
      advance
      if (← get).isAt .ident then
        advance
        behind
        return none
      else
        return some false
    else
      return some true) true

/-- Moves over an annotation with its arguments. -/
def passAnnot : Parser Bool := do
  if (← get).isAt .atSign then
    advance
    if (← get).isAt .ident then
      advance
      if ← passParts (pure ()) then
        if (← get).isAtGroup .round then
          advance
          return true
        else
          return true
      else
        return false
    else
      return false
  else
    return false

/-- Moves over modifiers and annotations; from an annotation that is not whole the cursor goes
back. -/
def passModifiers : Parser Unit :=
  loop (do
    let s ← get
    if s.hasNext then
      if s.isAt .atSign then
        if ← passAnnot then
          return none
        else
          set s
          return some ()
      else if (← current).token?.any (·.kind.isModifier) then
        advance
        return none
      else
        return some ()
    else
      return some ()) ()

/-- Moves over pairs of square brackets with nothing between them. -/
def passDims : Parser Unit :=
  loop (do
    if (← get).hasNext then
      if (← current).isEmptyGroup .square then
        advance
        return none
      else
        return some ()
    else
      return some ()) ()

/-- Moves over a group of type arguments, if one is there. -/
def passAngle : Parser Unit := do
  if (← get).isAtGroup .angle then
    advance
  else
    return ()

/-- Moves over a type. -/
def passType : Parser Bool := do
  if (← get).isAt .primitive then
    advance
    passDims
    return true
  else if (← get).isAt .ident then
    advance
    passAngle
    if ← passParts passAngle then
      passDims
      return true
    else
      return false
  else
    return false

/-- Parts of a name are passed over as the function `skip` does, which has the same three cases. -/
theorem gives_passParts {behind : Parser Unit} (pass : Cursor → Cursor)
    (skip : Cursor → Bool × Cursor) (hbehind : ∀ s, Gives behind s (fun _ s' => s' = pass s) E)
    (hpass : ∀ s : Cursor, (pass s).rest.length ≤ s.rest.length)
    (hpart : ∀ s : Cursor, s.isAt .dot = true → s.next.isAt .ident = true →
      skip s = skip (pass s.next.next))
    (hbare : ∀ s : Cursor, s.isAt .dot = true → s.next.isAt .ident = false →
      skip s = (false, s.next))
    (hend : ∀ s : Cursor, s.isAt .dot = false → skip s = (true, s)) :
    Gives (passParts behind) s (fun b s' => skip s = (b, s')) E := by
  refine gives_loop (fun s' => skip s' = skip s) (fun s₁ h₁ => ?_) rfl
  rw [gives_get_ite]
  refine ⟨fun hdot => ?_, fun hdot => ?_⟩
  · refine gives_advance_bind (Cursor.hasNext_of_isAt hdot) ?_
    rw [gives_get_ite]
    refine ⟨fun hident => ?_, fun hident => ?_⟩
    · refine gives_advance_bind (Cursor.hasNext_of_isAt hident) ?_
      refine (hbehind _).bind fun _ s₂ h₂ => gives_pure.mpr ⟨by simp, fun _ => ⟨?_, ?_⟩⟩
      · rw [h₂, ← hpart s₁ hdot hident, h₁]
      · have hdot := Cursor.length_rest_next_lt_of_isAt hdot
        have hident := Cursor.length_rest_next_le s₁.next
        have hlast := hpass s₁.next.next
        rw [h₂]
        omega
    · refine gives_pure.mpr ⟨fun b hb => ?_, by simp⟩
      cases hb
      rw [← h₁, hbare s₁ hdot (by simpa using hident)]
  · refine gives_pure.mpr ⟨fun b hb => ?_, by simp⟩
    cases hb
    rw [← h₁, hend s₁ (by simpa using hdot)]

theorem gives_passAnnot : Gives passAnnot s (fun b s' => s.skipAnnot = (b, s')) E := by
  unfold passAnnot Cursor.skipAnnot
  rw [gives_get_ite]
  refine ⟨fun hat => ?_, fun hat => gives_pure.mpr (by rw [if_neg hat])⟩
  refine gives_advance_bind (Cursor.hasNext_of_isAt hat) ?_
  rw [gives_bind, gives_get, gives_ite, if_pos hat]
  refine ⟨fun hident => ?_, fun hident => gives_pure.mpr (by rw [if_neg hident])⟩
  refine gives_advance_bind (Cursor.hasNext_of_isAt hident) ?_
  rw [gives_bind, if_pos hident]
  refine (gives_passParts id Cursor.skipParts (fun _ => gives_pure.mpr rfl) (fun _ => le_rfl)
    (fun _ => Cursor.skipParts_of_dot) (fun _ => Cursor.skipParts_of_bare_dot)
    (fun _ => Cursor.skipParts_of_not_dot)).mono (fun b s₁ h₁ => ?_) fun _ => id
  rw [h₁]
  cases b with
  | false => rfl
  | true =>
    simp only [if_true]
    rw [gives_get_ite]
    refine ⟨fun hround => ?_, fun hround => gives_pure.mpr (by rw [if_neg hround])⟩
    refine gives_advance_bind (Cursor.hasNext_of_isAtGroup hround) (gives_pure.mpr ?_)
    rw [if_pos hround]

theorem gives_passModifiers : Gives passModifiers s (fun _ s' => s' = s.skipModifiers) E := by
  refine gives_loop (fun s' => s'.skipModifiers = s.skipModifiers) (fun s₁ h₁ => ?_) rfl
  rw [gives_get_ite]
  refine ⟨fun hnext => ?_, fun hend => ?_⟩
  · rw [gives_ite]
    refine ⟨fun hat => ?_, fun hat => ?_⟩
    · refine gives_passAnnot.bind fun b s₂ h₂ => ?_
      cases b with
      | true =>
        refine gives_pure.mpr ⟨by simp, fun _ => ⟨?_, Cursor.length_rest_skipAnnot_lt h₂⟩⟩
        rw [← h₁, Cursor.skipModifiers_of_annot hat h₂]
      | false =>
        simp only [Bool.false_eq_true, if_false]
        rw [gives_bind, gives_set]
        refine gives_pure.mpr ⟨fun _ _ => ?_, by simp⟩
        rw [← h₁, Cursor.skipModifiers_of_broken_annot hat h₂]
    · rw [gives_bind, gives_current]
      refine ⟨fun e he => ?_, fun hnone => ?_⟩
      · rw [gives_ite]
        refine ⟨fun hmodifier => ?_, fun hmodifier => ?_⟩
        · refine gives_advance_bind hnext (gives_pure.mpr ⟨by simp, fun _ => ⟨?_, ?_⟩⟩)
          · cases e with
            | token w => rw [← h₁,
              Cursor.skipModifiers_of_modifier he (by simpa [Element.token?] using hmodifier)]
            | group g => simp [Element.token?] at hmodifier
          · exact Cursor.length_rest_next_lt hnext
        · refine gives_pure.mpr ⟨fun _ _ => ?_, by simp⟩
          rw [← h₁, Cursor.skipModifiers_of_other (by simpa using hat)]
          rw [he, Option.any_some]
          simpa using hmodifier
      · rw [Cursor.hasNext_iff, hnone] at hnext
        simp at hnext
  · have hend : s₁.hasNext = false := by simpa using hend
    refine gives_pure.mpr ⟨fun _ _ => ?_, by simp⟩
    rw [← h₁, Cursor.skipModifiers_of_other (Cursor.isAt_of_not_hasNext hend .atSign)]
    rw [Cursor.current?_of_not_hasNext hend, Option.any_none]

theorem gives_passDims : Gives passDims s (fun _ s' => s' = s.skipDims) E := by
  refine gives_loop (fun s' => s'.skipDims = s.skipDims) (fun s₁ h₁ => ?_) rfl
  rw [gives_get_ite]
  refine ⟨fun hnext => ?_, fun hend => ?_⟩
  · rw [gives_bind, gives_current]
    refine ⟨fun e he => ?_, fun hnone => ?_⟩
    · have hempty : s₁.isAtEmptyGroup .square = e.isEmptyGroup .square := by
        rw [Cursor.isAtEmptyGroup, he, Option.any_some]
      rw [gives_ite]
      refine ⟨fun hpair => ?_, fun hpair => gives_pure.mpr ⟨fun _ _ => ?_, by simp⟩⟩
      · refine gives_advance_bind hnext (gives_pure.mpr ⟨by simp, fun _ => ⟨?_, ?_⟩⟩)
        · rw [← h₁, Cursor.skipDims_of_pair (hempty.trans hpair)]
        · exact Cursor.length_rest_next_lt hnext
      · rw [← h₁, Cursor.skipDims_of_other (hempty.trans (by simpa using hpair))]
    · rw [Cursor.hasNext_iff, hnone] at hnext
      simp at hnext
  · have hnone := Cursor.current?_of_not_hasNext (by simpa using hend)
    refine gives_pure.mpr ⟨fun _ _ => ?_, by simp⟩
    rw [← h₁, Cursor.skipDims_of_other (by rw [Cursor.isAtEmptyGroup, hnone, Option.any_none])]

theorem gives_passAngle : Gives passAngle s (fun _ s' => s' = s.skipAngle) E := by
  unfold passAngle Cursor.skipAngle
  rw [gives_get_ite]
  refine ⟨fun hangle => ?_, fun hangle => gives_pure.mpr (by rw [if_neg hangle])⟩
  exact gives_advance.mpr ⟨fun _ => by rw [if_pos hangle],
    fun h => absurd (Cursor.hasNext_of_isAtGroup hangle) (by simp [h])⟩

theorem gives_passType : Gives passType s (fun b s' => s.skipType = (b, s')) E := by
  unfold passType Cursor.skipType
  rw [gives_get_ite]
  refine ⟨fun hprimitive => ?_, fun hprimitive => ?_⟩
  · refine gives_advance_bind (Cursor.hasNext_of_isAt hprimitive) ?_
    rw [gives_bind, if_pos hprimitive]
    exact gives_passDims.mono (fun _ _ h => gives_pure.mpr (by rw [h])) fun _ => id
  · rw [gives_bind, gives_get, gives_ite, if_neg hprimitive]
    refine ⟨fun hident => ?_, fun hident => gives_pure.mpr (by rw [if_neg hident])⟩
    refine gives_advance_bind (Cursor.hasNext_of_isAt hident) ?_
    rw [gives_bind, if_pos hident]
    refine gives_passAngle.mono (fun _ s₁ h₁ => ?_) fun _ => id
    rw [gives_bind, h₁]
    refine (gives_passParts Cursor.skipAngle (fun s => (s.moreParts.isWhole, s.moreParts.cursor))
      (fun _ => gives_passAngle) Cursor.length_rest_skipAngle_le (fun s hdot hident => ?_)
      (fun s hdot hident => ?_)
      fun s hdot => ?_).mono (fun b s₂ h₂ => ?_) fun _ => id
    · rw [Cursor.moreParts_of_dot hdot hident]
      rfl
    · rw [Cursor.moreParts_of_bare_dot hdot hident]
    · rw [Cursor.moreParts_of_not_dot hdot]
    · obtain ⟨hwhole, hcursor⟩ := Prod.mk.inj h₂
      simp only [Cursor.typeName, NameScan.cons, hwhole, hcursor]
      cases b with
      | false => rfl
      | true =>
        simp only [if_true]
        exact gives_passDims.bind fun _ _ h => gives_pure.mpr (by rw [h])

/-! ### Modifiers that cannot be read -/

/-- Modifiers and annotations are read one after the other, from one cursor up to another one. -/
def MarksUpTo : Cursor → Cursor → Prop :=
  Relation.ReflTransGen fun s t => ∃ m, mark s = .ok (some m) t

theorem MarksUpTo.skipModifiers_eq (h : MarksUpTo s t) : s.skipModifiers = t.skipModifiers := by
  induction h with
  | refl => rfl
  | tail _ hmark ih =>
    obtain ⟨m, hm⟩ := hmark
    rw [ih, ((gives_mark.ok hm).2 m rfl).1]

theorem gives_mark_of_not_at (hat : s.isAt .atSign = false) :
    Gives mark s (fun _ _ => True) fun _ => False := by
  unfold mark
  rw [gives_bind, gives_get, hat, if_neg Bool.false_ne_true]
  split
  · next w hw =>
    split
    · exact gives_advance_bind (Cursor.hasNext_iff.mpr ⟨_, hw⟩) (gives_pure.mpr trivial)
    · exact gives_pure.mpr trivial
  · exact gives_pure.mpr trivial

theorem annotationText_of_mark_eq_error (h : mark s = .error e t) :
    s.isAt .atSign = true ∧ annotationText s = .error e t := by
  have hat : s.isAt .atSign = true := by
    rw [← Bool.not_eq_false]
    exact fun hat => (gives_mark_of_not_at hat).error h
  unfold mark at h
  rw [get_bind, if_pos hat] at h
  split_ifs at h with hident
  · refine ⟨hat, (bind_eq_error.mp h).resolve_right ?_⟩
    rintro ⟨text, u, -, hpure⟩
    cases hpure
  · cases h

theorem gives_annotationText_error :
    Gives annotationText s (fun _ _ => True) fun _ => s.skipAnnot.1 = false := by
  unfold annotationText
  rw [gives_bind, gives_expect]
  refine ⟨fun sign ht hk => ?_, fun hat => by simp [Cursor.skipAnnot, hat]⟩
  have hat := Cursor.isAt_of_current ht hk
  rw [gives_bind, gives_expect]
  refine ⟨fun first ht hk => ?_, fun hident => by simp [Cursor.skipAnnot, hat, hident]⟩
  have hident := Cursor.isAt_of_current ht hk
  refine (gives_many (fun s' => s'.skipParts = s.next.next.skipParts) (A := fun _ => True)
    (fun s₁ h₁ => ?_) rfl).bind
    fun parts s₁ _ => ?_
  · rw [gives_get_ite]
    refine ⟨fun hdot => ?_, fun _ => gives_pure.mpr ⟨h₁, fun _ _ => trivial⟩⟩
    refine gives_advance_bind (Cursor.hasNext_of_isAt hdot) ?_
    rw [gives_bind, gives_expect]
    refine ⟨fun part ht hk => gives_pure.mpr ⟨?_, fun _ _ => trivial⟩, fun hbare => ?_⟩
    · rw [← h₁, Cursor.skipParts_of_dot hdot (Cursor.isAt_of_current ht hk)]
    · rw [Cursor.skipParts_of_bare_dot hdot hbare] at h₁
      simp [Cursor.skipAnnot, hat, hident, ← h₁]
  · rw [gives_bind, gives_get]
    split
    · exact gives_pure.mpr trivial
    · next g hg =>
      exact gives_advance_bind (Cursor.hasNext_iff.mpr ⟨_, (Cursor.groupAt?_eq_some hg).1⟩)
        (gives_pure.mpr trivial)

/-- **Modifiers that cannot be read**: they fail in an annotation, and to skip them leads in front
of it. -/
theorem skipModifiers_of_error (h : modifiers s = .error e t) :
    MarksUpTo s s.skipModifiers ∧ s.skipModifiers.isAt .atSign = true ∧
      annotationText s.skipModifiers = .error e t := by
  have hmany : many mark s = .error e t := by
    refine (bind_eq_error.mp h).resolve_right ?_
    rintro ⟨marks, u, -, hpure⟩
    cases hpure
  obtain ⟨u, hmarks, hu⟩ := exists_round_of_many_eq_error hmany
  obtain ⟨hat, hannot⟩ := annotationText_of_mark_eq_error hu
  have hbroken : u.skipAnnot = (false, u.skipAnnot.2) :=
    Prod.ext (gives_annotationText_error.error hannot) rfl
  have hstop : s.skipModifiers = u := by
    rw [MarksUpTo.skipModifiers_eq hmarks, Cursor.skipModifiers_of_broken_annot hat hbroken]
  rw [hstop]
  exact ⟨hmarks, hat, hannot⟩

/-! ### Types that cannot be read -/

theorem gives_angleArgs_error {args : Group → Except SourceError (List TypeRef)} :
    Gives (typeWith.angleArgs args) s (fun _ s' => s' = s.skipAngle)
      fun e => ∃ g, s.groupAt? .angle = some g ∧ args g = .error e := by
  unfold typeWith.angleArgs Cursor.skipAngle
  rw [gives_get_ite]
  refine ⟨fun hangle => ?_, fun hangle => gives_pure.mpr (by rw [if_neg hangle])⟩
  rw [gives_bind, gives_expectGroup]
  refine ⟨fun g hg hk => ?_, fun hnot => ?_⟩
  · rw [gives_bind, gives_ofExcept]
    refine ⟨fun _ _ => gives_pure.mpr (by rw [if_pos hangle]), fun e he => ?_⟩
    exact ⟨g, Cursor.groupAt?_of_current hg hk, he⟩
  · rw [hangle] at hnot
    cases hnot

theorem gives_many_typePart_error {args : Group → Except SourceError (List TypeRef)} :
    Gives (many (typePart args)) s (fun _ _ => True) fun e => s.moreParts.isWhole = false ∨
      ∃ part g, (part, some g) ∈ s.moreParts.parts ∧ args g = .error e := by
  -- what is still ahead at some part of the name is ahead at the first one
  refine (gives_many (fun s' => (s'.moreParts.isWhole = false → s.moreParts.isWhole = false) ∧
    s'.moreParts.parts ⊆ s.moreParts.parts) (A := fun _ => True) (fun s₁ h₁ => ?_)
    ⟨id, List.Subset.refl _⟩).mono (fun _ _ _ => trivial) fun _ => id
  unfold typePart roundIf
  rw [gives_get_ite]
  refine ⟨fun hdot => ?_, fun _ => gives_pure.mpr ⟨h₁, fun _ _ => trivial⟩⟩
  refine gives_advance_bind (Cursor.hasNext_of_isAt hdot) ?_
  rw [gives_bind, gives_expect]
  refine ⟨fun part ht hk => ?_, fun hbare => ?_⟩
  · rw [Cursor.moreParts_of_dot hdot (Cursor.isAt_of_current ht hk)] at h₁
    obtain ⟨hmem, hsubset⟩ := List.cons_subset.mp h₁.2
    rw [gives_bind]
    refine gives_angleArgs_error.mono (fun _ s₂ h₂ => ?_) fun e he => ?_
    · rw [gives_pure, h₂]
      exact ⟨⟨h₁.1, hsubset⟩, fun _ _ => trivial⟩
    · obtain ⟨g, hg, hargs⟩ := he
      rw [hg] at hmem
      exact Or.inr ⟨_, g, hmem, hargs⟩
  · rw [Cursor.moreParts_of_bare_dot hdot hbare] at h₁
    exact Or.inl (h₁.1 rfl)

/-- **Types that cannot be read**: where no annotation stands, the type cannot be skipped either, or
the type arguments of a part of its name cannot be read. -/
theorem gives_typeWith_error {args : Group → Except SourceError (List TypeRef)}
    (hat : s.isAt .atSign = false) :
    Gives (typeWith args) s (fun _ _ => True) fun e => s.skipType.1 = false ∨
      ∃ part g, (part, some g) ∈ s.typeName.parts ∧ args g = .error e := by
  have hdrop : Gives dropAnnotations s (fun _ s' => s' = s) fun _ => False := by
    unfold Gives
    rw [dropAnnotations_of_not_at hat]
  unfold typeWith
  rw [gives_bind]
  refine hdrop.mono (fun _ s₁ h₁ => ?_) fun _ => False.elim
  rw [gives_bind, gives_get, gives_ite, h₁]
  refine ⟨fun hprimitive => ?_, fun hprimitive => ?_⟩
  · have hnext : s.hasNext = true := by
      rcases Bool.or_eq_true_iff.mp hprimitive with h | h
      · exact Cursor.hasNext_of_isAt h
      · exact Cursor.hasNext_of_isAt h
    refine gives_advance_bind hnext ?_
    exact gives_dims.bind fun _ _ _ => gives_pure.mpr trivial
  · have hprimitive : s.isAt .primitive = false ∧ s.isAt .kwVoid = false := by
      simpa using hprimitive
    rw [gives_bind, gives_expect]
    refine ⟨fun first ht hk => ?_,
      fun hident => Or.inl (by simp [Cursor.skipType, hprimitive.1, hident])⟩
    have hident := Cursor.isAt_of_current ht hk
    have hparts : s.typeName.parts =
        (s.here.text, s.next.groupAt? .angle) :: s.next.skipAngle.moreParts.parts := rfl
    rw [gives_bind]
    refine gives_angleArgs_error.mono (fun _ s₂ h₂ => ?_) fun e he => ?_
    · rw [gives_bind, h₂]
      refine gives_many_typePart_error.mono (fun _ s₃ _ => ?_) fun e he => ?_
      · exact gives_dims.bind fun _ _ _ => gives_pure.mpr trivial
      · rcases he with hbare | ⟨part, g, hmem, hargs⟩
        · left
          simp [Cursor.skipType, hprimitive.1, hident, Cursor.typeName, NameScan.cons, hbare]
        · exact Or.inr ⟨part, g, by rw [hparts]; exact List.mem_cons_of_mem _ hmem, hargs⟩
    · obtain ⟨g, hg, hargs⟩ := he
      exact Or.inr ⟨s.here.text, g, by rw [hparts, hg]; exact List.mem_cons_self, hargs⟩

end Parser

open Unnest.Parser

/-- **Skipping and reading agree** at every cursor. The functions that skip over annotations,
modifiers, dimensions and types do what the same walks do whose moves may fail, and these do not
fail. Modifiers that are read end where skipping them ends; if they cannot be read, skipping stops
in front of the annotation that fails. Dimensions can be read and end where skipping them ends. A
type that can be skipped is read up to the same cursor, unless the type arguments of a part of its
name cannot be read; a type that cannot be skipped cannot be read either, unless `void` or an
annotation stands there. -/
theorem skipping_agrees_with_reading (s : Cursor) :
    (passAnnot s = .ok s.skipAnnot.1 s.skipAnnot.2 ∧ passModifiers s = .ok () s.skipModifiers ∧
      passDims s = .ok () s.skipDims ∧ passType s = .ok s.skipType.1 s.skipType.2) ∧
    (∀ m t, modifiers s = .ok m t → t = s.skipModifiers) ∧
    (∀ e t, modifiers s = .error e t → MarksUpTo s s.skipModifiers ∧
      s.skipModifiers.isAt .atSign = true ∧
      annotationText s.skipModifiers = .error e t) ∧
    (∃ n, dims s = .ok n s.skipDims) ∧
    (∀ t, s.skipType = (true, t) → (∃ type, typeRef s = .ok type t) ∨
      ∃ e u part g, typeRef s = .error e u ∧ (part, some g) ∈ s.typeName.parts ∧
      g.typeArgs = .error e) ∧
    ∀ t, s.skipType = (false, t) → s.isAt .kwVoid = false → s.isAt .atSign = false →
      ∃ e u, typeRef s = .error e u := by
  refine ⟨⟨?_, ?_, ?_, ?_⟩, fun m t h => gives_modifiers.ok h, fun e t => skipModifiers_of_error,
    ?_, ?_, ?_⟩
  · obtain ⟨b, t, hpass, hskip⟩ := (gives_passAnnot (s := s)).exists_ok
    rw [hpass, hskip]
  · obtain ⟨_, t, hpass, rfl⟩ := (gives_passModifiers (s := s)).exists_ok
    exact hpass
  · obtain ⟨_, t, hpass, rfl⟩ := (gives_passDims (s := s)).exists_ok
    exact hpass
  · obtain ⟨b, t, hpass, hskip⟩ := (gives_passType (s := s)).exists_ok
    rw [hpass, hskip]
  · obtain ⟨n, t, hdims, rfl⟩ := (gives_dims (s := s)).exists_ok
    exact ⟨n, hdims⟩
  · intro t hskip
    cases htype : typeRef s with
    | ok type u =>
      obtain rfl := (gives_typeRef_of_skipType hskip).ok htype
      exact Or.inl ⟨type, rfl⟩
    | error e u =>
      rcases (gives_typeWith_error (isAt_atSign_of_skipType hskip)).error htype
        with hfalse | ⟨part, g, hpart, hargs⟩
      · rw [hskip] at hfalse
        cases hfalse
      · exact Or.inr ⟨e, u, part, g, rfl, hpart, hargs⟩
  · intro t hskip hvoid hat
    cases htype : typeRef s with
    | error e u => exact ⟨e, u, rfl⟩
    | ok type u =>
      rcases (gives_typeRef hat).ok htype with ⟨hvoid', -⟩ | hskip'
      · rw [hvoid] at hvoid'
        cases hvoid'
      · rw [hskip] at hskip'
        cases hskip'

/-- Modifiers with an annotation that ends in a point. -/
def brokenAnnotation : Source := ⟨lit "S", lit "public @A.b(x) /* c */ final @C. int"⟩

/-- A type with type arguments that lack a comma. -/
def brokenArguments : Source := ⟨lit "S", lit "Map<K, V>./* c */Entry<int x>[] y"⟩

/-- The modifiers are skipped up to the second `@`, where reading them fails; the type is skipped up
to the name behind it, and reading it fails within its second type arguments. -/
theorem skipping_agrees_with_reading_of_broken : ∃ g g', Group.ofSource brokenAnnotation = .ok g ∧
    Group.ofSource brokenArguments = .ok g' ∧ (Cursor.ofGroup g).skipModifiers.pos = 8 ∧
    (Cursor.ofGroup g).skipModifiers.isAt .atSign = true ∧
    (∃ e t, modifiers (.ofGroup g) = .error e t ∧
      annotationText (Cursor.ofGroup g).skipModifiers = .error e t) ∧
    (∃ t, (Cursor.ofGroup g').skipType = (true, t) ∧ t.pos = 7) ∧
    ∃ e u part h, typeRef (.ofGroup g') = .error e u ∧
      (part, some h) ∈ (Cursor.ofGroup g').typeName.parts ∧
      h.typeArgs = .error e := by
  have hmodifiers : (Group.ofSource brokenAnnotation).map (fun g =>
      ((modifiers.runOn g).isOk, (Cursor.ofGroup g).skipModifiers.pos)) = .ok (false, 8) := by cbv
  have htype : (Group.ofSource brokenArguments).map (fun g =>
      ((typeRef.runOn g).isOk, (Cursor.ofGroup g).skipType.1, (Cursor.ofGroup g).skipType.2.pos)) =
        .ok (false, true, 7) := by cbv
  obtain ⟨g, hg, hmodifiers⟩ := Except.map_eq_ok.mp hmodifiers
  obtain ⟨g', hg', htype⟩ := Except.map_eq_ok.mp htype
  simp only [Prod.mk.injEq] at hmodifiers htype
  obtain ⟨e, t, herror⟩ := exists_error_of_runOn hmodifiers.1
  obtain ⟨e', t', herror'⟩ := exists_error_of_runOn htype.1
  obtain ⟨-, -, hbroken, -⟩ := skipping_agrees_with_reading (.ofGroup g)
  obtain ⟨-, -, -, -, hskipped, -⟩ := skipping_agrees_with_reading (.ofGroup g')
  obtain ⟨-, hat, hannot⟩ := hbroken e t herror
  have hskip : (Cursor.ofGroup g').skipType = (true, (Cursor.ofGroup g').skipType.2) :=
    Prod.ext htype.2.1 rfl
  refine ⟨g, g', hg, hg', hmodifiers.2, hat, ⟨e, t, herror, hannot⟩, ⟨_, hskip, htype.2.2⟩, ?_⟩
  refine (hskipped _ hskip).resolve_left ?_
  rintro ⟨type, hok⟩
  rw [herror'] at hok
  cases hok

end Unnest
