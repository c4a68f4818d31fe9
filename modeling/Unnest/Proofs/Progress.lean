import Unnest.Proofs.Runs
import Unnest.Proofs.MemberHeads

/-!
# Progress

Reading goes in rounds: a parser repeats a shorter one, a skipping function takes one step after the
other, and a class body is read member by member. None of these repetitions can go on for ever, for
each round leaves fewer elements than it found. The guard in `Parser.many` is therefore never
needed: the rounds end by themselves (`Parser.Rounds`).

* `Parser.Loop`: the repetitions in the parsers;
* `Parser.Passing`: parsers that give a result only behind the element at the cursor.
-/

namespace Unnest

open Unnest.Parser

theorem Cursor.next_of_not_hasNext {s : Cursor} (h : ¬ s.hasNext = true) : s.next = s := by
  unfold Cursor.next
  split
  · rfl
  · next hrest => exact absurd (by simp [Cursor.hasNext, hrest]) h

namespace Parser

variable {α β : Type}

/-! ### Rounds -/

/-- Each round that gives something leaves fewer elements than it found. -/
def Consumes (round : Parser (Option α)) : Prop :=
  ∀ s a t, round s = .ok (some a) t → t.rest.length < s.rest.length

/-- From the cursor on, `n` rounds give something, and the next one ends the repetition. -/
inductive Rounds (round : Parser (Option α)) :
    Nat → Cursor → EStateM.Result SourceError Cursor (List α) → Prop
  | last {s t : Cursor} (h : round s = .ok none t) : Rounds round 0 s (.ok [] t)
  | failed {s t : Cursor} {e : SourceError} (h : round s = .error e t) :
      Rounds round 0 s (.error e t)
  | more {n : Nat} {s t u : Cursor} {a : α} {as : List α} (h : round s = .ok (some a) t)
    (rest : Rounds round n t (.ok as u)) : Rounds round (n + 1) s (.ok (a :: as) u)
  | moreFailed {n : Nat} {s t u : Cursor} {a : α} {e : SourceError} (h : round s = .ok (some a) t)
    (rest : Rounds round n t (.error e u)) : Rounds round (n + 1) s (.error e u)

/-- A round that is tried only where a test succeeds. -/
def roundIf (test : Cursor → Bool) (round : Parser (Option α)) : Parser (Option α) := do
  if test (← get) then round else return none

/-- **Rounds that consume** end by themselves, before there are more of them than elements, with the
result of `many`. -/
theorem Consumes.exists_rounds {round : Parser (Option α)} (h : Consumes round) (s : Cursor) :
    ∃ n ≤ s.rest.length, Rounds round n s (many round s) := by
  induction s using many.induct round with
  | case1 s e t hround =>
    rw [many, hround]
    exact ⟨0, Nat.zero_le _, .failed hround⟩
  | case2 s t hround =>
    rw [many, hround]
    exact ⟨0, Nat.zero_le _, .last hround⟩
  | case3 s a t hround hlt as u hmany ih =>
    obtain ⟨n, hn, hrest⟩ := ih
    rw [many, hround]
    simp only [hlt, if_true, hmany]
    rw [hmany] at hrest
    exact ⟨n + 1, by omega, .more hround hrest⟩
  | case4 s a t hround hlt e u hmany ih =>
    obtain ⟨n, hn, hrest⟩ := ih
    rw [many, hround]
    simp only [hlt, if_true, hmany]
    rw [hmany] at hrest
    exact ⟨n + 1, by omega, .moreFailed hround hrest⟩
  | case5 s a t hround hlt => exact absurd (h s a t hround) hlt

/-! ### Parsers that move on -/

/-- The parser moves the cursor on and does nothing else to it: what lasts, it keeps. -/
structure Onward (p : Parser α) : Prop where
  keeps : ∀ I, Cursor.Lasting I → Keeps I (fun _ => True) p

namespace Onward

theorem pure (a : α) : Onward (Pure.pure a) := ⟨fun _ _ _ hs => gives_pure.mpr hs⟩

theorem fail (cause : Cause) : Onward (Parser.fail cause : Parser α) :=
  ⟨fun _ _ _ _ => gives_fail.mpr trivial⟩

theorem ofExcept (result : Except SourceError α) : Onward (Parser.ofExcept result) :=
  ⟨fun _ _ _ hs => gives_ofExcept.mpr ⟨fun _ _ => hs, fun _ _ => trivial⟩⟩

theorem current : Onward Parser.current :=
  ⟨fun _ _ _ hs => gives_current.mpr ⟨fun _ _ => hs, fun _ => trivial⟩⟩

theorem advance : Onward Parser.advance :=
  ⟨fun _ hI s hs => gives_advance.mpr ⟨fun _ => hI s hs, fun _ => trivial⟩⟩

theorem expect (kind : TokenKind) (what : Text) : Onward (Parser.expect kind what) :=
  ⟨fun _ hI s hs => gives_expect.mpr ⟨fun _ _ _ => hI s hs, fun _ => trivial⟩⟩

theorem expectGroup (kind : GroupKind) (what : Text) : Onward (Parser.expectGroup kind what) :=
  ⟨fun _ hI s hs => gives_expectGroup.mpr ⟨fun _ _ _ => hI s hs, fun _ => trivial⟩⟩

theorem bind {p : Parser α} {f : α → Parser β} (hp : Onward p) (hf : ∀ a, Onward (f a)) :
    Onward (p >>= f) :=
  ⟨fun I hI s hs => (hp.keeps I hI s hs).bind fun a t ht => (hf a).keeps I hI t ht⟩

theorem many {round : Parser (Option α)} (h : Onward round) : Onward (Parser.many round) :=
  ⟨fun I hI => (h.keeps I hI).many⟩

theorem branch {c : Prop} [Decidable c] {p q : Parser α} {f : α → Parser β} (hp : Onward p)
    (hq : Onward q) (hf : ∀ a, Onward (f a)) : Onward (if c then p >>= f else q >>= f) := by
  split
  · exact hp.bind hf
  · exact hq.bind hf

end Onward

theorem onward_look {f : Cursor → Parser α} (h : ∀ s, Onward (f s)) : Onward (get >>= f) :=
  ⟨fun I hI s hs => (h s).keeps I hI s hs⟩

theorem onward_while {test : Cursor → Bool} {round : Parser (Option α)} (h : Onward round) :
    Onward (many (roundIf test round)) := by
  refine .many (onward_look fun s => ?_)
  split
  · exact h
  · exact .pure none

theorem onward_of_walk {p : Parser α}
    (h : ∀ I, Walk I (fun _ => True) → Keeps I (fun _ => True) p) : Onward p :=
  ⟨fun I hI => h I hI.walk⟩

theorem onward_modifiers : Onward modifiers := onward_of_walk fun _ w => w.modifiers

theorem onward_dropAnnotations : Onward dropAnnotations :=
  onward_of_walk fun _ w => w.dropAnnotations

theorem onward_dims : Onward dims := onward_of_walk fun _ w => w.dims

theorem onward_angleArgs (args : Group → Except SourceError (List TypeRef)) :
    Onward (typeWith.angleArgs args) :=
  onward_of_walk fun _ w => w.angleArgs fun _ _ _ _ _ _ => trivial

theorem onward_typeWith (args : Group → Except SourceError (List TypeRef)) :
    Onward (typeWith args) :=
  onward_of_walk fun _ w => w.typeWith fun _ _ _ _ _ _ => trivial

theorem onward_typeRef : Onward typeRef := onward_typeWith _

theorem onward_typeParams : Onward typeParams :=
  onward_of_walk fun _ w => w.typeParams fun _ _ _ _ _ _ => trivial

theorem onward_typesBehind (isThere : Cursor → Bool) : Onward (typesBehind isThere) := by
  refine onward_look fun s => ?_
  split
  · refine .bind .advance fun _ => onward_of_walk fun _ w => w.typeList ?_
    exact w.typeWith fun _ _ _ _ _ _ => trivial
  · exact .pure _

theorem onward_qualifiedName : Onward qualifiedName := ⟨fun _ hI => hI.walk.qualifiedName hI⟩

theorem onward_takeUntil (stops : List TokenKind) : Onward (takeUntil stops) := by
  refine ⟨fun I hI s hs => ?_⟩
  exact (gives_takeUntil (A := fun _ => True) (fun s _ hs _ _ => ⟨hI s hs, trivial⟩) hs).mono
    (fun _ _ h => h.1)
    fun _ => id

theorem onward_codeUntil (inside : Inside) (stops : List TokenKind) :
    Onward (codeUntil inside stops) :=
  (onward_takeUntil stops).bind fun _ => .ofExcept _

theorem onward_declarator (inside : Inside) : Onward (declarator inside) := by
  refine .bind (.expect _ _) fun _ => onward_dims.bind fun _ => onward_look fun s => ?_
  split
  · refine .bind .advance fun _ => (onward_codeUntil inside _).bind fun init => ?_
    split
    · exact .bind (.fail _) fun _ => .pure _
    · exact .pure _
  · exact .pure _

/-! ### Parsers that pass an element -/

/-- The parser moves on, and it gives a result only behind the element at the cursor: what lasts and
holds behind that element holds behind the parser. -/
structure Passing (p : Parser α) : Prop where
  onward : Onward p
  passes : ∀ I, Cursor.Lasting I → ∀ s : Cursor, (s.hasNext = true → I s.next) →
    Gives p s (fun _ t => I t) fun _ => True

namespace Passing

variable {p : Parser α} {f : α → Parser β}

theorem advance : Passing Parser.advance :=
  ⟨.advance, fun _ _ _ hs => gives_advance.mpr ⟨hs, fun _ => trivial⟩⟩

theorem expect (kind : TokenKind) (what : Text) : Passing (Parser.expect kind what) :=
  ⟨.expect kind what, fun _ _ _ hs =>
    gives_expect.mpr ⟨fun _ ht _ => hs (Cursor.hasNext_iff.mpr ⟨_, ht⟩), fun _ => trivial⟩⟩

theorem fail (cause : Cause) : Passing (Parser.fail cause : Parser α) :=
  ⟨.fail cause, fun _ _ _ _ => gives_fail.mpr trivial⟩

theorem bind (hp : Passing p) (hf : ∀ a, Onward (f a)) : Passing (p >>= f) := by
  refine ⟨.bind hp.onward hf, fun I hI s hs => ?_⟩
  exact (hp.passes I hI s hs).bind fun a t ht => (hf a).keeps I hI t ht

/-- The element is passed later on. -/
theorem behind (hp : Onward p) (hf : ∀ a, Passing (f a)) : Passing (p >>= f) := by
  refine ⟨.bind hp fun a => (hf a).onward, fun I hI s hs => ?_⟩
  -- to hold behind the next element, if there is one, lasts as well
  have hlast : Cursor.Lasting fun t => t.hasNext = true → I t.next := by
    intro t ht hnext
    by_cases h : t.hasNext = true
    · exact hI _ (ht h)
    · rw [Cursor.next_of_not_hasNext h] at hnext
      exact absurd hnext h
  exact (hp.keeps _ hlast s hs).bind fun a t ht => (hf a).passes I hI t ht

theorem consumes {round : Parser (Option α)} (h : Passing round) : Consumes round :=
  fun s _ _ hround =>
  (h.passes _ (Cursor.lasting_length_lt _) s Cursor.length_rest_next_lt).ok hround

end Passing

theorem passing_look {f : Cursor → Parser α} (h : ∀ s, Passing (f s)) : Passing (get >>= f) :=
  ⟨onward_look fun s => (h s).onward, fun I hI s hs => (h s).passes I hI s hs⟩

theorem passing_annotationText : Passing annotationText := by
  unfold annotationText
  refine .bind (.expect _ _) fun sign => .bind (.expect _ _) fun first => .bind ?_ fun parts => ?_
  · exact onward_while (.bind .advance fun _ => .bind (.expect _ _) fun _ => .pure _)
  · refine onward_look fun s => ?_
    split
    · exact .pure _
    · exact .bind .advance fun _ => .pure _

theorem passing_typeWith (args : Group → Except SourceError (List TypeRef)) :
    Passing (typeWith args) := by
  refine .behind onward_dropAnnotations fun _ => passing_look fun s => ?_
  simp only
  split
  · exact .bind .advance fun _ => onward_dims.bind fun _ => .pure _
  · refine .bind (.expect _ _) fun _ => (onward_angleArgs args).bind fun _ =>
      .bind (onward_while ?_) fun _ => ?_
    · exact .bind .advance fun _ =>
        .bind (.expect _ _) fun _ => (onward_angleArgs args).bind fun _ => .pure _
    · exact onward_dims.bind fun _ => .pure _

theorem passing_typeArgument {type : Parser TypeRef} (h : Passing type) :
    Passing (typeArgument type) := by
  refine .behind onward_dropAnnotations fun _ => passing_look fun s => ?_
  simp only
  split
  · refine .bind .advance fun _ => onward_look fun s => ?_
    split
    · exact .bind .advance fun _ => h.onward.bind fun _ => .pure _
    · split
      · exact .bind .advance fun _ => h.onward.bind fun _ => .pure _
      · exact .pure _
  · exact h

theorem passing_typeParam : Passing typeParam := by
  refine .behind onward_dropAnnotations fun _ => .bind (.expect _ _) fun name =>
    onward_look fun s => ?_
  split
  · refine .bind .advance fun _ => onward_of_walk fun _ w => ?_
    exact w.typesWith (w.typeWith fun _ _ _ _ _ _ => trivial) (by decide : TokenKind.amp ≠ .semi)
      fun bounds => ({ name := name.text, bounds } : TypeParam)
  · exact .pure _

theorem passing_parameter : Passing parameter := by
  unfold parameter
  refine passing_look fun s => .behind onward_modifiers fun _ =>
    .bind (passing_typeWith _) fun _ => ?_
  refine onward_look fun s => Onward.branch (q := pure ()) .advance (.pure _) fun _ =>
    .bind .current fun e => ?_
  split
  · exact .bind .advance fun _ => .pure _
  · exact .bind (.expect _ _) fun _ => onward_dims.bind fun _ => .pure _

theorem passing_typeHead : Passing typeHead := by
  have hword : Onward classKeyword := by
    refine onward_look fun s => ?_
    split
    · exact .bind .advance fun _ => .pure _
    · split
      · exact .bind .advance fun _ => .pure _
      · split
        · exact .bind .advance fun _ => .pure _
        · exact .fail _
  refine passing_look fun s => .behind onward_modifiers fun _ => .behind hword fun _ => ?_
  refine .bind (.expect _ _) fun _ => onward_typeParams.bind fun _ => ?_
  refine (onward_typesBehind _).bind fun _ => (onward_typesBehind _).bind fun _ => ?_
  exact (onward_typesBehind _).bind fun _ => .pure _

theorem passing_topLevel (inside : Inside) : Passing (topLevel inside) := by
  have htype : Passing (typeDecl inside) := by
    rw [typeDecl_eq]
    exact passing_typeHead.bind fun _ => .bind (.expectGroup _ _) fun _ =>
      .bind (.ofExcept _) fun _ => .pure _
  refine passing_look fun s => ?_
  split
  · exact .bind .advance fun _ => .pure _
  · split
    · exact htype.bind fun _ => onward_look fun _ => .pure _
    · exact .fail _

theorem passing_importDecl : Passing importDecl := by
  unfold importDecl
  refine .bind (.expect _ _) fun _ => onward_look fun s => ?_
  refine Onward.branch (q := pure ()) .advance (.pure _) fun _ =>
    onward_qualifiedName.bind fun _ => ?_
  have hend : ∀ i : Import, Onward do let _ ← expect .semi (lit "';' after import"); return i :=
    fun i => .bind (.expect _ _) fun _ => .pure _
  refine onward_look fun s => ?_
  simp only
  split
  · refine .bind .advance fun _ => .bind .current fun e => ?_
    exact Onward.branch (q := pure ()) (.fail _) (.pure _) fun _ => .bind .advance fun _ => hend _
  · exact hend _

/-! ### The repetitions in the parsers -/

/-- In the course of the parser `p` comes the parser `q`, whatever was read before. -/
inductive PartOf {γ : Type} (q : Parser γ) : {α : Type} → Parser α → Prop
  | self : PartOf q q
  | front {α β : Type} {p : Parser α} {f : α → Parser β} (h : PartOf q p) : PartOf q (p >>= f)
  | behind {α β : Type} {p : Parser α} {f : α → Parser β} (h : ∀ a, PartOf q (f a)) :
      PartOf q (p >>= f)
  | whenTrue {α : Type} {c : Prop} [Decidable c] {p p' : Parser α} (h : PartOf q p) :
    PartOf q (if c then p else p')
  | whenFalse {α : Type} {c : Prop} [Decidable c] {p p' : Parser α} (h : PartOf q p') :
    PartOf q (if c then p else p')

/-- An item of a list with commas. -/
def itemRound (item : Parser α) (what : Text) : Parser (Option α) :=
  roundIf (·.hasNext) do
    let a ← item
    if (← get).hasNext then
      let _ ← expect .comma what
    return some a

/-- The element at the cursor, unless it is a token of one of the kinds `stops`. -/
def codeElement (stops : List TokenKind) : Parser (Option Element) := do
  match (← get).current? with
  | some e =>
    if stops.any (e.is ·) then
      return none
    else
      advance
      return some e
  | none => return none

/-- The repetitions in the parsers: what is repeated, and in the course of which parser. -/
inductive Loop (inside : Inside) (args : Group → Except SourceError (List TypeRef)) :
    {α β : Type} → Parser (Option α) → Parser β → Prop
  | annotationParts :
    Loop inside args (roundIf (·.isAt .dot) do
      advance
      let part ← expect .ident (lit "annotation name")
      return some (lit "." ++ part.text)) annotationText
  | marks : Loop inside args mark modifiers
  | annotations : Loop inside args (roundIf (·.isAt .atSign) do return some (← annotationText))
      dropAnnotations
  | constantAnnotations :
    Loop inside args (roundIf (·.isAt .atSign) do return some (← annotationText))
    constantAnnotations
  | nameParts :
    Loop inside args (roundIf (fun s => s.isAt .dot && (s.peek? 1).any (·.is .ident)) do
      advance
      let part ← current
      advance
      return some (lit "." ++ part.firstToken.text)) qualifiedName
  | dims :
    Loop inside args (roundIf (·.isAtEmptyGroup .square) do
      advance
      return some ()) dims
  | typeParts :
    Loop inside args (roundIf (·.isAt .dot) do
      advance
      let part ← expect .ident (lit "type name")
      return some (lit "." ++ part.text, ← typeWith.angleArgs args)) (typeWith args)
  | types :
    Loop inside args (roundIf (·.isAt .comma) do
      advance
      return some (← typeRef)) typeList
  | bounds :
    Loop inside args (roundIf (·.isAt .amp) do
      advance
      return some (← typeRef)) typeParam
  | typeArguments (what : Text) :
    Loop inside args (itemRound (typeArgument (typeWith args)) what)
    (separated (typeArgument (typeWith args)) what)
  | typeParams (what : Text) : Loop inside args (itemRound typeParam what)
      (separated typeParam what)
  | parameters (what : Text) : Loop inside args (itemRound parameter what)
      (separated parameter what)
  | elements (stops : List TokenKind) :
      Loop inside args (codeElement stops) (codeUntil inside stops)
  | declarators :
    Loop inside args (roundIf (·.isAt .comma) do
      advance
      return some (← declarator inside)) (fieldDecl inside)
  | imports : Loop inside args (roundIf (·.isAt .kwImport) do return some (← importDecl))
      (file inside)
  | topLevels : Loop inside args (roundIf (·.hasNext) do return some (← topLevel inside))
      (file inside)

theorem consumes_none : Consumes (pure none : Parser (Option α)) := fun _ _ _ h => nomatch h

theorem consumes_look {f : Cursor → Parser (Option α)} (h : ∀ s, Consumes (f s)) :
    Consumes (get >>= f) :=
  fun s => h s s

theorem Passing.consumes_roundIf {test : Cursor → Bool} {round : Parser (Option α)}
    (h : Passing round) :
    Consumes (roundIf test round) := by
  refine consumes_look fun s => ?_
  split
  · exact h.consumes
  · exact consumes_none

theorem consumes_itemRound {item : Parser α} (h : Passing item) (what : Text) :
    Consumes (itemRound item what) := by
  refine (h.bind fun a => onward_look fun s => ?_).consumes_roundIf
  split
  · exact .bind (.expect _ _) fun _ => .pure _
  · exact .pure _

theorem consumes_codeElement (stops : List TokenKind) : Consumes (codeElement stops) := by
  refine consumes_look fun s => ?_
  split
  · split
    · exact consumes_none
    · exact (Passing.advance.bind fun _ => .pure _).consumes
  · exact consumes_none

theorem consumes_mark : Consumes mark := by
  refine consumes_look fun s => ?_
  split
  · split
    · exact (passing_annotationText.bind fun _ => .pure _).consumes
    · exact consumes_none
  · split
    · split
      · exact (Passing.advance.bind fun _ => .pure _).consumes
      · exact consumes_none
    · exact consumes_none

variable {inside : Inside} {args : Group → Except SourceError (List TypeRef)}
  {round : Parser (Option α)} {p : Parser β}

/-- **Every round of a parser** that gives something leaves fewer elements than it found. -/
theorem Loop.consumes (h : Loop inside args round p) : Consumes round := by
  cases h with
  | annotationParts =>
    exact (Passing.advance.bind fun _ => .bind (.expect _ _) fun _ => .pure _).consumes_roundIf
  | marks => exact consumes_mark
  | annotations => exact (passing_annotationText.bind fun _ => .pure _).consumes_roundIf
  | constantAnnotations => exact (passing_annotationText.bind fun _ => .pure _).consumes_roundIf
  | nameParts =>
    exact (Passing.advance.bind
      fun _ => .bind .current fun _ => .bind .advance fun _ => .pure _).consumes_roundIf
  | dims => exact (Passing.advance.bind fun _ => .pure _).consumes_roundIf
  | typeParts =>
    refine (Passing.advance.bind fun _ => .bind (.expect _ _) fun _ => ?_).consumes_roundIf
    exact (onward_angleArgs args).bind fun _ => .pure _
  | types =>
    exact (Passing.advance.bind fun _ => onward_typeRef.bind fun _ => .pure _).consumes_roundIf
  | bounds =>
    exact (Passing.advance.bind fun _ => onward_typeRef.bind fun _ => .pure _).consumes_roundIf
  | typeArguments what =>
    exact consumes_itemRound (passing_typeArgument (passing_typeWith args)) what
  | typeParams what => exact consumes_itemRound passing_typeParam what
  | parameters what => exact consumes_itemRound passing_parameter what
  | elements stops => exact consumes_codeElement stops
  | declarators =>
    refine (Passing.advance.bind fun _ => ?_).consumes_roundIf
    exact (onward_declarator inside).bind fun _ => .pure _
  | imports => exact (passing_importDecl.bind fun _ => .pure _).consumes_roundIf
  | topLevels => exact ((passing_topLevel inside).bind fun _ => .pure _).consumes_roundIf

theorem Loop.partOf (h : Loop inside args round p) : PartOf (many round) p := by
  cases h with
  | annotationParts => exact .behind fun _ => .behind fun _ => .front .self
  | marks => exact .front .self
  | annotations => exact .front .self
  | constantAnnotations => exact .self
  | nameParts => exact .behind fun _ => .front .self
  | dims => exact .front .self
  | typeParts =>
    exact .behind fun _ =>
      .behind fun _ => .whenFalse (.behind fun _ => .behind fun _ => .front .self)
  | types => exact .behind fun _ => .front .self
  | bounds =>
    exact .behind fun _ =>
      .behind fun _ => .behind fun _ => .whenTrue (.behind fun _ => .behind fun _ => .front .self)
  | typeArguments what => exact .self
  | typeParams what => exact .self
  | parameters what => exact .self
  | elements stops => exact .front .self
  | declarators =>
    exact .behind fun _ => .behind fun _ => .behind fun _ => .behind fun _ => .front .self
  | imports => exact .behind fun _ => .behind fun _ => .front .self
  | topLevels => exact .behind fun _ => .behind fun _ => .behind fun _ => .front .self

end Parser

/-! ### Skipping -/

namespace Cursor

variable {s t : Cursor}

/-- A further part of a dotted name. -/
def partRound (s : Cursor) : Option Cursor :=
  if s.isAt .dot && s.next.isAt .ident then some s.next.next else none

/-- A modifier or an annotation. -/
def modifierRound (s : Cursor) : Option Cursor :=
  if s.isAt .atSign then
    match skipAnnot s with
    | (true, s') => some s'
    | (false, _) => none
  else if s.current?.any (fun e => e.token?.any (·.kind.isModifier)) then some s.next
  else none

def annotRound (s : Cursor) : Option Cursor :=
  match s.skipAnnot with
  | (true, s') => some s'
  | (false, _) => none

/-- A pair of square brackets with nothing between them. -/
def dimRound (s : Cursor) : Option Cursor := if s.isAtEmptyGroup .square then some s.next else none

/-- An element that does not satisfy `p`. -/
def elementRound (p : Element → Bool) (s : Cursor) : Option Cursor :=
  if s.hasNext && !s.current?.any p then some s.next else none

/-- The repetitions in the skipping functions: what is repeated, and where the repetition gets
to. -/
inductive SkipLoop : (Cursor → Option Cursor) → (Cursor → Cursor) → Prop
  | parts : SkipLoop partRound fun s => s.skipParts.2
  | nameParts : SkipLoop (fun s => s.partRound.map skipAngle) fun s => s.moreParts.cursor
  | modifiers : SkipLoop modifierRound skipModifiers
  | annotations : SkipLoop annotRound (iterate annotRound)
  | dims : SkipLoop dimRound skipDims
  | through (p : Element → Bool) : SkipLoop (elementRound p) fun s => (s.skipThrough p).2

theorem partRound_eq_some (h : s.partRound = some t) :
    s.isAt .dot = true ∧ s.next.isAt .ident = true ∧ t = s.next.next := by
  unfold partRound at h
  split_ifs at h with hdot
  cases h
  exact ⟨(Bool.and_eq_true_iff.mp hdot).1, (Bool.and_eq_true_iff.mp hdot).2, rfl⟩

theorem annotRound_eq_some (h : s.annotRound = some t) : s.skipAnnot = (true, t) := by
  unfold annotRound at h
  split at h
  · next hannot =>
    cases h
    exact hannot
  · cases h

theorem length_rest_partRound_lt (h : s.partRound = some t) : t.rest.length < s.rest.length := by
  obtain ⟨hdot, -, rfl⟩ := partRound_eq_some h
  exact Nat.lt_of_le_of_lt s.next.length_rest_next_le (length_rest_next_lt (hasNext_of_isAt hdot))

theorem length_rest_modifierRound_lt (h : s.modifierRound = some t) :
    t.rest.length < s.rest.length := by
  unfold modifierRound at h
  split_ifs at h with hat hmodifier
  · exact length_rest_skipAnnot_lt (annotRound_eq_some h)
  · cases h
    cases he : s.current? with
    | none => simp [he] at hmodifier
    | some e => exact length_rest_next_lt (hasNext_iff.mpr ⟨e, he⟩)

theorem length_rest_dimRound_lt (h : s.dimRound = some t) : t.rest.length < s.rest.length := by
  unfold dimRound at h
  split_ifs at h with hempty
  cases h
  exact length_rest_next_lt (hasNext_of_isAtEmptyGroup hempty)

/-- **Every round of a skipping function** leaves fewer elements than it found. -/
theorem SkipLoop.consumes {round : Cursor → Option Cursor} {loop : Cursor → Cursor}
    (h : SkipLoop round loop) (hround : round s = some t) : t.rest.length < s.rest.length := by
  cases h with
  | parts => exact length_rest_partRound_lt hround
  | nameParts =>
    obtain ⟨u, hu, rfl⟩ := Option.map_eq_some_iff.mp hround
    exact Nat.lt_of_le_of_lt u.length_rest_skipAngle_le (length_rest_partRound_lt hu)
  | modifiers => exact length_rest_modifierRound_lt hround
  | annotations => exact length_rest_skipAnnot_lt (annotRound_eq_some hround)
  | dims => exact length_rest_dimRound_lt hround
  | through p =>
    unfold elementRound at hround
    split_ifs at hround with hnext
    cases hround
    exact length_rest_next_lt (Bool.and_eq_true_iff.mp hnext).1

theorem SkipLoop.loop_of_some {round : Cursor → Option Cursor} {loop : Cursor → Cursor}
    (h : SkipLoop round loop) (hround : round s = some t) : loop s = loop t := by
  have hlt := h.consumes hround
  cases h with
  | parts =>
    obtain ⟨hdot, hident, rfl⟩ := partRound_eq_some hround
    simp only [skipParts_of_dot hdot hident]
  | nameParts =>
    obtain ⟨u, hu, rfl⟩ := Option.map_eq_some_iff.mp hround
    obtain ⟨hdot, hident, rfl⟩ := partRound_eq_some hu
    simp only [moreParts_of_dot hdot hident, NameScan.cons]
  | modifiers => exact iterate_of_some hround hlt
  | annotations => exact iterate_of_some hround hlt
  | dims => exact iterate_of_some hround hlt
  | through p =>
    unfold elementRound at hround
    split_ifs at hround with hnext
    cases hround
    simp only
    rw [skipThrough]
    simp_all

/-- Where no further round is possible, the repetition passes at most one more element. -/
theorem SkipLoop.loop_of_none {round : Cursor → Option Cursor} {loop : Cursor → Cursor}
    (h : SkipLoop round loop) (hround : round s = none) : loop s = s ∨ loop s = s.next := by
  have hparts : s.partRound = none → s.isAt .dot = false ∨ s.isAt .dot = true ∧
      s.next.isAt .ident = false := by
    intro hnone
    unfold partRound at hnone
    cases hdot : s.isAt .dot <;> simp_all
  cases h with
  | parts =>
    rcases hparts hround with hdot | ⟨hdot, hident⟩
    · exact Or.inl (by simp only [skipParts_of_not_dot hdot])
    · exact Or.inr (by simp only [skipParts_of_bare_dot hdot hident])
  | nameParts =>
    rcases hparts (Option.map_eq_none_iff.mp hround) with hdot | ⟨hdot, hident⟩
    · exact Or.inl (by simp only [moreParts_of_not_dot hdot])
    · exact Or.inr (by simp only [moreParts_of_bare_dot hdot hident])
  | modifiers => exact Or.inl (iterate_of_none hround)
  | annotations => exact Or.inl (iterate_of_none hround)
  | dims => exact Or.inl (iterate_of_none hround)
  | through p =>
    unfold elementRound at hround
    simp only
    rw [skipThrough]
    cases hnext : s.hasNext <;> simp_all

end Cursor

/-! ### Where members end -/

section Extent

variable {inside : Inside} {form : MemberForm} {ctx : BodyContext} {s decided : Cursor}

theorem hasNext_of_recognize (hform : form ∈ constantForm inside :: memberForms inside)
    (hrec : form.recognize ctx s = some decided) : s.hasNext = true := by
  by_contra hend
  -- at the end of the range, to be at the end lasts
  have hlast : Cursor.Lasting fun t => ¬ t.hasNext = true :=
    fun t ht => by rwa [Cursor.next_of_not_hasNext ht]
  have hdead : ∀ {kind : TokenKind} {t : Cursor}, ¬ t.hasNext = true → t.isAt kind = true → False :=
    fun ht h => ht (Cursor.hasNext_of_isAt h)
  rcases MemberForm.eq_of_mem hform with rfl | rfl | rfl | rfl | rfl | rfl | rfl
  · obtain ⟨s₁, hannot, hident, -⟩ := recognizeConstant_eq_some hrec
    exact hdead (hlast.skipAnnotations hannot hend) hident
  · obtain ⟨s₁, htype, hident, -⟩ := recognizeField_eq_some hrec
    have h₁ := hlast.skipType (hlast.skipModifiers hend)
    rw [htype] at h₁
    exact hdead h₁ hident
  · obtain ⟨s₁, htype, hident, -, -⟩ := recognizeMethod_eq_some hrec
    have h₂ := hlast.skipModifiers (hlast.skipAngle (hlast.skipModifiers hend))
    rcases htype with ⟨hvoid, -⟩ | htype
    · exact hdead h₂ hvoid
    · have h₁ := hlast.skipType h₂
      rw [htype] at h₁
      exact hdead h₁ hident
  · obtain ⟨-, hident, -⟩ := recognizeClass_eq_some hrec
    exact hdead (hlast _ (hlast.skipModifiers hend)) hident
  · exact hdead hend (recognizeStatic_eq_some hrec).1
  · exact hend (Cursor.hasNext_of_isAtGroup (recognizeInstance_eq_some hrec).1)
  · obtain ⟨-, hround, -⟩ := recognizeConstructor_eq_some hrec
    exact hlast _ (hlast.skipAngle (hlast.skipModifiers hend)) (Cursor.hasNext_of_isAtGroup hround)

theorem Cursor.lasting_pos_lt (n : Nat) : Lasting fun s => n < s.pos := by
  intro s hs
  by_cases h : s.hasNext = true
  · exact Nat.lt_trans hs (pos_lt_next h)
  · rwa [next_of_not_hasNext h]

/-- **A member that is recognised** ends strictly behind the cursor. -/
theorem exists_extent_of_recognize (hform : form ∈ constantForm inside :: memberForms inside)
    (hrec : form.recognize ctx s = some decided) :
    ∃ n, form.extent ctx s = .ok (some n) ∧ s.pos < n := by
  obtain ⟨behind, hfinish⟩ := exists_finish_of_mem hform hrec
  refine ⟨behind.pos, ?_, ?_⟩
  · unfold MemberForm.extent
    simp only [hrec, hfinish]
  · exact (Cursor.lasting_pos_lt s.pos).finish hform hrec hfinish
      (Cursor.pos_lt_next (hasNext_of_recognize hform hrec))

end Extent

end Unnest
