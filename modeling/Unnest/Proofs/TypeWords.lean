import Unnest.Proofs.WrittenTypes
import Unnest.Proofs.Rescan
import Mathlib

/-!
# The words of a written type

The text of a type is put together from words, points, brackets and commas. Scanning and grouping go
through it part by part: what a part is scanned into does not depend on what follows, as long as
this begins with a mark that ends every part, and what it is grouped into does not depend on the
tokens around it.

* `SpelledPart`: a part of a text and the kinds and texts of its tokens;
* `GroupsTo`, `Passed`: tokens that are grouped, and looked over for a closing `>`, by themselves;
* `Reread`: a part of a text whose tokens are grouped into elements with a property.
-/

namespace Unnest

open Text Lexeme

variable {s s' rest : Text} {words words' : List (TokenKind × Text)} {kind : TokenKind}
  {word : Text}

/-! ### Scanning -/

/-- The bytes that can stand behind a part of a type. -/
def isTypeMark (b : UInt8) : Bool := (lit ".<>[,").contains b

/-- Nothing follows, or a mark that ends every part of a type. -/
def EndsPart (rest : Text) : Prop := ∀ b, rest.head? = some b → isTypeMark b = true

/-- In front of the end of a part, the text is scanned into tokens of these kinds and texts. -/
def SpelledPart (s : Text) (words : List (TokenKind × Text)) : Prop :=
  ∀ rest spellings, EndsPart rest → Spelled rest spellings →
    Spelled (s ++ rest) (words ++ spellings)

theorem endsPart_nil : EndsPart [] := fun _ h => absurd h.symm (Option.some_ne_none _)

theorem EndsPart.append (hs : EndsPart s) (hrest : EndsPart rest) : EndsPart (s ++ rest) := by
  cases s with
  | nil => exact hrest
  | cons b s => exact hs

theorem forall_typeMark {P : UInt8 → Bool} (h : (lit ".<>[,").all P = true) {b : UInt8}
    (hb : isTypeMark b = true) :
    P b = true :=
  List.all_eq_true.mp h b (List.contains_iff_mem.mp hb)

theorem EndsPart.endsName (h : EndsPart rest) : EndsName rest := by
  intro b hb
  have hname := forall_typeMark (P := fun b => !isNameByte b) (by decide) (h b hb)
  simpa using hname

theorem endsName_firstLine (h : EndsName rest) : EndsName (firstLine rest) :=
  fun b hb => h b (head?_of_firstLine hb)

theorem IsWord.spelled (h : IsWord kind word) (hrest : EndsName rest) (hs : Spelled rest words) :
    Spelled (word ++ rest) ((kind, word) :: words) := by
  obtain ⟨c, more, rfl, hc, hmore, hkind⟩ := h
  exact hs.lexes (lexes_word hc hmore hkind (endsName_firstLine hrest))

/-- A mark that the text behind it does not make longer. -/
theorem Spelled.mark {c : UInt8} (hc : c ≠ Text.newline) (hblank : isBlank c = false)
    (hslash : c ≠ chr '/') (hmark : lexeme c [] = .token kind 0)
    (hrest : ∀ b, rest.head? = some b → absorbs [c] b = false) (hs : Spelled rest words) :
    Spelled ([c] ++ rest) ((kind, [c]) :: words) := by
  refine hs.lexes (.short hc hblank (by simp) ?_)
  have hsees : Sees (fun b => absorbs [c] b = false) [] (Text.firstLine rest) := by
    refine ⟨fun b hb => Or.inr (hrest b (head?_of_firstLine hb)), fun hloud hpoint => ?_⟩
    exact absurd (hrest _ (head?_of_firstLine hpoint)) hloud
  have hstable : lexeme c ([] ++ Text.firstLine rest) = .token kind ([] : Text).length :=
    lexeme_stable hsees (fun _ => id) (fun h => absurd h hslash) hmark
  exact hstable

theorem Spelled.punctuation {c : UInt8} (hc : c ≠ Text.newline) (hblank : isBlank c = false)
    (h : kindOf? punctuation c = some kind) (hs : Spelled rest words) :
    Spelled ([c] ++ rest) ((kind, [c]) :: words) :=
  hs.lexes (lexes_punctuation h hc hblank _)

/-- The first byte of a type or of a wildcard. -/
def StartsType (s : Text) : Prop := ∃ b, s.head? = some b ∧ (isNameStart b = true ∨ b = chr '?')

theorem StartsType.append (h : StartsType s) (rest : Text) : StartsType (s ++ rest) := by
  obtain ⟨b, hb, hclass⟩ := h
  exact ⟨b, by rw [List.head?_append, hb]; rfl, hclass⟩

theorem IsWord.startsType (h : IsWord kind word) : StartsType word := by
  obtain ⟨c, more, rfl, hc, -⟩ := h
  exact ⟨c, rfl, Or.inl hc⟩

theorem absorbs_nameStart {c b : UInt8} (hc : isNameStart c = false) (hnumber : ¬ StartsNumber c [])
    (hb : isNameStart b = true) : absorbs [c] b = false := by
  refine absorbs_mark_of_notMem hc hnumber (isDigit_of_isNameStart hb) fun mark hmark hmem => ?_
  have hnone : ∀ mark ∈ longMarks, (lit mark).all (!isNameStart ·) = true := by decide
  have := List.all_eq_true.mp (hnone mark hmark) b hmem
  simp [hb] at this

theorem spelledPart_dotted (h : IsWord .ident word) :
    SpelledPart (lit "." ++ word) [(.dot, lit "."), (.ident, word)] := by
  intro rest spellings hrest hs
  have hword := h.spelled hrest.endsName hs
  obtain ⟨c, more, rfl, hc, -⟩ := h
  rw [lit_point, List.append_assoc]
  refine hword.mark (by decide) (by decide) (by decide) (by decide) ?_
  rintro b ⟨⟩
  exact absorbs_nameStart (by decide) (by simp [StartsNumber]; decide) hc

theorem SpelledPart.angle (h : SpelledPart s words) (hs : StartsType s) :
    SpelledPart (lit "<" ++ s ++ lit ">") ((.lt, lit "<") :: words ++ [(.gt, lit ">")]) := by
  intro rest spellings hrest hspelled
  have hopening : lit "<" = [chr '<'] := by decide
  have hclosing : lit ">" = [chr '>'] := by decide
  have hgt : Spelled ([chr '>'] ++ rest) ((.gt, [chr '>']) :: spellings) := by
    refine hspelled.mark (by decide) (by decide) (by decide) (by decide) fun b hb => ?_
    have := forall_typeMark (P := fun b => !absorbs [chr '>'] b) (by decide) (hrest b hb)
    simpa using this
  have hinner := h _ _ (by rintro b ⟨⟩; decide) hgt
  have hlt : Spelled ([chr '<'] ++ (s ++ ([chr '>'] ++ rest)))
      ((.lt, [chr '<']) :: (words ++ (.gt, [chr '>']) :: spellings)) := by
    refine hinner.mark (by decide) (by decide) (by decide) (by decide) fun b hb => ?_
    obtain ⟨b', hb', hclass⟩ := hs.append ([chr '>'] ++ rest)
    obtain rfl : b' = b := Option.some.inj (hb'.symm.trans hb)
    rcases hclass with hclass | rfl
    · exact absorbs_nameStart (by decide) (by simp [StartsNumber]; decide) hclass
    · decide
  rw [hopening, hclosing]
  simpa using hlt

theorem SpelledPart.append (h : SpelledPart s words) (h' : SpelledPart s' words')
    (hends : EndsPart s') :
    SpelledPart (s ++ s') (words ++ words') := by
  intro rest spellings hrest hs
  rw [List.append_assoc, List.append_assoc]
  exact h _ _ (hends.append hrest) (h' _ _ hrest hs)

theorem spelledPart_pair : SpelledPart (lit "[]") [(.lbracket, lit "["), (.rbracket, lit "]")] := by
  intro rest spellings _ hs
  have hpair : lit "[]" = [chr '['] ++ [chr ']'] := by decide
  have hopening : lit "[" = [chr '['] := by decide
  have hclosing : lit "]" = [chr ']'] := by decide
  rw [hpair, hopening, hclosing, List.append_assoc]
  exact (hs.punctuation (by decide) (by decide) (by decide)).punctuation (by decide) (by decide)
    (by decide)

/-! ### Grouping -/

variable {ts ts' : List Token} {es es' : List Element} {t u : Token}

namespace Nest

/-- Puts elements into the innermost open group. -/
def addAll (nest : Nest) (es : List Element) : Nest := es.foldl add nest

theorem addAll_append (nest : Nest) (es es' : List Element) :
    nest.addAll (es ++ es') = (nest.addAll es).addAll es' :=
  List.foldl_append

theorem addAll_enter (nest : Nest) (f : Frame) (es : List Element) :
    (nest.enter f).addAll es = nest.enter { f with children := es.reverse ++ f.children } := by
  induction es generalizing f with
  | nil => rfl
  | cons e es ih =>
    have hadd : (nest.enter f).add e = nest.enter { f with children := e :: f.children } := rfl
    rw [addAll, List.foldl_cons, hadd]
    refine (ih _).trans ?_
    simp

theorem addAll_roots (roots : List Element) (es : List Element) :
    ({ roots } : Nest).addAll es = { roots := es.reverse ++ roots } := by
  induction es generalizing roots with
  | nil => rfl
  | cons e es ih =>
    refine (ih (e :: roots)).trans ?_
    simp

theorem run_of_step {nest next : Nest} {index : Nat} {rest : List Token} (heof : t.kind ≠ .eof)
    (h : nest.step index t rest = .ok next) :
    nest.run index (t :: rest) = next.run (index + 1) rest := by
  rw [run, if_neg heof, h]

end Nest

/-- Wherever the tokens stand, they are grouped into the elements. -/
def GroupsTo (ts : List Token) (es : List Element) : Prop :=
  ∀ (nest : Nest) index rest, nest.run index (ts ++ rest) =
    (nest.addAll es).run (index + ts.length) rest

/-- The search for a closing `>` gets past the tokens. -/
def Passed (ts : List Token) : Prop :=
  ∀ (depth : Int) rest, 1 ≤ depth →
    matchAngleFrom? depth (ts ++ rest) = (matchAngleFrom? depth rest).map (· + ts.length)

theorem groupsTo_nil : GroupsTo [] [] := fun _ _ _ => rfl

theorem GroupsTo.append (h : GroupsTo ts es) (h' : GroupsTo ts' es') :
    GroupsTo (ts ++ ts') (es ++ es') := by
  intro nest index rest
  rw [List.append_assoc, h, h', Nest.addAll_append, List.length_append, Nat.add_assoc]

theorem groupsTo_token (hopens : t.kind.opens? = none) (hcloses : t.kind.closes? = none)
    (hlt : t.kind ≠ .lt) (hgt : t.kind ≠ .gt) (heof : t.kind ≠ .eof) : GroupsTo [t] [.token t] := by
  intro nest index rest
  refine Nest.run_of_step heof ?_
  simp [Nest.step, hopens, hcloses, hlt, hgt, Nest.addAll]

theorem groupsTo_pair (ht : t.kind = .lbracket) (hu : u.kind = .rbracket) :
    GroupsTo [t, u] [.group ⟨.square, t, u, []⟩] := by
  intro nest index rest
  have hopening : nest.step index t (u :: rest) =
      .ok (nest.enter { kind := .square, opening := t }) := by
    simp [Nest.step, ht, TokenKind.opens?]
  have hclosing : (nest.enter { kind := .square, opening := t }).step (index + 1) u rest =
      .ok (nest.add (.group ⟨.square, t, u, []⟩)) := by
    simp [Nest.step, hu, TokenKind.opens?, TokenKind.closes?, Nest.leaveWith, Nest.enter,
      Nest.leave]
  exact (Nest.run_of_step (by simp [ht]) hopening).trans (Nest.run_of_step (by simp [hu]) hclosing)

theorem passed_nil : Passed [] := fun depth rest _ => by simp

theorem Passed.append (h : Passed ts) (h' : Passed ts') : Passed (ts ++ ts') := by
  intro depth rest hdepth
  rw [List.append_assoc, h depth _ hdepth, h' depth rest hdepth, Option.map_map, List.length_append]
  congr 1
  funext n
  simp only [Function.comp_apply]
  omega

theorem passed_token (h : t.kind.isTypeArgument) : Passed [t] :=
  fun _ _ _ => matchAngleFrom?_argument h

theorem passed_pair (ht : t.kind = .lbracket) (hu : u.kind = .rbracket) : Passed [t, u] :=
  fun _ _ _ =>
  matchAngleFrom?_square ht hu

theorem Passed.angle (h : Passed ts) (ht : t.kind = .lt) (hu : u.kind = .gt) :
    Passed (t :: ts ++ [u]) := by
  intro depth rest hdepth
  have hne : ¬ depth + 1 - 1 = 0 := by omega
  have hback : depth + 1 - 1 = depth := by omega
  rw [List.cons_append, List.cons_append, List.append_assoc, matchAngleFrom?_lt ht,
    h _ _ (by omega), List.singleton_append, matchAngleFrom?_gt hu, if_neg hne, hback,
    Option.map_map, Option.map_map]
  congr 1
  funext n
  simp only [Function.comp_apply, List.length_cons, List.length_append, List.length_nil]
  omega

theorem GroupsTo.angle (h : GroupsTo ts es) (hpassed : Passed ts) (ht : t.kind = .lt)
    (hu : u.kind = .gt) :
    GroupsTo (t :: ts ++ [u]) [.group ⟨.angle, t, u, es⟩] := by
  intro nest index rest
  have hmatch : matchAngle? (t :: (ts ++ u :: rest)) = some (ts.length + 1) := by
    rw [matchAngle?, matchAngleFrom?_lt ht, hpassed _ _ (by omega), matchAngleFrom?_gt hu]
    simp
  have hopening : nest.step index t (ts ++ u :: rest) =
      .ok (nest.enter ⟨.angle, t, index + (ts.length + 1), []⟩) := by
    simp [Nest.step, ht, TokenKind.opens?, hmatch]
  have hclosing : (nest.enter ⟨.angle, t, index + (ts.length + 1), es.reverse⟩).step
      (index + 1 + ts.length) u rest =
      .ok (nest.add (.group ⟨.angle, t, u, es⟩)) := by
    have hindex : index + (ts.length + 1) = index + 1 + ts.length := by omega
    simp [Nest.step, hu, TokenKind.opens?, Nest.awaitsAngle, Nest.enter, Nest.leave, hindex]
  have hlength : index + (t :: ts ++ [u]).length = index + 1 + ts.length + 1 := by
    simp only [List.length_append, List.length_cons, List.length_nil]
    omega
  calc nest.run index (t :: ts ++ [u] ++ rest)
    _ = nest.run index (t :: (ts ++ u :: rest)) := by simp
    _ = (nest.enter ⟨.angle, t, index + (ts.length + 1), []⟩).run (index + 1) (ts ++ u :: rest) :=
      Nest.run_of_step (by simp [ht]) hopening
    _ = (nest.enter ⟨.angle, t, index + (ts.length + 1), es.reverse⟩).run (index + 1 +
      ts.length) (u :: rest) := by
      rw [h, Nest.addAll_enter, List.append_nil]
    _ = (nest.add (.group ⟨.angle, t, u, es⟩)).run (index + 1 + ts.length + 1) rest :=
      Nest.run_of_step (by simp [hu]) hclosing
    _ = (nest.addAll [.group ⟨.angle, t, u, es⟩]).run (index + (t :: ts ++ [u]).length) rest := by
      rw [hlength]
      rfl

theorem GroupsTo.ofTokens (h : GroupsTo ts es) (ht : t.kind = .eof) :
    Group.ofTokens (ts ++ [t]) = .ok ⟨.root, {}, t, es⟩ := by
  have hroots := Nest.addAll_roots [] es
  rw [Group.ofTokens, h, hroots, List.append_nil, Nest.run, if_pos ht]
  simp [Nest.finish]

/-! ### Reading parts again -/

/-- The tokens are grouped into the elements, among type arguments too, and none of these is a
comment. -/
structure Settles (ts : List Token) (es : List Element) : Prop where
  groups : GroupsTo ts es
  passed : Passed ts
  bare : ∀ e ∈ es, e.isComment = false

theorem settles_nil : Settles [] [] := ⟨groupsTo_nil, passed_nil, by simp⟩

theorem Settles.append (h : Settles ts es) (h' : Settles ts' es') :
    Settles (ts ++ ts') (es ++ es') := by
  refine ⟨h.groups.append h'.groups, h.passed.append h'.passed, fun e he => ?_⟩
  rcases List.mem_append.mp he with he | he
  · exact h.bare e he
  · exact h'.bare e he

theorem settles_token (ht : t.kind = kind) (h : kind.isTypeArgument) (hcomment : kind ≠ .comment) :
    Settles [t] [.token t] := by
  subst ht
  obtain ⟨hlt, hgt, heof, hopens, hcloses⟩ := TokenKind.ne_of_isTypeArgument h
  refine ⟨groupsTo_token hopens hcloses hlt hgt heof, passed_token h, fun e he => ?_⟩
  rw [List.mem_singleton.mp he]
  simpa [Element.is] using hcomment

theorem settles_pair (ht : t.kind = .lbracket) (hu : u.kind = .rbracket) :
    Settles [t, u] [.group ⟨.square, t, u, []⟩] :=
  ⟨groupsTo_pair ht hu, passed_pair ht hu, by simp [Element.is]⟩

theorem Settles.angle (h : Settles ts es) (ht : t.kind = .lt) (hu : u.kind = .gt) :
    Settles (t :: ts ++ [u]) [.group ⟨.angle, t, u, es⟩] :=
  ⟨h.groups.angle h.passed ht hu, h.passed.angle ht hu, by simp [Element.is]⟩

variable {P Q : List Element → Prop}

/-- The text is scanned and grouped into elements with the property `P`, in front of what ends a
part. -/
structure Reread (s : Text) (P : List Element → Prop) : Prop where
  return_notMem : chr '\r' ∉ s
  exists_words : ∃ words, SpelledPart s words ∧
    ∀ ts : List Token, ts.map (·.spelling) = words → ∃ es, Settles ts es ∧ P es

namespace Reread

theorem mono (h : Reread s P) (hP : ∀ es, P es → Q es) : Reread s Q := by
  obtain ⟨words, hwords, hts⟩ := h.exists_words
  refine ⟨h.return_notMem, words, hwords, fun ts heq => ?_⟩
  obtain ⟨es, hes, hproperty⟩ := hts ts heq
  exact ⟨es, hes, hP es hproperty⟩

theorem nil : Reread [] (· = []) := by
  refine ⟨by simp, [], fun _ _ _ hs => hs, fun ts hts => ?_⟩
  rw [List.map_eq_nil_iff.mp hts]
  exact ⟨[], settles_nil, rfl⟩

theorem append (h : Reread s P) (h' : Reread s' Q) (hends : EndsPart s') :
    Reread (s ++ s') fun es => ∃ es₁ es₂, es = es₁ ++ es₂ ∧ P es₁ ∧ Q es₂ := by
  obtain ⟨words, hwords, hts⟩ := h.exists_words
  obtain ⟨words', hwords', hts'⟩ := h'.exists_words
  refine ⟨?_, words ++ words', hwords.append hwords' hends, fun ts heq => ?_⟩
  · rw [List.mem_append, not_or]
    exact ⟨h.return_notMem, h'.return_notMem⟩
  · obtain ⟨ts₁, ts₂, rfl, heq₁, heq₂⟩ := List.map_eq_append_iff.mp heq
    obtain ⟨es₁, hes₁, hP⟩ := hts ts₁ heq₁
    obtain ⟨es₂, hes₂, hQ⟩ := hts' ts₂ heq₂
    exact ⟨es₁ ++ es₂, hes₁.append hes₂, es₁, es₂, rfl, hP, hQ⟩

theorem return_notMem_of_word (h : IsWord kind word) : chr '\r' ∉ word := by
  obtain ⟨c, more, rfl, hc, hmore, -⟩ := h
  rw [List.mem_cons, not_or]
  refine ⟨?_, fun hmem => ?_⟩
  · rintro rfl
    exact absurd hc (by decide)
  · exact absurd (hmore _ hmem) (by decide)

theorem of_word (h : IsWord kind word) (hkind : kind.isTypeArgument) (hcomment : kind ≠ .comment) :
    Reread word fun es => ∃ t, es = [.token t] ∧ t.kind = kind ∧ t.text = word := by
  refine ⟨return_notMem_of_word h, [(kind, word)], fun _ _ hrest hs => h.spelled hrest.endsName hs,
    fun ts hts => ?_⟩
  obtain ⟨t, rfl, ht⟩ := List.map_eq_singleton_iff.mp hts
  cases ht
  exact ⟨[.token t], settles_token rfl hkind hcomment, t, rfl, rfl, rfl⟩

end Reread

/-- The elements are the given words, each behind a point. -/
inductive Dotted : List Text → List Element → Prop
  | nil : Dotted [] []
  | cons {point t : Token} {more : List Text} {es : List Element} (hpoint : point.kind = .dot)
      (ht : t.kind = .ident)
      (hmore : Dotted more es) : Dotted (t.text :: more) (.token point :: .token t :: es)

/-- The elements are `n` empty pairs of square brackets. -/
structure Pairs (n : Nat) (es : List Element) : Prop where
  length : es.length = n
  isEmptyGroup : ∀ e ∈ es, e.isEmptyGroup .square = true

namespace Reread

theorem point (h : IsWord .ident word) :
    Reread (lit "." ++ word) fun es => ∃ point t, es = [.token point, .token t] ∧
    point.kind = .dot ∧
      t.kind = .ident ∧ t.text = word := by
  refine ⟨?_, _, spelledPart_dotted h, fun ts hts => ?_⟩
  · rw [lit_point, List.mem_append, not_or]
    exact ⟨by decide, return_notMem_of_word h⟩
  · obtain ⟨point, ts, rfl, hpoint, hts⟩ := List.map_eq_cons_iff.mp hts
    obtain ⟨t, rfl, ht⟩ := List.map_eq_singleton_iff.mp hts
    have hpoint : point.kind = .dot := congrArg Prod.fst hpoint
    have hkind : t.kind = .ident := congrArg Prod.fst ht
    have hsettles : Settles ([point] ++ [t]) ([.token point] ++ [.token t]) :=
      (settles_token hpoint rfl (by decide)).append (settles_token hkind rfl (by decide))
    exact ⟨_, hsettles, point, t, rfl, hpoint, hkind, congrArg Prod.snd ht⟩

theorem dotted {more : List Text} (h : ∀ word ∈ more, IsWord .ident word) :
    Reread (more.map (lit "." ++ ·)).flatten (Dotted more) ∧
    EndsPart (more.map (lit "." ++ ·)).flatten := by
  induction more with
  | nil => exact ⟨nil.mono fun es hes => hes ▸ .nil, endsPart_nil⟩
  | cons word more ih =>
    obtain ⟨hword, hmore⟩ := List.forall_mem_cons.mp h
    obtain ⟨hread, hends⟩ := ih hmore
    rw [List.map_cons, List.flatten_cons]
    refine ⟨((point hword).append hread hends).mono ?_, ?_⟩
    · rintro _ ⟨_, es, rfl, ⟨point, t, rfl, hpoint, ht, rfl⟩, hes⟩
      exact .cons hpoint ht hes
    · rw [lit_point]
      rintro b ⟨⟩
      decide

theorem pair : Reread (lit "[]") (Pairs 1) := by
  refine ⟨by decide, _, spelledPart_pair, fun ts hts => ?_⟩
  obtain ⟨t, ts, rfl, ht, hts⟩ := List.map_eq_cons_iff.mp hts
  obtain ⟨u, rfl, hu⟩ := List.map_eq_singleton_iff.mp hts
  refine ⟨_, settles_pair (congrArg Prod.fst ht) (congrArg Prod.fst hu), rfl, ?_⟩
  simp [Element.isEmptyGroup]

theorem dims (n : Nat) :
    Reread (List.replicate n (lit "[]")).flatten (Pairs n) ∧
    EndsPart (List.replicate n (lit "[]")).flatten := by
  induction n with
  | zero => exact ⟨nil.mono fun es hes => hes ▸ ⟨rfl, by simp⟩, endsPart_nil⟩
  | succ n ih =>
    rw [List.replicate_succ, List.flatten_cons]
    refine ⟨(pair.append ih.1 ih.2).mono ?_, ?_⟩
    · rintro _ ⟨es₁, es₂, rfl, h₁, h₂⟩
      refine ⟨by rw [List.length_append, h₁.length, h₂.length, Nat.add_comm], fun e he => ?_⟩
      rcases List.mem_append.mp he with he | he
      · exact h₁.isEmptyGroup e he
      · exact h₂.isEmptyGroup e he
    · have hpair : lit "[]" = [chr '[', chr ']'] := by decide
      rw [hpair]
      rintro b ⟨⟩
      decide

theorem angle (h : Reread s P) (hs : StartsType s) :
    Reread (lit "<" ++ s ++ lit ">") fun es => ∃ g, es = [.group g] ∧ g.kind = .angle ∧
      (∀ e ∈ g.children, e.isComment = false) ∧ P g.children := by
  obtain ⟨words, hwords, hts⟩ := h.exists_words
  refine ⟨?_, _, hwords.angle hs, fun ts heq => ?_⟩
  · simp only [List.mem_append, not_or]
    exact ⟨⟨by decide, h.return_notMem⟩, by decide⟩
  · obtain ⟨ts₁, ts₂, rfl, heq₁, heq₂⟩ := List.map_eq_append_iff.mp heq
    obtain ⟨opening, inner, rfl, hopening, hinner⟩ := List.map_eq_cons_iff.mp heq₁
    obtain ⟨closing, rfl, hclosing⟩ := List.map_eq_singleton_iff.mp heq₂
    obtain ⟨es, hes, hP⟩ := hts inner hinner
    exact ⟨_, hes.angle (congrArg Prod.fst hopening) (congrArg Prod.fst hclosing), _, rfl, rfl,
      hes.bare, hP⟩

theorem comma (h : Reread s P) (h' : Reread s' Q) :
    Reread (s ++ lit ", " ++ s') fun es => ∃ es₁ c es₂, es = es₁ ++ .token c :: es₂ ∧
    c.kind = .comma ∧
      P es₁ ∧ Q es₂ := by
  obtain ⟨words, hwords, hts⟩ := h.exists_words
  obtain ⟨words', hwords', hts'⟩ := h'.exists_words
  have hlit : lit ", " = [chr ','] ++ [chr ' '] := by decide
  refine ⟨?_, words ++ (.comma, [chr ',']) :: words', ?_, fun ts heq => ?_⟩
  · simp only [List.mem_append, not_or]
    exact ⟨⟨h.return_notMem, by decide⟩, h'.return_notMem⟩
  · intro rest spellings hrest hs
    have hblank : ∀ b ∈ [chr ' '], isBlank b = true := List.all_eq_true.mp (by decide)
    have hcomma : Spelled ([chr ','] ++ ([chr ' '] ++ (s' ++ rest)))
        ((.comma, [chr ',']) :: (words' ++ spellings)) :=
      ((hwords' rest spellings hrest hs).blanks hblank).punctuation (by decide) (by decide)
      (by decide)
    have hall := hwords _ _ (by rintro b ⟨⟩; decide) hcomma
    rw [hlit]
    simpa using hall
  · obtain ⟨ts₁, ts₂, rfl, heq₁, heq₂⟩ := List.map_eq_append_iff.mp heq
    obtain ⟨c, ts₃, rfl, hc, heq₃⟩ := List.map_eq_cons_iff.mp heq₂
    have hkind : c.kind = .comma := congrArg Prod.fst hc
    obtain ⟨es₁, hes₁, hP⟩ := hts ts₁ heq₁
    obtain ⟨es₂, hes₂, hQ⟩ := hts' ts₃ heq₃
    have hsettles := hes₁.append ((settles_token hkind rfl (by decide)).append hes₂)
    exact ⟨_, hsettles, es₁, c, es₂, rfl, hkind, hP, hQ⟩

theorem question : Reread (lit "?") fun es => ∃ t, es = [.token t] ∧ t.kind = .question := by
  have hlit : lit "?" = [chr '?'] := by decide
  refine ⟨by decide, [(.question, lit "?")], fun rest spellings _ hs => ?_, fun ts hts => ?_⟩
  · rw [hlit]
    exact hs.punctuation (by decide) (by decide) (by decide)
  · obtain ⟨t, rfl, ht⟩ := List.map_eq_singleton_iff.mp hts
    have hkind : t.kind = .question := congrArg Prod.fst ht
    exact ⟨_, settles_token hkind rfl (by decide), t, rfl, hkind⟩

theorem bound (h : Reread s P) (hword : IsWord kind word) (hkind : kind.isTypeArgument)
    (hcomment : kind ≠ .comment) :
    Reread (lit "? " ++ word ++ lit " " ++ s) fun es =>
    ∃ q w es', es = .token q :: .token w :: es' ∧ q.kind = .question ∧
      w.kind = kind ∧ P es' := by
  obtain ⟨words, hwords, hts⟩ := h.exists_words
  have hquestion : lit "? " = [chr '?'] ++ [chr ' '] := by decide
  have hspace : lit " " = [chr ' '] := by decide
  have hblank : ∀ b ∈ [chr ' '], isBlank b = true := List.all_eq_true.mp (by decide)
  refine ⟨?_, (.question, [chr '?']) :: (kind, word) :: words, ?_, fun ts heq => ?_⟩
  · simp only [List.mem_append, not_or]
    exact ⟨⟨⟨by decide, return_notMem_of_word hword⟩, by decide⟩, h.return_notMem⟩
  · intro rest spellings hrest hs
    have hends : EndsName ([chr ' '] ++ (s ++ rest)) := by
      rintro b ⟨⟩
      decide
    have hbound := hword.spelled hends ((hwords rest spellings hrest hs).blanks hblank)
    have hall : Spelled ([chr '?'] ++ ([chr ' '] ++ (word ++ ([chr ' '] ++ (s ++ rest)))))
        ((.question, [chr '?']) :: (kind, word) :: (words ++ spellings)) :=
      (hbound.blanks hblank).punctuation (by decide) (by decide) (by decide)
    rw [hquestion, hspace]
    simpa using hall
  · obtain ⟨q, ts₁, rfl, hq, heq₁⟩ := List.map_eq_cons_iff.mp heq
    obtain ⟨w, ts₂, rfl, hw, heq₂⟩ := List.map_eq_cons_iff.mp heq₁
    obtain ⟨es, hes, hP⟩ := hts ts₂ heq₂
    have hqkind : q.kind = .question := congrArg Prod.fst hq
    have hwkind : w.kind = kind := congrArg Prod.fst hw
    have hwsettles : Settles [w] [.token w] := settles_token hwkind hkind hcomment
    have hqsettles : Settles [q] [.token q] := settles_token hqkind rfl (by decide)
    exact ⟨_, hqsettles.append (hwsettles.append hes), q, w, es, rfl, hqkind, hwkind, hP⟩

end Reread

end Unnest
