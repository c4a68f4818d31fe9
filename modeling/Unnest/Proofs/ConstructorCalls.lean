import Unnest.Proofs.HeaderCreations
import Mathlib

/-!
# Calls of other constructors

A constructor body may begin with a call `super(…);` or `this(…);`. Comments may stand in front of
it and between its parts, and anonymous classes may be created among its arguments. The call moves
in front of the body when it is plain: when its parts follow each other without comments and its
arguments are tokens. Any other call is left where it is.

* `Balanced`, `OpeningCall`: bodies that begin with a call, by their pieces alone;
* `Header.constructor_chains_plain_call`: what is written for such a constructor.
-/

namespace Unnest

/-! ### Bodies that begin with a call -/

def Piece.is (p : Piece) (kind : TokenKind) : Bool := p.token?.any (·.kind == kind)

/-- Whether no class is created among pieces. -/
def onlyTokens (ps : List Piece) : Bool := ps.all (·.token?.isSome)

section OnlyTokens

variable (t : Token) (a : Anonymous) (ps qs : List Piece)

@[simp] theorem onlyTokens_nil : onlyTokens [] = true := rfl

@[simp] theorem onlyTokens_token : onlyTokens (.token t :: ps) = onlyTokens ps := rfl

@[simp] theorem onlyTokens_creation : onlyTokens (.creation a :: ps) = false := rfl

@[simp] theorem onlyTokens_append : onlyTokens (ps ++ qs) = (onlyTokens ps && onlyTokens qs) :=
  List.all_append

end OnlyTokens

/-- Pieces whose parentheses are balanced. -/
inductive Balanced : List Piece → Prop
  | nil : Balanced []
  /-- A token that is no parenthesis, or a creation. -/
  | other {p : Piece} {ps : List Piece} : p.is .lparen = false → p.is .rparen = false →
      Balanced ps → Balanced (p :: ps)
  /-- Balanced pieces between parentheses. -/
  | parens {opening closing : Token} {inner ps : List Piece} : opening.kind = .lparen →
      closing.kind = .rparen →
      Balanced inner → Balanced ps → Balanced (.token opening :: (inner ++ .token closing :: ps))

/-- The parts of a constructor body that begins with a call of another constructor. -/
structure OpeningCall where
  /-- The comments in front of the call. -/
  before : List Token
  /-- The word `super` or `this`. -/
  callee : Token
  /-- The comments behind the word. -/
  afterCallee : List Token
  opening : Token
  args : List Piece
  closing : Token
  /-- The comments in front of the semicolon. -/
  afterArgs : List Token
  semicolon : Token
  /-- The body behind the call. -/
  rest : List Piece
  comment_before : ∀ t ∈ before, t.kind = .comment
  callee_eq : callee.kind = .kwSuper ∨ callee.isThis = true
  comment_afterCallee : ∀ t ∈ afterCallee, t.kind = .comment
  opening_eq : opening.kind = .lparen
  balanced : Balanced args
  closing_eq : closing.kind = .rparen
  comment_afterArgs : ∀ t ∈ afterArgs, t.kind = .comment
  semicolon_eq : semicolon.kind = .semi

namespace OpeningCall

/-- The body as a whole. -/
def pieces (o : OpeningCall) : List Piece :=
  o.before.map .token ++ .token o.callee :: (o.afterCallee.map .token ++ .token o.opening ::
    (o.args ++ .token o.closing :: (o.afterArgs.map .token ++ .token o.semicolon :: o.rest)))

/-- Whether the parts of the call follow each other without comments, and its arguments are
tokens. -/
def isPlain (o : OpeningCall) : Bool :=
  o.afterCallee.isEmpty && o.afterArgs.isEmpty && onlyTokens o.args

end OpeningCall

/-! ### The tokens in front -/

/-- The tokens in front of the first creation. -/
def frontTokens : List Piece → List Token
  | .token t :: ps => t :: frontTokens ps
  | _ => []

theorem Code.leadingTokens_eq (c : Code) : c.leadingTokens = frontTokens c.pieces := by
  obtain ⟨place, ps⟩ := c
  rw [leadingTokens, segments]
  induction ps with
  | nil => rfl
  | cons p ps ih =>
    cases p with
    | creation a => rfl
    | token t =>
      rw [segmentsOf, frontTokens, ← ih]
      cases segmentsOf ps <;> rfl

@[simp] theorem frontTokens_tokens (ts : List Token) (ps : List Piece) :
    frontTokens (ts.map .token ++ ps) = ts ++ frontTokens ps := by
  induction ts with
  | nil => rfl
  | cons t ts ih => rw [List.map_cons, List.cons_append, frontTokens, ih, List.cons_append]

theorem map_frontTokens {ps : List Piece} (h : onlyTokens ps = true) :
    (frontTokens ps).map .token = ps := by
  induction ps with
  | nil => rfl
  | cons p ps ih =>
    cases p with
    | creation a => cases h
    | token t => rw [frontTokens, List.map_cons, ih h]

theorem frontTokens_append {ps : List Piece} (h : onlyTokens ps = true) (qs : List Piece) :
    frontTokens (ps ++ qs) = frontTokens ps ++ frontTokens qs := by
  conv_lhs => rw [← map_frontTokens h, frontTokens_tokens]

theorem length_frontTokens {ps : List Piece} (h : onlyTokens ps = true) :
    (frontTokens ps).length = ps.length := by
  conv_rhs => rw [← map_frontTokens h, List.length_map]

theorem dropTokens_tokens (ts : List Token) (ps : List Piece) (n : Nat) :
    dropTokens (ts.length + n) (ts.map .token ++ ps) = dropTokens n ps := by
  induction ts with
  | nil => rw [List.length_nil, Nat.zero_add, List.map_nil, List.nil_append]
  | cons t ts ih =>
    rw [List.length_cons, Nat.add_right_comm, List.map_cons, List.cons_append, dropTokens, ih]

/-! ### The closing parenthesis -/

section ClosingParen

variable {t : Token} (depth : Nat) (ts : List Token)

theorem closingParen?_opening (h : t.kind = .lparen) :
    closingParen? depth (t :: ts) = (closingParen? (depth + 1) ts).map (· + 1) := by
  rw [closingParen?.eq_def]
  exact if_pos h

theorem closingParen?_closing (h : t.kind = .rparen) :
    closingParen? (depth + 1) (t :: ts) = (closingParen? depth ts).map (· + 1) := by
  rw [closingParen?.eq_def]
  simp only [h, reduceCtorEq, if_false, if_true]

theorem closingParen?_last (h : t.kind = .rparen) : closingParen? 0 (t :: ts) = some 0 := by
  rw [closingParen?.eq_def]
  simp only [h, reduceCtorEq, if_false, if_true]

theorem closingParen?_other (h : t.kind ≠ .lparen) (h' : t.kind ≠ .rparen) :
    closingParen? depth (t :: ts) = (closingParen? depth ts).map (· + 1) := by
  rw [closingParen?.eq_def]
  simp only [if_neg h, if_neg h']

end ClosingParen

/-- **The search for a closing parenthesis** goes past balanced pieces, and ends without a result at
a creation among them. -/
theorem closingParen?_of_balanced {ps : List Piece} (hps : Balanced ps) (depth : Nat)
    (more : List Piece) :
    closingParen? depth (frontTokens (ps ++ more)) =
      if onlyTokens ps then (closingParen? depth (frontTokens more)).map (· + ps.length)
      else none := by
  induction hps generalizing depth more with
  | nil => simp
  | @other p ps hopening hclosing hps ih =>
    cases p with
    | creation a => simp [frontTokens, closingParen?]
    | token t =>
      have hnotOpening : t.kind ≠ .lparen := by simpa [Piece.is, Piece.token?] using hopening
      have hnotClosing : t.kind ≠ .rparen := by simpa [Piece.is, Piece.token?] using hclosing
      rw [List.cons_append, frontTokens, closingParen?_other depth _ hnotOpening hnotClosing, ih]
      by_cases hall : onlyTokens ps = true
      · simp [hall, Nat.add_assoc, Function.comp_def]
      · simp [hall]
  | @parens opening closing inner ps hopening hclosing hinner hps ihinner ihps =>
    have hsplit : .token opening :: (inner ++ .token closing :: ps) ++ more =
        .token opening :: (inner ++ (.token closing :: (ps ++ more))) := by simp
    rw [hsplit, frontTokens, closingParen?_opening depth _ hopening, ihinner, frontTokens,
      closingParen?_closing depth _ hclosing, ihps]
    by_cases hall : onlyTokens inner = true
    · by_cases hall' : onlyTokens ps = true
      · have hlength : ∀ n : Nat, n + ps.length + 1 + inner.length + 1 =
            n + (inner.length + (ps.length + 1) + 1) := by
          omega
        simp [hall, hall', Function.comp_def, hlength]
      · simp [hall, hall']
    · simp [hall]

namespace OpeningCall

variable (o : OpeningCall)

theorem callee_ne_comment : o.callee.kind ≠ .comment := by
  rcases o.callee_eq with h | h
  · simp [h]
  · simp only [Token.isThis, Bool.and_eq_true, beq_iff_eq] at h
    simp [h.1]

theorem dropWhile_before (ts : List Token) :
    (o.before ++ o.callee :: ts).dropWhile (·.kind == .comment) = o.callee :: ts := by
  rw [List.dropWhile_append_of_pos (by simpa using o.comment_before),
    List.dropWhile_cons_of_neg (by simpa using o.callee_ne_comment)]

theorem takeWhile_before (ts : List Token) :
    (o.before ++ o.callee :: ts).takeWhile (·.kind == .comment) = o.before := by
  rw [List.takeWhile_append_of_pos (by simpa using o.comment_before),
    List.takeWhile_cons_of_neg (by simpa using o.callee_ne_comment), List.append_nil]

/-- **The call that is found** at the beginning of a body that begins with one: it is found when it
is plain. -/
theorem leadingCall?_eq : leadingCall? (frontTokens o.pieces) =
    if o.isPlain then
      some { delegates := o.callee.isThis, args := frontTokens o.args, length := o.before.length +
        o.args.length + 4 }
    else none := by
  have hcallee : (o.callee.kind == .kwSuper || o.callee.isThis) = true := by simpa using o.callee_eq
  rw [pieces, frontTokens_tokens, frontTokens, leadingCall?, dropWhile_before, takeWhile_before,
    frontTokens_tokens]
  cases hafter : o.afterCallee with
  | cons t ts =>
    have ht : t.kind = .comment := o.comment_afterCallee t (by simp [hafter])
    simp [isPlain, hafter, ht]
  | nil =>
    rw [List.nil_append, frontTokens]
    simp only [hcallee, o.opening_eq, beq_self_eq_true, Bool.and_true, if_true]
    rw [closingParen?_of_balanced o.balanced, frontTokens, closingParen?_last _ o.closing_eq]
    by_cases honly : onlyTokens o.args = true
    · have hclose : 0 + o.args.length = (frontTokens o.args).length := by
        rw [length_frontTokens honly, Nat.zero_add]
      rw [if_pos honly, Option.map_some, Option.bind_some, hclose, frontTokens_append honly,
        List.drop_length_add_append, List.take_left, frontTokens, List.drop_succ_cons,
        List.drop_zero, frontTokens_tokens]
      cases hbehind : o.afterArgs with
      | cons t ts =>
        have ht : t.kind = .comment := o.comment_afterArgs t (by simp [hbehind])
        simp [isPlain, hbehind, ht]
      | nil => simp [isPlain, hafter, hbehind, honly, frontTokens, o.semicolon_eq,
        length_frontTokens honly]
    · simp [isPlain, honly]

theorem dropTokens_pieces (h : o.isPlain = true) :
    dropTokens (o.before.length + o.args.length + 4) o.pieces = o.rest := by
  simp only [isPlain, Bool.and_eq_true, List.isEmpty_iff] at h
  obtain ⟨⟨hafter, hbehind⟩, honly⟩ := h
  have hpieces : o.pieces =
      (o.before ++ o.callee :: o.opening :: (frontTokens o.args ++ [o.closing, o.semicolon])).map
      .token ++ o.rest := by
    simp [pieces, hafter, hbehind, map_frontTokens honly]
  have hlength : o.before.length + o.args.length + 4 =
      (o.before ++ o.callee :: o.opening ::
        (frontTokens o.args ++ [o.closing, o.semicolon])).length + 0 := by
    simp [length_frontTokens honly]
    omega
  rw [hpieces, hlength, dropTokens_tokens]
  cases o.rest <;> rfl

end OpeningCall

namespace Header

/-- The definition of a constructor with the call `chained` in front of its body, whether its object
is initialized first, and what is left of its body. -/
def constructorWith (h : Header) (i : Nat) (c : ClassInfo) (head : ConstructorHead) (chained : Text)
    (initializes : Bool) (block : Text) : Text :=
  definitionHead c head.typeParams ++ qualifier c ++ c.emitted ++ lit "(" ++
    paramsText (h.typeScope i c head.typeParams) head.params ++ lit ")" ++ chained ++
    lit " \x7b\n" ++
    (if initializes then h.indent 1 ++ lit "initInstance();\n" else []) ++ block ++ lit "\x7d\n\n"

/-- A call of another constructor in front of a body: of the class itself for `this`, else of its
base. -/
def chainedText (h : Header) (c : ClassInfo) (delegates : Bool) (args : Text) : Text :=
  lit " : " ++ (if delegates then c.emitted ++ templateArgs c.typeParams else h.superName c) ++
    lit "(" ++ args ++ lit ")"

variable {h : Header} {i : Nat} {c : ClassInfo} {head : ConstructorHead} {body : Code}

theorem blockText_dropTokens (depth skip : Nat) :
    h.blockText body depth skip =
    h.blockText { body with pieces := dropTokens skip body.pieces } depth 0 := by
  have hzero : ∀ ps : List Piece, dropTokens 0 ps = ps := fun ps => by cases ps <;> rfl
  obtain ⟨place, ps⟩ := body
  cases ps with
  | nil => cases skip <;> rfl
  | cons p ps =>
    rw [blockText, blockText, Code.block, Code.block, hzero]
    cases dropTokens skip (p :: ps) with
    | nil => simp [Code.isEmpty, layOut, writePieces, bind, Except.bind, pure, Except.pure]
    | cons q qs => rfl

theorem allNamed_of_mem_constructors {options : HeaderOptions} {f : File}
    (hh : Header.ofFile options f = .ok h) (hc : h.plan.class? i = some c)
    (hbody : (head, body) ∈ c.constructors) : AllNamed body.created := by
  obtain ⟨p, hp, hplan⟩ := Except.bind_eq_ok.mp hh
  cases hplan
  have hmem : c.members ∈ f.labelled.nodes.map (·.members) := by
    rw [← (Plan.described_ofFile hp).members]
    exact List.mem_map_of_mem (List.mem_of_getElem? hc)
  obtain ⟨n, hn, hmembers⟩ := List.mem_map.mp hmem
  have hm := ClassInfo.mem_constructors.mp hbody
  intro a ha
  refine f.allNamed_labelled a (f.labelled.created_perm.mem_iff.mpr ?_)
  exact List.mem_flatMap.mpr
    ⟨n, hn, List.mem_flatMap.mpr ⟨.constructor head body, hmembers ▸ hm, ha⟩⟩

theorem constructorDefinition_of_call {delegates : Bool} {tokens : List Token} {length : Nat}
    {args block : Text} (hcall : leadingCall? body.leadingTokens = some ⟨delegates, tokens, length⟩)
    (hargs : tokensExpression tokens (h.indent 1) = .ok args)
    (hblock : h.blockText body 1 length = .ok block) :
    h.constructorDefinition i c head body =
    .ok (h.constructorWith i c head (h.chainedText c delegates args)
      (!delegates && c.needsInitInstance) block) := by
  unfold constructorDefinition constructorWith chainedText
  simp [hcall, hargs, hblock, bind, Except.bind, pure, Except.pure]

theorem constructorDefinition_of_none {block : Text}
    (hcall : leadingCall? body.leadingTokens = none) (hblock : h.blockText body 1 0 = .ok block) :
    h.constructorDefinition i c head body =
    .ok (h.constructorWith i c head [] c.needsInitInstance block) := by
  unfold constructorDefinition constructorWith
  simp [hcall, hblock, bind, Except.bind, pure, Except.pure]

/-- **Constructors that begin with a call** of another constructor. A plain call moves in front of
the body; what is left of the body is what stands behind the call, and the object is initialized
first unless the class itself is called. A call with comments between its parts or with a creation
among its arguments stays in the body as it is, and the object is initialized first even if the
class itself is called. -/
theorem constructor_chains_plain_call {options : HeaderOptions} {f : File}
    (hh : Header.ofFile options f = .ok h) (hc : h.plan.class? i = some c)
    (hbody : (head, body) ∈ c.constructors) (o : OpeningCall) (ho : body.pieces = o.pieces) :
    (o.isPlain = true → ∃ args block, layOut (h.indent 1) false o.args = .ok args ∧
      h.blockText { body with pieces := o.rest } 1 0 = .ok block ∧
      h.constructorDefinition i c head body =
      .ok (h.constructorWith i c head (h.chainedText c o.callee.isThis args)
        (!o.callee.isThis && c.needsInitInstance) block)) ∧
    (o.isPlain = false → ∃ block, h.blockText body 1 0 = .ok block ∧
      h.constructorDefinition i c head body =
      .ok (h.constructorWith i c head [] c.needsInitInstance block)) := by
  have hfound := o.leadingCall?_eq
  rw [← ho, ← body.leadingTokens_eq] at hfound
  have hnamed := allNamed_of_mem_constructors hh hc hbody
  refine ⟨fun hplain => ?_, fun hplain => ?_⟩
  · rw [if_pos hplain] at hfound
    have honly : onlyTokens o.args = true := by
      simp only [OpeningCall.isPlain, Bool.and_eq_true] at hplain
      exact hplain.2
    have hnone : AllNamed (piecesCreated o.args) := by
      rw [← map_frontTokens honly, piecesCreated_tokens]
      exact fun _ ha => absurd ha List.not_mem_nil
    obtain ⟨args, hargs⟩ : ∃ args, layOut (h.indent 1) false o.args = .ok args :=
      ⟨_, layOut_eq _ _ hnone⟩
    obtain ⟨block, hblock⟩ : ∃ block, h.blockText body 1 (o.before.length + o.args.length + 4) =
        .ok block :=
      ⟨_, h.blockText_eq _ _ hnamed⟩
    refine ⟨args, block, hargs, ?_, constructorDefinition_of_call hfound ?_ hblock⟩
    · rw [← hblock, blockText_dropTokens 1 (o.before.length + o.args.length + 4), ho,
        o.dropTokens_pieces hplain]
    · rw [tokensExpression, map_frontTokens honly, hargs]
  · rw [hplain, if_neg Bool.false_ne_true] at hfound
    exact ⟨_, h.blockText_eq 1 0 hnamed,
      constructorDefinition_of_none hfound (h.blockText_eq 1 0 hnamed)⟩

/-- A constructor that begins with a comment and a call of the base. -/
def callsBase : Source :=
  ⟨lit "S", lit
    "class B { B(int x) {} }\nclass D extends B { int k = 1; D(int x) { /**/ super((x)); k++; } }"⟩

/-- The body of that constructor. -/
def baseCall : OpeningCall where
  before := [⟨.comment, lit "/**/", lit "S", 2, 43, true⟩]
  callee := ⟨.kwSuper, lit "super", lit "S", 2, 48, true⟩
  afterCallee := []
  opening := ⟨.lparen, lit "(", lit "S", 2, 53, false⟩
  args := [.token ⟨.lparen, lit "(", lit "S", 2, 54, false⟩,
    .token ⟨.ident, lit "x", lit "S", 2, 55, false⟩,
    .token ⟨.rparen, lit ")", lit "S", 2, 56, false⟩]
  closing := ⟨.rparen, lit ")", lit "S", 2, 57, false⟩
  afterArgs := []
  semicolon := ⟨.semi, lit ";", lit "S", 2, 58, false⟩
  rest := [.token ⟨.ident, lit "k", lit "S", 2, 60, true⟩,
    .token ⟨.operator, lit "++", lit "S", 2, 61, false⟩,
    .token ⟨.semi, lit ";", lit "S", 2, 63, false⟩]
  comment_before := by simp
  callee_eq := Or.inl rfl
  comment_afterCallee := by simp
  opening_eq := rfl
  balanced := .parens rfl rfl (.other rfl rfl .nil) .nil
  closing_eq := rfl
  comment_afterArgs := by simp
  semicolon_eq := rfl

/-- The call moves in front of the body, and its comment is left out with it. -/
theorem constructor_chains_base_call : ∃ f h c head body, File.ofSource callsBase = .ok f ∧
    Header.ofFile {} f = .ok h ∧ h.plan.class? 1 = some c ∧ (head, body) ∈ c.constructors ∧
    body.pieces = baseCall.pieces ∧ baseCall.isPlain = true ∧
    ∃ args block, h.constructorDefinition 1 c head body = .ok (h.constructorWith 1 c head
        (h.chainedText c baseCall.callee.isThis args)
        (!baseCall.callee.isThis && c.needsInitInstance) block) ∧
      h.constructorDefinition 1 c head body =
        .ok
        (lit "inline D::D(int32_t x) : B((x)) \x7b\n    initInstance();\n    k++;\n\x7d\n\n") := by
  have hview : ((File.ofSource callsBase).bind fun f => (Header.ofFile {} f).map fun h =>
      (h.plan.class? 1).map fun c => c.constructors.map fun x =>
        (x.2.pieces, h.constructorDefinition 1 c x.1 x.2)) =
      .ok (some [(baseCall.pieces,
        .ok (lit
          "inline D::D(int32_t x) : B((x)) \x7b\n    initInstance();\n    k++;\n\x7d\n\n"))]) := by
    cbv
  obtain ⟨f, hf, hview⟩ := Except.bind_eq_ok.mp hview
  obtain ⟨h, hh, hview⟩ := Except.map_eq_ok.mp hview
  obtain ⟨c, hc, hview⟩ := Option.map_eq_some_iff.mp hview
  obtain ⟨⟨head, body⟩, hconstructors, hpieces, hdefinition⟩ : ∃ x, c.constructors = [x] ∧
      x.2.pieces = baseCall.pieces ∧ h.constructorDefinition 1 c x.1 x.2 = _ := by
    simpa using List.map_eq_singleton_iff.mp hview
  have hbody : (head, body) ∈ c.constructors := by simp [hconstructors]
  obtain ⟨args, block, -, -, hwith⟩ :=
    (constructor_chains_plain_call hh hc hbody baseCall hpieces).1 rfl
  exact ⟨f, h, c, head, body, hf, hh, hc, hbody, hpieces, rfl, args, block, hwith, hdefinition⟩

/-- A constructor that calls another one of its class with a new object of an anonymous class. -/
def delegatesWithCreation : Source :=
  ⟨lit "S", lit "class A { int x = 1; A(Object o) {} A() { this(new Object() {}); } }"⟩

/-- The body of that constructor. -/
def delegation : OpeningCall where
  before := []
  callee := ⟨.keyword, lit "this", lit "S", 1, 43, true⟩
  afterCallee := []
  opening := ⟨.lparen, lit "(", lit "S", 1, 47, false⟩
  args := [.creation ⟨⟨lit "S", 1, 48⟩, { name := lit "Object", place := ⟨lit "S", 1, 52⟩ },
    some ⟨⟨lit "S", 1, 59⟩, []⟩, [], 1, some (lit "A_1")⟩]
  closing := ⟨.rparen, lit ")", lit "S", 1, 63, false⟩
  afterArgs := []
  semicolon := ⟨.semi, lit ";", lit "S", 1, 64, false⟩
  rest := []
  comment_before := by simp
  callee_eq := Or.inr rfl
  comment_afterCallee := by simp
  opening_eq := rfl
  balanced := .other rfl rfl .nil
  closing_eq := rfl
  comment_afterArgs := by simp
  semicolon_eq := rfl

/-- The call stays in the body, behind an initialization of the object that the called constructor
repeats. -/
theorem delegation_with_creation_stays :
    ∃ f h c head body, File.ofSource delegatesWithCreation = .ok f ∧
    Header.ofFile {} f = .ok h ∧ h.plan.class? 0 = some c ∧ (head, body) ∈ c.constructors ∧
    body.pieces = delegation.pieces ∧ delegation.callee.isThis = true ∧
    h.constructorDefinition 0 c head body =
      .ok (lit "inline A::A() \x7b\n    initInstance();\n    this(new A_1());\n\x7d\n\n") := by
  have hview :
      ((File.ofSource delegatesWithCreation).bind fun f => (Header.ofFile {} f).map fun h =>
      (h.plan.class? 0).map fun c => (c.constructors.drop 1).map fun x =>
        (x.2.pieces, h.constructorDefinition 0 c x.1 x.2)) =
      .ok (some [(delegation.pieces,
        .ok (lit "inline A::A() \x7b\n    initInstance();\n    this(new A_1());\n\x7d\n\n"))]) := by
    cbv
  obtain ⟨f, hf, hview⟩ := Except.bind_eq_ok.mp hview
  obtain ⟨h, hh, hview⟩ := Except.map_eq_ok.mp hview
  obtain ⟨c, hc, hview⟩ := Option.map_eq_some_iff.mp hview
  obtain ⟨⟨head, body⟩, hconstructors, hpieces, hdefinition⟩ : ∃ x, c.constructors.drop 1 = [x] ∧
      x.2.pieces = delegation.pieces ∧ h.constructorDefinition 0 c x.1 x.2 = _ := by
    simpa using List.map_eq_singleton_iff.mp hview
  have hbody : (head, body) ∈ c.constructors :=
    List.mem_of_mem_drop (hconstructors ▸ List.mem_cons_self)
  exact ⟨f, h, c, head, body, hf, hh, hc, hbody, hpieces, rfl, hdefinition⟩

end Header

end Unnest
