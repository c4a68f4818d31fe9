import Unnest.Proofs.Initializers
import Unnest.Proofs.Rescan
import Unnest.Proofs.Positions

/-!
# Reading printed initializers again

The initializer of a field is printed as an expression. The comments among its elements were passed
over when it was read, so two tokens may come to stand side by side that had a comment between them.
Without white space they may run together: two minus signs with just a comment in between are
printed as `--` and read as one operator (`expression_joins_minuses`). `keepsApart` says that this
does not happen, and then the initializer is read again as what it is.

Two neighbouring tokens with no comment left out between them are in no danger. The places of the
tokens tell the two cases apart, for a comment in between takes up some place.

* `keepsApart`: neighbouring tokens do not run together;
* `lex_expression`: an initializer of a file, printed and read again.
-/

namespace Unnest

open Text Lexeme

/-! ### Tokens side by side -/

/-- Whether the second token begins where the first ends. -/
def Token.touches (t u : Token) : Bool := t.endLine == u.line && t.endCol == u.col

/-- The first token stands in front of the second. -/
def Token.IsBefore (t u : Token) : Prop := t.start < u.start ∧ t.stop ≤ u.start

/-- Whether neighbouring tokens of the pieces stay apart, or touched each other in the source
already; `prev` is the token in front of the pieces. -/
def keepsApart : Option Token → List Piece → Bool
  | _, [] => true
  | prev, .token u :: ps => (prev.all fun t => t.isApart u || t.touches u) && keepsApart (some u) ps
  | _, .creation _ :: ps => keepsApart none ps

theorem Token.IsBefore.touches_eq_false {t c u : Token} (htc : t.IsBefore c) (hcu : c.IsBefore u) :
    t.touches u = false := by
  by_contra htouch
  simp only [Token.touches, Bool.not_eq_false, Bool.and_eq_true, beq_iff_eq] at htouch
  have hstop : t.stop = u.start := by rw [Token.stop, Token.start, htouch.1, htouch.2]
  exact absurd (htc.2.trans_lt hcu.1) (by rw [hstop]; exact lt_irrefl _)

variable {ps : List Piece} {prev : Option Token}

theorem isApart_of_between {t c u : Token}
    (h : keepsApart (some t) (.token u :: ps) = true) (htc : t.IsBefore c) (hcu : c.IsBefore u) :
    t.isApart u = true := by
  have hone := (Bool.and_eq_true_iff.mp h).1
  rwa [Option.all_some, htc.touches_eq_false hcu, Bool.or_false] at hone

theorem keepsApart_append_token {ps rest : List Piece} {t : Token}
    (h : keepsApart prev (ps ++ .token t :: rest) = true) : keepsApart (some t) rest = true := by
  induction ps generalizing prev with
  | nil => exact (Bool.and_eq_true_iff.mp h).2
  | cons p ps ih =>
    cases p with
    | token u => exact ih (Bool.and_eq_true_iff.mp h).2
    | creation a => exact ih h

theorem keepsApart_labelPieces (top : Text) (n : Nat) (prev : Option Token) (ps : List Piece) :
    keepsApart prev (labelPieces top n ps).1 = keepsApart prev ps := by
  induction ps generalizing n prev with
  | nil => rfl
  | cons p ps ih =>
    cases p with
    | token u => exact congrArg (_ && ·) (ih n _)
    | creation a => exact ih _ _

theorem StandsFor.mem_of_token {named : Option Text → Prop}
    {ts tail : List Token} (h : StandsFor named prev ps ts tail) {u : Token} (hu : .token u ∈ ps) :
    u ∈ ts := by
  induction h with
  | nil => cases hu
  | token _ ih =>
    rcases List.mem_cons.mp hu with hu | hu
    · cases hu
      exact List.mem_cons_self
    · exact List.mem_cons_of_mem _ (ih hu)
  | creation _ _ _ hargs _ _ ih =>
    rcases List.mem_cons.mp hu with hu | hu
    · cases hu
    · obtain ⟨xs, rfl⟩ := hargs.exists_append
      simp [ih hu]
  | comment _ _ _ ih => exact List.mem_cons_of_mem _ (ih hu)

/-! ### Runs of elements -/

theorem Element.exists_token_of_is {e : Element} {kind : TokenKind} (h : e.is kind = true) :
    ∃ t, e = .token t ∧ t.kind = kind := by
  cases e with
  | token t => exact ⟨t, rfl, by simpa [Element.is] using h⟩
  | group g => simp [Element.is] at h

theorem exists_split_of_find? {run : List Element} {c : Creation}
    (h : Creation.find? (run.filter (!·.isComment)) = some c) :
    ∃ before after rest, run = before ++ .group c.args :: (after ++ rest) ∧
      rest.filter (!·.isComment) = (run.filter (!·.isComment)).drop c.length := by
  obtain ⟨front, back, hsplit, hlen⟩ := Creation.exists_args_of_find? h
  have htake := (List.take_append_drop c.length (run.filter (!·.isComment))).symm
  obtain ⟨covered, rest, rfl, hcovered, hrest⟩ := List.filter_eq_append_iff.mp htake
  have hmem : .group c.args ∈ covered := by
    refine List.mem_of_mem_filter (p := (!·.isComment)) ?_
    rw [hcovered, hsplit, List.take_append, List.take_of_length_le (Nat.le_of_lt hlen)]
    obtain ⟨k, hk⟩ : ∃ k, c.length - front.length = k + 1 := ⟨c.length - front.length - 1, by omega⟩
    simp [hk]
  obtain ⟨before, after, rfl⟩ := List.append_of_mem hmem
  exact ⟨before, after, rest, by simp, hrest⟩

theorem standsFor_creation {t : Token} (ht : t.kind = .kwNew) {args : Group}
    (hclosing : args.closing.kind.isClosing = true) {place : Place} {pieces : List Piece}
    (hargs : ∀ tail, Covers (fun _ => True) pieces (flattenAll args.children ++ tail) tail)
    {rest : List Element} {tail : List Token}
    (hrest : StandsFor (fun _ => True) none ps (flattenAll rest ++ tail) tail)
    (before after : List Element) (base : TypeRef) (members : List Member) (endLine : Int)
    (label : Option Text) :
    StandsFor (fun _ => True) prev
      (.creation ⟨t.place, base, some ⟨place, pieces⟩, members, endLine, label⟩ :: ps)
      (flattenAll (.token t :: (before ++ .group args :: (after ++ rest))) ++ tail) tail := by
  have hflat : flattenAll (.token t :: (before ++ .group args :: (after ++ rest))) ++ tail =
      t :: ((flattenAll before ++ [args.opening]) ++ (flattenAll args.children ++
        args.closing :: (flattenAll after ++ (flattenAll rest ++ tail)))) := by
    change t :: flattenAll (before ++ .group args :: (after ++ rest)) ++ tail = _
    rw [flattenAll_append, flattenAll_group, flattenAll_append]
    simp
  rw [hflat]
  exact .creation ht hclosing trivial ((hargs _).standsFor none) hrest

/-- **A run of elements**: the pieces that are read without its comments stand for the tokens of the
run. The induction is on the length of the run, since a creation covers several elements. -/
theorem Covering.standsFor {root : Group} {levels : Nat} {inside : Inside}
    (h : Covering root levels inside)
    (hclosing : ∀ g, root.Holds (.group g) → g.closing.kind.isClosing = true) {run : List Element}
    (hrun : ∀ e ∈ run, root.Holds e ∧ e.depth ≤ levels)
    (hps : Unnest.piecesWith inside 0 (run.filter (!·.isComment)) = .ok ps)
    (hapart : keepsApart prev ps = true) (horder : (prev.toList ++ flattenAll run).Pairwise
      Token.IsBefore) (tail : List Token) :
      StandsFor (fun _ => True) prev ps (flattenAll run ++ tail) tail := by
  induction hn : run.length using Nat.strong_induction_on generalizing run ps prev tail with
  | _ n ih =>
    subst hn
    cases run with
    | nil =>
      simp only [List.filter_nil, Unnest.piecesWith, Except.ok.injEq] at hps
      subst hps
      exact .nil
    | cons e run =>
      have hrun' : ∀ e ∈ run, root.Holds e ∧ e.depth ≤ levels :=
        fun e he => hrun e (List.mem_cons_of_mem _ he)
      have hlater : (flattenAll (e :: run)).Pairwise Token.IsBefore :=
        (List.pairwise_append.mp horder).2.1
      by_cases hcomment : e.isComment = true
      · obtain ⟨c, rfl, hc⟩ := Element.exists_token_of_is hcomment
        rw [List.filter_cons_of_neg (by simp [hcomment])] at hps
        have horder' : (prev.toList ++ flattenAll run).Pairwise Token.IsBefore :=
          horder.sublist ((List.sublist_cons_self _ _).append_left _)
        have hrest := fun tail => ih _ (Nat.lt_succ_self _) hrun' hps hapart horder' tail rfl
        refine .comment hc (fun t u rest hprev hfirst => ?_) (hrest tail)
        subst hprev hfirst
        have hu : u ∈ flattenAll run := by
          have hu := (hrest []).mem_of_token List.mem_cons_self
          rwa [List.append_nil] at hu
        have htc : t.IsBefore c := (List.pairwise_cons.mp horder).1 c List.mem_cons_self
        exact isApart_of_between hapart htc ((List.pairwise_cons.mp hlater).1 u hu)
      rw [List.filter_cons_of_pos (by simp [hcomment])] at hps
      cases piecesFrom_of_piecesWith hps with
      | @creation t c typeArgs args members more ht hfind hcode _ hmore =>
        obtain ⟨before, after, rest, rfl, hrest⟩ := exists_split_of_find? hfind
        rw [piecesWith_skip, ← hrest] at hmore
        obtain ⟨hargs, hdepth⟩ := hrun' (.group c.args) (by simp)
        have hrest' : ∀ e ∈ rest, root.Holds e ∧ e.depth ≤ levels :=
          fun e he => hrun' e (by simp [he])
        have hlater' : (flattenAll rest).Pairwise Token.IsBefore := by
          have hsplit : Element.token t :: (before ++ .group c.args :: (after ++ rest)) =
              (.token t :: (before ++ .group c.args :: after)) ++ rest := by simp
          rw [hsplit, flattenAll_append] at hlater
          exact (List.pairwise_append.mp hlater).2.1
        obtain ⟨place, pieces⟩ := args
        have hinside := (h.ofGroup hargs hdepth hcode).1
        refine standsFor_creation ht (hclosing _ hargs) hinside ?_ _ _ _ _ _ _
        refine ih rest.length ?_ hrest' hmore hapart hlater' tail rfl
        simp only [List.length_cons, List.length_append]
        omega
      | token hmore =>
        have hapart' := (Bool.and_eq_true_iff.mp hapart).2
        exact .token (ih _ (Nat.lt_succ_self _) hrun' hmore hapart' hlater tail rfl)
      | @group g inner more hinner hmore =>
        obtain ⟨hg, hdepth⟩ := hrun _ List.mem_cons_self
        rw [flattenAll_group] at hlater
        have hlater' := (List.pairwise_append.mp (List.pairwise_cons.mp hlater).2).2.1
        have hapart' := keepsApart_append_token hapart
        have hrest := ih _ (Nat.lt_succ_self _) hrun' hmore hapart' hlater' tail rfl
        have hcovers :=
          (h.pieces (hg.below hdepth).1 hinner).1 (g.closing :: (flattenAll run ++ tail))
        rw [flattenAll_group_append]
        exact .token (hcovers.standsFor_append (fun _ => .token hrest) _)

/-! ### Initializers -/

/-- Whether a token of the kind may stand behind the initializer of a field. -/
def TokenKind.endsInitializer (kind : TokenKind) : Bool :=
  kind == .comma || kind == .semi || kind.isClosing

theorem TokenKind.mayPoint_of_endsInitializer {kind : TokenKind} (h : kind.endsInitializer = true) :
    kind.mayPoint = false := by
  simp only [endsInitializer, Bool.or_eq_true, beq_iff_eq] at h
  rcases h with (rfl | rfl) | h
  · rfl
  · rfl
  · exact mayPoint_of_isClosing h

theorem exists_closing {g : Group} {back : List Element}
    (hend : ∀ e, back.head? = some e → [TokenKind.comma, .semi].any (e.is ·) = true)
    (hclosing : g.closing.kind.isClosing = true) (tail : List Token) :
    ∃ closing rest, flattenAll back ++ g.closing :: tail = closing :: rest ∧
      closing.kind.endsInitializer = true := by
  cases back with
  | nil => exact ⟨g.closing, tail, rfl, by simp [TokenKind.endsInitializer, hclosing]⟩
  | cons e back =>
    have hstop := hend e rfl
    simp only [List.any_cons, List.any_nil, Bool.or_false, Bool.or_eq_true] at hstop
    rcases hstop with hstop | hstop
    · obtain ⟨t, rfl, hkind⟩ := Element.exists_token_of_is hstop
      exact ⟨t, flattenAll back ++ g.closing :: tail, rfl, by rw [hkind]; rfl⟩
    · obtain ⟨t, rfl, hkind⟩ := Element.exists_token_of_is hstop
      exact ⟨t, flattenAll back ++ g.closing :: tail, rfl, by rw [hkind]; rfl⟩

theorem exists_scan_of_initializes {source : Source} (hreturn : chr '\r' ∉ source.text) {f : File}
    (hf : File.ofSource source = .ok f) {c : Code} (hc : f.labelled.Initializes c)
    (hapart : keepsApart none c.pieces = true) :
    ∃ front equal run closing back, equal.kind = .equal ∧ closing.kind.endsInitializer = true ∧
      scanText source.name 1 true 1 source.text =
      ⟨front ++ equal :: (run ++ closing :: back), none⟩ ∧
      ∀ tail, StandsFor IsLabel none c.pieces (run ++ tail) tail := by
  obtain ⟨root, hroot, hfile⟩ := Except.bind_eq_ok.mp hf
  obtain ⟨tokens, htokens, hgroup⟩ := Except.bind_eq_ok.mp hroot
  obtain ⟨scanned, hscan, rfl⟩ := (lex_eq_ok_iff hreturn).mp htokens
  have hclosing : ∀ g, root.Holds (.group g) → g.closing.kind.isClosing = true :=
    fun _ hg => hg.isClosing hgroup
  obtain ⟨d, hd, place, pieces, n, hinit, rfl⟩ := exists_initializer_of_labelled hc
  obtain ⟨levels, g, hg, hdepth, front, equal, run, back, hsplit, hequal, hend, hcode⟩ :=
    fromRun_of_initializes hfile hinit
  unfold Code.ofElements at hcode
  obtain ⟨ps, hps, hcode⟩ := Except.bind_eq_ok.mp hcode
  cases hcode
  obtain ⟨before, behind, hflat⟩ := hg.exists_append rfl hgroup
  obtain ⟨closing, later, hbehind, hends⟩ := exists_closing hend (hclosing g hg) behind
  have hscanned : scanned =
      (before ++ g.opening :: flattenAll front) ++ equal ::
      (flattenAll run ++ closing :: later) := by
    rw [hflat, Element.flatten_group, hsplit, flattenAll_append, ← hbehind]
    simp [flattenAll, Element.flatten, flattenAll_append]
  have hlaid : Laid source.name [] true source.text scanned := laid_of_scanText hscan
  have horder : (none.toList ++ flattenAll run).Pairwise Token.IsBefore := by
    refine List.Pairwise.sublist ?_ (hlaid.pairwise :)
    rw [hscanned]
    exact ((List.sublist_append_left _ _).trans (List.sublist_cons_self _ _)).trans
      (List.sublist_append_right _ _)
  have hrun : ∀ e ∈ run, root.Holds e ∧ e.depth ≤ levels := by
    intro e he
    have hchild : e ∈ g.children := by
      rw [hsplit]
      simp [he]
    exact ⟨hg.children e hchild, (depth_le_of_mem hchild).trans hdepth⟩
  rw [keepsApart_labelPieces] at hapart
  refine ⟨_, equal, flattenAll run, closing, later, hequal, hends, by rw [hscan, hscanned],
    fun tail => ?_⟩
  have hstands := (covering_insideAt hclosing levels).standsFor hclosing hrun hps hapart horder tail
  exact hstands.labelPieces (isLabel_of_file hscan rfl hgroup hfile hd) n

/-- Pieces that are read again as what they are can be laid out as an expression. A comment up to
the end of the line at the very end has a line break behind it. -/
theorem exists_layOut_of_reprints {indent : Text} (hindent : ∀ b ∈ indent, b = chr ' ')
    (h : ∀ l : Layout, l.indent = indent → Reprints l {} ps) :
    ∃ text, layOut indent false ps = .ok text ∧ chr '\r' ∉ text ∧
      Spelled text (spelledPieces ps) := by
  let l : Layout := ⟨indent, false, marginOf false (ps.filterMap (·.token?))⟩
  obtain ⟨out, pen, hwrite, hout, hnext⟩ := h l rfl
  have hends : Ends (pen.closingGap l) := by
    intro b hb
    unfold Pen.closingGap at hb
    split_ifs at hb
    · cases hb
      exact Or.inl rfl
    · cases hb
  have hgap : Spelled (pen.closingGap l) [] := by
    have hgap : Spelled (pen.closingGap l ++ []) [] := spelled_closingGap hindent spelled_nil
    rwa [List.append_nil] at hgap
  refine ⟨out ++ pen.closingGap l, ?_, ?_, ?_⟩
  · unfold layOut
    simp only [l] at hwrite
    simp only [hwrite]
    rfl
  · intro hmem
    exact (List.mem_append.mp hmem).elim hout (return_notMem_closingGap hindent)
  · have hspelled := hnext _ [] hgap hends fun hbreak => by
      rw [← List.append_nil (pen.closingGap l)]
      exact firstLine_closingGap hbreak []
    rwa [List.append_nil] at hspelled

/-- **A printed initializer** is read again as what it is. The tokens behind its equals sign are
what its pieces stand for: comments among the elements of the initializer are left out, and all else
is there, with `new Name(arguments)` for each creation of an anonymous class. This holds for the
initializers of all fields, in whatever class, of a source without carriage returns, and at any
depth of indentation. A creation must not stand directly behind a number that ends in its point, and
no two tokens may run together where a comment is left out between them. -/
theorem lex_expression {source : Source} (hreturn : chr '\r' ∉ source.text) {f : File}
    (hf : File.ofSource source = .ok f) {c : Code} (hc : f.labelled.Initializes c)
    (hpoint : createsBehindPoint false c.pieces = false) (hapart : keepsApart none c.pieces = true)
    (depth width : Nat) (name : Text) :
    ∃ front equal run closing back text ts last,
      lex source = .ok (front ++ equal :: (run ++ closing :: back)) ∧ equal.kind = .equal ∧
      closing.kind.endsInitializer = true ∧ StandsFor IsLabel none c.pieces run [] ∧
      c.expression (Text.spaces (depth * width)) = .ok text ∧
      lex ⟨name, text⟩ = .ok (ts ++ [last]) ∧
      last.kind = .eof ∧ ts.map (·.spelling) = spelledPieces c.pieces := by
  obtain ⟨front, equal, run, closing, back, hequal, hends, hscan, hstands⟩ :=
    exists_scan_of_initializes hreturn hf hc hapart
  have hlex := (lex_eq_ok_iff hreturn).mpr ⟨_, hscan, rfl⟩
  rw [List.append_assoc, List.cons_append, List.append_assoc, List.cons_append] at hlex
  have hscan' : scanText source.name 1 true 1 source.text =
      ⟨(front ++ [equal]) ++ (run ++ closing :: back), none⟩ := by
    rw [hscan]
    simp
  obtain ⟨line, space, col, s, hsuffix, hrun⟩ := exists_scanText_of_append _ hscan'
  have hreturn' : chr '\r' ∉ s := fun hmem => hreturn (hsuffix.subset hmem)
  have hindent : ∀ b ∈ Text.spaces (depth * width), b = chr ' ' :=
    fun b hb => List.eq_of_mem_replicate hb
  have hmay := TokenKind.mayPoint_of_endsInitializer hends
  obtain ⟨text, htext, hclean, hspelled⟩ := exists_layOut_of_reprints hindent fun l hl =>
    ((hstands (closing :: back)).rereads (hl ▸ hindent) hmay hrun hreturn' hpoint {}).1
  obtain ⟨ts, hts, hspellings⟩ := hspelled name 1 true 1
  have hstands' := hstands []
  rw [List.append_nil] at hstands'
  exact ⟨front, equal, run, closing, _, text, ts, _, hlex, hequal, hends, hstands', htext,
    (lex_eq_ok_iff hclean).mpr ⟨ts, hts, rfl⟩, rfl, hspellings⟩


/-- Whether a field of one of the outermost classes has an initializer with the property. -/
def File.anyInitializer (f : File) (p : Code → Bool) : Bool :=
  f.types.any fun d =>
    d.members.any fun m => m.field?.any fun field => field.2.any fun v => v.init.any p

theorem exists_of_anyInitializer {f : File} {p : Code → Bool} (h : f.anyInitializer p = true) :
    ∃ c, f.Initializes c ∧ p c = true := by
  obtain ⟨d, hd, h⟩ := List.any_eq_true.mp h
  obtain ⟨m, hm, h⟩ := List.any_eq_true.mp h
  obtain ⟨⟨head, declarators⟩, hfield, h⟩ := (Option.any_eq_true _ _).mp h
  obtain ⟨v, hv, h⟩ := List.any_eq_true.mp h
  obtain ⟨c, hc, hp⟩ := (Option.any_eq_true _ _).mp h
  cases m with
  | field head' declarators' =>
    cases hfield
    exact ⟨c, ⟨d, hd, _, hm, head, declarators, .refl, v, hv, hc⟩, hp⟩
  | _ => cases hfield

theorem exists_ok_of_any {α : Type} {x : Except SourceError α} {p : α → Bool}
    (h : x.toOption.any p = true) :
    ∃ a, x = .ok a ∧ p a = true := by
  cases x with
  | error e => cases h
  | ok a => exact ⟨a, rfl, h⟩

/-- A field whose initializer has comments between its tokens: one without white space behind it,
one in the arguments of a creation, one between these and the members, and one in front of a
point. -/
def commentedInitializer : Source where
  name := lit "A"
  text := lit "class A \x7b\n  int n, x = 1 + /* one */-new A(a -/**/-1.) // two
    \x7b int y = 2; \x7d/* three */.g();\n\x7d\n"

/-- The initializer as it is read again. -/
def commentedSpelling : List (TokenKind × Text) :=
  [(.intLit, lit "1"), (.operator, lit "+"), (.operator, lit "-"), (.kwNew, lit "new"),
    (.ident, lit "A_1"), (.lparen, lit "("), (.ident, lit "a"), (.operator, lit "-"),
    (.comment, lit "/**/"), (.operator, lit "-"), (.floatLit, lit "1."), (.rparen, lit ")"),
    (.dot, lit "."), (.ident, lit "g"), (.lparen, lit "("), (.rparen, lit ")")]

theorem lex_expression_between_comments :
    ∃ f c text ts last, File.ofSource commentedInitializer = .ok f ∧ f.labelled.Initializes c ∧
      c.expression (Text.spaces (1 * 4)) = .ok text ∧ lex ⟨lit "A", text⟩ = .ok (ts ++ [last]) ∧
      last.kind = .eof ∧ ts.map (·.spelling) = commentedSpelling := by
  have hcheck :
      ((File.ofSource commentedInitializer).toOption.any fun f => f.labelled.anyInitializer fun c =>
      !createsBehindPoint false c.pieces && keepsApart none c.pieces &&
        spelledPieces c.pieces == commentedSpelling) = true := by
    decide +kernel
  have hreturn : chr '\r' ∉ commentedInitializer.text := by decide
  obtain ⟨f, hf, hcheck⟩ := exists_ok_of_any hcheck
  obtain ⟨c, hc, hcode⟩ := exists_of_anyInitializer hcheck
  rw [Bool.and_eq_true, Bool.and_eq_true, Bool.not_eq_true', beq_iff_eq] at hcode
  obtain ⟨⟨hpoint, hapart⟩, hspelled⟩ := hcode
  obtain ⟨_, _, _, _, _, text, ts, last, _, _, _, _, htext, hlex, hlast, hspelling⟩ :=
    lex_expression hreturn hf hc hpoint hapart 1 4 (lit "A")
  exact ⟨f, c, text, ts, last, hf, hc, htext, hlex, hlast, hspelling.trans hspelled⟩

theorem eq_map_token {ts : List Token} (h : ps.map (·.token?) = ts.map some) :
    ps = ts.map .token := by
  induction ps generalizing ts with
  | nil =>
    rw [List.map_eq_nil_iff.mp h.symm]
    rfl
  | cons p ps ih =>
    cases ts with
    | nil => cases h
    | cons t ts =>
      rw [List.map_cons, List.map_cons, List.cons.injEq] at h
      cases p with
      | token u =>
        cases h.1
        rw [List.map_cons, ih h.2]
      | creation a => cases h.1

/-- Two minus signs with a comment between them, and no white space behind the comment. -/
def commentedMinuses : Source := ⟨lit "A", lit "class A \x7b int x = 1 - /* two */-2; \x7d\n"⟩

/-- The tokens of the initializer. -/
def minusTokens : List Token :=
  [⟨.intLit, lit "1", lit "A", 1, 19, true⟩, ⟨.operator, lit "-", lit "A", 1, 21, true⟩,
    ⟨.operator, lit "-", lit "A", 1, 32, false⟩, ⟨.intLit, lit "2", lit "A", 1, 33, false⟩]

/-- **Two tokens run together**: the printed initializer is read again with one operator in place of
two. -/
theorem expression_joins_minuses :
    ∃ f c text ts, chr '\r' ∉ commentedMinuses.text ∧ File.ofSource commentedMinuses = .ok f ∧
      f.labelled.Initializes c ∧ createsBehindPoint false c.pieces = false ∧
      spelledPieces c.pieces =
        [(.intLit, lit "1"), (.operator, lit "-"), (.operator, lit "-"), (.intLit, lit "2")] ∧
      c.expression (Text.spaces (1 * 4)) = .ok text ∧ lex ⟨lit "A", text⟩ = .ok ts ∧
      ts.map (·.spelling) =
        [(.intLit, lit "1"), (.operator, lit "--"), (.intLit, lit "2"), (.eof, lit "<EOF>")] := by
  have hcheck :
      ((File.ofSource commentedMinuses).toOption.any fun f => f.labelled.anyInitializer fun c =>
      c.pieces.map (·.token?) == minusTokens.map some) = true := by
    decide +kernel
  have hprint : tokensExpression minusTokens (Text.spaces (1 * 4)) = .ok (lit "1 --2") := by cbv
  have hread : ((lex ⟨lit "A", lit "1 --2"⟩).toOption.any fun ts => ts.map (·.spelling) ==
      [(.intLit, lit "1"), (.operator, lit "--"), (.intLit, lit "2"), (.eof, lit "<EOF>")]) =
      true := by
    decide +kernel
  have hpoint : createsBehindPoint false (minusTokens.map .token) = false := by decide
  have hspelled : spelledPieces (minusTokens.map .token) =
      [(.intLit, lit "1"), (.operator, lit "-"), (.operator, lit "-"), (.intLit, lit "2")] := by
    decide
  obtain ⟨f, hf, hcheck⟩ := exists_ok_of_any hcheck
  obtain ⟨⟨place, pieces⟩, hc, hpieces⟩ := exists_of_anyInitializer hcheck
  obtain rfl := eq_map_token (beq_iff_eq.mp hpieces)
  obtain ⟨ts, hts, hspelling⟩ := exists_ok_of_any hread
  exact ⟨f, _, lit "1 --2", ts, by decide, hf, hc, hpoint, hspelled, hprint, hts,
    beq_iff_eq.mp hspelling⟩

end Unnest
