import Unnest.Proofs.Brackets

/-!
# Unbalanced brackets

Grouping fails exactly when the curly, round and square brackets in front of the end are not well
nested, whatever `<` and `>` stand among them, and its error names the bracket that is at fault.

What is well nested is said without the grouping (`WellNested`, `LeavesOpen`), and so is the error
(`BracketFault`). Both are tied to `bracketError?`, which reads the brackets alone. That grouping
gives the same error needs that no angle group is ever the innermost one where a bracket closes or
the tokens end: `Due` says how the open groups wait for the tokens still to come.

* `WellNested`, `LeavesOpen`, `BracketFault`: balance and its failures;
* `Nest.Due.step`, `Nest.failure?_run`: one token, and all of them;
* `unbalanced_iff_not_wellNested`: when grouping fails, and where.
-/

namespace Unnest

/-- Curly, round and square brackets. -/
def TokenKind.isBracket (kind : TokenKind) : Bool := kind.opens?.isSome || kind.closes?.isSome

/-- The brackets in front of the end. -/
def brackets (tokens : List Token) : List Token :=
  (tokens.takeWhile (·.kind != .eof)).filter (·.kind.isBracket)

/-- Every bracket has its partner. -/
inductive WellNested : List Token → Prop
  | nil : WellNested []
  | pair {opening closing : Token} {kind : GroupKind} {inner rest : List Token}
      (hopens : opening.kind.opens? = some kind) (hinner : WellNested inner)
      (hcloses : closing.kind.closes? = some kind) (hrest : WellNested rest) :
      WellNested (opening :: (inner ++ closing :: rest))

/-- Every bracket has its partner, except the opening brackets `opened`, the innermost first. -/
inductive LeavesOpen : (bs opened : List Token) → Prop
  | closed {bs : List Token} (h : WellNested bs) : LeavesOpen bs []
  | opening {bs opened inner : List Token} {opening : Token} {kind : GroupKind}
      (h : LeavesOpen bs opened)
      (hopens : opening.kind.opens? = some kind) (hinner : WellNested inner) :
      LeavesOpen (bs ++ opening :: inner) (opening :: opened)

/-- What is wrong with brackets: the first closing bracket without an open one, the first closing
bracket that does not fit the innermost open one, or else the innermost bracket left open. -/
inductive BracketFault : (bs : List Token) → SourceError → Prop
  | unmatched {before behind : List Token} {closing : Token} {kind : GroupKind}
      (h : WellNested before)
      (hcloses : closing.kind.closes? = some kind) :
      BracketFault (before ++ closing :: behind) (closing.error .unmatchedClosing)
  | mismatched {before behind opened : List Token} {opening closing : Token} {kind : GroupKind}
      (h : LeavesOpen before (opening :: opened)) (hcloses : closing.kind.closes? = some kind)
      (hopens : opening.kind.opens? ≠ some kind) :
      BracketFault (before ++ closing :: behind)
        (closing.error (.mismatchedClosing opening.text opening.line opening.col))
  | unclosed {bs opened : List Token} {opening : Token} (h : LeavesOpen bs (opening :: opened)) :
      BracketFault bs (opening.error .unclosedBracket)

/-- The error of brackets behind the open ones `opened`, the innermost first. -/
def bracketError? : (opened bs : List Token) → Option SourceError
  | [], [] => none
  | o :: _, [] => some (o.error .unclosedBracket)
  | opened, b :: bs =>
    match b.kind.closes? with
    | none => bracketError? (b :: opened) bs
    | some kind =>
      match opened with
      | [] => some (b.error .unmatchedClosing)
      | o :: opened =>
        if o.kind.opens? = some kind then bracketError? opened bs
        else some (b.error (.mismatchedClosing o.text o.line o.col))

/-! ### Balance -/

theorem TokenKind.closes?_of_opens? {kind : TokenKind} {k : GroupKind} (h : kind.opens? = some k) :
    kind.closes? = none := by
  cases kind <;> first | rfl | cases h

theorem TokenKind.opens?_of_closes? {kind : TokenKind} {k : GroupKind} (h : kind.closes? = some k) :
    kind.opens? = none := by
  cases kind <;> first | rfl | cases h

section Balance

variable {b o : Token} {bs opened w : List Token} {kind : GroupKind} {e : SourceError}

theorem bracketError?_opening (h : b.kind.closes? = none) :
    bracketError? opened (b :: bs) = bracketError? (b :: opened) bs := by
  rw [bracketError?.eq_def]
  simp only [h]

theorem bracketError?_unmatched (h : b.kind.closes? = some kind) :
    bracketError? [] (b :: bs) = some (b.error .unmatchedClosing) := by
  rw [bracketError?.eq_def]
  simp only [h]

theorem bracketError?_closing (h : b.kind.closes? = some kind) :
    bracketError? (o :: opened) (b :: bs) =
      if o.kind.opens? = some kind then bracketError? opened bs
      else some (b.error (.mismatchedClosing o.text o.line o.col)) := by
  rw [bracketError?.eq_def]
  simp only [h]

/-- Brackets that have their partners do not matter to those behind them. -/
theorem bracketError?_wellNested (h : WellNested w) (opened bs : List Token) :
    bracketError? opened (w ++ bs) = bracketError? opened bs := by
  induction h generalizing opened bs with
  | nil => rfl
  | @pair o c kind inner rest hopens hinner hcloses hrest ihInner ihRest =>
    calc bracketError? opened (o :: (inner ++ c :: rest) ++ bs)
      _ = bracketError? (o :: opened) (inner ++ c :: (rest ++ bs)) := by
        rw [List.cons_append, List.append_assoc,
          bracketError?_opening (TokenKind.closes?_of_opens? hopens)]
        rfl
      _ = bracketError? (o :: opened) (c :: (rest ++ bs)) := ihInner ..
      _ = bracketError? opened (rest ++ bs) := by rw [bracketError?_closing hcloses, if_pos hopens]
      _ = bracketError? opened bs := ihRest ..

theorem bracketError?_leavesOpen (h : LeavesOpen w opened) (bs : List Token) :
    bracketError? [] (w ++ bs) = bracketError? opened bs := by
  induction h generalizing bs with
  | closed h => exact bracketError?_wellNested h [] bs
  | @opening w opened inner o kind h hopens hinner ih =>
    calc bracketError? [] (w ++ o :: inner ++ bs)
      _ = bracketError? [] (w ++ o :: (inner ++ bs)) := by simp
      _ = bracketError? opened (o :: (inner ++ bs)) := ih _
      _ = bracketError? (o :: opened) (inner ++ bs) :=
        bracketError?_opening (TokenKind.closes?_of_opens? hopens)
      _ = bracketError? (o :: opened) bs := bracketError?_wellNested hinner ..

theorem bracketError?_of_fault (h : BracketFault bs e) : bracketError? [] bs = some e := by
  cases h with
  | unmatched h hcloses => rw [bracketError?_wellNested h, bracketError?_unmatched hcloses]
  | mismatched h hcloses hopens =>
    rw [bracketError?_leavesOpen h, bracketError?_closing hcloses, if_neg hopens]
  | unclosed h =>
    rw [← List.append_nil bs, bracketError?_leavesOpen h]
    rfl

theorem bracketError?_of_wellNested (h : WellNested bs) : bracketError? [] bs = none := by
  rw [← List.append_nil bs, bracketError?_wellNested h]
  rfl

theorem WellNested.append (h : WellNested w) (h' : WellNested bs) : WellNested (w ++ bs) := by
  induction h with
  | nil => exact h'
  | pair hopens hinner hcloses _ _ ihRest =>
    rw [List.cons_append, List.append_assoc]
    exact .pair hopens hinner hcloses ihRest

/-- A closing bracket closes the innermost open one. -/
theorem LeavesOpen.close (h : LeavesOpen w (o :: opened)) (hopens : o.kind.opens? = some kind)
    (hcloses : b.kind.closes? = some kind) : LeavesOpen (w ++ [b]) opened := by
  cases h with
  | opening houter _ hinner =>
    have hpair := WellNested.pair hopens hinner hcloses .nil
    rw [List.append_assoc]
    cases houter with
    | closed houter => exact .closed (houter.append hpair)
    | opening houter hopens' hinner' =>
      rw [List.append_assoc]
      exact .opening houter hopens' (hinner'.append hpair)

/-- Brackets either have their partners or have a fault, and `bracketError?` tells which. -/
theorem fault_or_wellNested (h : LeavesOpen w opened) (hbs : ∀ b ∈ bs, b.kind.isBracket) :
    (∃ e, bracketError? opened bs = some e ∧ BracketFault (w ++ bs) e) ∨
      bracketError? opened bs = none ∧ WellNested (w ++ bs) := by
  induction bs generalizing w opened with
  | nil =>
    rw [List.append_nil]
    cases h with
    | closed h => exact Or.inr ⟨rfl, h⟩
    | opening h hopens hinner => exact Or.inl ⟨_, rfl, .unclosed (.opening h hopens hinner)⟩
  | cons b bs ih =>
    obtain ⟨hb, hbs⟩ := List.forall_mem_cons.mp hbs
    cases hcloses : b.kind.closes? with
    | none =>
      obtain ⟨kind, hopens⟩ : ∃ kind, b.kind.opens? = some kind :=
        Option.isSome_iff_exists.mp (by simpa [TokenKind.isBracket, hcloses] using hb)
      rw [bracketError?_opening hcloses, List.append_cons]
      exact ih (.opening h hopens .nil) hbs
    | some kind =>
      cases h with
      | closed h =>
        rw [bracketError?_unmatched hcloses]
        exact Or.inl ⟨_, rfl, .unmatched h hcloses⟩
      | @opening w opened inner o kind' h hopens hinner =>
        have hleaves := LeavesOpen.opening h hopens hinner
        rw [bracketError?_closing hcloses]
        split_ifs with hkind
        · rw [List.append_cons]
          exact ih (hleaves.close hkind hcloses) hbs
        · exact Or.inl ⟨_, rfl, .mismatched hleaves hcloses hkind⟩

end Balance

/-! ### Type arguments -/

section Angles

variable {depth d : Int} {t : Token} {ts : List Token} {k : Nat}

theorem TokenKind.ne_of_isTypeArgument {kind : TokenKind} (h : kind.isTypeArgument) :
    kind ≠ .lt ∧ kind ≠ .gt ∧ kind ≠ .eof ∧ kind.opens? = none ∧ kind.closes? = none := by
  cases kind with
  | modifier m => cases h
  | _ => revert h; decide

/-- What the first token of type arguments can be. -/
theorem matchAngleFrom?_cases (h : matchAngleFrom? depth (t :: ts) = some k) :
    (t.kind = .lt ∧ ∃ m, matchAngleFrom? (depth + 1) ts = some m ∧ k = m + 1) ∨
      (t.kind = .gt ∧ depth = 1 ∧ k = 0) ∨
      (t.kind = .gt ∧ depth ≠ 1 ∧ ∃ m, matchAngleFrom? (depth - 1) ts = some m ∧ k = m + 1) ∨
      (t.kind = .lbracket ∧ ∃ u us, ts = u :: us ∧ u.kind = .rbracket ∧
        ∃ m, matchAngleFrom? depth us = some m ∧ k = m + 2) ∨
      (t.kind.isTypeArgument ∧ ∃ m, matchAngleFrom? depth ts = some m ∧ k = m + 1) := by
  rw [matchAngleFrom?.eq_def] at h
  simp only at h
  split at h
  · next hkind =>
    obtain ⟨m, hm, rfl⟩ := Option.map_eq_some_iff.mp h
    exact Or.inl ⟨hkind, m, hm, rfl⟩
  · next hkind =>
    split_ifs at h with hdepth
    · exact Or.inr (Or.inl ⟨hkind, by omega, by simpa using h.symm⟩)
    · obtain ⟨m, hm, rfl⟩ := Option.map_eq_some_iff.mp h
      exact Or.inr (Or.inr (Or.inl ⟨hkind, by omega, m, hm, rfl⟩))
  · next hkind =>
    split at h
    · cases h
    · next u us =>
      split_ifs at h with hu
      obtain ⟨m, hm, rfl⟩ := Option.map_eq_some_iff.mp h
      exact Or.inr (Or.inr (Or.inr (Or.inl ⟨hkind, u, us, rfl, hu, m, hm, rfl⟩)))
  · split_ifs at h with hkind
    obtain ⟨m, hm, rfl⟩ := Option.map_eq_some_iff.mp h
    exact Or.inr (Or.inr (Or.inr (Or.inr ⟨hkind, m, hm, rfl⟩)))

theorem matchAngleFrom?_lt (h : t.kind = .lt) :
    matchAngleFrom? depth (t :: ts) = (matchAngleFrom? (depth + 1) ts).map (· + 1) := by
  rw [matchAngleFrom?.eq_def]
  simp only [h]

theorem matchAngleFrom?_gt (h : t.kind = .gt) :
    matchAngleFrom? depth (t :: ts) =
      if depth - 1 = 0 then some 0 else (matchAngleFrom? (depth - 1) ts).map (· + 1) := by
  rw [matchAngleFrom?.eq_def]
  simp only [h]

theorem matchAngleFrom?_square {u : Token} (h : t.kind = .lbracket) (hu : u.kind = .rbracket) :
    matchAngleFrom? depth (t :: u :: ts) = (matchAngleFrom? depth ts).map (· + 2) := by
  rw [matchAngleFrom?.eq_def]
  simp only [h, hu, if_true]

theorem matchAngleFrom?_argument (h : t.kind.isTypeArgument) :
    matchAngleFrom? depth (t :: ts) = (matchAngleFrom? depth ts).map (· + 1) := by
  obtain ⟨hlt, hgt, -, hopens, -⟩ := TokenKind.ne_of_isTypeArgument h
  rw [matchAngleFrom?.eq_def]
  simp only
  split
  · next hkind => exact absurd hkind hlt
  · next hkind => exact absurd hkind hgt
  · next hkind => simp [hkind, TokenKind.opens?] at hopens
  · rw [if_pos h]

/-- Type arguments inside type arguments are closed before them: of `depth + d` open `<` the
innermost `depth` are closed first, and the other `d` behind that. -/
theorem matchAngleFrom?_add (hdepth : 1 ≤ depth) (hd : 1 ≤ d)
    (h : matchAngleFrom? (depth + d) ts = some k) :
    ∃ j, matchAngleFrom? depth ts = some j ∧ j + 1 ≤ k ∧
      matchAngleFrom? d (ts.drop (j + 1)) = some (k - (j + 1)) := by
  induction hn : ts.length using Nat.strongRecOn generalizing ts depth k with
  | _ n ih =>
  cases ts with
  | nil => cases h
  | cons t ts =>
    subst hn
    rcases matchAngleFrom?_cases h with ⟨ht, m, hm, rfl⟩ | ⟨-, hsum, -⟩ | ⟨ht, -, m, hm, rfl⟩ |
      ⟨ht, u, us, rfl, hu, m, hm, rfl⟩ | ⟨ht, m, hm, rfl⟩
    · obtain ⟨j, hj, hjm, hrest⟩ := ih ts.length (by simp) (show 1 ≤ depth + 1 by omega)
        (by rw [← hm]; congr 1; omega) rfl
      refine ⟨j + 1, by rw [matchAngleFrom?_lt ht, hj]; rfl, by omega, ?_⟩
      rw [List.drop_succ_cons, hrest]
      congr 1
      omega
    · omega
    · rcases eq_or_ne depth 1 with rfl | hone
      · refine ⟨0, by rw [matchAngleFrom?_gt ht]; rfl, by omega, ?_⟩
        rw [List.drop_succ_cons, List.drop_zero, ← show 1 + d - 1 = d by omega, hm]
        rfl
      · obtain ⟨j, hj, hjm, hrest⟩ := ih ts.length (by simp) (show 1 ≤ depth - 1 by omega)
          (by rw [← hm]; congr 1; omega) rfl
        refine ⟨j + 1, by rw [matchAngleFrom?_gt ht, if_neg (by omega), hj]; rfl, by omega, ?_⟩
        rw [List.drop_succ_cons, hrest]
        congr 1
        omega
    · obtain ⟨j, hj, hjm, hrest⟩ :=
        ih us.length (by simp only [List.length_cons]; omega) hdepth hm rfl
      refine ⟨j + 2, by rw [matchAngleFrom?_square ht hu, hj]; rfl, by omega, ?_⟩
      rw [List.drop_succ_cons, List.drop_succ_cons, hrest]
      congr 1
      omega
    · obtain ⟨j, hj, hjm, hrest⟩ := ih ts.length (by simp) hdepth hm rfl
      refine ⟨j + 1, by rw [matchAngleFrom?_argument ht, hj]; rfl, by omega, ?_⟩
      rw [List.drop_succ_cons, hrest]
      congr 1
      omega

end Angles

/-! ### Grouping -/

/-- The error of a result. -/
def failure? {α : Type} : Except SourceError α → Option SourceError
  | .ok _ => none
  | .error e => some e

section Brackets

variable {t : Token} {ts : List Token} {kind : GroupKind}

theorem isBracket_of_mem_brackets : ∀ b ∈ brackets ts, b.kind.isBracket := by
  intro b hb
  exact (List.mem_filter.mp hb).2

theorem brackets_eof (h : t.kind = .eof) : brackets (t :: ts) = [] := by
  simp [brackets, h]

theorem brackets_cons (h : t.kind.isBracket) : brackets (t :: ts) = t :: brackets ts := by
  have hend : t.kind ≠ .eof := by
    intro heof
    rw [heof] at h
    cases h
  simp [brackets, hend, h]

theorem brackets_opening (h : t.kind.opens? = some kind) : brackets (t :: ts) = t :: brackets ts :=
  brackets_cons (by simp [TokenKind.isBracket, h])

theorem brackets_closing (h : t.kind.closes? = some kind) : brackets (t :: ts) = t :: brackets ts :=
  brackets_cons (by simp [TokenKind.isBracket, h])

theorem brackets_other (hend : t.kind ≠ .eof) (hopens : t.kind.opens? = none)
    (hcloses : t.kind.closes? = none) : brackets (t :: ts) = brackets ts := by
  simp [brackets, hend, TokenKind.isBracket, hopens, hcloses]

end Brackets

namespace Nest

/-- The open groups without their elements, the innermost first. -/
def outline (nest : Nest) : List Frame := nest.frames.map fun f => { f with children := [] }

/-- The brackets that opened groups; a `<` is none. -/
def bracketsOf (fs : List Frame) : List Token := (fs.filter (·.kind != .angle)).map (·.opening)

/-- How open groups wait for the tokens that come, the first of which has number `index`. -/
inductive Due : (index : Nat) → (rest : List Token) → List Frame → Prop
  /-- No angle group is open. -/
  | plain {index : Nat} {rest : List Token} {fs : List Frame}
      (h : ∀ f ∈ fs, f.opening.kind.opens? = some f.kind) : Due index rest fs
  /-- The innermost group is an angle group. -/
  | angle {index k : Nat} {rest : List Token} {f : Frame} {fs : List Frame}
      (hkind : f.kind = .angle)
      (hmatch : matchAngleFrom? 1 rest = some k) (hclose : f.closeAt = index + k)
      (h : Due (f.closeAt + 1) (rest.drop (k + 1)) fs) : Due index rest (f :: fs)
  /-- The innermost group is closed by the next token, as the brackets of an array type are. -/
  | pair {index : Nat} {t : Token} {rest : List Token} {f : Frame} {fs : List Frame}
      (hopens : f.opening.kind.opens? = some f.kind) (hcloses : t.kind.closes? = some f.kind)
      (h : Due (index + 1) rest fs) : Due index (t :: rest) (f :: fs)

variable {nest : Nest} {index : Nat} {t : Token} {f : Frame} {fs : List Frame} {rest : List Token}
  {kind : GroupKind}

theorem outline_add (nest : Nest) (e : Element) : (nest.add e).outline = nest.outline := by
  unfold add outline
  split
  · next h => rw [h]
  · next h => simp [h]

theorem outline_enter (nest : Nest) (hf : f.children = []) :
    (nest.enter f).outline = f :: nest.outline := by
  obtain ⟨kind, opening, closeAt, children⟩ := f
  cases hf
  rfl

theorem outline_leave (nest : Nest) (closing : Token) :
    (nest.leave closing).outline = nest.outline.tail := by
  unfold leave
  split
  · next h => simp [outline, h]
  · next f fs h =>
    rw [outline_add]
    simp [outline, h]

theorem frames_of_outline (h : nest.outline = f :: fs) :
    ∃ g gs, nest.frames = g :: gs ∧ g.kind = f.kind ∧ g.opening = f.opening ∧
      g.closeAt = f.closeAt := by
  obtain ⟨g, gs, hframes, rfl, -⟩ := List.map_eq_cons_iff.mp h
  exact ⟨g, gs, hframes, rfl, rfl, rfl⟩

theorem awaitsAngle_cons (h : nest.outline = f :: fs) (index : Nat) :
    nest.awaitsAngle index = (f.kind == .angle && f.closeAt == index) := by
  obtain ⟨g, gs, hframes, hkind, -, hclose⟩ := frames_of_outline h
  simp only [awaitsAngle, hframes, hkind, hclose]

theorem awaitsAngle_plain (h : ∀ f ∈ nest.outline, f.opening.kind.opens? = some f.kind)
    (index : Nat) :
    nest.awaitsAngle index = false := by
  cases houtline : nest.outline with
  | nil => simp only [awaitsAngle, List.map_eq_nil_iff.mp houtline]
  | cons f fs =>
    have hkind : f.kind ≠ .angle := fun hkind =>
      TokenKind.opens?_ne_angle _ (hkind ▸ h f (by rw [houtline]; exact List.mem_cons_self))
    simp [awaitsAngle_cons houtline, hkind]

theorem leaveWith_nil (h : nest.outline = []) :
    nest.leaveWith kind t = .error (t.error .unmatchedClosing) := by
  simp only [leaveWith, List.map_eq_nil_iff.mp h]

theorem leaveWith_cons (h : nest.outline = f :: fs) :
    nest.leaveWith kind t =
      if f.kind = kind then .ok (nest.leave t)
      else .error (t.error (.mismatchedClosing f.opening.text f.opening.line f.opening.col)) := by
  obtain ⟨g, gs, hframes, hkind, hopening, -⟩ := frames_of_outline h
  simp only [leaveWith, hframes, hkind, hopening]

/-! #### One token -/

theorem step_opening (h : t.kind.opens? = some kind) :
    nest.step index t rest = .ok (nest.enter { kind, opening := t }) := by
  simp only [step, h]

theorem step_closing (h : t.kind.closes? = some kind) :
    nest.step index t rest = nest.leaveWith kind t := by
  have hlt : t.kind ≠ .lt := by
    intro hkind
    rw [hkind] at h
    cases h
  have hgt : t.kind ≠ .gt := by
    intro hkind
    rw [hkind] at h
    cases h
  simp [step, TokenKind.opens?_of_closes? h, hlt, hgt, h]

theorem step_lt {k : Nat} (h : t.kind = .lt) (hmatch : matchAngleFrom? 1 rest = some k) :
    nest.step index t rest =
      .ok (nest.enter { kind := .angle, opening := t, closeAt := index + 1 + k }) := by
  have hk : matchAngle? (t :: rest) = some (k + 1) := by
    rw [matchAngle?, matchAngleFrom?_lt h, Int.zero_add, hmatch]
    rfl
  simp only [step, h, TokenKind.opens?, if_true, hk]
  congr 3
  omega

theorem step_gt (h : t.kind = .gt) (hawaits : nest.awaitsAngle index) :
    nest.step index t rest = .ok (nest.leave t) := by
  simp [step, h, TokenKind.opens?, hawaits]

theorem step_other (hopens : t.kind.opens? = none) (hcloses : t.kind.closes? = none)
    (hlt : t.kind = .lt → matchAngleFrom? 1 rest = none)
    (hgt : t.kind = .gt → nest.awaitsAngle index = false) :
    nest.step index t rest = .ok (nest.add (.token t)) := by
  have hk : (if t.kind = .lt then matchAngle? (t :: rest) else none) = none := by
    split_ifs with h
    · rw [matchAngle?, matchAngleFrom?_lt h, Int.zero_add, hlt h]
      rfl
    · rfl
  have hawaits : (t.kind = .gt && nest.awaitsAngle index) = false := by
    by_cases h : t.kind = .gt
    · simp [hgt h]
    · simp [h]
  simp only [step, hopens, hk, hawaits, hcloses]
  rfl

theorem bracketsOf_bracket (h : f.opening.kind.opens? = some f.kind) :
    bracketsOf (f :: fs) = f.opening :: bracketsOf fs := by
  have hkind : f.kind ≠ .angle := fun hkind => TokenKind.opens?_ne_angle _ (hkind ▸ h)
  simp [bracketsOf, hkind]

theorem bracketsOf_angle (h : f.kind = .angle) : bracketsOf (f :: fs) = bracketsOf fs := by
  simp [bracketsOf, h]

/-- What one token does, as far as brackets go: the groups wait for the tokens behind it and the
error to come is the same, or grouping fails with just that error. -/
inductive Steps (nest : Nest) (index : Nat) (t : Token) (rest : List Token) : Prop
  | ok {next : Nest} (hstep : nest.step index t rest = .ok next)
      (hdue : Due (index + 1) rest next.outline)
      (hsame : bracketError? (bracketsOf nest.outline) (brackets (t :: rest)) =
        bracketError? (bracketsOf next.outline) (brackets rest))
  | error {e : SourceError} (hstep : nest.step index t rest = .error e)
      (herror : bracketError? (bracketsOf nest.outline) (brackets (t :: rest)) = some e)

namespace Steps

theorem opening (hopens : t.kind.opens? = some kind)
    (hdue : Due (index + 1) rest ({ kind, opening := t } :: nest.outline)) :
    Steps nest index t rest := by
  refine .ok (step_opening hopens) (by rwa [outline_enter _ rfl]) ?_
  rw [outline_enter _ rfl, bracketsOf_bracket hopens, brackets_opening hopens,
    bracketError?_opening (TokenKind.closes?_of_opens? hopens)]

theorem closing (houtline : nest.outline = f :: fs) (hopens : f.opening.kind.opens? = some f.kind)
    (hcloses : t.kind.closes? = some f.kind) (hdue : Due (index + 1) rest fs) :
    Steps nest index t rest := by
  have htail : (nest.leave t).outline = fs := by rw [outline_leave, houtline, List.tail_cons]
  have hstep : nest.step index t rest = .ok (nest.leave t) := by
    rw [step_closing hcloses, leaveWith_cons houtline, if_pos rfl]
  refine .ok hstep (by rwa [htail]) ?_
  rw [htail, houtline, bracketsOf_bracket hopens, brackets_closing hcloses,
    bracketError?_closing hcloses, if_pos hopens]

theorem angle {k : Nat} (ht : t.kind = .lt) (hmatch : matchAngleFrom? 1 rest = some k)
    (hdue : Due (index + 1 + k + 1) (rest.drop (k + 1)) nest.outline) :
    Steps nest index t rest := by
  refine .ok (step_lt ht hmatch) ?_ ?_
  · rw [outline_enter _ rfl]
    exact .angle rfl hmatch rfl hdue
  · rw [outline_enter _ rfl, bracketsOf_angle rfl, brackets_other (by simp [ht]) (by rw [ht]; rfl)
      (by rw [ht]; rfl)]

theorem token (hend : t.kind ≠ .eof) (hopens : t.kind.opens? = none)
    (hcloses : t.kind.closes? = none) (hlt : t.kind = .lt → matchAngleFrom? 1 rest = none)
    (hgt : t.kind = .gt → nest.awaitsAngle index = false)
    (hdue : Due (index + 1) rest nest.outline) :
    Steps nest index t rest := by
  refine .ok (step_other hopens hcloses hlt hgt) (by rwa [outline_add]) ?_
  rw [outline_add, brackets_other hend hopens hcloses]

/-- While no angle group is open, a closing bracket fails just where the brackets are at fault. -/
theorem closing_plain (h : ∀ f ∈ nest.outline, f.opening.kind.opens? = some f.kind)
    (hcloses : t.kind.closes? = some kind) : Steps nest index t rest := by
  cases houtline : nest.outline with
  | nil =>
    refine .error (by rw [step_closing hcloses, leaveWith_nil houtline]) ?_
    rw [houtline, brackets_closing hcloses]
    exact bracketError?_unmatched hcloses
  | cons f fs =>
    rw [houtline] at h
    obtain ⟨hf, hfs⟩ := List.forall_mem_cons.mp h
    by_cases hkind : f.kind = kind
    · exact closing houtline hf (by rw [hcloses, hkind]) (.plain hfs)
    · refine .error (by rw [step_closing hcloses, leaveWith_cons houtline, if_neg hkind]) ?_
      rw [houtline, bracketsOf_bracket hf, brackets_closing hcloses, bracketError?_closing hcloses,
        if_neg]
      rw [hf]
      exact fun h => hkind (Option.some.inj h)

end Steps

theorem steps_of_plain (h : ∀ f ∈ nest.outline, f.opening.kind.opens? = some f.kind)
    (hend : t.kind ≠ .eof) : Steps nest index t rest := by
  cases hopens : t.kind.opens? with
  | some kind => exact .opening hopens (.plain (List.forall_mem_cons.mpr ⟨hopens, h⟩))
  | none =>
  cases hcloses : t.kind.closes? with
  | some kind => exact .closing_plain h hcloses
  | none =>
  by_cases hmatch : t.kind = .lt ∧ ∃ k, matchAngleFrom? 1 rest = some k
  · obtain ⟨ht, k, hk⟩ := hmatch
    exact .angle ht hk (.plain h)
  · refine .token hend hopens hcloses (fun ht => ?_) (fun _ => awaitsAngle_plain h index) (.plain h)
    exact Option.eq_none_iff_forall_not_mem.mpr fun k hk => hmatch ⟨ht, k, hk⟩

/-- Inside an angle group: what may stand there keeps the groups waiting, and its own `>` closes
it. -/
theorem steps_of_angle {k : Nat} (houtline : nest.outline = f :: fs) (hkind : f.kind = .angle)
    (hmatch : matchAngleFrom? 1 (t :: rest) = some k) (hclose : f.closeAt = index + k)
    (h : Due (f.closeAt + 1) ((t :: rest).drop (k + 1)) fs) : Steps nest index t rest := by
  rcases matchAngleFrom?_cases hmatch with ⟨ht, m, hm, rfl⟩ | ⟨ht, -, rfl⟩ | ⟨-, hone, -⟩ |
    ⟨ht, u, us, rfl, hu, m, hm, rfl⟩ | ⟨ht, m, hm, rfl⟩
  · -- the inner type arguments end before the outer ones
    obtain ⟨j, hj, hjm, hrest⟩ := matchAngleFrom?_add Int.le_rfl Int.le_rfl hm
    refine .angle ht hj ?_
    rw [houtline]
    refine .angle hkind hrest (by omega) ?_
    rw [List.drop_drop, show j + 1 + (m - (j + 1) + 1) = m + 1 by omega]
    exact h
  · have hawaits : nest.awaitsAngle index := by simp [awaitsAngle_cons houtline, hkind, hclose]
    have htail : (nest.leave t).outline = fs := by rw [outline_leave, houtline, List.tail_cons]
    rw [hclose] at h
    refine .ok (step_gt ht hawaits) (by rw [htail]; exact h) ?_
    rw [htail, houtline, bracketsOf_angle hkind, brackets_other (by simp [ht]) (by rw [ht]; rfl)
      (by rw [ht]; rfl)]
  · exact absurd rfl hone
  · have hopens : t.kind.opens? = some .square := by rw [ht]; rfl
    have hcloses : u.kind.closes? = some .square := by rw [hu]; rfl
    refine .opening hopens (.pair hopens hcloses ?_)
    rw [houtline]
    exact .angle hkind hm (by omega) h
  · obtain ⟨hlt, hgt, hend, hopens, hcloses⟩ := TokenKind.ne_of_isTypeArgument ht
    refine .token hend hopens hcloses (fun h => absurd h hlt) (fun h => absurd h hgt) ?_
    rw [houtline]
    exact .angle hkind hm (by omega) h

theorem Due.step (h : Due index (t :: rest) nest.outline) (hend : t.kind ≠ .eof) :
    Steps nest index t rest := by
  generalize houtline : nest.outline = fs at h
  generalize htokens : t :: rest = tokens at h
  cases h with
  | plain h => exact steps_of_plain (houtline ▸ h) hend
  | angle hkind hmatch hclose h =>
    subst htokens
    exact steps_of_angle houtline hkind hmatch hclose h
  | pair hopens hcloses h =>
    cases htokens
    exact .closing houtline hopens hcloses h

/-! #### All tokens -/

theorem failure?_finish (h : ∀ f ∈ nest.outline, f.opening.kind.opens? = some f.kind) :
    failure? (nest.finish t) = bracketError? (bracketsOf nest.outline) [] := by
  cases houtline : nest.outline with
  | nil =>
    rw [finish, List.map_eq_nil_iff.mp houtline]
    rfl
  | cons f fs =>
    obtain ⟨g, gs, hframes, -, hopening, -⟩ := frames_of_outline houtline
    rw [bracketsOf_bracket (h f (by rw [houtline]; exact List.mem_cons_self)), finish, hframes]
    simp only [hopening]
    rfl

theorem Due.plain_of_end (h : Due index rest fs) (hend : ∀ t ∈ rest.head?, t.kind = .eof) :
    ∀ f ∈ fs, f.opening.kind.opens? = some f.kind := by
  cases h with
  | plain h => exact h
  | angle hkind hmatch hclose h =>
    cases rest with
    | nil => cases hmatch
    | cons t ts =>
      have ht : t.kind = .eof := hend t rfl
      rcases matchAngleFrom?_cases hmatch with ⟨h, -⟩ | ⟨h, -⟩ | ⟨h, -⟩ | ⟨h, -⟩ | ⟨h, -⟩ <;>
        rw [ht] at h <;> cases h
  | @pair _ t _ _ _ hopens hcloses h =>
    rw [hend t rfl] at hcloses
    cases hcloses

theorem failure?_run (h : Due index rest nest.outline) :
    failure? (nest.run index rest) = bracketError? (bracketsOf nest.outline) (brackets rest) := by
  induction rest generalizing nest index with
  | nil => exact failure?_finish (h.plain_of_end (by simp))
  | cons t ts ih =>
    unfold run
    split_ifs with hend
    · rw [brackets_eof hend]
      exact failure?_finish (h.plain_of_end (by simpa using hend))
    · cases h.step hend with
      | ok hstep hdue hsame =>
        rw [hstep, hsame]
        exact ih hdue
      | error hstep herror =>
        rw [hstep, herror]
        rfl

end Nest

theorem failure?_ofTokens (tokens : List Token) :
    failure? (Group.ofTokens tokens) = bracketError? [] (brackets tokens) :=
  Nest.failure?_run (.plain (by simp [Nest.outline]))

variable {e : SourceError} {bs : List Token}

theorem ofTokens_eq_error_iff {tokens : List Token} :
    Group.ofTokens tokens = .error e ↔ bracketError? [] (brackets tokens) = some e := by
  rw [← failure?_ofTokens]
  cases Group.ofTokens tokens <;> simp [failure?]

theorem BracketFault.kind_eq (h : BracketFault bs e) :
    e.cause.kind = .bracket := by
  cases h <;> rfl

theorem bracketFault_iff (hbs : ∀ b ∈ bs, b.kind.isBracket) :
    BracketFault bs e ↔ bracketError? [] bs = some e := by
  refine ⟨bracketError?_of_fault, fun h => ?_⟩
  rcases fault_or_wellNested (.closed .nil) hbs with ⟨e', he', hfault⟩ | ⟨hnone, -⟩
  · cases he'.symm.trans h
    exact hfault
  · cases hnone.symm.trans h

theorem wellNested_iff (hbs : ∀ b ∈ bs, b.kind.isBracket) :
    WellNested bs ↔ bracketError? [] bs = none := by
  refine ⟨bracketError?_of_wellNested, fun h => ?_⟩
  rcases fault_or_wellNested (.closed .nil) hbs with ⟨e, he, -⟩ | ⟨-, hnested⟩
  · cases h.symm.trans he
  · exact hnested

/-- **Unbalanced brackets.** Grouping gives the error of unbalanced brackets exactly when the curly,
round and square brackets in front of the end are not well nested, and a root group otherwise; `<`
and `>` play no part in it. The error is that of the first closing bracket that does not fit the
innermost open one or has none, or, when all closing brackets fit, that of the innermost bracket
left open. -/
theorem unbalanced_iff_not_wellNested (tokens : List Token) :
    ((∃ e, Group.ofTokens tokens = .error e ∧ e.cause.kind = .bracket) ↔
      ¬ WellNested (brackets tokens)) ∧
      ((∃ root, Group.ofTokens tokens = .ok root) ↔ WellNested (brackets tokens)) ∧
      ∀ e, Group.ofTokens tokens = .error e ↔ BracketFault (brackets tokens) e := by
  have hbs : ∀ b ∈ brackets tokens, b.kind.isBracket := isBracket_of_mem_brackets
  have herror : ∀ e, Group.ofTokens tokens = .error e ↔ BracketFault (brackets tokens) e := fun e =>
    ofTokens_eq_error_iff.trans (bracketFault_iff hbs).symm
  refine ⟨?_, ?_, herror⟩
  · rw [wellNested_iff hbs, ← failure?_ofTokens]
    constructor
    · rintro ⟨e, he, -⟩
      simp [he, failure?]
    · intro h
      cases hgroup : Group.ofTokens tokens with
      | ok root => simp [hgroup, failure?] at h
      | error e => exact ⟨e, rfl, ((herror e).mp hgroup).kind_eq⟩
  · rw [wellNested_iff hbs, ← failure?_ofTokens]
    cases Group.ofTokens tokens <;> simp [failure?]

end Unnest
