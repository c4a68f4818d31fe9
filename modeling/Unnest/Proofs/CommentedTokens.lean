import Unnest.Proofs.Nesting
import Unnest.Proofs.Shadows
import Mathlib

/-!
# Grouping and comments

The tree of a list of tokens without its comments is the tree of the tokens with the comments taken
out of it, with one exception: the `[]` of an array type. Inside type arguments the closing bracket
has to come directly behind the opening one, so a comment between them makes the `<` an operator,
and without the comment it opens a group.

A `Nest` over the tokens and one over the tokens without comments go side by side
(`Nest.uncommented`); the number of a token among the latter is counted by `rank`.

* `Nest.step_uncommented`, `Nest.run_uncommented`: one token, and all of them;
* `ofTokens_uncommented_iff`: when the two trees are the same.
-/

namespace Unnest

def uncommentedTokens (tokens : List Token) : List Token := tokens.filter (·.kind != .comment)

/-- Whether somewhere a comment stands directly behind a `[`. -/
def hasCommentedBracket : List Token → Bool
  | t :: u :: ts => (t.kind == .lbracket && u.kind == .comment) || hasCommentedBracket (u :: ts)
  | _ => false

/-- The tokens `args` would be type arguments without the comments: they stand between a `<` in
front of the end and the `>` that closes it then. -/
inductive AngleArguments : (tokens args : List Token) → Prop
  | intro {front args rest : List Token} {opening closing : Token}
      (hfront : ∀ t ∈ front, t.kind ≠ .eof)
      (hopening : opening.kind = .lt) (hclosing : closing.kind = .gt)
      (hmatch : matchAngle? (uncommentedTokens (opening :: (args ++ closing :: rest))) =
        some ((uncommentedTokens args).length + 1)) :
      AngleArguments (front ++ opening :: (args ++ closing :: rest)) args

/-! ### Type arguments -/

section Tokens

variable {t u : Token} {ts us : List Token}

@[simp]
theorem uncommentedTokens_nil : uncommentedTokens [] = [] := rfl

theorem uncommentedTokens_comment (h : t.kind = .comment) :
    uncommentedTokens (t :: ts) = uncommentedTokens ts := by
  simp [uncommentedTokens, h]

theorem uncommentedTokens_cons (h : t.kind ≠ .comment) :
    uncommentedTokens (t :: ts) = t :: uncommentedTokens ts := by
  simp [uncommentedTokens, h]

theorem uncommentedTokens_append (ts us : List Token) :
    uncommentedTokens (ts ++ us) = uncommentedTokens ts ++ uncommentedTokens us :=
  List.filter_append ..

theorem hasCommentedBracket_cons (h : t.kind ≠ .lbracket) :
    hasCommentedBracket (t :: ts) = hasCommentedBracket ts := by
  cases ts with
  | nil => rfl
  | cons u ts => simp [hasCommentedBracket, h]

theorem hasCommentedBracket_bracket (h : t.kind = .lbracket) :
    hasCommentedBracket (t :: u :: ts) = (u.kind == .comment || hasCommentedBracket (u :: ts)) := by
  simp [hasCommentedBracket, h]

end Tokens

section Angles

variable {depth : Int} {t u c : Token} {ts args rest : List Token} {k : Nat}

theorem matchAngleFrom?_other (hlt : t.kind ≠ .lt) (hgt : t.kind ≠ .gt)
    (hbracket : t.kind ≠ .lbracket) (h : t.kind.isTypeArgument = false) :
    matchAngleFrom? depth (t :: ts) = none := by
  refine Option.eq_none_iff_forall_not_mem.mpr fun k hk => ?_
  rcases matchAngleFrom?_cases hk with ⟨ht, -⟩ | ⟨ht, -⟩ | ⟨ht, -⟩ | ⟨ht, -⟩ | ⟨ht, -⟩
  · exact hlt ht
  · exact hgt ht
  · exact hgt ht
  · exact hbracket ht
  · simp [h] at ht

theorem matchAngleFrom?_bracket (ht : t.kind = .lbracket) (hu : u.kind ≠ .rbracket) :
    matchAngleFrom? depth (t :: u :: ts) = none := by
  rw [matchAngleFrom?.eq_def]
  simp only [ht, if_neg hu]

theorem getElem?_of_matchAngleFrom? (h : matchAngleFrom? depth ts = some k) :
    ∃ c, ts[k]? = some c ∧ c.kind = .gt := by
  induction hn : ts.length using Nat.strongRecOn generalizing ts depth k with
  | _ n ih =>
  cases ts with
  | nil => cases h
  | cons t ts =>
    subst hn
    rcases matchAngleFrom?_cases h with ⟨-, m, hm, rfl⟩ | ⟨ht, -, rfl⟩ | ⟨-, -, m, hm, rfl⟩ |
      ⟨-, u, us, rfl, -, m, hm, rfl⟩ | ⟨-, m, hm, rfl⟩
    · simpa only [List.getElem?_cons_succ] using ih ts.length (by simp) hm rfl
    · exact ⟨t, rfl, ht⟩
    · simpa only [List.getElem?_cons_succ] using ih ts.length (by simp) hm rfl
    · simpa only [List.getElem?_cons_succ]
        using ih us.length (by simp only [List.length_cons]; omega) hm rfl
    · simpa only [List.getElem?_cons_succ] using ih ts.length (by simp) hm rfl

/-- **Type arguments** end at the same `>` with and without comments, except that a comment must not
stand behind a `[` in them. -/
theorem matchAngleFrom?_uncommented_iff (hc : c.kind = .gt) :
    matchAngleFrom? depth (args ++ c :: rest) = some args.length ↔
      matchAngleFrom? depth (uncommentedTokens args ++ c :: uncommentedTokens rest) =
          some (uncommentedTokens args).length ∧
        hasCommentedBracket args = false := by
  induction hn : args.length using Nat.strongRecOn generalizing args depth with
  | _ n ih =>
  subst hn
  cases args with
  | nil => simp [matchAngleFrom?_gt hc, hasCommentedBracket]
  | cons t args =>
    have hshort : args.length < (t :: args).length := by simp
    by_cases hcomment : t.kind = .comment
    · rw [List.cons_append, matchAngleFrom?_argument (by rw [hcomment]; rfl),
        uncommentedTokens_comment hcomment, hasCommentedBracket_cons (by simp [hcomment]),
        ← ih _ hshort rfl]
      simp
    rw [uncommentedTokens_cons hcomment, List.cons_append, List.cons_append]
    by_cases hlt : t.kind = .lt
    · rw [matchAngleFrom?_lt hlt, matchAngleFrom?_lt hlt, hasCommentedBracket_cons (by simp [hlt])]
      simpa using ih _ hshort rfl
    by_cases hgt : t.kind = .gt
    · rw [matchAngleFrom?_gt hgt, matchAngleFrom?_gt hgt, hasCommentedBracket_cons (by simp [hgt])]
      split_ifs
      · simp
      · simpa using ih _ hshort rfl
    by_cases hbracket : t.kind = .lbracket
    · cases args with
      | nil =>
        have hne : c.kind ≠ .rbracket := by simp [hc]
        simp [matchAngleFrom?_bracket hbracket hne]
      | cons u args =>
        rw [hasCommentedBracket_bracket hbracket, List.cons_append]
        by_cases hu : u.kind = .comment
        · simp [hu, matchAngleFrom?_bracket hbracket (u := u) (by simp [hu])]
        rw [uncommentedTokens_cons hu, List.cons_append]
        by_cases hu' : u.kind = .rbracket
        · rw [matchAngleFrom?_square hbracket hu', matchAngleFrom?_square hbracket hu',
            hasCommentedBracket_cons (by simp [hu'])]
          simpa [hu] using ih args.length (by simp only [List.length_cons]; omega) rfl
        · simp [matchAngleFrom?_bracket hbracket hu']
    by_cases harg : t.kind.isTypeArgument = true
    · rw [matchAngleFrom?_argument harg, matchAngleFrom?_argument harg,
        hasCommentedBracket_cons hbracket]
      simpa using ih _ hshort rfl
    · rw [matchAngleFrom?_other hlt hgt hbracket (by simpa using harg),
        matchAngleFrom?_other hlt hgt hbracket (by simpa using harg)]
      simp

end Angles

/-! ### Numbers of tokens -/

/-- The number that the token with number `i` has when the comments are gone. -/
def rank (tokens : List Token) (i : Nat) : Nat := (uncommentedTokens (tokens.take i)).length

section Ranks

variable {tokens done rest : List Token} {t u : Token} {i j : Nat}

theorem rank_length_append (done rest : List Token) :
    rank (done ++ rest) done.length = (uncommentedTokens done).length := by
  rw [rank, List.take_left]

theorem rank_append (done rest : List Token) (n : Nat) :
    rank (done ++ rest) (done.length + n) = (uncommentedTokens done).length + rank rest n := by
  rw [rank, List.take_length_add_append, uncommentedTokens_append, List.length_append, rank]

theorem rank_lt (h : tokens[i]? = some t) (ht : t.kind ≠ .comment) (hij : i < j) :
    rank tokens i < rank tokens j := by
  obtain ⟨hi, rfl⟩ := List.getElem?_eq_some_iff.mp h
  have htake : tokens.take (i + 1) <+: tokens.take j := List.take_prefix_take_left (by omega)
  obtain ⟨more, hmore⟩ := htake
  have hcount : rank tokens j = rank tokens i + 1 + (uncommentedTokens more).length := by
    rw [rank, ← hmore, List.take_succ_eq_append_getElem hi, uncommentedTokens_append,
      uncommentedTokens_append, uncommentedTokens_cons ht, List.length_append, List.length_append]
    rfl
  omega

theorem rank_inj (hi : tokens[i]? = some t) (ht : t.kind ≠ .comment) (hj : tokens[j]? = some u)
    (hu : u.kind ≠ .comment) : rank tokens i = rank tokens j ↔ i = j := by
  refine ⟨fun h => ?_, fun h => h ▸ rfl⟩
  rcases Nat.lt_trichotomy i j with hij | hij | hij
  · exact absurd h (rank_lt hi ht hij).ne
  · exact hij
  · exact absurd h (rank_lt hj hu hij).ne'

/-- A token that stays, with the tokens in front of it. -/
theorem exists_of_getElem?_uncommentedTokens (h : (uncommentedTokens tokens)[i]? = some t) :
    ∃ front rest, tokens = front ++ t :: rest ∧ (uncommentedTokens front).length = i := by
  induction tokens generalizing i with
  | nil => cases h
  | cons u ts ih =>
    by_cases hu : u.kind = .comment
    · rw [uncommentedTokens_comment hu] at h
      obtain ⟨front, rest, rfl, hfront⟩ := ih h
      exact ⟨u :: front, rest, rfl, by rw [uncommentedTokens_comment hu, hfront]⟩
    · rw [uncommentedTokens_cons hu] at h
      cases i with
      | zero =>
        cases h
        exact ⟨[], ts, rfl, rfl⟩
      | succ i =>
        obtain ⟨front, rest, rfl, hfront⟩ := ih h
        exact ⟨u :: front, rest, rfl, by rw [uncommentedTokens_cons hu, List.length_cons, hfront]⟩

theorem matchAngleFrom?_uncommented {depth : Int} {k : Nat}
    (h : matchAngleFrom? depth tokens = some k) :
    matchAngleFrom? depth (uncommentedTokens tokens) = some (rank tokens k) ∧
      hasCommentedBracket (tokens.take k) = false := by
  obtain ⟨c, hc, hckind⟩ := getElem?_of_matchAngleFrom? h
  obtain ⟨hk, rfl⟩ := List.getElem?_eq_some_iff.mp hc
  have hsplit : tokens = tokens.take k ++ tokens[k] :: tokens.drop (k + 1) := by
    rw [← List.drop_eq_getElem_cons hk, List.take_append_drop]
  have hlength : (tokens.take k).length = k := List.length_take_of_le hk.le
  have huncommented : uncommentedTokens tokens =
      uncommentedTokens (tokens.take k) ++ tokens[k] ::
      uncommentedTokens (tokens.drop (k + 1)) := by
    conv_lhs => rw [hsplit, uncommentedTokens_append, uncommentedTokens_cons (by simp [hckind])]
  rw [huncommented]
  refine (matchAngleFrom?_uncommented_iff hckind).mp ?_
  rw [← hsplit, hlength, h]

end Ranks

/-! ### Nests -/

namespace Nest

/-- An open group over the tokens without comments. -/
def frameUncommented (tokens : List Token) (f : Frame) : Frame :=
  { f with closeAt := rank tokens f.closeAt, children := uncommentedAll f.children }

/-- The nest over the tokens without comments. -/
def uncommented (tokens : List Token) (nest : Nest) : Nest where
  frames := nest.frames.map (frameUncommented tokens)
  roots := uncommentedAll nest.roots

variable {tokens done rest : List Token} {nest : Nest} {t : Token} {index : Nat}

theorem uncommentedAll_reverse (es : List Element) :
    uncommentedAll es.reverse = (uncommentedAll es).reverse := by
  simp only [uncommentedAll_eq, List.filter_reverse, List.map_reverse]

theorem uncommented_add_comment (nest : Nest) (ht : t.kind = .comment) :
    (nest.add (.token t)).uncommented tokens = nest.uncommented tokens := by
  have hcomment : (Element.token t).isComment = true := by simp [Element.is, ht]
  rcases nest with ⟨_ | ⟨f, fs⟩, roots⟩
  · simp [add, uncommented, uncommentedAll_comment hcomment]
  · simp [add, uncommented, frameUncommented, uncommentedAll_comment hcomment]

theorem uncommented_add (nest : Nest) {e : Element} (he : e.isComment = false) :
    (nest.add e).uncommented tokens = (nest.uncommented tokens).add e.uncommented := by
  rcases nest with ⟨_ | ⟨f, fs⟩, roots⟩
  · simp [add, uncommented, uncommentedAll_cons he]
  · simp [add, uncommented, frameUncommented, uncommentedAll_cons he]

theorem uncommented_enter (nest : Nest) (f : Frame) :
    (nest.enter f).uncommented tokens =
    (nest.uncommented tokens).enter (frameUncommented tokens f) := rfl

theorem uncommented_leave (nest : Nest) (t : Token) :
    (nest.leave t).uncommented tokens = (nest.uncommented tokens).leave t := by
  rcases nest with ⟨_ | ⟨f, fs⟩, roots⟩
  · rfl
  · unfold leave
    rw [uncommented_add _ rfl, Element.uncommented_group]
    simp only [uncommented, List.map_cons, Group.uncommented, frameUncommented,
      uncommentedAll_reverse]

theorem leaveWith_uncommented (nest : Nest) (kind : GroupKind) (t : Token) :
    (nest.uncommented tokens).leaveWith kind t =
    (nest.leaveWith kind t).map (uncommented tokens) := by
  have hleave : (nest.leave t).uncommented tokens = _ := uncommented_leave nest t
  rcases nest with ⟨_ | ⟨f, fs⟩, roots⟩
  · rfl
  · simp only [leaveWith, uncommented, List.map_cons, frameUncommented]
    split_ifs
    · exact congrArg Except.ok hleave.symm
    · rfl

theorem finish_uncommented (nest : Nest) (closing : Token) :
    (nest.uncommented tokens).finish closing = (nest.finish closing).map Group.uncommented := by
  unfold finish
  cases hframes : nest.frames with
  | nil => simp [uncommented, hframes, Except.map, Group.uncommented, uncommentedAll_reverse]
  | cons f fs => simp [uncommented, hframes, Except.map, frameUncommented]

/-! #### One token -/

theorem awaitsAngle_uncommented (h : Grouped tokens done nest) (ht : tokens[done.length]? = some t)
    (hgt : t.kind = .gt) :
    (nest.uncommented tokens).awaitsAngle (rank tokens done.length) =
    nest.awaitsAngle done.length := by
  rcases hframes : nest.frames with _ | ⟨f, fs⟩
  · simp [awaitsAngle, uncommented, hframes]
  · simp only [awaitsAngle, uncommented, hframes, List.map_cons, frameUncommented]
    by_cases hkind : f.kind = .angle
    · have hown := h.opened (flattenFrames nest.roots fs).length { f with children := [] }
        (by simp [numbered, hframes, numberFrames])
      obtain ⟨-, d, ⟨-, hd⟩, hclose⟩ := hown.resolve_right fun hopens =>
        TokenKind.opens?_ne_angle _ (hkind ▸ hopens)
      obtain ⟨c, hc, hckind⟩ := getElem?_of_matchAngleFrom? hd
      rw [List.getElem?_drop, ← hclose] at hc
      have hrank := rank_inj hc (by simp [hckind]) ht (by simp [hgt])
      simp [hkind, hrank]
    · rw [beq_eq_false_iff_ne.mpr hkind, Bool.false_and, Bool.false_and]

/-- **One token** that is no comment does the same to both nests, if a `<` opens a group in both or
in neither. -/
theorem step_uncommented (h : Grouped tokens done nest) (htokens : tokens = done ++ t :: rest)
    (ht : t.kind ≠ .comment)
    (hangle : t.kind = .lt → matchAngleFrom? 1 (uncommentedTokens rest) =
      (matchAngleFrom? 1 rest).map (rank rest)) :
    (nest.uncommented tokens).step (rank tokens done.length) t (uncommentedTokens rest) =
      (nest.step done.length t rest).map (uncommented tokens) := by
  have hget : tokens[done.length]? = some t := by simp [htokens]
  have hstays : (Element.token t).isComment = false := by simpa [Element.is] using ht
  cases hopens : t.kind.opens? with
  | some kind =>
    rw [step_opening hopens, step_opening hopens]
    simp [Except.map, uncommented_enter, frameUncommented, rank]
  | none =>
  cases hcloses : t.kind.closes? with
  | some kind => rw [step_closing hcloses, step_closing hcloses, leaveWith_uncommented]
  | none =>
  by_cases hlt : t.kind = .lt
  · have hgt : t.kind ≠ .gt := by simp [hlt]
    cases hmatch : matchAngleFrom? 1 rest with
    | none =>
      have hmatch' := hangle hlt
      rw [hmatch, Option.map_none] at hmatch'
      rw [step_other hopens hcloses (fun _ => hmatch) (fun h => absurd h hgt),
        step_other hopens hcloses (fun _ => hmatch') (fun h => absurd h hgt)]
      exact congrArg Except.ok (uncommented_add nest hstays).symm
    | some k =>
      have hmatch' := hangle hlt
      rw [hmatch, Option.map_some] at hmatch'
      have hrank : rank tokens (done.length + 1 + k) = rank tokens done.length + 1 +
          rank rest k := by
        rw [htokens, Nat.add_assoc, rank_append, rank_length_append, Nat.add_comm 1 k, rank,
          List.take_succ_cons, uncommentedTokens_cons ht, List.length_cons, rank]
        omega
      rw [step_lt hlt hmatch, step_lt hlt hmatch']
      simp [Except.map, uncommented_enter, frameUncommented, hrank]
  · by_cases hawaits : t.kind = .gt ∧ nest.awaitsAngle done.length = true
    · obtain ⟨hgt, hawaits⟩ := hawaits
      rw [step_gt hgt hawaits, step_gt hgt (by rw [awaitsAngle_uncommented h hget hgt, hawaits])]
      exact congrArg Except.ok (uncommented_leave nest t).symm
    · have hgt : t.kind = .gt → nest.awaitsAngle done.length = false :=
        fun hgt => by simpa [hgt] using hawaits
      rw [step_other hopens hcloses (fun h => absurd h hlt) hgt,
        step_other hopens hcloses (fun h => absurd h hlt)
          fun hk => by rw [awaitsAngle_uncommented h hget hk, hgt hk]]
      exact congrArg Except.ok (uncommented_add nest hstays).symm

/-! #### All tokens -/

/-- With and without comments the same `<` open groups, up to the same `>`. -/
def AnglesAgree (tokens : List Token) : Prop :=
  ∀ done t rest, tokens = done ++ t :: rest → (∀ u ∈ done, u.kind ≠ .eof) → t.kind = .lt →
    matchAngleFrom? 1 (uncommentedTokens rest) = (matchAngleFrom? 1 rest).map (rank rest)

/-- **A whole list of tokens** gives the tree without comments. -/
theorem run_uncommented (hagree : AnglesAgree tokens) (h : Grouped tokens done nest)
    (htokens : tokens = done ++ rest) (hdone : ∀ u ∈ done, u.kind ≠ .eof) :
    (nest.uncommented tokens).run (rank tokens done.length) (uncommentedTokens rest) =
      (nest.run done.length rest).map Group.uncommented := by
  induction rest generalizing done nest with
  | nil => exact finish_uncommented nest {}
  | cons t rest ih =>
    have htokens' : tokens = (done ++ [t]) ++ rest := by simp [htokens]
    have hlength : (done ++ [t]).length = done.length + 1 := by simp
    have hbefore := rank_length_append done (t :: rest)
    have hbehind := rank_length_append (done ++ [t]) rest
    rw [← htokens] at hbefore
    rw [← htokens'] at hbehind
    by_cases hend : t.kind = .eof
    · rw [uncommentedTokens_cons (by simp [hend]), run, run, if_pos hend, if_pos hend]
      exact finish_uncommented nest t
    have hdone' : ∀ u ∈ done ++ [t], u.kind ≠ .eof := by
      intro u hu
      rcases List.mem_append.mp hu with hu | hu
      · exact hdone u hu
      · exact List.mem_singleton.mp hu ▸ hend
    rw [run.eq_2 nest, if_neg hend]
    by_cases ht : t.kind = .comment
    · have hadd : nest.step done.length t rest = .ok (nest.add (.token t)) :=
        step_other (by rw [ht]; rfl) (by rw [ht]; rfl) (fun h => by rw [ht] at h; cases h)
          (fun h => by rw [ht] at h; cases h)
      have hrank : rank tokens (done ++ [t]).length = rank tokens done.length := by
        rw [hbehind, hbefore, uncommentedTokens_append, uncommentedTokens_comment ht,
          uncommentedTokens_nil, List.append_nil]
      have hrest := ih (h.step htokens hadd) htokens' hdone'
      rw [hrank, hlength, uncommented_add_comment nest ht] at hrest
      rw [uncommentedTokens_comment ht, hadd]
      exact hrest
    · have hstep := step_uncommented h htokens ht (hagree done t rest htokens hdone)
      have hrank : rank tokens (done ++ [t]).length = rank tokens done.length + 1 := by
        rw [hbehind, hbefore, uncommentedTokens_append, uncommentedTokens_cons ht,
          List.length_append]
        rfl
      rw [uncommentedTokens_cons ht, run, if_neg hend, hstep]
      cases hnext : nest.step done.length t rest with
      | error e => rfl
      | ok next =>
        have hrest := ih (h.step htokens hnext) htokens' hdone'
        rw [hrank, hlength] at hrest
        exact hrest

end Nest

/-! ### Elements without comments -/

theorem uncommentedTokens_eq_self {ts : List Token} (h : ∀ t ∈ ts, t.kind ≠ .comment) :
    uncommentedTokens ts = ts :=
  List.filter_eq_self.mpr fun t ht => by simpa using h t ht

mutual

theorem Element.exists_placed_uncommented :
    ∀ (e : Element) {start start' : Nat} {p : Placed} {g : Group}, (∀ t ∈ e.uncommented.flatten,
      t.kind ≠ .comment) → p ∈ e.uncommented.placed start' → p.element = .group g →
    ∃ q ∈ e.placed start, ∃ h front back, q.element = .group h ∧ g = h.uncommented ∧
      e.flatten = front ++ back ∧
      q.first = start + front.length ∧ p.first = start' + (uncommentedTokens front).length
  | .token t, start, start', p, g, _, hp, hg => by
    simp only [Element.uncommented, Element.placed, List.mem_singleton] at hp
    subst hp
    cases hg
  | .group ⟨kind, opening, closing, children⟩, start, start', p, g, hstays, hp, hg => by
    simp only [Element.uncommented, Element.flatten, List.cons_append, List.forall_mem_cons,
      List.forall_mem_append] at hstays
    simp only [Element.uncommented, Element.placed, List.mem_cons] at hp
    rcases hp with rfl | hp
    · cases hg
      exact ⟨_, List.mem_cons_self, _, [], _, rfl, rfl, rfl, rfl, rfl⟩
    · obtain ⟨q, hq, h, front, back, hqh, hgh, hflat, hfirst, hfirst'⟩ :=
        @exists_placedAll_uncommented children (start + 1) _ _ _ hstays.2.1 hp hg
      refine ⟨q, List.mem_cons_of_mem _ hq, h, opening :: front, back ++ [closing], hqh, hgh, ?_,
        ?_, ?_⟩
      · simp [Element.flatten, hflat]
      · rw [hfirst, List.length_cons]
        omega
      · rw [hfirst', uncommentedTokens_cons hstays.1, List.length_cons]
        omega

/-- A group among elements without comments is a group among the elements, without its comments; in
front of it are the tokens in front of that one, as many as stay. -/
theorem exists_placedAll_uncommented :
    ∀ (es : List Element) {start start' : Nat} {p : Placed} {g : Group}, (∀ t ∈ flattenAll
      (uncommentedAll es), t.kind ≠ .comment) → p ∈ placedAll start' (uncommentedAll es) →
    p.element = .group g →
    ∃ q ∈ placedAll start es, ∃ h front back, q.element = .group h ∧ g = h.uncommented ∧
      flattenAll es = front ++ back ∧ q.first = start + front.length ∧
      p.first = start' + (uncommentedTokens front).length
  | [], _, _, _, _, _, hp, _ => by cases hp
  | e :: es, start, start', p, g, hstays, hp, hg => by
    -- behind the first element: what stays of it is in front, too
    have hbehind : ∀ {start'' : Nat}, (∀ t ∈ flattenAll (uncommentedAll es), t.kind ≠ .comment) →
        p ∈ placedAll start'' (uncommentedAll es) →
        start'' = start' + (uncommentedTokens e.flatten).length →
        ∃ q ∈ placedAll start (e :: es), ∃ h front back, q.element = .group h ∧ g = h.uncommented ∧
          flattenAll (e :: es) = front ++ back ∧ q.first = start + front.length ∧
          p.first = start' + (uncommentedTokens front).length := by
      intro start'' hstays hp hstart
      obtain ⟨q, hq, h, front, back, hqh, hgh, hflat, hfirst, hfirst'⟩ :=
        @exists_placedAll_uncommented es (start + e.flatten.length) _ _ _ hstays hp hg
      refine ⟨q, List.mem_append_right _ hq, h, e.flatten ++ front, back, hqh, hgh, ?_, ?_, ?_⟩
      · simp [flattenAll, hflat]
      · rw [hfirst, List.length_append]
        omega
      · rw [hfirst', hstart, uncommentedTokens_append, List.length_append]
        omega
    cases he : e.isComment with
    | true =>
      obtain ⟨t, rfl, ht⟩ : ∃ t, e = .token t ∧ t.kind = .comment := by
        cases e with
        | token t => exact ⟨t, rfl, by simpa [Element.is] using he⟩
        | group g => cases he
      rw [uncommentedAll_comment he] at hstays hp
      exact hbehind hstays hp (by simp [Element.flatten, uncommentedTokens_comment ht])
    | false =>
      rw [uncommentedAll_cons he, flattenAll, List.forall_mem_append] at hstays
      rw [uncommentedAll_cons he, placedAll] at hp
      rcases List.mem_append.mp hp with hp | hp
      · obtain ⟨q, hq, h, front, back, hqh, hgh, hflat, hfirst, hfirst'⟩ :=
          Element.exists_placed_uncommented e hstays.1 hp hg
        refine ⟨q, List.mem_append_left _ hq, h, front, back ++ flattenAll es, hqh, hgh, ?_, hfirst,
          hfirst'⟩
        simp [flattenAll, hflat]
      · refine hbehind hstays.2 hp ?_
        rw [uncommentedTokens, ← Element.flatten_uncommented e]
        exact congrArg (start' + List.length ·) (uncommentedTokens_eq_self hstays.1).symm

end

/-! ### The tree without comments -/

theorem ofTokens_of_anglesAgree {tokens : List Token} (h : Nest.AnglesAgree tokens) :
    Group.ofTokens (uncommentedTokens tokens) = (Group.ofTokens tokens).map Group.uncommented :=
  Nest.run_uncommented h (Nest.grouped_empty tokens) rfl (by simp)

theorem brackets_uncommentedTokens (tokens : List Token) :
    brackets (uncommentedTokens tokens) = brackets tokens := by
  induction tokens with
  | nil => rfl
  | cons t ts ih =>
    by_cases ht : t.kind = .comment
    · rw [uncommentedTokens_comment ht, ih,
        brackets_other (by simp [ht]) (by rw [ht]; rfl) (by rw [ht]; rfl)]
    · rw [uncommentedTokens_cons ht]
      by_cases hend : t.kind = .eof
      · rw [brackets_eof hend, brackets_eof hend]
      · simp only [brackets] at ih
        simp [brackets, hend, List.filter_cons, ih]

/-- Type arguments have the same end in both lists of tokens, if no comment stands behind a `[` in
them. -/
theorem anglesAgree_of_args {tokens : List Token}
    (h : ∀ args, AngleArguments tokens args → hasCommentedBracket args = false) :
    Nest.AnglesAgree tokens := by
  rintro done t rest rfl hdone ht
  cases hmatch : matchAngleFrom? 1 rest with
  | some k => rw [(matchAngleFrom?_uncommented hmatch).1, Option.map_some]
  | none =>
    refine Option.eq_none_iff_forall_not_mem.mpr fun k hk => ?_
    obtain ⟨c, hc, hckind⟩ := getElem?_of_matchAngleFrom? hk
    obtain ⟨args, rest, rfl, rfl⟩ := exists_of_getElem?_uncommentedTokens hc
    have hclosing : c.kind ≠ .comment := by simp [hckind]
    rw [Option.mem_def, uncommentedTokens_append, uncommentedTokens_cons hclosing] at hk
    have hargs : AngleArguments (done ++ t :: (args ++ c :: rest)) args := by
      refine .intro hdone ht hckind ?_
      rw [matchAngle?, uncommentedTokens_cons (by simp [ht]), uncommentedTokens_append,
        uncommentedTokens_cons hclosing, matchAngleFrom?_lt ht, Int.zero_add, hk]
      rfl
    rw [(matchAngleFrom?_uncommented_iff hckind).mpr ⟨hk, h args hargs⟩] at hmatch
    cases hmatch

/-- A `<` that opens a group in the tree without comments opens one in the tree. -/
theorem matchAngle?_of_ofTokens_uncommented {tokens front rest : List Token} {t : Token} {d : Nat}
    {root : Group} (h : Group.ofTokens tokens = .ok root)
    (h' : Group.ofTokens (uncommentedTokens tokens) = .ok root.uncommented) (htokens : tokens =
      front ++ t :: rest) (hfront : ∀ u ∈ front, u.kind ≠ .eof) (ht : t.kind = .lt)
    (hd : matchAngle? (t :: uncommentedTokens rest) = some d) :
    ∃ d', matchAngle? (t :: rest) = some d' := by
  obtain ⟨-, hflat, hgrouped⟩ := grouped_of_ofTokens h
  obtain ⟨-, hflat', hgrouped'⟩ := grouped_of_ofTokens h'
  have hplaced : ∀ es : List Element, ({ roots := es.reverse } : Nest).placed = placedAll 0 es :=
    fun es => by
    simp [Nest.placed, Nest.placedFrames]
  have hsplit : uncommentedTokens tokens = uncommentedTokens front ++ t ::
      uncommentedTokens rest := by
    rw [htokens, uncommentedTokens_append, uncommentedTokens_cons (by simp [ht])]
  have hstays : ∀ ts : List Token, (∀ u ∈ uncommentedTokens ts, u.kind ≠ .comment) :=
    fun ts u hu => by
    simpa using (List.mem_filter.mp hu).2
  have hlength : (uncommentedTokens front).length <
      ((uncommentedTokens tokens).takeWhile (·.kind != .eof)).length := by
    rw [hsplit, List.takeWhile_append_of_pos, List.takeWhile_cons_of_pos (by simp [ht])]
    · simp
    · intro u hu
      simpa using hfront u (List.mem_filter.mp hu).1
  -- the group in the tree without comments
  obtain ⟨f, hf, -⟩ | ⟨g, hangle, hg⟩ := hgrouped'.pairs _ d hlength
    ⟨⟨t, by simp [hsplit], ht⟩, by rw [hsplit, List.drop_left, hd]⟩
  · simp [Nest.numbered, Nest.numberFrames] at hf
  rw [hplaced] at hg
  obtain ⟨⟨i, j, _⟩, hq, g', before, behind, rfl, rfl, hbefore, hi, hrank⟩ :=
    @exists_placedAll_uncommented root.children 0 _ _ _ (fun u hu => by
      rw [show flattenAll (uncommentedAll root.children) = _ from hflat'] at hu
      exact hstays tokens u (List.takeWhile_sublist _ |>.subset hu)) hg rfl
  -- is the group that begins at the same token of the tree
  rcases hgrouped.closed i j g' (by rwa [hplaced])
    with ⟨-, -, d', ⟨⟨u, hu, hukind⟩, hd'⟩, -⟩ | ⟨hopens, -⟩
  · have htake : tokens.take i = before := by
      have hwhole : tokens.takeWhile (·.kind != .eof) <+: tokens := List.takeWhile_prefix _
      have hstart : before <+: tokens := by
        refine List.IsPrefix.trans ⟨behind, ?_⟩ hwhole
        rw [← hflat, hbefore]
      simp only [Nat.zero_add] at hi
      rw [hi]
      exact (List.prefix_iff_eq_take.mp hstart).symm
    have hsame : i = front.length := by
      refine (rank_inj hu (by simp [hukind]) (show tokens[front.length]? = some t by simp [htokens])
        (by simp [ht])).mp ?_
      rw [rank, htake, htokens, rank_length_append]
      simpa using hrank.symm
    rw [hsame, htokens, List.drop_left] at hd'
    exact ⟨d', hd'⟩
  · exact absurd (hangle ▸ hopens) (TokenKind.opens?_ne_angle _)

/-- **The tree of tokens without comments**. Where tokens can be grouped, they can be grouped
without the comments as well. The tree is then the tree of the tokens without the comments in it, at
whatever depth, exactly when there are no type arguments in which a comment stands directly behind a
`[`. -/
theorem ofTokens_uncommented_iff {tokens : List Token} {root : Group}
    (h : Group.ofTokens tokens = .ok root) :
    (∃ root', Group.ofTokens (uncommentedTokens tokens) = .ok root') ∧
      (Group.ofTokens (uncommentedTokens tokens) = .ok root.uncommented ↔
        ∀ args, AngleArguments tokens args → hasCommentedBracket args = false) := by
  refine ⟨?_, fun h' args hargs => ?_, fun hargs => ?_⟩
  · cases hgroup : Group.ofTokens (uncommentedTokens tokens) with
    | ok root' => exact ⟨root', rfl⟩
    | error e =>
      rw [ofTokens_eq_error_iff, brackets_uncommentedTokens, ← ofTokens_eq_error_iff, h] at hgroup
      cases hgroup
  · obtain @⟨front, args, rest, opening, closing, hfront, hopening, hclosing, hmatch⟩ := hargs
    have hopening' : opening.kind ≠ .comment := by simp [hopening]
    rw [uncommentedTokens_cons hopening'] at hmatch
    obtain ⟨d, hd⟩ := matchAngle?_of_ofTokens_uncommented h h' rfl hfront hopening hmatch
    rw [matchAngle?, matchAngleFrom?_lt hopening, Int.zero_add] at hd hmatch
    obtain ⟨k, hk, -⟩ := Option.map_eq_some_iff.mp hd
    obtain ⟨hk', hnone⟩ := matchAngleFrom?_uncommented hk
    obtain ⟨c, hc, hckind⟩ := getElem?_of_matchAngleFrom? hk
    -- the two ends are the same token, since as many tokens stay in front of both
    have hend : k = args.length := by
      rw [hk', Option.map_some, Option.some.injEq, Nat.add_right_cancel_iff] at hmatch
      refine (rank_inj hc (by simp [hckind]) (t := c) (u := closing) (by simp)
        (by simp [hclosing])).mp ?_
      rw [hmatch, rank_length_append]
    rwa [hend, List.take_left] at hnone
  · rw [ofTokens_of_anglesAgree (anglesAgree_of_args hargs), h]
    rfl

/-- `Map < /**/ A , int [ ] /**/ > [ /**/ ]` -/
def commentsAroundPairs : List Token :=
  [.ident, .lt, .comment, .ident, .comma, .primitive, .lbracket, .rbracket, .comment, .gt,
    .lbracket, .comment, .rbracket].map fun kind => { kind }

/-- Comments in type arguments, and in brackets outside of them, make no difference. -/
theorem ofTokens_uncommented_iff_around_pairs :
    (∃ args, AngleArguments commentsAroundPairs args) ∧
      ∃ root, Group.ofTokens commentsAroundPairs = .ok root ∧
        Group.ofTokens (uncommentedTokens commentsAroundPairs) = .ok root.uncommented ∧
        ∀ args, AngleArguments commentsAroundPairs args → hasCommentedBracket args = false := by
  refine ⟨⟨(commentsAroundPairs.drop 2).take 7, ?_⟩, _, rfl, rfl,
    (ofTokens_uncommented_iff rfl).2.mp rfl⟩
  exact @AngleArguments.intro [{ kind := .ident }] ((commentsAroundPairs.drop 2).take 7)
    (commentsAroundPairs.drop 10)
    { kind := .lt } { kind := .gt } (by simp) rfl rfl rfl

/-- `List < int [ /**/ ] >` -/
def commentedDimension : List Token :=
  [.ident, .lt, .primitive, .lbracket, .comment, .rbracket, .gt].map fun kind => { kind }

/-- With the comment the `<` is an operator and the root has five elements; without it there are
type arguments, and it has two. -/
theorem comment_in_dimension_hides_angle :
    ∃ root root', Group.ofTokens commentedDimension = .ok root ∧
    Group.ofTokens (uncommentedTokens commentedDimension) = .ok root' ∧
    root.uncommented.children.length = 5 ∧
    root'.children.length = 2 ∧ root' ≠ root.uncommented := by
  refine ⟨_, _, rfl, rfl, rfl, rfl, fun h => ?_⟩
  have hlength := congrArg (fun g => g.children.length) h
  exact absurd hlength (by decide)

end Unnest
