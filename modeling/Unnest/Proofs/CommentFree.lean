import Unnest.Proofs.Essence
import Unnest.Proofs.TwinRuns
import Mathlib

/-!
# Files without comments

Comments have no say in what a file declares. A tree cleared of its comments is read to a file that
says the same, or with the same error.

A range and the range without its comments are walked over in step, and the members in them are
compared by what they say. The readings of groups are built level by level, and each level takes
from the one below that it ignores comments.

* `Inside.IgnoresComments.reads`: readings that do not depend on comments, as readings that agree;
* `File.ofGroup_ignores_comments`: a file and its error do not depend on comments.
-/

namespace Unnest

open Unnest.Parser

/-- What code and members say is compared. -/
def View.essence : View := ⟨Code.essence, essenceMembers⟩

/-- What a member says is what is seen of it, whichever elements it covers. -/
theorem Member.essence_eq (m : Member) : m.essence = (m.seen .essence).withSpan {} := by
  have hcode : ∀ c : Option Code, essenceCode? c = c.map Code.essence := by
    intro c
    cases c <;> rfl
  cases m with
  | field head declarators =>
    have hdeclarator : Declarator.essence = Declarator.seen .essence := by
      funext ⟨name, extraDims, line, col, init⟩
      rw [Declarator.essence, hcode]
      rfl
    rw [essence, essenceDeclarators_eq, hdeclarator]
    rfl
  | method head body =>
    rw [essence, hcode]
    rfl
  | constant head args body =>
    cases body with
    | none =>
      rw [essence, hcode]
      rfl
    | some a =>
      obtain ⟨place, base, args', members, endLine, label⟩ := a
      rw [essence, essenceBody?, Anonymous.essence, hcode, hcode]
      rfl
  | _ => rw [essence]; rfl

/-- An element and the same element without comments. -/
def Element.Bare (e e' : Element) : Prop := e.isComment = false ∧ e' = e.uncommented

theorem Element.Bare.group {g g' : Group} (h : Bare (.group g) (.group g')) : g' = g.uncommented :=
  Element.group.inj (h.2.trans (uncommented_group g))

theorem bare_all {es es' : List Element} (h : List.Forall₂ Element.Bare es es') :
    es' = uncommentedAll es ∧ es'.isEmpty = es.isEmpty := by
  induction h with
  | nil => exact ⟨rfl, rfl⟩
  | cons he _ ih =>
    rw [uncommentedAll_cons he.1, ← ih.1, he.2]
    exact ⟨rfl, rfl⟩

theorem Pace.limit_shadow (es : List Element) :
    (Pace.shadow es).Limit Element.Bare fun _ => False where
  lasting := Cursor.lasting_false
  past_of_over := id
  over_of_past h _ _ := h
  pass := by
    intro s s' e e' hs _ he he'
    have hcurrent := Cursor.Shadow.current? hs
    rw [he, he'] at hcurrent
    exact Or.inr ⟨Cursor.Shadow.settled hs e he, Option.some.inj hcurrent⟩

theorem essenceMembers_of_twins {P : Pace} {ms ms' : List Member}
    (h : List.Forall₂ (P.Twins .essence) ms ms') : essenceMembers ms' = essenceMembers ms := by
  induction h with
  | nil => rfl
  | cons htwin _ ih =>
    obtain ⟨m, m', s, s', t, t', -, -, hm, rfl, rfl⟩ := htwin
    rw [essenceMembers, essenceMembers, ih, Member.essence_withSpan, Member.essence_withSpan,
      Member.essence_eq, Member.essence_eq, hm]

namespace Inside.IgnoresComments

variable {inside : Inside} (h : inside.IgnoresComments)
include h

theorem reads : inside.Reads .essence Element.Bare inside where
  ofGroup := by
    intro g g' hg
    rw [hg.group]
    exact h.essence_ofGroup g
  ofElements := by
    intro es es' hes
    obtain ⟨rfl, hempty⟩ := bare_all hes
    unfold Code.ofElements
    refine Except.map_bind_congr (v := fun ps => (essencePieces ps, ps.isEmpty)) ?_
      fun ps ps' hps => ?_
    · rw [map_isEmpty_piecesWith, map_isEmpty_piecesWith, h.essence_piecesWith, hempty]
    · obtain ⟨hessence, hps⟩ := Prod.mk.inj hps
      refine congrArg Except.ok (Prod.ext ?_ hps)
      simp only [View.essence, Code.essence, hessence]
  members := by
    intro ctx g g' hg
    rw [hg.group]
    exact h.members ctx g
  closing := by
    intro g g' hg
    rw [hg.group]
    rfl

/-- **The members of a range do not depend on comments.** -/
theorem essence_members (ctx : BodyContext) (g : Group) :
    (inside.outward.members ctx g.uncommented).map essenceMembers =
      (inside.outward.members ctx g).map essenceMembers := by
  obtain ⟨hfailure, htwins⟩ :=
    Pace.dispatchWith (fun _ => id) (Pace.limit_shadow g.children) h.reads ctx
    (Cursor.shadow_ofGroup g)
  unfold outward Dispatched.toExcept
  simp only [hfailure]
  split
  · exact congrArg Except.ok (essenceMembers_of_twins htwins)
  · rfl

end Inside.IgnoresComments

theorem ignoresComments_insideAt (levels : Nat) : (insideAt levels).IgnoresComments := by
  induction levels with
  | zero => exact ⟨fun _ => rfl, fun _ _ => rfl⟩
  | succ levels ih => exact ⟨ih.essence_piecesWith, ih.essence_members⟩

theorem Inside.IgnoresComments.mirrors_file {inside : Inside} (h : inside.IgnoresComments)
    (es : List Element) :
    (Pace.shadow es).MirrorsWith (fun _ => False) (fun f f' => f'.essence = f.essence) (file inside)
      (file inside) := by
  have hdecl := (Pace.limit_shadow es).closes_typeDecl h.reads
  refine (Pace.mirrors_file (fun _ => id) (v := TypeDecl.essence) (hdecl.mono fun d d' hd => ?_)
    fun hd _ _ => ?_).mono fun f f' hf => ?_
  · exact congrArg (fun d : TypeDecl => TypeDecl.mk { d.head with span := {} } d.members) hd
  · exact congrArg (fun d : TypeDecl => TypeDecl.mk { d.head with span := {} } d.members) hd
  · rw [File.essence, File.essence, hf.1, hf.2]

theorem File.essence_ofGroup (root : Group) :
    (File.ofGroup root.uncommented).map File.essence = (File.ofGroup root).map File.essence := by
  have hinside : Inside.ofElements root.uncommented.children = Inside.ofElements root.children :=
    congrArg insideAt (depthAll_uncommentedAll root.children)
  unfold File.ofGroup
  rw [hinside]
  exact runOn_uncommented (ignoresComments_insideAt _).mirrors_file root

/-- **Comments have no say in a file.** A tree and the same tree without comments, at whatever depth
they stand, give the same error, or files that say the same. What code says is what its segments
say: their tokens without comments, the creations behind them, and nothing for a last segment that
has only comments. -/
theorem File.ofGroup_ignores_comments (root : Group) :
    ((∃ e, File.ofGroup root = .error e ∧ File.ofGroup root.uncommented = .error e) ∨
      ∃ f f', File.ofGroup root = .ok f ∧ File.ofGroup root.uncommented = .ok f' ∧
      f'.essence = f.essence) ∧
    ∀ c : Code, c.essence.segments = dropEmptyLast (c.segments.map Segment.essence) :=
  ⟨Except.eq_error_or_eq_ok (File.essence_ofGroup root), Code.segments_essence⟩

end Unnest
