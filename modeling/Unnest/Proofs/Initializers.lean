import Unnest.Proofs.Runs
import Unnest.Proofs.Codes
import Mathlib.Logic.Relation

/-!
# Initializers of fields

A field may stand anywhere in a file: in a class, in a member class, in an anonymous class inside of
code. `Node.parts` lists what a member, code or an anonymous class is made of, and so whatever is
inside of another is reached from it step by step. Each step keeps how the node was read from the
source (`Node.FromTree`), and what the node was before its anonymous classes were named
(`Node.Labelled`).

The initializer of a field is not a group of its own. It is read from a run of elements up to a
comma or a semicolon, without the comments among them.

* `File.Initializes`: the code is the initializer of a field somewhere in the file;
* `fromRun_of_initializes`: an initializer is read from a run of elements of the source.
-/

namespace Unnest

open Unnest.Parser

/-! ### What nodes are made of -/

/-- The members, the code and the anonymous classes that a member, code or an anonymous class is
made of. -/
def Node.parts : Node → List Node
  | .member (.field _ declarators) => declarators.filterMap fun d => d.init.map .code
  | .member (.method _ body) => body.toList.map .code
  | .member (.constructor _ body) => [.code body]
  | .member (.nested _ members) => members.map .member
  | .member (.initializer _ body) => [.code body]
  | .member (.constant _ args body) => args.toList.map .code ++ body.toList.map .anonymous
  | .code c => c.creations.map .anonymous
  | .anonymous a => a.args.toList.map .code ++ a.members.map .member
  | _ => []

/-- The second node is the first one or somewhere inside of it. -/
def Node.Within : Node → Node → Prop := Relation.ReflTransGen fun x y => y ∈ x.parts

/-- The code is the initializer of a field of the file, in whatever class the field is. -/
def File.Initializes (f : File) (c : Code) : Prop :=
  ∃ d ∈ f.types, ∃ m ∈ d.members, ∃ head declarators,
    Node.Within (.member m) (.member (.field head declarators)) ∧ ∃ v ∈ declarators, v.init = some c

theorem mem_parts_code {c : Code} {x : Node} :
    x ∈ (Node.code c).parts ↔ ∃ a, .creation a ∈ c.pieces ∧ x = .anonymous a := by
  simp only [Node.parts, Code.creations, List.mem_map, List.mem_filterMap]
  constructor
  · rintro ⟨a, ⟨p, hp, ha⟩, rfl⟩
    cases p with
    | token t => cases ha
    | creation a' =>
      cases ha
      exact ⟨a, hp, rfl⟩
  · rintro ⟨a, ha, rfl⟩
    exact ⟨a, ⟨_, ha, rfl⟩, rfl⟩

/-! ### Naming the classes -/

section Naming

variable {top : Text} {n : Nat}

/-- The second node is the first one with its anonymous classes named. -/
inductive Node.Labelled (top : Text) : Node → Node → Prop
  | member (n : Nat) (m : Member) : Labelled top (.member m) (.member (m.labelled top n).1)
  | code (n : Nat) (place : Place) (pieces : List Piece) :
    Labelled top (.code ⟨place, pieces⟩) (.code ⟨place, (labelPieces top n pieces).1⟩)
  | anonymous (n : Nat) (a : Anonymous) :
      Labelled top (.anonymous a) (.anonymous (a.labelled top n).1)

theorem exists_of_mem_labelMembers {ms : List Member} {m' : Member}
    (h : m' ∈ (labelMembers top n ms).1) :
    ∃ m ∈ ms, ∃ k, m' = (m.labelled top k).1 := by
  induction ms generalizing n with
  | nil => cases h
  | cons m ms ih =>
    rcases List.mem_cons.mp h with rfl | h
    · exact ⟨m, List.mem_cons_self, n, rfl⟩
    · obtain ⟨m₁, hm₁, hk⟩ := ih h
      exact ⟨m₁, List.mem_cons_of_mem _ hm₁, hk⟩

theorem exists_of_mem_labelPieces {ps : List Piece} {a' : Anonymous}
    (h : .creation a' ∈ (labelPieces top n ps).1) :
    ∃ a, .creation a ∈ ps ∧ ∃ k, a' = (a.labelled top k).1 := by
  induction ps generalizing n with
  | nil => cases h
  | cons p ps ih =>
    have hrest : ∀ {k}, .creation a' ∈ (labelPieces top k ps).1 →
        ∃ a, .creation a ∈ p :: ps ∧ ∃ k, a' = (a.labelled top k).1 := by
      intro k h
      obtain ⟨a, ha, hk⟩ := ih h
      exact ⟨a, List.mem_cons_of_mem _ ha, hk⟩
    cases p with
    | token t =>
      rcases List.mem_cons.mp h with h | h
      · cases h
      · exact hrest h
    | creation a =>
      rcases List.mem_cons.mp h with h | h
      · cases h
        exact ⟨a, List.mem_cons_self, n, rfl⟩
      · exact hrest h

theorem exists_of_mem_labelDeclarators {ds : List Declarator} {d' : Declarator} {c' : Code}
    (h : d' ∈ (labelDeclarators top n ds).1) (hinit : d'.init = some c') :
    ∃ d ∈ ds, ∃ place pieces, d.init = some ⟨place, pieces⟩ ∧
      ∃ k, c' = ⟨place, (labelPieces top k pieces).1⟩ := by
  induction ds generalizing n with
  | nil => cases h
  | cons d ds ih =>
    have hrest : ∀ {k}, d' ∈ (labelDeclarators top k ds).1 → ∃ d₁ ∈ d :: ds, ∃ place pieces,
        d₁.init = some ⟨place, pieces⟩ ∧ ∃ k, c' = ⟨place, (labelPieces top k pieces).1⟩ := by
      intro k h
      obtain ⟨d₁, hd₁, hk⟩ := ih h
      exact ⟨d₁, List.mem_cons_of_mem _ hd₁, hk⟩
    obtain ⟨name, dims, line, col, _ | ⟨place, pieces⟩⟩ := d
    · rcases List.mem_cons.mp h with rfl | h
      · cases hinit
      · exact hrest h
    · rcases List.mem_cons.mp h with rfl | h
      · cases hinit
        exact ⟨_, List.mem_cons_self, place, pieces, rfl, n, rfl⟩
      · exact hrest h

theorem exists_of_mem_map_member {ms : List Member} {y' : Node}
    (h : y' ∈ (labelMembers top n ms).1.map .member) :
    ∃ y ∈ ms.map .member, Node.Labelled top y y' := by
  obtain ⟨m', hm', rfl⟩ := List.mem_map.mp h
  obtain ⟨m, hm, k, rfl⟩ := exists_of_mem_labelMembers hm'
  exact ⟨.member m, List.mem_map_of_mem hm, .member k m⟩

theorem Node.Labelled.exists_part {x x' y' : Node} (h : x.Labelled top x') (hy : y' ∈ x'.parts) :
    ∃ y ∈ x.parts, y.Labelled top y' := by
  cases h with
  | code n place pieces =>
    obtain ⟨a', ha', rfl⟩ := mem_parts_code.mp hy
    obtain ⟨a, ha, k, rfl⟩ := exists_of_mem_labelPieces ha'
    exact ⟨.anonymous a, mem_parts_code.mpr ⟨a, ha, rfl⟩, .anonymous k a⟩
  | anonymous n a =>
    obtain ⟨place, base, _ | ⟨argsPlace, pieces⟩, members, endLine, label⟩ := a
    · exact exists_of_mem_map_member hy
    · rcases List.mem_cons.mp hy with rfl | hy
      · exact ⟨_, List.mem_cons_self, .code _ argsPlace pieces⟩
      · obtain ⟨y, hy, hlabelled⟩ := exists_of_mem_map_member hy
        exact ⟨y, List.mem_cons_of_mem _ hy, hlabelled⟩
  | member n m =>
    cases m with
    | field head declarators =>
      obtain ⟨d', hd', hcode⟩ := List.mem_filterMap.mp hy
      obtain ⟨c', hc', rfl⟩ := Option.map_eq_some_iff.mp hcode
      obtain ⟨d, hd, place, pieces, hinit, k, rfl⟩ := exists_of_mem_labelDeclarators hd' hc'
      exact ⟨.code ⟨place, pieces⟩, List.mem_filterMap.mpr ⟨d, hd, by rw [hinit]; rfl⟩,
        .code k place pieces⟩
    | method head body =>
      rcases body with _ | ⟨place, pieces⟩
      · cases hy
      · cases List.mem_singleton.mp hy
        exact ⟨_, List.mem_cons_self, .code n place pieces⟩
    | constructor head body =>
      obtain ⟨place, pieces⟩ := body
      cases List.mem_singleton.mp hy
      exact ⟨_, List.mem_cons_self, .code n place pieces⟩
    | nested head members => exact exists_of_mem_map_member hy
    | initializer head body =>
      obtain ⟨place, pieces⟩ := body
      cases List.mem_singleton.mp hy
      exact ⟨_, List.mem_cons_self, .code n place pieces⟩
    | constant head args body =>
      rcases args with _ | ⟨place, pieces⟩ <;> rcases body with _ | body
      · cases hy
      · cases List.mem_singleton.mp hy
        exact ⟨_, List.mem_cons_self, .anonymous n body⟩
      · cases List.mem_singleton.mp hy
        exact ⟨_, List.mem_cons_self, .code n place pieces⟩
      · rcases List.mem_cons.mp hy with rfl | hy
        · exact ⟨_, List.mem_cons_self, .code n place pieces⟩
        · cases List.mem_singleton.mp hy
          exact ⟨_, List.mem_cons_of_mem _ List.mem_cons_self, .anonymous _ body⟩

theorem Node.Labelled.exists_within {x x' y' : Node} (h : x.Labelled top x') (hy : x'.Within y') :
    ∃ y, x.Within y ∧ y.Labelled top y' := by
  induction hy with
  | refl => exact ⟨x, .refl, h⟩
  | tail _ hstep ih =>
    obtain ⟨z, hz, hlabelled⟩ := ih
    obtain ⟨y, hy, hlabelled⟩ := hlabelled.exists_part hstep
    exact ⟨y, hz.tail hy, hlabelled⟩

/-- **Naming the classes of a file** changes nothing of its initializers but the names in them. -/
theorem exists_initializer_of_labelled {f : File} {c : Code} (h : f.labelled.Initializes c) :
    ∃ d ∈ f.types, ∃ place pieces n, f.Initializes ⟨place, pieces⟩ ∧
      c = ⟨place, (labelPieces d.head.name n pieces).1⟩ := by
  obtain ⟨d', hd', m', hm', head, declarators', hwithin, v', hv', hinit'⟩ := h
  obtain ⟨d, hd, rfl⟩ := List.mem_map.mp hd'
  obtain ⟨m, hm, k, rfl⟩ := exists_of_mem_labelMembers hm'
  obtain ⟨y, hy, hlabelled⟩ := (Node.Labelled.member k m).exists_within hwithin
  obtain ⟨declarators, j, rfl, rfl⟩ : ∃ declarators j, y = .member (.field head declarators) ∧
      declarators' = (labelDeclarators d.head.name j declarators).1 := by
    generalize hfield : Node.member (.field head declarators') = y' at hlabelled
    cases hlabelled with
    | code => cases hfield
    | anonymous => cases hfield
    | member j m =>
      cases m with
      | field head₁ declarators =>
        cases hfield
        exact ⟨declarators, j, rfl, rfl⟩
      | method head₁ body => rcases body with _ | ⟨place, pieces⟩ <;> cases hfield
      | constructor head₁ body =>
        obtain ⟨place, pieces⟩ := body
        cases hfield
      | nested head₁ members => cases hfield
      | initializer head₁ body =>
        obtain ⟨place, pieces⟩ := body
        cases hfield
      | constant head₁ args body =>
        rcases args with _ | ⟨place, pieces⟩ <;> rcases body with _ | body <;> cases hfield
  obtain ⟨v, hv, place, pieces, hinit, n, rfl⟩ := exists_of_mem_labelDeclarators hv' hinit'
  exact ⟨d, hd, place, pieces, n, ⟨d, hd, m, hm, head, declarators, hy, v, hv, hinit⟩, rfl⟩

end Naming

/-! ### How nodes are read -/

section Reading

variable {root : Group} {levels : Nat}

/-- How a node was read from the tree, with enough levels for the groups that it was read from. -/
def Node.FromTree (root : Group) : Node → Prop
  | .member m => ∃ levels ms, (ElementInvariant.inTree root levels).MembersFrom
    (insideAt levels) ms ∧ m ∈ ms
  | .code c => ∃ levels, (ElementInvariant.inTree root levels).FromGroup (insideAt levels) c ∨
      (ElementInvariant.inTree root levels).FromElements (insideAt levels) c
  | .anonymous a => ∃ levels,
      (∀ c, a.args = some c → (ElementInvariant.inTree root levels).FromGroup (insideAt levels) c) ∧
      (ElementInvariant.inTree root levels).MembersFrom (insideAt levels) a.members
  | _ => True

/-- The cursor stands in the group, and not at a comment. -/
def Cursor.StandsIn (g : Group) (s : Cursor) : Prop := s.Over g.children ∧ s.Settled

theorem Cursor.lasting_standsIn (g : Group) : Cursor.Lasting (StandsIn g) :=
  fun s hs => ⟨lasting_over g.children s hs.1, lasting_settled s hs.2⟩

/-- **A member of a group** was read by a form at some cursor in the group, with one level less. -/
theorem exists_parse_of_membersFrom {ms : List Member} {m : Member}
    (h : (ElementInvariant.inTree root levels).MembersFrom (insideAt levels) ms) (hm : m ∈ ms) :
    ∃ k ctx g form s s' m₀ span, root.Holds (.group g) ∧ depthAll g.children ≤ k ∧
      Cursor.StandsIn g s ∧
      form ∈ constantForm (insideAt k) :: memberForms (insideAt k) ∧
      form.parse ctx s = .ok (.member m₀) s' ∧ (m₀.field? = none ∨ form = fieldForm (insideAt k)) ∧
      (ElementInvariant.inTree root k).ReadBy (insideAt k) m₀ ∧ m = m₀.withSpan span := by
  obtain ⟨ctx, g, ⟨hg, hdepth⟩, hms⟩ := h
  rw [Element.depth_group] at hdepth
  obtain ⟨k, rfl⟩ : ∃ k, levels = k + 1 := ⟨levels - 1, by omega⟩
  obtain ⟨ctx', t, hrun, -⟩ := toExcept_dispatchWith_eq_ok.mp hms
  obtain ⟨ctx₁, s, ctx₂, s', hs, hstep⟩ := hrun.exists_memberStep (Cursor.lasting_standsIn g)
    ⟨Cursor.Over.settle rfl, Cursor.settled_settle _⟩ (List.mem_map_of_mem hm)
  obtain ⟨form, decided, ctx₃, m₀, hsel, hparse, hnode, -⟩ := memberStep_eq_read hstep
  have hcursor : (ElementInvariant.inTree root k).cursor s := by
    refine ⟨trivial, fun e he => ?_⟩
    have hchild : e ∈ g.children := List.drop_subset _ _ (hs.1 ▸ he)
    have hle := depth_le_of_mem hchild
    exact ⟨hg.children e hchild, by omega⟩
  have hform := (selectForm_eq_some hsel).1
  obtain ⟨-, m, heq, hfield, hread⟩ :=
    (((ElementInvariant.inTree root k).reads_insideAt k).gives_form
    hform ctx₃ hcursor).ok hparse
  cases heq
  exact ⟨k, ctx₃, g, form, s, s', m₀, _, hg, by omega, hs, hform, hparse, hfield, hread,
    Node.member.inj hnode⟩

theorem readBy_of_membersFrom {ms : List Member} {m : Member}
    (h : (ElementInvariant.inTree root levels).MembersFrom (insideAt levels) ms) (hm : m ∈ ms) :
    ∃ k, (ElementInvariant.inTree root k).ReadBy (insideAt k) m := by
  obtain ⟨k, -, -, -, -, -, m₀, span, -, -, -, -, -, -, hread, rfl⟩ :=
    exists_parse_of_membersFrom h hm
  exact ⟨k, ElementInvariant.readBy_withSpan.mpr hread⟩

theorem fromTree_of_piecesWith {skip : Nat} {es : List Element} {ps : List Piece}
    (hinside : ∀ {es ps}, (∀ e ∈ es, root.Holds e ∧ e.depth < levels) →
      (insideAt levels).pieces es = .ok ps →
      ∀ a, .creation a ∈ ps → (Node.anonymous a).FromTree root)
    (hes : ∀ e ∈ es, root.Holds e ∧ e.depth ≤ levels)
    (hps : piecesWith (insideAt levels) skip es = .ok ps) :
    ∀ a, .creation a ∈ ps → (Node.anonymous a).FromTree root := by
  intro a ha
  induction es generalizing skip ps with
  | nil =>
    simp only [piecesWith, Except.ok.injEq] at hps
    subst hps
    cases ha
  | cons e es ih =>
    have hes' := fun e' he => hes e' (List.mem_cons_of_mem e he)
    cases skip with
    | succ skip =>
      rw [piecesWith] at hps
      exact ih hes' hps ha
    | zero =>
      cases piecesFrom_of_piecesWith hps with
      | creation ht hfind hargs hmembers hrest =>
        obtain ⟨hargsMem, hbodyMem, -⟩ := Creation.find?_groups_mem hfind
        rcases List.mem_cons.mp ha with ha | ha
        · cases ha
          refine ⟨levels, ?_, {}, _, hes' _ hbodyMem, hmembers⟩
          rintro _ ⟨⟩
          exact ⟨_, hes' _ hargsMem, hargs⟩
        · exact ih hes' hrest ha
      | token hrest =>
        rcases List.mem_cons.mp ha with ha | ha
        · cases ha
        · exact ih hes' hrest ha
      | group hinner hrest =>
        obtain ⟨hg, hdepth⟩ := hes _ List.mem_cons_self
        rcases List.mem_append.mp ha with ha | ha
        · rcases List.mem_cons.mp ha with ha | ha
          · cases ha
          · exact hinside (hg.below hdepth).1 hinner a ha
        · rcases List.mem_cons.mp ha with ha | ha
          · cases ha
          · exact ih hes' hrest ha

theorem fromTree_of_pieces {es : List Element} {ps : List Piece}
    (hes : ∀ e ∈ es, root.Holds e ∧ e.depth < levels) (hps : (insideAt levels).pieces es = .ok ps) :
    ∀ a, .creation a ∈ ps → (Node.anonymous a).FromTree root := by
  induction levels generalizing es ps with
  | zero =>
    cases hps
    intro a ha
    cases ha
  | succ levels ih =>
    exact fromTree_of_piecesWith ih (fun e he => ⟨(hes e he).1, Nat.le_of_lt_succ (hes e he).2⟩) hps

/-- **What a node is made of** comes from the tree if the node does. -/
theorem Node.FromTree.part {x y : Node} (hx : x.FromTree root) (hy : y ∈ x.parts) :
    y.FromTree root := by
  cases x with
  | file f => cases hy
  | type d => cases hy
  | parameter p => cases hy
  | code c =>
    obtain ⟨a, ha, rfl⟩ := mem_parts_code.mp hy
    obtain ⟨levels, ⟨g, ⟨hg, hdepth⟩, hc⟩ | ⟨es, hes, hc⟩⟩ := hx
    · unfold Code.ofGroup at hc
      obtain ⟨ps, hps, hc⟩ := Except.bind_eq_ok.mp hc
      cases hc
      exact fromTree_of_pieces (hg.below hdepth).1 hps a ha
    · unfold Code.ofElements at hc
      obtain ⟨ps, hps, hc⟩ := Except.bind_eq_ok.mp hc
      cases hc
      exact fromTree_of_piecesWith fromTree_of_pieces hes hps a ha
  | anonymous a =>
    obtain ⟨levels, hargs, hmembers⟩ := hx
    rcases List.mem_append.mp hy with hy | hy
    · obtain ⟨c, hc, rfl⟩ := List.mem_map.mp hy
      exact ⟨levels, Or.inl (hargs c (Option.mem_toList.mp hc))⟩
    · obtain ⟨m, hm, rfl⟩ := List.mem_map.mp hy
      exact ⟨levels, a.members, hmembers, hm⟩
  | member m =>
    obtain ⟨levels, ms, hms, hm⟩ := hx
    obtain ⟨k, hread⟩ := readBy_of_membersFrom hms hm
    cases m with
    | field head declarators =>
      obtain ⟨d, hd, hcode⟩ := List.mem_filterMap.mp hy
      obtain ⟨c, hc, rfl⟩ := Option.map_eq_some_iff.mp hcode
      exact ⟨k, Or.inr (hread d hd c hc)⟩
    | method head body =>
      obtain ⟨c, hc, rfl⟩ := List.mem_map.mp hy
      exact ⟨k, Or.inl (hread c (Option.mem_toList.mp hc))⟩
    | constructor head body =>
      cases List.mem_singleton.mp hy
      exact ⟨k, Or.inl hread⟩
    | nested head members =>
      obtain ⟨m, hm, rfl⟩ := List.mem_map.mp hy
      exact ⟨k, members, hread, hm⟩
    | initializer head body =>
      cases List.mem_singleton.mp hy
      exact ⟨k, Or.inl hread⟩
    | constant head args body =>
      obtain ⟨hargs, hbody⟩ := hread
      rcases List.mem_append.mp hy with hy | hy
      · obtain ⟨c, hc, rfl⟩ := List.mem_map.mp hy
        exact ⟨k, Or.inl (hargs c (Option.mem_toList.mp hc))⟩
      · obtain ⟨a, ha, rfl⟩ := List.mem_map.mp hy
        exact ⟨k, hbody a (Option.mem_toList.mp ha)⟩

theorem Node.fromTree_of_mem {f : File} {d : TypeDecl} {m : Member} (hf : File.ofGroup root = .ok f)
    (hd : d ∈ f.types) (hm : m ∈ d.members) : (Node.member m).FromTree root :=
  ⟨_, d.members, ((ElementInvariant.inTree root _).typesFrom_ofGroup
    (ElementInvariant.inTree_cursor root) hf d hd).1, hm⟩

theorem Node.FromTree.within {x y : Node} (hx : x.FromTree root) (h : x.Within y) :
    y.FromTree root := by
  induction h with
  | refl => exact hx
  | tail _ hstep ih => exact ih.part hstep

end Reading

/-! ### Runs of elements -/

/-- The code was read from a run of elements of the group behind an equals sign, without the
comments among them. The run ends with the group or in front of a comma or a semicolon. -/
def Code.FromRun (inside : Inside) (g : Group) (c : Code) : Prop :=
  ∃ front equal run back, g.children = front ++ .token equal :: (run ++ back) ∧
    equal.kind = .equal ∧
    (∀ e, back.head? = some e → [TokenKind.comma, .semi].any (e.is ·) = true) ∧
    Code.ofElements inside (run.filter (!·.isComment)) = .ok c

section Taking

variable {stops : List TokenKind} {s t : Cursor} {e : Element} {es : List Element}

theorem takeUntil_of_stop (h : ∀ e, s.current? = some e → stops.any (e.is ·) = true) :
    takeUntil stops s = .ok [] s := by
  unfold takeUntil
  rw [many, get_bind]
  cases hcurrent : s.current? with
  | none => rfl
  | some e =>
    simp only [h e hcurrent, if_true]
    rfl

theorem takeUntil_of_not_stop (he : s.current? = some e) (hstop : stops.any (e.is ·) = false)
    (h : takeUntil stops s = .ok es t) :
    ∃ es', es = e :: es' ∧ takeUntil stops s.next = .ok es' t := by
  have hnext := Cursor.hasNext_iff.mpr ⟨e, he⟩
  have hadvance : (do advance; return some e : Parser (Option Element)) s =
      .ok (some e) s.next := by
    simp only [advance, bind, EStateM.bind, hnext, if_true]
    rfl
  unfold takeUntil at h ⊢
  rw [many, get_bind] at h
  simp only [he, hstop, Bool.false_eq_true, if_false, hadvance, Cursor.length_rest_next_lt hnext,
    if_true] at h
  split at h
  · next es' t' hmany =>
    cases h
    exact ⟨es', rfl, hmany⟩
  · cases h

theorem exists_rest_next (he : s.current? = some e) :
    ∃ comments, s.rest = e :: (comments ++ s.next.rest) ∧ comments.filter (!·.isComment) = [] := by
  obtain ⟨rest, hrest⟩ : ∃ rest, s.rest = e :: rest := List.head?_eq_some_iff.mp he
  have hbehind : s.next.rest = rest.dropWhile (·.isComment) := by
    unfold Cursor.next
    rw [hrest]
    rfl
  refine ⟨rest.takeWhile (·.isComment), ?_, List.filter_eq_nil_iff.mpr fun x hx => ?_⟩
  · rw [hrest, hbehind, List.takeWhile_append_dropWhile]
  · simp [List.mem_takeWhile_imp hx]

/-- **Taking elements** takes a run of them without its comments, up to an element to stop at. -/
theorem exists_run_of_takeUntil (hs : s.Settled) (h : takeUntil stops s = .ok es t) :
    ∃ run, s.rest = run ++ t.rest ∧ es = run.filter (!·.isComment) ∧
      ∀ e, t.current? = some e → stops.any (e.is ·) = true := by
  induction hn : s.rest.length using Nat.strong_induction_on generalizing s es with
  | _ n ih =>
    subst hn
    by_cases hstop : ∀ e, s.current? = some e → stops.any (e.is ·) = true
    · rw [takeUntil_of_stop hstop] at h
      cases h
      exact ⟨[], rfl, rfl, hstop⟩
    · obtain ⟨e, he, hstop⟩ : ∃ e, s.current? = some e ∧ stops.any (e.is ·) = false := by
        simpa using hstop
      obtain ⟨es', rfl, h'⟩ := takeUntil_of_not_stop he hstop h
      have hnext := Cursor.hasNext_iff.mpr ⟨e, he⟩
      obtain ⟨run, hrun, rfl, hend⟩ :=
        ih _ (Cursor.length_rest_next_lt hnext) (Cursor.lasting_settled s hs) h' rfl
      obtain ⟨comments, hrest, hcomments⟩ := exists_rest_next he
      refine ⟨e :: (comments ++ run), ?_, ?_, hend⟩
      · rw [hrest, hrun, List.cons_append, List.append_assoc]
      · rw [List.filter_cons_of_pos (by simp [hs e he]), List.filter_append, hcomments,
          List.nil_append]

theorem gives_codeUntil_run {inside : Inside} {g : Group} (hs : s.StandsIn g)
    (hequal : s.isAt .equal = true) :
    Gives (codeUntil inside [.comma, .semi]) s.next (fun c s' => s'.StandsIn g ∧ c.FromRun inside g)
      fun _ => True := by
  obtain ⟨equal, hcurrent, hkind⟩ := Cursor.isAt_iff.mp hequal
  obtain ⟨comments, hrest, hcomments⟩ := exists_rest_next hcurrent
  have hnext := Cursor.lasting_standsIn g s hs
  have hkept : Gives (takeUntil [.comma, .semi]) s.next
      (fun es s' => s'.StandsIn g ∧ ∀ e ∈ es, True)
      fun _ => True :=
    gives_takeUntil (fun s _ hs _ _ => ⟨Cursor.lasting_standsIn g s hs, trivial⟩) hnext
  unfold codeUntil
  rw [gives_bind]
  refine gives_of_forall (fun es t htake => ?_) fun _ _ _ => trivial
  obtain ⟨run, hrun, rfl, hend⟩ := exists_run_of_takeUntil hnext.2 htake
  refine gives_ofExcept.mpr ⟨fun c hc => ⟨(hkept.ok htake).1, ?_⟩, fun _ _ => trivial⟩
  refine ⟨g.children.take s.pos, equal, comments ++ run, t.rest, ?_, hkind, hend, ?_⟩
  · have hsplit := List.take_append_drop s.pos g.children
    rwa [← hs.1, hrest, hrun, ← List.append_assoc comments, eq_comm] at hsplit
  · rw [List.filter_append, hcomments, List.nil_append]
    exact hc

end Taking

/-- **The initializers of a field** are read from runs of elements of the group that it stands
in. -/
theorem fromRun_of_fieldForm {inside : Inside} {g : Group} {ctx : BodyContext} {s s' : Cursor}
    {head : FieldHead} {declarators : List Declarator} (hs : s.StandsIn g)
    (h : (fieldForm inside).parse ctx s = .ok (.member (.field head declarators)) s') :
    ∀ v ∈ declarators, ∀ c, v.init = some c → c.FromRun inside g := by
  have w : Walk (Cursor.StandsIn g) fun _ => True :=
    ⟨fun hs _ _ => Cursor.lasting_standsIn g _ hs, fun _ _ => trivial⟩
  have htype : Keeps (Cursor.StandsIn g) (fun _ => True) typeRef :=
    w.typeWith fun _ _ _ _ _ _ => trivial
  have hnode : Gives (Node.member <$> fieldDecl inside) s (fun node _ => ∀ head declarators,
      node = .member (.field head declarators) →
      ∀ v ∈ declarators, ∀ c, v.init = some c → c.FromRun inside g)
      fun _ => True := by
    rw [gives_map]
    refine (w.fieldDecl (fun s hs => gives_codeUntil_run hs) htype (Cursor.lasting_standsIn g)
      hs).mono
      (fun m s' hm head declarators hnode => ?_) fun _ => id
    obtain ⟨-, head', declarators', rfl, hinits⟩ := hm
    cases hnode
    exact hinits
  exact hnode.ok h head declarators rfl

/-- **Every initializer of a file** is read from a run of elements of a group of its tree, with
enough levels for the groups in it. -/
theorem fromRun_of_initializes {root : Group} {f : File} {c : Code} (hf : File.ofGroup root = .ok f)
    (h : f.Initializes c) :
    ∃ levels g, root.Holds (.group g) ∧ depthAll g.children ≤ levels ∧
      c.FromRun (insideAt levels) g := by
  obtain ⟨d, hd, m, hm, head, declarators, hwithin, v, hv, hinit⟩ := h
  obtain ⟨levels, ms, hms, hmem⟩ := (Node.fromTree_of_mem hf hd hm).within hwithin
  obtain ⟨k, ctx, g, form, s, s', m₀, span, hg, hdepth, hs, -, hparse, hform, -, heq⟩ :=
    exists_parse_of_membersFrom hms hmem
  refine ⟨k, g, hg, hdepth, ?_⟩
  cases m₀ with
  | field head₀ declarators₀ =>
    cases heq
    rcases hform with hform | rfl
    · cases hform
    · exact fromRun_of_fieldForm hs hparse v hv c hinit
  | _ => cases heq

end Unnest
