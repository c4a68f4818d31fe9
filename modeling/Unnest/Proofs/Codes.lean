import Unnest.Proofs.Bodies
import Unnest.Proofs.Brackets
import Unnest.Proofs.Lookahead
import Unnest.Plan.Label

/-!
# Code and its source

Code is read from a group of the source, and its pieces are the tokens of that group in order; a
creation stands for the run of tokens from its `new` to the closing brace of its members. `Covers`
states this of pieces and tokens, so that what is printed from code can be compared with the source
it was read from.

* `File.codes`: all code that is read from groups, in classes and anonymous classes of any depth;
* `Covers`, `StandsFor`: pieces against the tokens they stand for, without or with comments left
  out.
-/

namespace Unnest

open Unnest.Parser

/-! ### The codes of a file -/

mutual

/-- The codes inside pieces: arguments of creations, and what is in the members of their classes. -/
def pieceCodes : List Piece → List Code
  | [] => []
  | .token _ :: ps => pieceCodes ps
  | .creation a :: ps => a.codes ++ pieceCodes ps

def Anonymous.codes : Anonymous → List Code
  | ⟨_, _, none, members, _, _⟩ => memberCodes members
  | ⟨_, _, some ⟨place, pieces⟩, members, _, _⟩ =>
    ⟨place, pieces⟩ :: (pieceCodes pieces ++ memberCodes members)

/-- The codes inside the initializers of declarators; an initializer itself is not inside a
group. -/
def declaratorCodes : List Declarator → List Code
  | [] => []
  | ⟨_, _, _, _, none⟩ :: ds => declaratorCodes ds
  | ⟨_, _, _, _, some ⟨_, pieces⟩⟩ :: ds => pieceCodes pieces ++ declaratorCodes ds

/-- The codes of a member: its body or arguments, and what is inside of them. -/
def Member.codes : Member → List Code
  | .field _ declarators => declaratorCodes declarators
  | .method _ none => []
  | .method _ (some ⟨place, pieces⟩) => ⟨place, pieces⟩ :: pieceCodes pieces
  | .constructor _ ⟨place, pieces⟩ => ⟨place, pieces⟩ :: pieceCodes pieces
  | .nested _ members => memberCodes members
  | .initializer _ ⟨place, pieces⟩ => ⟨place, pieces⟩ :: pieceCodes pieces
  | .constant _ none none => []
  | .constant _ (some ⟨place, pieces⟩) none => ⟨place, pieces⟩ :: pieceCodes pieces
  | .constant _ none (some body) => body.codes
  | .constant _ (some ⟨place, pieces⟩) (some body) =>
    ⟨place, pieces⟩ :: (pieceCodes pieces ++ body.codes)

def memberCodes : List Member → List Code
  | [] => []
  | m :: ms => m.codes ++ memberCodes ms

end

/-- The codes of a file: bodies of methods, constructors and initializers, arguments of creations
and of enum constants. -/
def File.codes (f : File) : List Code := f.types.flatMap fun d => memberCodes d.members

theorem mem_memberCodes {ms : List Member} {c : Code} :
    c ∈ memberCodes ms ↔ ∃ m ∈ ms, c ∈ m.codes := by
  induction ms with
  | nil => simp [memberCodes]
  | cons m ms ih => simp [memberCodes, ih]

theorem pieceCodes_append (ps ps' : List Piece) :
    pieceCodes (ps ++ ps') = pieceCodes ps ++ pieceCodes ps' := by
  induction ps with
  | nil => rfl
  | cons p ps ih =>
    cases p with
    | token t => simp [pieceCodes, ih]
    | creation a => simp [pieceCodes, ih]

/-! ### Where a creation ends -/

variable {es : List Element} {c : Creation} {top : Text}

theorem Cursor.Over.drop_of_current {s : Cursor} {e : Element} (h : s.Over es)
    (he : s.current? = some e) : es.drop s.pos = e :: es.drop (s.pos + 1) := by
  unfold Cursor.current? at he
  rw [h] at he
  obtain ⟨hlt, rfl⟩ := List.getElem?_eq_some_iff.mp (List.head?_drop.symm.trans he)
  exact List.drop_eq_getElem_cons hlt

theorem Creation.exists_groups_of_find? (h : Creation.find? es = some c) :
    ∃ front between, es = front ++ .group c.args :: (between ++ .group c.body :: es.drop c.length) ∧
      front.length < c.length := by
  have hover : (Cursor.ofList es {}).Over es := Cursor.Over.settle rfl
  have hbase := (Cursor.lasting_over es).typeName hover
  unfold Creation.find? at h
  simp only at h
  split_ifs at h
  obtain ⟨args, hargs, h⟩ := Option.bind_eq_some_iff.mp h
  obtain ⟨body, hbody, rfl⟩ := Option.map_eq_some_iff.mp h
  generalize (Cursor.ofList es {}).typeName.cursor = s at hbase hargs hbody ⊢
  have hargs := (Cursor.groupAt?_eq_some hargs).1
  have hbody := (Cursor.groupAt?_eq_some hbody).1
  have hlt := Cursor.pos_lt_next (Cursor.hasNext_iff.mpr ⟨_, hargs⟩)
  have hargs' : es.drop s.pos = .group args :: es.drop (s.pos + 1) :=
    Cursor.Over.drop_of_current hbase hargs
  have hbody' : es.drop s.next.pos = .group body :: es.drop (s.next.pos + 1) :=
    Cursor.Over.drop_of_current (Cursor.lasting_over es s hbase) hbody
  have hlength : (es.take s.pos).length < s.next.pos + 1 := by
    have := List.length_take_le s.pos es
    omega
  refine ⟨es.take s.pos, (es.drop (s.pos + 1)).take (s.next.pos - (s.pos + 1)), ?_, hlength⟩
  calc es = es.take s.pos ++ es.drop s.pos := (List.take_append_drop ..).symm
    _ = es.take s.pos ++ .group args :: es.drop (s.pos + 1) := by rw [hargs']
    _ = _ := by
      have hdrop : es.drop s.next.pos = (es.drop (s.pos + 1)).drop (s.next.pos - (s.pos + 1)) := by
        rw [List.drop_drop, Nat.add_sub_cancel' hlt]
      rw [← hbody', hdrop, List.take_append_drop]

theorem Creation.exists_args_of_find? (h : Creation.find? es = some c) :
    ∃ front back, es = front ++ .group c.args :: back ∧ front.length < c.length := by
  obtain ⟨front, between, hsplit, hlength⟩ := Creation.exists_groups_of_find? h
  exact ⟨front, _, hsplit, hlength⟩

/-- The tokens behind `new`: first those up to the arguments, and then, behind the arguments, those
that the creation covers and the others. -/
theorem Creation.flattenAll_of_find? (h : Creation.find? es = some c) (tail : List Token) :
    ∃ front between, flattenAll es ++ tail = front ++ (flattenAll c.args.children ++
      c.args.closing :: (between ++ (flattenAll (es.drop c.length) ++ tail))) := by
  obtain ⟨front, back, hsplit, hlen⟩ := Creation.exists_args_of_find? h
  have hback : es.drop c.length = back.drop (c.length - front.length - 1) := by
    rw [hsplit, List.drop_append, List.drop_of_length_le (Nat.le_of_lt hlen), List.nil_append,
      show c.length - front.length = c.length - front.length - 1 + 1 by omega, List.drop_succ_cons]
    rfl
  refine ⟨flattenAll front ++ [c.args.opening],
    flattenAll (back.take (c.length - front.length - 1)), ?_⟩
  rw [hback, ← List.append_assoc (flattenAll (back.take _)), ← flattenAll_append,
    List.take_append_drop]
  nth_rewrite 1 [hsplit]
  simp [flattenAll_append, flattenAll_group]

/-! ### Pieces against tokens -/

/-- The pieces stand for the tokens in front of `tail`. A creation stands for the tokens from `new`
on: some in front of its arguments, those of its arguments, the closing parenthesis, and those of
its members. -/
inductive Covers (named : Option Text → Prop) : List Piece → List Token → List Token → Prop
  | nil {tail : List Token} : Covers named [] tail tail
  | token {t : Token} {ps : List Piece} {ts tail : List Token} (h : Covers named ps ts tail) :
    Covers named (.token t :: ps) (t :: ts) tail
  | creation {t closing : Token} {base : TypeRef} {place : Place} {args ps : List Piece}
    {members : List Member} {endLine : Int} {label : Option Text}
    {front inner between after tail : List Token}
    (hnew : t.kind = .kwNew) (hclosing : closing.kind.isClosing = true) (hlabel : named label)
    (hargs : Covers named args inner (closing :: (between ++ after)))
    (h : Covers named ps after tail) :
    Covers named (.creation ⟨t.place, base, some ⟨place, args⟩, members, endLine, label⟩ :: ps)
      (t :: (front ++ inner)) tail

namespace Covers

variable {named : Option Text → Prop} {ps ps' : List Piece} {ts mid tail : List Token}

theorem append (h : Covers named ps ts mid) (h' : Covers named ps' mid tail) :
    Covers named (ps ++ ps') ts tail := by
  induction h with
  | nil => exact h'
  | token _ ih => exact .token (ih h')
  | creation hnew hclosing hlabel hargs _ _ ih => exact .creation hnew hclosing hlabel hargs (ih h')

/-- Naming the anonymous classes does not change what pieces stand for. -/
theorem labelPieces {named' : Option Text → Prop} {top : Text}
    (hnamed : ∀ n, named' (some (anonymousName top n))) (h : Covers named ps ts tail) (n : Nat) :
    Covers named' (labelPieces top n ps).1 ts tail := by
  induction h generalizing n with
  | nil => exact .nil
  | token _ ih => exact .token (ih n)
  | creation hnew hclosing hlabel _ _ ihargs ih =>
    exact .creation hnew hclosing (hnamed n) (ihargs (n + 1)) (ih _)

end Covers

/-- Whether the tokens stay apart if nothing but white space is kept between them: there is white
space in front of the second, or it begins with a byte that the first does not go on with. -/
def Token.isApart (t u : Token) : Bool :=
  u.spaceBefore || decide (t.endLine < u.line) || u.text.head?.any fun b => !Lexeme.absorbs t.text b

/-- The pieces stand for the tokens in front of `tail`, as in `Covers`, but comments may be left
out. `prev` is the token directly in front of the pieces, if there is one; where comments are left
out between two tokens, these stay apart. -/
inductive StandsFor (named : Option Text → Prop) :
    Option Token → List Piece → List Token → List Token → Prop
  | nil {prev : Option Token} {tail : List Token} : StandsFor named prev [] tail tail
  | token {prev : Option Token} {t : Token} {ps : List Piece} {ts tail : List Token}
    (h : StandsFor named (some t) ps ts tail) : StandsFor named prev (.token t :: ps) (t :: ts) tail
  | creation {prev : Option Token} {t closing : Token} {base : TypeRef} {place : Place}
    {args ps : List Piece} {members : List Member} {endLine : Int} {label : Option Text}
    {front inner between after tail : List Token}
    (hnew : t.kind = .kwNew) (hclosing : closing.kind.isClosing = true) (hlabel : named label)
    (hargs : StandsFor named none args inner (closing :: (between ++ after)))
    (h : StandsFor named none ps after tail) :
    StandsFor named prev
    (.creation ⟨t.place, base, some ⟨place, args⟩, members, endLine, label⟩ :: ps)
      (t :: (front ++ inner)) tail
  | comment {prev : Option Token} {c : Token} {ps : List Piece} {ts tail : List Token}
    (hc : c.kind = .comment) (hapart : ∀ t u rest, prev = some t → ps = .token u :: rest →
      t.isApart u = true)
    (h : StandsFor named prev ps ts tail) : StandsFor named prev ps (c :: ts) tail

theorem Covers.standsFor_append {named : Option Text → Prop} {ps ps' : List Piece}
    {ts mid tail : List Token} (h : Covers named ps ts mid)
    (h' : ∀ prev, StandsFor named prev ps' mid tail) (prev : Option Token) :
    StandsFor named prev (ps ++ ps') ts tail := by
  induction h generalizing prev ps' tail with
  | nil => exact h' prev
  | token _ ih => exact .token (ih h' _)
  | creation hnew hclosing hlabel _ _ ihargs ih =>
    have hargs := ihargs (fun _ => .nil) none
    rw [List.append_nil] at hargs
    exact .creation hnew hclosing hlabel hargs (ih h' none)

theorem Covers.standsFor {named : Option Text → Prop} {ps : List Piece} {ts tail : List Token}
    (h : Covers named ps ts tail) (prev : Option Token) : StandsFor named prev ps ts tail := by
  have h := h.standsFor_append (fun _ => .nil) prev
  rwa [List.append_nil] at h

namespace StandsFor

variable {named : Option Text → Prop} {prev : Option Token} {ps : List Piece} {ts tail : List Token}

theorem exists_append (h : StandsFor named prev ps ts tail) : ∃ xs, ts = xs ++ tail := by
  induction h with
  | nil => exact ⟨[], rfl⟩
  | @token _ t _ _ _ _ ih =>
    obtain ⟨xs, rfl⟩ := ih
    exact ⟨t :: xs, rfl⟩
  | @creation _ t closing _ _ _ _ _ _ _ front _ between _ _ _ _ _ _ _ ihargs ih =>
    obtain ⟨xs, rfl⟩ := ihargs
    obtain ⟨ys, rfl⟩ := ih
    exact ⟨t :: (front ++ (xs ++ closing :: (between ++ ys))), by simp⟩
  | @comment _ c _ _ _ _ _ _ ih =>
    obtain ⟨xs, rfl⟩ := ih
    exact ⟨c :: xs, rfl⟩

theorem token_of_labelPieces {top : Text} {n : Nat} {u : Token} {rest : List Piece}
    (h : (Unnest.labelPieces top n ps).1 = .token u :: rest) : ∃ rest', ps = .token u :: rest' := by
  rcases ps with _ | ⟨t | a, ps⟩
  · cases h
  · cases h
    exact ⟨ps, rfl⟩
  · cases h

/-- Naming the anonymous classes does not change what pieces stand for. -/
theorem labelPieces {named' : Option Text → Prop} {top : Text}
    (hnamed : ∀ n, named' (some (anonymousName top n))) (h : StandsFor named prev ps ts tail)
    (n : Nat) :
    StandsFor named' prev (labelPieces top n ps).1 ts tail := by
  induction h generalizing n with
  | nil => exact .nil
  | token _ ih => exact .token (ih n)
  | creation hnew hclosing hlabel _ _ ihargs ih =>
    exact .creation hnew hclosing (hnamed n) (ihargs (n + 1)) (ih _)
  | comment hc hapart _ ih =>
    refine .comment hc (fun t u rest hprev hps => ?_) (ih n)
    obtain ⟨rest', hps⟩ := token_of_labelPieces hps
    exact hapart t u rest' hprev hps

end StandsFor

/-! ### The readings of groups -/

/-- The element is somewhere in the tree. -/
def Group.Holds (root : Group) (e : Element) : Prop := ∃ p ∈ root.placed, p.element = e

/-- The code stands for the tokens of a group of the tree. -/
def Located (root : Group) (c : Code) : Prop :=
  ∃ g, root.Holds (.group g) ∧
    ∀ tail, Covers (fun _ => True) c.pieces (flattenAll g.children ++ tail) tail

section Covering

variable {root : Group} {levels : Nat} {inside : Inside}

variable {g : Group}

theorem Group.Holds.children (h : root.Holds (.group g)) :
    ∀ e ∈ g.children, root.Holds e := by
  obtain ⟨p, hp, hg⟩ := h
  exact exists_placedAll_child root.children hp hg

theorem Group.Holds.exists_flatten {e : Element} (h : root.Holds e) :
    ∃ front back, flattenAll root.children = front ++ (e.flatten ++ back) := by
  obtain ⟨p, hp, rfl⟩ := h
  obtain ⟨front, back, hflat, -⟩ := flattenAll_of_placedAll root.children hp
  exact ⟨front, back, by rw [hflat, List.append_assoc]⟩

theorem Group.Holds.isClosing {tokens : List Token} (hroot : Group.ofTokens tokens = .ok root)
    (h : root.Holds (.group g)) : g.closing.kind.isClosing = true := by
  obtain ⟨p, hp, hg⟩ := h
  exact isClosing_of_placed hroot hp hg

/-- The readings give located code from elements with less than `levels` levels of groups. -/
structure Covering (root : Group) (levels : Nat) (inside : Inside) : Prop where
  pieces : ∀ {es ps}, (∀ e ∈ es, root.Holds e ∧ e.depth < levels) → inside.pieces es = .ok ps →
    (∀ tail, Covers (fun _ => True) ps (flattenAll es ++ tail) tail) ∧
    ∀ c ∈ pieceCodes ps, Located root c
  members : ∀ {ctx g ms}, root.Holds (.group g) → depthAll g.children < levels →
    inside.members ctx g = .ok ms → ∀ c ∈ memberCodes ms, Located root c

theorem Group.Holds.below (hg : root.Holds (.group g))
    (hdepth : (Element.group g).depth ≤ levels) :
    (∀ e ∈ g.children, root.Holds e ∧ e.depth < levels) ∧ depthAll g.children < levels := by
  rw [Element.depth_group] at hdepth
  refine ⟨fun e he => ⟨hg.children e he, ?_⟩, hdepth⟩
  have := depth_le_of_mem he
  omega

namespace Covering

variable (h : Covering root levels inside)
include h

theorem ofGroup {g : Group} {c : Code} (hg : root.Holds (.group g))
    (hdepth : (Element.group g).depth ≤ levels) (hc : Code.ofGroup inside g = .ok c) :
    (∀ tail, Covers (fun _ => True) c.pieces (flattenAll g.children ++ tail) tail) ∧
    Located root c ∧
      ∀ c' ∈ pieceCodes c.pieces, Located root c' := by
  unfold Code.ofGroup at hc
  obtain ⟨pieces, hpieces, hc⟩ := Except.bind_eq_ok.mp hc
  cases hc
  obtain ⟨hcovers, hcodes⟩ := h.pieces (hg.below hdepth).1 hpieces
  exact ⟨hcovers, ⟨g, hg, hcovers⟩, hcodes⟩

/-- **Pieces** of elements one level up. -/
theorem piecesWith (hclosing : ∀ g, root.Holds (.group g) → g.closing.kind.isClosing = true)
    {skip : Nat} {es : List Element} {ps : List Piece}
    (hes : ∀ e ∈ es, root.Holds e ∧ e.depth ≤ levels) (hps : piecesWith inside skip es = .ok ps) :
    (∀ tail, Covers (fun _ => True) ps (flattenAll (es.drop skip) ++ tail) tail) ∧
      ∀ c ∈ pieceCodes ps, Located root c := by
  induction es generalizing skip ps with
  | nil =>
    simp only [Unnest.piecesWith, Except.ok.injEq] at hps
    subst hps
    exact ⟨fun tail => by simpa [flattenAll] using .nil, by simp [pieceCodes]⟩
  | cons e es ih =>
    have hes' := fun e' he => hes e' (List.mem_cons_of_mem e he)
    cases skip with
    | succ skip =>
      rw [Unnest.piecesWith] at hps
      exact ih hes' hps
    | zero =>
      cases piecesFrom_of_piecesWith hps with
      | @creation t c typeArgs args members rest ht hfind hargs hmembers hrest =>
        obtain ⟨place, pieces⟩ := args
        obtain ⟨hargsMem, hbodyMem, -⟩ := Creation.find?_groups_mem hfind
        obtain ⟨hinner, hlocated, hinnerCodes⟩ :=
          h.ofGroup (hes' _ hargsMem).1 (hes' _ hargsMem).2 hargs
        obtain ⟨hrestCovers, hrestCodes⟩ := ih hes' hrest
        obtain ⟨hholds, hdepth⟩ := hes' _ hbodyMem
        have hmemberCodes := h.members hholds (hholds.below hdepth).2 hmembers
        refine ⟨fun tail => ?_, fun c' hc' => ?_⟩
        · obtain ⟨front, between, hflat⟩ := Creation.flattenAll_of_find? hfind tail
          change Covers _ _ (t :: (flattenAll es ++ tail)) tail
          rw [hflat]
          exact .creation ht (hclosing _ (hes' _ hargsMem).1) trivial (hinner _) (hrestCovers tail)
        · rw [pieceCodes, Anonymous.codes] at hc'
          rcases List.mem_append.mp hc' with hc' | hc'
          · rcases List.mem_cons.mp hc' with rfl | hc'
            · exact hlocated
            · exact (List.mem_append.mp hc').elim (hinnerCodes c') (hmemberCodes c')
          · exact hrestCodes c' hc'
      | token hrest =>
        obtain ⟨hcovers, hcodes⟩ := ih hes' hrest
        exact ⟨fun tail => .token (hcovers tail), hcodes⟩
      | group hinner hrest =>
        obtain ⟨hg, hdepth⟩ := hes _ List.mem_cons_self
        obtain ⟨hinnerCovers, hinnerCodes⟩ := h.pieces (hg.below hdepth).1 hinner
        obtain ⟨hcovers, hcodes⟩ := ih hes' hrest
        refine ⟨fun tail => ?_, fun c' hc' => ?_⟩
        · rw [List.drop_zero, flattenAll_group_append]
          exact .token ((hinnerCovers _).append (.token (hcovers tail)))
        · rw [List.cons_append, pieceCodes, pieceCodes_append, pieceCodes] at hc'
          rcases List.mem_append.mp hc' with hc' | hc'
          · exact hinnerCodes c' hc'
          · exact hcodes c' hc'

theorem ofElements (hclosing : ∀ g, root.Holds (.group g) → g.closing.kind.isClosing = true)
    {es : List Element} {c : Code} (hes : ∀ e ∈ es, root.Holds e ∧ e.depth ≤ levels)
    (hc : Code.ofElements inside es = .ok c) : ∀ c' ∈ pieceCodes c.pieces, Located root c' := by
  unfold Code.ofElements at hc
  obtain ⟨pieces, hpieces, hc⟩ := Except.bind_eq_ok.mp hc
  cases hc
  exact (h.piecesWith hclosing hes hpieces).2

end Covering

/-- The elements of a tree with at most `levels` levels of groups. -/
def ElementInvariant.inTree (root : Group) (levels : Nat) : ElementInvariant where
  element := fun e => root.Holds e ∧ e.depth ≤ levels
  closing := fun _ => True
  error := fun _ => True
  closing_of_group := fun _ => trivial
  children := fun hg e he => ⟨hg.1.children e he, Nat.le_of_lt ((hg.1.below hg.2).1 e he).2⟩
  error_at := fun _ _ => trivial
  error_closing := fun _ _ => trivial

theorem ElementInvariant.inTree_cursor (root : Group) :
    (inTree root (depthAll root.children)).cursor (.ofGroup root) := by
  refine ⟨trivial, fun e he => ?_⟩
  have hchild := Cursor.rest_settle_subset _ he
  exact ⟨exists_placed_of_mem hchild 0, depth_le_of_mem hchild⟩

/-- **A member** whose parts were read from the tree has located code only. -/
theorem Covering.located_of_readBy (h : Covering root levels inside)
    (hclosing : ∀ g, root.Holds (.group g) → g.closing.kind.isClosing = true) {m : Member}
    (hm : (ElementInvariant.inTree root levels).ReadBy inside m) :
    ∀ c ∈ m.codes, Located root c := by
  have hgroup : ∀ {place pieces}, (ElementInvariant.inTree root levels).FromGroup inside
      ⟨place, pieces⟩ →
      ∀ c ∈ (⟨place, pieces⟩ : Code) :: pieceCodes pieces, Located root c := by
    rintro place pieces ⟨g, ⟨hg, hdepth⟩, hc⟩
    obtain ⟨-, hlocated, hcodes⟩ := h.ofGroup hg hdepth hc
    exact List.forall_mem_cons.mpr ⟨hlocated, hcodes⟩
  have hmembers : ∀ {ms}, (ElementInvariant.inTree root levels).MembersFrom inside ms →
      ∀ c ∈ memberCodes ms, Located root c := by
    rintro ms ⟨ctx, g, ⟨hg, hdepth⟩, hms⟩
    exact h.members hg (hg.below hdepth).2 hms
  have hanonymous : ∀ a : Anonymous,
      (∀ c, a.args = some c → (ElementInvariant.inTree root levels).FromGroup inside c) →
      (ElementInvariant.inTree root levels).MembersFrom inside a.members →
      ∀ c ∈ a.codes, Located root c := by
    rintro ⟨place, base, _ | ⟨argsPlace, pieces⟩, members, endLine, label⟩ hargs hms
    · exact hmembers hms
    · rw [Anonymous.codes, ← List.cons_append]
      exact List.forall_mem_append.mpr ⟨hgroup (hargs _ rfl), hmembers hms⟩
  cases m with
  | field head declarators =>
    change ∀ d ∈ declarators, ∀ c, d.init = some c → _ at hm
    rw [Member.codes]
    induction declarators with
    | nil => simp [declaratorCodes]
    | cons d ds ih =>
      obtain ⟨name, dims, line, col, _ | ⟨place, pieces⟩⟩ := d
      · exact ih fun d hd => hm d (List.mem_cons_of_mem _ hd)
      · obtain ⟨es, hes, hc⟩ := hm _ List.mem_cons_self _ rfl
        rw [declaratorCodes]
        refine List.forall_mem_append.mpr ⟨h.ofElements hclosing hes hc, ih fun d hd => ?_⟩
        exact hm d (List.mem_cons_of_mem _ hd)
  | method head body =>
    rcases body with _ | ⟨place, pieces⟩
    · simp [Member.codes]
    · exact hgroup (hm _ rfl)
  | constructor head body =>
    obtain ⟨place, pieces⟩ := body
    exact hgroup hm
  | nested head members => exact hmembers hm
  | initializer head body =>
    obtain ⟨place, pieces⟩ := body
    exact hgroup hm
  | constant head args body =>
    obtain ⟨hargs, hbody⟩ := hm
    rcases args with _ | ⟨place, pieces⟩ <;> rcases body with _ | body
    · simp [Member.codes]
    · exact hanonymous body (hbody body rfl).1 (hbody body rfl).2
    · exact hgroup (hargs _ rfl)
    · rw [Member.codes, ← List.cons_append]
      refine List.forall_mem_append.mpr ⟨hgroup (hargs _ rfl), ?_⟩
      exact hanonymous body (hbody body rfl).1 (hbody body rfl).2

/-- **The readings of groups** give located code, however deep the groups are nested. -/
theorem covering_insideAt (hclosing : ∀ g, root.Holds (.group g) → g.closing.kind.isClosing = true)
    (levels : Nat) : Covering root levels (insideAt levels) := by
  induction levels with
  | zero =>
    refine ⟨fun {es ps} hes hps => ?_,
      fun {ctx g ms} _ hdepth _ => absurd hdepth (Nat.not_lt_zero _)⟩
    have hnil : es = [] :=
      List.eq_nil_iff_forall_not_mem.mpr fun e he => Nat.not_lt_zero _ (hes e he).2
    subst hnil
    cases hps
    exact ⟨fun tail => .nil, by simp [pieceCodes]⟩
  | succ levels ih =>
    refine ⟨fun {es ps} hes hps => ?_, fun {ctx g ms} hg hdepth hms => ?_⟩
    · exact ih.piecesWith hclosing (fun e he => ⟨(hes e he).1, Nat.le_of_lt_succ (hes e he).2⟩) hps
    · have hcursor : (ElementInvariant.inTree root levels).cursor (.ofGroup g) := by
        refine ⟨trivial, fun e he => ?_⟩
        have hchild : e ∈ g.children := Cursor.rest_settle_subset _ he
        have hle := depth_le_of_mem hchild
        exact ⟨hg.children e hchild, by omega⟩
      have hread :=
        (((ElementInvariant.inTree root levels).reads_insideAt levels).dispatchWith ctx hcursor).1
      simp only [insideAt, Dispatched.toExcept] at hms
      split at hms
      · cases hms
        intro c hc
        obtain ⟨m, hm, hc⟩ := mem_memberCodes.mp hc
        exact ih.located_of_readBy hclosing (hread m hm) c hc
      · cases hms

/-- **The code of a file** is located in its tree, and the names of its classes are identifiers of
it. -/
theorem located_of_file {tokens : List Token} {f : File} (hroot : Group.ofTokens tokens = .ok root)
    (hf : File.ofGroup root = .ok f) :
    ∀ d ∈ f.types, (∀ c ∈ memberCodes d.members, Located root c) ∧
      ∃ t, root.Holds (.token t) ∧ t.kind = .ident ∧ d.head.name = t.text := by
  intro d hd
  obtain ⟨⟨ctx, g, ⟨hg, hdepth⟩, hms⟩, t, ⟨ht, -⟩, hkind, hname⟩ :=
    (ElementInvariant.inTree root _).typesFrom_ofGroup (ElementInvariant.inTree_cursor root) hf d hd
  refine ⟨?_, t, ht, hkind, hname⟩
  exact (covering_insideAt (fun _ hg => hg.isClosing hroot) _).members hg (hg.below hdepth).2 hms

end Covering

/-! ### Naming the classes -/

/-- The code `c'` is one of the codes `cs` with its anonymous classes named. -/
def LabelledFrom (top : Text) (cs : List Code) (c' : Code) : Prop :=
  ∃ c ∈ cs, ∃ n, c'.pieces = (labelPieces top n c.pieces).1

theorem LabelledFrom.mono {cs cs' : List Code} {c : Code} (h : LabelledFrom top cs c)
    (hsub : cs ⊆ cs') : LabelledFrom top cs' c := by
  obtain ⟨c₀, hc₀, hn⟩ := h
  exact ⟨c₀, hsub hc₀, hn⟩

theorem labelledFrom_code {n : Nat} (place : Place) {pieces : List Piece}
    (h : ∀ c ∈ pieceCodes (labelPieces top n pieces).1, LabelledFrom top (pieceCodes pieces) c) :
    ∀ c ∈ (⟨place, (labelPieces top n pieces).1⟩ : Code) :: pieceCodes (labelPieces top n pieces).1,
      LabelledFrom top (⟨place, pieces⟩ :: pieceCodes pieces) c := by
  intro c hc
  rcases List.mem_cons.mp hc with rfl | hc
  · exact ⟨⟨place, pieces⟩, List.mem_cons_self, n, rfl⟩
  · exact (h c hc).mono (List.subset_cons_self _ _)

theorem labelledFrom_append {cs₁ cs₂ cs₁' cs₂' : List Code}
    (h₁ : ∀ c ∈ cs₁', LabelledFrom top cs₁ c) (h₂ : ∀ c ∈ cs₂', LabelledFrom top cs₂ c) :
    ∀ c ∈ cs₁' ++ cs₂', LabelledFrom top (cs₁ ++ cs₂) c := by
  intro c hc
  rcases List.mem_append.mp hc with hc | hc
  · exact (h₁ c hc).mono (List.subset_append_left _ _)
  · exact (h₂ c hc).mono (List.subset_append_right _ _)

mutual

theorem labelledFrom_pieces (top : Text) : ∀ (n : Nat) (ps : List Piece),
    ∀ c ∈ pieceCodes (labelPieces top n ps).1, LabelledFrom top (pieceCodes ps) c
  | _, [], _, hc => by cases hc
  | n, .token _ :: ps, c, hc => labelledFrom_pieces top n ps c hc
  | n, .creation a :: ps, c, hc =>
    labelledFrom_append (labelledFrom_anonymous top n a) (labelledFrom_pieces top _ ps) c hc

theorem labelledFrom_anonymous (top : Text) : ∀ (n : Nat) (a : Anonymous),
    ∀ c ∈ (a.labelled top n).1.codes, LabelledFrom top a.codes c
  | n, ⟨_, _, none, members, _, _⟩, c, hc => labelledFrom_members top (n + 1) members c hc
  | n, ⟨_, _, some ⟨place, pieces⟩, members, _, _⟩, c, hc =>
    labelledFrom_append (labelledFrom_code place (labelledFrom_pieces top (n + 1) pieces))
      (labelledFrom_members top _ members) c hc

theorem labelledFrom_declarators (top : Text) : ∀ (n : Nat) (ds : List Declarator),
    ∀ c ∈ declaratorCodes (labelDeclarators top n ds).1, LabelledFrom top (declaratorCodes ds) c
  | _, [], _, hc => by cases hc
  | n, ⟨_, _, _, _, none⟩ :: ds, c, hc => labelledFrom_declarators top n ds c hc
  | n, ⟨_, _, _, _, some ⟨_, pieces⟩⟩ :: ds, c, hc =>
    labelledFrom_append (labelledFrom_pieces top n pieces) (labelledFrom_declarators top _ ds) c hc

theorem labelledFrom_member (top : Text) : ∀ (n : Nat) (m : Member),
    ∀ c ∈ (m.labelled top n).1.codes, LabelledFrom top m.codes c
  | n, .field _ ds, c, hc => labelledFrom_declarators top n ds c hc
  | _, .method _ none, _, hc => by cases hc
  | n, .method _ (some ⟨place, pieces⟩), c, hc =>
    labelledFrom_code place (labelledFrom_pieces top n pieces) c hc
  | n, .constructor _ ⟨place, pieces⟩, c, hc =>
    labelledFrom_code place (labelledFrom_pieces top n pieces) c hc
  | n, .nested _ members, c, hc => labelledFrom_members top n members c hc
  | n, .initializer _ ⟨place, pieces⟩, c, hc =>
    labelledFrom_code place (labelledFrom_pieces top n pieces) c hc
  | _, .constant _ none none, _, hc => by cases hc
  | n, .constant _ (some ⟨place, pieces⟩) none, c, hc =>
    labelledFrom_code place (labelledFrom_pieces top n pieces) c hc
  | n, .constant _ none (some body), c, hc => labelledFrom_anonymous top n body c hc
  | n, .constant _ (some ⟨place, pieces⟩) (some body), c, hc =>
    labelledFrom_append (labelledFrom_code place (labelledFrom_pieces top n pieces))
      (labelledFrom_anonymous top _ body) c hc

theorem labelledFrom_members (top : Text) : ∀ (n : Nat) (ms : List Member),
    ∀ c ∈ memberCodes (labelMembers top n ms).1, LabelledFrom top (memberCodes ms) c
  | _, [], _, hc => by cases hc
  | n, m :: ms, c, hc =>
    labelledFrom_append (labelledFrom_member top n m) (labelledFrom_members top _ ms) c hc

end

/-- **Naming the classes of a file** changes nothing of its codes but the names in them. -/
theorem exists_code_of_labelled {f : File} {c : Code} (hc : c ∈ f.labelled.codes) :
    ∃ d ∈ f.types, LabelledFrom d.head.name (memberCodes d.members) c := by
  unfold File.codes File.labelled at hc
  obtain ⟨d', hd', hc⟩ := List.mem_flatMap.mp hc
  obtain ⟨d, hd, rfl⟩ := List.mem_map.mp hd'
  exact ⟨d, hd, labelledFrom_members _ 1 d.members c hc⟩

end Unnest
