import Unnest.Proofs.AnonymousNames
import Unnest.Proofs.MemberHeads
import Unnest.Proofs.Runs
import Unnest.Proofs.Rescan
import Unnest.Proofs.Positions

/-!
# Classes are planned in source order

The classes of a plan are listed in the order in which they stand in the source. While the elements
of a source are read, the places of the classes found so far, followed by the places of the tokens
still ahead, are some of the places of all tokens, in the same order (`Cursor.Reached`). Each part
of a member keeps this: a class is found at its first token, and the classes inside a group are
found among the tokens of the group.

* `Cursor.Reached`: the classes found so far and the tokens ahead;
* `Inside.InOrder.gives_form`, `Inside.InOrder.run`: one member, and the members of a range;
* `Plan.ofFile_lists_classes_in_order`: the order of the classes and the names of the anonymous
  ones.
-/

namespace Unnest

open Unnest.Parser Text
open scoped List

def tokenPlaces (es : List Element) : List Place := (flattenAll es).map (·.place)

theorem tokenPlaces_append (es es' : List Element) :
    tokenPlaces (es ++ es') = tokenPlaces es ++ tokenPlaces es' := by
  rw [tokenPlaces, flattenAll_append, List.map_append]
  rfl

theorem tokenPlaces_cons (e : Element) (es : List Element) :
    tokenPlaces (e :: es) = e.flatten.map (·.place) ++ tokenPlaces es := by
  rw [tokenPlaces, flattenAll, List.map_append]
  rfl

theorem tokenPlaces_eq_flatMap (es : List Element) :
    tokenPlaces es = es.flatMap fun e => e.flatten.map (·.place) := by
  induction es with
  | nil => rfl
  | cons e es ih => rw [tokenPlaces_cons, List.flatMap_cons, ih]

theorem tokenPlaces_sublist {es es' : List Element} (h : es <:+ es') :
    tokenPlaces es <+ tokenPlaces es' := by
  obtain ⟨front, rfl⟩ := h
  rw [tokenPlaces_append]
  exact List.sublist_append_right _ _

theorem tokenPlaces_children (g : Group) :
    tokenPlaces g.children <+ (Element.group g).flatten.map (·.place) := by
  rw [Element.flatten_group]
  exact ((List.sublist_append_left _ _).trans (List.sublist_cons_self _ _)).map _

theorem place_sublist (e : Element) : [e.firstToken.place] <+ e.flatten.map (·.place) := by
  cases e with
  | token t => exact List.Sublist.refl _
  | group g =>
    rw [Element.flatten_group]
    exact List.singleton_sublist.mpr List.mem_cons_self

/-- The places of classes in a tree. -/
abbrev places (nodes : List ClassNode) : List Place := nodes.map (·.place)

theorem places_withSpan (span : Span) (m : Member) :
    places (m.withSpan span).nodes = places m.nodes := by
  cases m with
  | field head declarators => rfl
  | method head body => simp only [Member.withSpan, Member.nodes_method]
  | constructor head body => simp only [Member.withSpan, Member.nodes_constructor]
  | nested head members => rfl
  | initializer head body => simp only [Member.withSpan, Member.nodes_initializer]
  | constant head args body => simp only [Member.withSpan, Member.nodes_constant]

/-! ### What has been found -/

namespace Cursor

variable {all found : List Place} {s : Cursor}

/-- The classes at the places `found` and then the tokens still ahead stand at some of the places
`all`, in the same order. -/
def Reached (all found : List Place) (s : Cursor) : Prop := found ++ tokenPlaces s.rest <+ all

theorem rest_next_suffix (s : Cursor) : s.next.rest <:+ s.rest.tail := by
  obtain ⟨pos, rest, stop, closing⟩ := s
  cases rest with
  | nil => exact List.suffix_refl _
  | cons e es => exact List.dropWhile_suffix _

theorem lasting_reached (all found : List Place) : Lasting (Reached all found) := by
  intro s hs
  refine List.Sublist.trans ?_ hs
  exact (tokenPlaces_sublist (s.rest_next_suffix.trans (List.tail_suffix _))).append_left found

theorem Reached.behind {e : Element} {more : List Place} (h : Reached all found s)
    (he : s.current? = some e) (hmore : more <+ e.flatten.map (·.place)) :
    Reached all (found ++ more) s.next := by
  refine List.Sublist.trans ?_ h
  obtain ⟨es, hrest⟩ := List.head?_eq_some_iff.mp he
  rw [hrest, tokenPlaces_cons, List.append_assoc]
  refine (hmore.append ?_).append_left found
  have hsuffix := s.rest_next_suffix
  rw [hrest] at hsuffix
  exact tokenPlaces_sublist hsuffix

theorem Reached.mono {found' : List Place} (h : Reached all found s) (hfound : found' <+ found) :
    Reached all found' s :=
  (hfound.append_right _).trans h

theorem reached_ofGroup (g : Group) : (Cursor.ofGroup g).Reached (tokenPlaces g.children) [] :=
  tokenPlaces_sublist (List.dropWhile_suffix _)

end Cursor

/-! ### Members -/

/-- The classes that are found inside a group stand among its tokens, in the same order. -/
structure Inside.InOrder (inside : Inside) : Prop where
  pieces : ∀ {es ps}, inside.pieces es = .ok ps → places (pieceNodes ps) <+ tokenPlaces es
  members : ∀ {ctx g ms}, inside.members ctx g = .ok ms →
    places (memberNodes ms) <+ tokenPlaces g.children

namespace Inside.InOrder

variable {inside : Inside} (h : inside.InOrder) {all found : List Place} {s t : Cursor}
include h

theorem ofGroup {g : Group} {c : Code} (hc : Code.ofGroup inside g = .ok c) :
    places c.nodes <+ tokenPlaces g.children := by
  obtain ⟨ps, hps, hc⟩ := Except.bind_eq_ok.mp hc
  cases hc
  exact h.pieces hps

theorem piecesWith {skip : Nat} {es : List Element} {ps : List Piece}
    (hps : piecesWith inside skip es = .ok ps) :
    places (pieceNodes ps) <+ tokenPlaces (es.drop skip) := by
  induction es generalizing skip ps with
  | nil =>
    rw [Unnest.piecesWith] at hps
    cases hps
    exact List.nil_sublist _
  | cons e es ih =>
    cases skip with
    | succ skip =>
      rw [Unnest.piecesWith] at hps
      exact ih hps
    | zero =>
      rw [List.drop_zero, tokenPlaces_cons]
      cases piecesFrom_of_piecesWith hps with
      | @creation t c typeArgs args members rest ht hfind hargs hmembers hrest =>
        obtain ⟨front, between, hsplit, -⟩ := Creation.exists_groups_of_find? hfind
        have hes : tokenPlaces c.args.children ++
            (tokenPlaces c.body.children ++ tokenPlaces (es.drop c.length)) <+
            tokenPlaces es := by
          rw [hsplit, tokenPlaces_append, tokenPlaces_cons, tokenPlaces_append, tokenPlaces_cons]
          refine List.Sublist.trans ?_ (List.sublist_append_right _ _)
          refine (tokenPlaces_children c.args).append
            (List.Sublist.trans ?_ (List.sublist_append_right _ _))
          rw [← hsplit]
          exact (tokenPlaces_children c.body).append (List.Sublist.refl _)
        rw [pieceNodes, Anonymous.nodes_eq]
        simp only [places, List.map_append, List.map_cons, List.append_assoc, List.cons_append]
        exact ((h.ofGroup hargs).append ((h.members hmembers).append (ih hrest))).trans
          hes |>.cons_cons _
      | token hrest => exact (ih hrest).trans (List.sublist_append_right _ _)
      | @group g inner rest hinner hrest =>
        rw [List.cons_append, pieceNodes, pieceNodes_append, places, List.map_append]
        exact ((h.pieces hinner).trans (tokenPlaces_children g)).append (ih hrest)

theorem gives_block {what : Text} {build : Code → Member} (hbuild : ∀ c, (build c).nodes = c.nodes)
    (hs : s.Reached all found) :
    Gives (block inside what build) s (fun m t => t.Reached all (found ++ places m.nodes)) fun _ =>
    True := by
  refine gives_of_forall (fun m t hm => ?_) fun _ _ _ => trivial
  obtain ⟨g, hg, -, c, hc, rfl, rfl⟩ := block_eq_ok.mp hm
  rw [hbuild]
  exact hs.behind hg ((h.ofGroup hc).trans (tokenPlaces_children g))

theorem gives_methodDecl (ctx : BodyContext) (hs : s.Reached all found) :
    Gives (methodDecl inside ctx) s (fun m t => t.Reached all (found ++ places m.nodes)) fun _ =>
    True := by
  have hlasting := Cursor.lasting_reached all found
  rw [methodDecl_eq]
  refine (hlasting.walk.methodHead s hs).bind fun head u hu => ?_
  rw [gives_get_ite]
  refine ⟨fun _ => h.gives_block (fun c => Member.nodes_method head (some c)) hu, fun _ => ?_⟩
  unfold bodiless
  rw [gives_bind, gives_expect]
  refine ⟨fun _ _ _ => ?_, fun _ => trivial⟩
  have hnext : u.next.Reached all (found ++ []) := by
    rw [List.append_nil]
    exact hlasting u hu
  simp only [gives_ite, gives_pure, Member.nodes_method]
  exact ⟨fun _ => hnext, fun _ => hnext⟩

theorem gives_constructorDecl (hs : s.Reached all found) :
    Gives (constructorDecl inside) s (fun m t => t.Reached all (found ++ places m.nodes)) fun _ =>
    True := by
  rw [constructorDecl_eq]
  refine ((Cursor.lasting_reached all found).walk.constructorHead s hs).bind fun head u hu => ?_
  exact h.gives_block (Member.nodes_constructor head) hu

theorem gives_initializerDecl (isStatic : Bool) (hs : s.Reached all found) :
    Gives (initializerDecl inside isStatic) s (fun m t => t.Reached all (found ++ places m.nodes))
    fun _ => True := by
  rw [initializerDecl_eq]
  refine ((Cursor.lasting_reached all found).walk.initializerHead isStatic s hs).bind
    fun head u hu => ?_
  exact h.gives_block (Member.nodes_initializer head) hu

theorem gives_typeDecl (hs : s.Reached all found) :
    Gives (typeDecl inside) s (fun d t => t.Reached all (found ++ places d.nodes)) fun _ =>
    True := by
  have hfirst : s.hasNext = true → s.next.Reached all (found ++ [s.here.place]) := by
    intro hnext
    obtain ⟨e, he⟩ := Cursor.hasNext_iff.mp hnext
    have hhere : s.here = e.firstToken := by simp [Cursor.here, he]
    rw [hhere]
    exact hs.behind he (place_sublist e)
  rw [typeDecl_eq]
  refine (gives_typeHead (Cursor.lasting_reached all _) hfirst).bind fun head u hu => ?_
  obtain ⟨hu, hplace⟩ := hu
  rw [gives_bind, gives_expectGroup]
  refine ⟨fun g hg _ => ?_, fun _ => trivial⟩
  rw [gives_bind, gives_ofExcept]
  refine ⟨fun members hmembers => gives_pure.mpr ?_, fun _ _ => trivial⟩
  have hbehind := hu.behind hg ((h.members hmembers).trans (tokenPlaces_children g))
  rw [← hplace, List.append_assoc] at hbehind
  exact hbehind

theorem gives_codeUntil (stops : List TokenKind) (hs : s.Reached all found) :
    Gives (codeUntil inside stops) s (fun c t => t.Reached all (found ++ places c.nodes)) fun _ =>
    True := by
  have hstep : ∀ found s, s.Reached all found → Gives (takeElement stops) s
      (fun a t => t.Reached all (found ++ a.elim [] fun e => e.flatten.map (·.place))) fun _ =>
      True := by
    intro found s hs
    have hstop : s.Reached all (found ++ []) := by rwa [List.append_nil]
    unfold Gives takeElement
    cases he : s.current? with
    | none => exact hstop
    | some e =>
      simp only
      split_ifs
      · exact hstop
      · exact hs.behind he (List.Sublist.refl _)
  have htake := gives_many_collect (fun found s => s.Reached all found) hstep hs
  unfold codeUntil
  rw [gives_bind, takeUntil_eq_many]
  refine htake.mono (fun es t ht => ?_) fun _ => id
  rw [gives_ofExcept]
  refine ⟨fun c hc => ?_, fun _ _ => trivial⟩
  obtain ⟨ps, hps, hc⟩ := Except.bind_eq_ok.mp hc
  cases hc
  rw [← tokenPlaces_eq_flatMap] at ht
  exact ht.mono ((h.piecesWith hps).append_left found)

theorem gives_declarator (hs : s.Reached all found) :
    Gives (declarator inside) s
    (fun d t => t.Reached all (found ++ places (d.init.elim [] Code.nodes)))
      fun _ => True := by
  have hlasting := Cursor.lasting_reached all found
  have w := hlasting.walk
  unfold declarator
  refine (w.expect .ident _ (by decide) s hs).bind fun name s₁ h₁ => ?_
  refine (w.dims s₁ h₁).bind fun dims s₂ h₂ => ?_
  rw [gives_get_ite]
  refine ⟨fun _ => ?_, fun _ => gives_pure.mpr ?_⟩
  · rw [gives_bind, gives_advance]
    refine ⟨fun _ => ?_, fun _ => trivial⟩
    refine (h.gives_codeUntil _ (hlasting s₂ h₂)).bind fun c s₃ h₃ => ?_
    simp only [gives_ite]
    exact ⟨fun _ => gives_bind.mpr (gives_fail.mpr trivial), fun _ => gives_pure.mpr h₃⟩
  · change s₂.Reached all (found ++ [])
    rwa [List.append_nil]

theorem gives_fieldDecl (hs : s.Reached all found) :
    Gives (fieldDecl inside) s (fun m t => t.Reached all (found ++ places m.nodes)) fun _ =>
    True := by
  have hlasting := Cursor.lasting_reached all
  have w := (hlasting found).walk
  unfold fieldDecl
  rw [gives_bind, gives_get]
  refine (w.modifiers s hs).bind fun modifiers s₁ h₁ => ?_
  refine (w.typeWith (fun _ _ _ _ _ _ => trivial) s₁ h₁).bind fun type s₂ h₂ => ?_
  refine (h.gives_declarator h₂).bind fun first s₃ h₃ => ?_
  have hstep : ∀ found s, s.Reached all found → Gives (do
      if (← get).isAt .comma then
        advance
        return some (← declarator inside)
      else
        return none) s
      (fun a t => t.Reached all (found ++ a.elim [] fun d => places (d.init.elim [] Code.nodes)))
      fun _ => True := by
    intro found s hs
    rw [gives_get_ite]
    refine ⟨fun _ => ?_, fun _ => gives_pure.mpr ?_⟩
    · rw [gives_bind, gives_advance]
      refine ⟨fun _ => ?_, fun _ => trivial⟩
      exact (h.gives_declarator (hlasting found s hs)).bind fun _ _ h => gives_pure.mpr h
    · change s.Reached all (found ++ [])
      rwa [List.append_nil]
  refine (gives_many_collect (fun found s => s.Reached all found) hstep h₃).bind
    fun more s₄ h₄ => ?_
  rw [gives_bind, gives_expect]
  refine ⟨fun _ _ _ => gives_pure.mpr ?_, fun _ => trivial⟩
  have hnodes : places
      (Member.field { place := s.here.place, modifiers, type } (first :: more)).nodes =
      places (first.init.elim [] Code.nodes) ++ more.flatMap fun d =>
      places (d.init.elim [] Code.nodes) := by
    rw [Member.nodes, declaratorNodes_eq, places, List.map_flatMap, List.flatMap_cons]
  rw [hnodes, ← List.append_assoc]
  exact hlasting _ s₄ h₄

omit h in
/-- The name of a constant is the place of its body. -/
theorem gives_constantHead (hs : s.Reached all found) :
    Gives constantHead s (fun (_, name) t => t.Reached all (found ++ [name.place])) fun _ =>
    True := by
  have w := (Cursor.lasting_reached all found).walk
  have hannotations : Gives constantAnnotations s (fun _ t => t.Reached all found) fun _ =>
      True := by
    refine (gives_many (fun s => s.Reached all found) (A := fun _ => True) (fun s hs => ?_) hs).mono
      (fun _ _ h => h.1) fun _ => id
    rw [gives_get_ite]
    refine ⟨fun _ => ?_, fun _ => gives_pure.mpr ⟨hs, by simp⟩⟩
    exact (w.annotationText s hs).bind fun _ _ h => gives_pure.mpr ⟨h, by simp⟩
  unfold constantHead
  rw [gives_bind, gives_get]
  refine hannotations.bind fun annotations s₁ h₁ => ?_
  rw [gives_bind, gives_expect]
  exact ⟨fun name hname _ => gives_pure.mpr (h₁.behind hname (place_sublist (.token name))),
    fun _ => trivial⟩

theorem gives_constantArgs (hs : s.Reached all found) :
    Gives (constantArgs inside) s
    (fun args t => t.Reached all (found ++ places (args.elim [] Code.nodes)))
      fun _ => True := by
  unfold constantArgs
  rw [gives_get_ite]
  refine ⟨fun _ => ?_, fun _ => gives_pure.mpr ?_⟩
  · rw [gives_bind, gives_expectGroup]
    refine ⟨fun g hg _ => ?_, fun _ => trivial⟩
    rw [gives_bind, gives_ofExcept]
    refine ⟨fun c hc => gives_pure.mpr ?_, fun _ _ => trivial⟩
    exact hs.behind hg ((h.ofGroup hc).trans (tokenPlaces_children g))
  · change s.Reached all (found ++ [])
    rwa [List.append_nil]

/-- A constant without a body leaves its name out. -/
theorem gives_constantBody (ctx : BodyContext) (head : ConstantHead) (name : Token)
    (args : Option Code)
    (hs : s.Reached all (found ++ [name.place] ++ places (args.elim [] Code.nodes))) :
    Gives (constantBody inside ctx head name args) s
    (fun m t => t.Reached all (found ++ places m.nodes))
      fun _ => True := by
  unfold constantBody
  rw [gives_get_ite]
  refine ⟨fun _ => ?_, fun _ => gives_pure.mpr ?_⟩
  · rw [gives_bind, gives_expectGroup]
    refine ⟨fun g hg _ => ?_, fun _ => trivial⟩
    rw [gives_bind, gives_ofExcept]
    refine ⟨fun members hmembers => gives_pure.mpr ?_, fun _ _ => trivial⟩
    have hbehind := hs.behind hg ((h.members hmembers).trans (tokenPlaces_children g))
    rw [Member.nodes_constant, Option.elim_none, List.nil_append, Option.elim_some,
      Anonymous.nodes_eq]
    simpa only [places, ClassNode.place, List.map_cons, List.map_append, List.append_assoc,
      List.cons_append, List.nil_append] using hbehind
  · rw [Member.nodes_constant, Option.elim_none, List.append_nil]
    exact hs.mono ((List.sublist_append_left found _).append (List.Sublist.refl _))

theorem gives_constantDecl (ctx : BodyContext) (hs : s.Reached all found) :
    Gives (constantDecl inside ctx) s (fun m t => t.Reached all (found ++ places m.nodes)) fun _ =>
    True := by
  rw [constantDecl_eq]
  refine (gives_constantHead hs).bind fun (head, name) s₁ h₁ => ?_
  refine (h.gives_constantArgs h₁).bind fun args s₂ h₂ => ?_
  refine (h.gives_constantBody ctx head name args h₂).bind fun m s₃ h₃ => ?_
  unfold optionalComma
  simp only [gives_bind, gives_get, gives_ite, gives_advance, gives_pure]
  exact ⟨fun _ => ⟨fun _ => Cursor.lasting_reached all _ s₃ h₃, fun _ => trivial⟩, fun _ => h₃⟩

theorem gives_form {form : MemberForm} (hform : form ∈ constantForm inside :: memberForms inside)
    (ctx : BodyContext) (hs : s.Reached all found) :
    Gives (form.parse ctx) s
    (fun node t => ∀ m, node = .member m → t.Reached all (found ++ places m.nodes))
      fun _ => True :=
  gives_parse hform (h.gives_constantDecl ctx hs) (h.gives_fieldDecl hs) (h.gives_methodDecl ctx hs)
    (h.gives_typeDecl hs) (h.gives_initializerDecl · hs) (h.gives_constructorDecl hs)

theorem run {ctx ctx' : BodyContext} {members : List Member}
    (hrun : Run inside ctx s (members.map .member) ctx' t) (hs : s.Reached all found) :
    t.Reached all (found ++ places (memberNodes members)) := by
  generalize hnodes : members.map Node.member = nodes at hrun
  induction hrun generalizing members found with
  | done ctx s =>
    obtain rfl := List.map_eq_nil_iff.mp hnodes
    change s.Reached all (found ++ [])
    rwa [List.append_nil]
  | semi _ _ ih => exact ih (Cursor.lasting_reached all found _ hs) hnodes
  | @read ctx ctx₁ ctx' s s₁ t node nodes hnext hsemi hstep _ ih =>
    obtain ⟨m, ms, rfl, hm, hms⟩ := List.map_eq_cons_iff.mp hnodes
    obtain ⟨form, decided, ctx₂, m₀, hsel, hparse, hnode, -⟩ := memberStep_eq_read hstep
    have hread := (h.gives_form (selectForm_eq_some hsel).1 ctx₂ hs).ok hparse m₀ rfl
    rw [hnode] at hm
    cases hm
    have hrest := ih hread hms
    rw [← places_withSpan ⟨s.pos, s₁.pos⟩ m₀, List.append_assoc, ← List.map_append] at hrest
    exact hrest

end Inside.InOrder

/-- **What is in groups**, at all depths, is found in order. -/
theorem inOrder_insideAt (levels : Nat) : (insideAt levels).InOrder := by
  induction levels with
  | zero =>
    refine ⟨fun h => ?_, fun h => ?_⟩ <;>
    · cases h
      exact List.nil_sublist _
  | succ levels ih =>
    refine ⟨fun hps => ih.piecesWith hps, fun {ctx g ms} hms => ?_⟩
    obtain ⟨ctx', t, hrun, -⟩ := toExcept_dispatchWith_eq_ok.mp hms
    have hfirst : (Cursor.ofGroup g).Reached (tokenPlaces g.children) [] := Cursor.reached_ofGroup g
    exact (List.sublist_append_left _ _).trans (ih.run hrun hfirst)

/-! ### Files -/

theorem Inside.InOrder.gives_file {inside : Inside} (h : inside.InOrder) {all : List Place}
    {s : Cursor} (hs : s.Reached all []) :
    Gives (file inside) s (fun f t => t.Reached all (places f.nodes)) fun _ => True := by
  have hlasting := Cursor.lasting_reached all
  have w := (hlasting []).walk
  unfold file
  rw [gives_bind, gives_get]
  refine (w.packageDecl (hlasting []) s hs).bind fun package s₁ h₁ => ?_
  refine (gives_many (fun s => s.Reached all []) (A := fun _ => True) (fun s hs => ?_) h₁).bind
    fun imports s₂ h₂ => ?_
  · rw [gives_get_ite]
    refine ⟨fun _ => ?_, fun _ => gives_pure.mpr ⟨hs, by simp⟩⟩
    exact (w.importDecl (hlasting []) s hs).bind fun _ _ h => gives_pure.mpr ⟨h, by simp⟩
  have hstep : ∀ found s, s.Reached all found → Gives (do
      if (← get).hasNext then
        return some (← topLevel inside)
      else
        return none) s
      (fun a t => t.Reached all (found ++ a.elim [] fun d => d.elim [] fun d => places d.nodes))
      fun _ => True := by
    intro found s hs
    have hstop : ∀ {t : Cursor}, t.Reached all found → t.Reached all (found ++ []) := by
      intro t ht
      rwa [List.append_nil]
    rw [gives_get_ite]
    refine ⟨fun _ => ?_, fun _ => gives_pure.mpr (hstop hs)⟩
    unfold topLevel
    rw [gives_bind, gives_bind, gives_get, gives_ite]
    refine ⟨fun _ => ?_, fun _ => gives_ite.mpr ⟨fun _ => ?_, fun _ => gives_fail.mpr trivial⟩⟩
    · rw [gives_bind, gives_advance]
      exact ⟨fun _ => gives_pure.mpr (gives_pure.mpr (hstop (hlasting found s hs))),
        fun _ => trivial⟩
    · refine (h.gives_typeDecl hs).bind fun d t hd => ?_
      rw [gives_bind, gives_get, gives_pure, gives_pure]
      exact hd
  refine (gives_many_collect (fun found s => s.Reached all found) hstep h₂.1).bind
    fun types s₃ h₃ => ?_
  have hnodes : places ((types.filterMap id).flatMap TypeDecl.nodes) =
      types.flatMap fun d => d.elim [] fun d => places d.nodes := by
    rw [flatMap_filterMap, places, List.map_flatMap]
    refine congrArg (List.flatMap · types) (funext fun d => ?_)
    cases d <;> rfl
  rw [gives_pure, File.nodes, hnodes]
  exact h₃

/-- **The classes of a file** stand at the places of some of its tokens, in the same order. -/
theorem File.places_sublist {root : Group} {f : File} (hf : File.ofGroup root = .ok f) :
    places f.nodes <+ tokenPlaces root.children := by
  have hgives :=
    (inOrder_insideAt (depthAll root.children)).gives_file (Cursor.reached_ofGroup root)
  unfold File.ofGroup runOn at hf
  split at hf
  · next f' s' hrun =>
    cases hf
    exact (List.sublist_append_left _ _).trans (hgives.ok hrun)
  · cases hf

def Place.position (p : Place) : Int ×ₗ Int := toLex (p.line, p.col)

theorem pairwise_tokenPlaces {source : Source} {root : Group}
    (h : Group.ofSource source = .ok root) :
    (tokenPlaces root.children).Pairwise fun p q => p.position < q.position := by
  obtain ⟨tokens, htokens, hroot⟩ := Except.bind_eq_ok.mp h
  obtain ⟨scanned, hscan, rfl⟩ := lex_eq_ok_iff_scanLines.mp htokens
  have hls : ∀ l ∈ lines source.text, newline ∉ l := fun l hl => newline_notMem_of_mem_lines hl
  rw [← splitLines_unlines hls, scanLines_splitLines] at hscan
  obtain ⟨back, hback⟩ := exists_append_of_ofTokens rfl hroot
  have hlaid : Laid source.name [] true (unlines source.text.lines) scanned :=
    laid_of_scanText hscan
  have hordered := hlaid.pairwise
  rw [hback, List.pairwise_append] at hordered
  rw [tokenPlaces, List.pairwise_map]
  exact hordered.1.imp fun h => h.1

/-- Where a class is declared. -/
def Origin.place : Origin → Place
  | .named head => head.place
  | .anonymous place _ => place

theorem places_of_origins {nodes : List ClassNode} {cs : List ClassInfo}
    (h : cs.map (·.origin) = nodes.map (·.origin)) : cs.map (·.place) = places nodes := by
  have hplaces := congrArg (List.map Origin.place) h
  rw [List.map_map, List.map_map] at hplaces
  have hnodes : nodes.map (Origin.place ∘ ClassNode.origin) = places nodes :=
    List.map_congr_left fun n _ => by cases n <;> rfl
  exact hplaces.trans hnodes

/-- **The classes of a plan** are the classes in the tree of the file, in the order in which they
stand in the source. In this order, the anonymous classes anywhere inside a top-level class have its
name with `_1`, `_2` and so on behind it. -/
theorem Plan.ofFile_lists_classes_in_order {source : Source} {known : List Text} {f : File}
    {p : Plan} (hf : File.ofSource source = .ok f) (hp : Plan.ofFile known f.labelled = .ok p) :
    Described f.labelled.nodes p.classes ∧
    (p.classes.Pairwise fun c d => c.place.position < d.place.position) ∧
    ∀ t ∈ p.tops, (p.anonymousInside t).map p.emitted =
      (List.range (p.anonymousInside t).length).map fun n =>
      anonymousName (p.simpleName t) (n + 1) := by
  obtain ⟨root, hroot, hfile⟩ := Except.bind_eq_ok.mp hf
  have hdescribed := Plan.described_ofFile hp
  have hplaces : p.classes.map (·.place) = places f.nodes :=
    places_of_origins (hdescribed.origins.trans f.origins_labelled)
  have hordered := (pairwise_tokenPlaces hroot).sublist (File.places_sublist hfile)
  rw [← hplaces, List.pairwise_map] at hordered
  exact ⟨hdescribed, hordered, fun t ht => Plan.emitted_anonymous hp ht⟩

/-- An enum constant with arguments and a body, with anonymous classes in both. -/
def argumentsAndBody : Source :=
  ⟨lit "E", lit "enum E { A(new T() {}) { T t = new T() {}; } }\nclass T {}"⟩

/-- The class of the body is declared in front of the one in the arguments. -/
theorem ofFile_lists_arguments_behind_body : ∃ f p, File.ofSource argumentsAndBody = .ok f ∧
    Plan.ofFile [] f.labelled = .ok p ∧
    p.classes.map (fun c => (c.emitted, c.place.line, c.place.col)) =
      [(lit "E", 1, 1), (lit "E_1", 1, 10), (lit "E_2", 1, 12), (lit "E_3", 1, 32),
        (lit "T", 2, 1)] ∧
    Described f.labelled.nodes p.classes ∧
    (p.classes.Pairwise fun c d => c.place.position < d.place.position) ∧
    0 ∈ p.tops ∧ (p.anonymousInside 0).map p.emitted = [lit "E_1", lit "E_2", lit "E_3"] := by
  have hview :
      ((File.ofSource argumentsAndBody).bind fun f => (Plan.ofFile [] f.labelled).map fun p =>
      (p.classes.map fun c => (c.emitted, c.place.line, c.place.col), p.tops, p.anonymousInside 0,
        p.simpleName 0)) = .ok
        ([(lit "E", 1, 1), (lit "E_1", 1, 10), (lit "E_2", 1, 12), (lit "E_3", 1, 32),
          (lit "T", 2, 1)], [0, 4], [1, 2, 3], lit "E") := by
    cbv
  obtain ⟨f, hf, hview⟩ := Except.bind_eq_ok.mp hview
  obtain ⟨p, hp, hview⟩ := Except.map_eq_ok.mp hview
  simp only [Prod.mk.injEq] at hview
  obtain ⟨hclasses, htops, hinside, hname⟩ := hview
  have htop : 0 ∈ p.tops := by simp [htops]
  obtain ⟨hdescribed, hordered, hnames⟩ := Plan.ofFile_lists_classes_in_order hf hp
  refine ⟨f, p, hf, hp, hclasses, hdescribed, hordered, htop, ?_⟩
  rw [hnames 0 htop, hinside, hname]
  decide +kernel

end Unnest
