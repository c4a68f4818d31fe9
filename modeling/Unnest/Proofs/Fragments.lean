import Unnest.Proofs.Creations
import Unnest.Header.Text

/-!
# Headers in fragments

The text of a header is put together from words of its own, tokens of the source and creations of
anonymous classes. Here each writer of a part of a header is given again as a list of such
fragments, which remember what they are. Where all anonymous classes have names, the writer does not
fail, and its text is that of the fragments.

* `Fragment`, `fragmentsText`, `fragmentsCreated`: fragments, their text and the creations among
  them;
* `Header.text_eq`: a header is the text of its fragments.
-/

namespace Unnest

/-! ### Fragments -/

/-- A part of the text of a header. -/
inductive Fragment
  /-- Words of the header itself, and white space. -/
  | words (text : Text)
  /-- A token of the source. -/
  | token (t : Token)
  /-- The creation of an anonymous class. -/
  | creation (a : Anonymous) (args : List Fragment)
  /-- The creation of an enum constant without a body, an object of the class with this name. -/
  | object (name : Text) (args : List Fragment)

mutual

def Fragment.text : Fragment → Text
  | .words text => text
  | .token t => t.text
  | .creation a args => lit "new " ++ a.label.getD [] ++ lit "(" ++ fragmentsText args ++ lit ")"
  | .object name args => lit "new " ++ name ++ lit "(" ++ fragmentsText args ++ lit ")"

def fragmentsText : List Fragment → Text
  | [] => []
  | x :: xs => x.text ++ fragmentsText xs

end

mutual

def Fragment.created : Fragment → List Anonymous
  | .words _ => []
  | .token _ => []
  | .creation a args => a :: fragmentsCreated args
  | .object _ args => fragmentsCreated args

def fragmentsCreated : List Fragment → List Anonymous
  | [] => []
  | x :: xs => x.created ++ fragmentsCreated xs

end

mutual

/-- What a fragment has of the words of the header itself. -/
def Fragment.own : Fragment → List Text
  | .words text => [text]
  | .token _ => []
  | .creation _ args => fragmentsOwn args
  | .object _ args => fragmentsOwn args

/-- What fragments have of the words of the header itself. -/
def fragmentsOwn : List Fragment → List Text
  | [] => []
  | x :: xs => x.own ++ fragmentsOwn xs

end

section Lists

variable (xs ys : List Fragment)

theorem fragmentsText_eq : fragmentsText xs = xs.flatMap Fragment.text := by
  induction xs with
  | nil => rfl
  | cons x xs ih => rw [fragmentsText, ih, List.flatMap_cons]

theorem fragmentsCreated_eq : fragmentsCreated xs = xs.flatMap Fragment.created := by
  induction xs with
  | nil => rfl
  | cons x xs ih => rw [fragmentsCreated, ih, List.flatMap_cons]

theorem fragmentsOwn_eq : fragmentsOwn xs = xs.flatMap Fragment.own := by
  induction xs with
  | nil => rfl
  | cons x xs ih => rw [fragmentsOwn, ih, List.flatMap_cons]

@[simp] theorem fragmentsText_append :
    fragmentsText (xs ++ ys) = fragmentsText xs ++ fragmentsText ys := by
  simp only [fragmentsText_eq, List.flatMap_append]

@[simp] theorem fragmentsCreated_append :
    fragmentsCreated (xs ++ ys) = fragmentsCreated xs ++ fragmentsCreated ys := by
  simp only [fragmentsCreated_eq, List.flatMap_append]

@[simp] theorem fragmentsOwn_append :
    fragmentsOwn (xs ++ ys) = fragmentsOwn xs ++ fragmentsOwn ys := by
  simp only [fragmentsOwn_eq, List.flatMap_append]

theorem fragmentsText_flatMap {α : Type} (as : List α) (f : α → List Fragment) :
    fragmentsText (as.flatMap f) = (as.map fun a => fragmentsText (f a)).flatten := by
  rw [fragmentsText_eq, List.flatMap_assoc, List.flatMap_def]
  simp only [fragmentsText_eq]

theorem fragmentsCreated_flatMap {α : Type} (as : List α) (f : α → List Fragment) :
    fragmentsCreated (as.flatMap f) = as.flatMap fun a => fragmentsCreated (f a) := by
  simp only [fragmentsCreated_eq, List.flatMap_assoc]

end Lists

theorem mapM_fragments {α : Type} {as : List α} {write : α → Except SourceError Text}
    {f : α → List Fragment} (h : ∀ a ∈ as, write a = .ok (fragmentsText (f a))) :
    as.mapM write = .ok (as.map fun a => fragmentsText (f a)) := by
  induction as with
  | nil => rfl
  | cons a as ih =>
    rw [List.mapM_cons, h a List.mem_cons_self, ih fun a ha => h a (List.mem_cons_of_mem _ ha)]
    rfl

attribute [simp] Fragment.text fragmentsText Fragment.created fragmentsCreated Fragment.own
  fragmentsOwn

/-! ### Code -/

def penBehind (pen : Pen) : List Piece → Pen
  | [] => pen
  | .token t :: ps => penBehind (pen.afterToken t) ps
  | .creation ⟨place, _, none, _, endLine, _⟩ :: ps =>
    penBehind ((pen.afterOpening place.line).afterClosing endLine) ps
  | .creation ⟨place, _, some ⟨_, args⟩, _, endLine, _⟩ :: ps =>
    penBehind ((penBehind (pen.afterOpening place.line) args).afterClosing endLine) ps

def pieceFragments (l : Layout) (pen : Pen) : List Piece → List Fragment
  | [] => []
  | .token t :: ps =>
    .words (pen.gap l t.line t.col t.spaceBefore) :: .token t ::
    pieceFragments l (pen.afterToken t) ps
  | .creation ⟨place, base, none, members, endLine, label⟩ :: ps =>
    .words (pen.gap l place.line place.col pen.spaceBeforeNew) ::
      .creation ⟨place, base, none, members, endLine, label⟩ [] ::
      pieceFragments l ((pen.afterOpening place.line).afterClosing endLine) ps
  | .creation ⟨place, base, some ⟨argsPlace, args⟩, members, endLine, label⟩ :: ps =>
    let within := penBehind (pen.afterOpening place.line) args
    .words (pen.gap l place.line place.col pen.spaceBeforeNew) ::
      .creation ⟨place, base, some ⟨argsPlace, args⟩, members, endLine, label⟩
        (pieceFragments l (pen.afterOpening place.line) args ++ [.words (within.closingGap l)]) ::
      pieceFragments l (within.afterClosing endLine) ps

/-- **Code is written as its fragments**, if all anonymous classes that it creates have names. -/
theorem writePieces_eq (l : Layout) (pen : Pen) (ps : List Piece)
    (hnamed : AllNamed (piecesCreated ps)) :
    writePieces l pen ps = .ok (fragmentsText (pieceFragments l pen ps), penBehind pen ps) := by
  fun_induction pieceFragments l pen ps with
  | case1 pen => rw [writePieces, penBehind, fragmentsText]
  | case2 pen t ps ih =>
    rw [writePieces, ih hnamed, penBehind]
    simp [bind, Except.bind, pure, Except.pure]
  | case3 pen place base members endLine label ps ih =>
    obtain ⟨name, rfl⟩ := Option.isSome_iff_exists.mp (hnamed _ List.mem_cons_self)
    have hrest : AllNamed (piecesCreated ps) :=
      fun a ha => hnamed a (List.mem_append_right _ ha)
    have hparens : lit "()" = lit "(" ++ lit ")" := rfl
    rw [writePieces, ih hrest, penBehind, hparens]
    simp [bind, Except.bind, pure, Except.pure]
  | case4 pen place base argsPlace args members endLine label ps within ihargs ihrest =>
    obtain ⟨name, rfl⟩ := Option.isSome_iff_exists.mp (hnamed _ List.mem_cons_self)
    have hargs : AllNamed (piecesCreated args) :=
      fun a ha => hnamed a (List.mem_append_left _ (List.mem_cons_of_mem _ ha))
    have hrest : AllNamed (piecesCreated ps) :=
      fun a ha => hnamed a (List.mem_append_right _ ha)
    rw [writePieces, ihargs hargs, penBehind]
    simp [bind, Except.bind, pure, Except.pure, ihrest hrest, within]

theorem created_pieceFragments (l : Layout) (pen : Pen) (ps : List Piece) :
    fragmentsCreated (pieceFragments l pen ps) = piecesCreated ps := by
  fun_induction pieceFragments l pen ps with
  | case1 pen => rfl
  | case2 pen t ps ih => simp [piecesCreated, ih]
  | case3 pen place base members endLine label ps ih => simp [piecesCreated, Anonymous.created, ih]
  | case4 pen place base argsPlace args members endLine label ps within ihargs ihrest =>
    simp [piecesCreated, Anonymous.created, ihargs, ihrest]

theorem piecesCreated_dropTokens (n : Nat) (ps : List Piece) :
    piecesCreated (dropTokens n ps) = piecesCreated ps := by
  fun_induction dropTokens n ps with
  | case1 n t ps ih => rw [ih, piecesCreated]
  | case2 => rfl

theorem piecesCreated_tokens (ts : List Token) : piecesCreated (ts.map .token) = [] := by
  induction ts with
  | nil => rfl
  | cons t ts ih => exact ih

/-- Pieces of code as a whole in fragments. -/
def layFragments (indent : Text) (isBlock : Bool) (ps : List Piece) : List Fragment :=
  let l : Layout := { indent, isBlock, margin := marginOf isBlock (ps.filterMap (·.token?)) }
  pieceFragments l {} ps ++ [.words (if isBlock then [] else (penBehind {} ps).closingGap l)]

theorem layOut_eq (indent : Text) (isBlock : Bool) {ps : List Piece}
    (hnamed : AllNamed (piecesCreated ps)) :
    layOut indent isBlock ps = .ok (fragmentsText (layFragments indent isBlock ps)) := by
  unfold layOut layFragments
  simp only [writePieces_eq _ _ _ hnamed, fragmentsText_append]
  cases isBlock <;> simp [bind, Except.bind, pure, Except.pure]

theorem created_layFragments (indent : Text) (isBlock : Bool) (ps : List Piece) :
    fragmentsCreated (layFragments indent isBlock ps) = piecesCreated ps := by
  simp [layFragments, created_pieceFragments]

/-! ### Members -/

/-- The anonymous classes that a step of an initialization creates. -/
def InitItem.created : InitItem → List Anonymous
  | .constant _ args none => args.elim [] Code.created
  | .constant _ _ (some body) => body.created
  | .assign _ value => value.created
  | .block code => code.created

/-- The anonymous classes that the definitions of the members of a class create, in the order of
these definitions. -/
def ClassInfo.created (c : ClassInfo) : List Anonymous :=
  c.staticItems.flatMap InitItem.created ++ c.instanceItems.flatMap InitItem.created ++
    (c.constructors.flatMap fun (_, body) => body.created) ++
    c.methods.flatMap fun (_, body) => body.elim [] Code.created

namespace Header

variable (h : Header)

def blockFragments (code : Code) (depth skip : Nat) : List Fragment :=
  let lines := layFragments (h.indent depth) true (dropTokens skip code.pieces)
  lines ++ [.words (if (fragmentsText lines).isEmpty then [] else lit "\n")]

theorem blockText_eq {code : Code} (depth skip : Nat) (hnamed : AllNamed code.created) :
    h.blockText code depth skip = .ok (fragmentsText (h.blockFragments code depth skip)) := by
  have hlines : AllNamed (piecesCreated (dropTokens skip code.pieces)) := by
    rwa [piecesCreated_dropTokens]
  unfold blockText blockFragments
  split_ifs with hempty
  · have hpieces : dropTokens skip code.pieces = [] := by
      rw [List.isEmpty_iff.mp hempty]
      cases skip <;> rfl
    rw [hpieces]
    simp [layFragments, pieceFragments, pure, Except.pure]
  · rw [Code.block, layOut_eq _ _ hlines]
    simp only [bind, Except.bind, pure, Except.pure, fragmentsText_append, fragmentsText,
      Fragment.text]
    split_ifs with htext
    · rw [List.isEmpty_iff.mp htext]
      rfl
    · simp

theorem created_blockFragments (code : Code) (depth skip : Nat) :
    fragmentsCreated (h.blockFragments code depth skip) = code.created := by
  simp [blockFragments, created_layFragments, piecesCreated_dropTokens, Code.created]

/-- Arguments inside an initialization, in fragments. -/
def argsFragments : Option Code → List Fragment
  | none => []
  | some code => layFragments (h.indent 2) false code.pieces

/-- One step of an initialization in fragments. -/
def initItemFragments (c : ClassInfo) : InitItem → List Fragment
  | .constant name args none =>
    [.words (h.indent 1 ++ name ++ lit " = "), .object c.emitted (h.argsFragments args),
      .words (lit ";\n")]
  | .constant name _ (some body) =>
    [.words (h.indent 1 ++ name ++ lit " = "), .creation body (h.argsFragments body.args),
      .words (lit ";\n")]
  | .assign name value =>
    .words (h.indent 1 ++ name ++ lit " = ") :: layFragments (h.indent 2) false value.pieces ++
    [.words (lit ";\n")]
  | .block code =>
    .words (h.indent 1 ++ lit "\x7b\n") :: h.blockFragments code 2 0 ++
    [.words (h.indent 1 ++ lit "\x7d\n")]

theorem argsText_eq {args : Option Code} (hnamed : AllNamed (args.elim [] Code.created)) :
    h.argsText args = .ok (fragmentsText (h.argsFragments args)) := by
  cases args with
  | none => rfl
  | some code => exact layOut_eq _ _ hnamed

theorem initItemText_eq (c : ClassInfo) {item : InitItem} (hnamed : AllNamed item.created) :
    h.initItemText c item = .ok (fragmentsText (h.initItemFragments c item)) := by
  cases item with
  | constant name args body =>
    have hopening : lit " = new " = lit " = " ++ lit "new " := rfl
    have hclosing : lit ");\n" = lit ")" ++ lit ";\n" := rfl
    cases body with
    | none =>
      rw [initItemText, h.argsText_eq hnamed, hopening, hclosing]
      simp [initItemFragments, bind, Except.bind, pure, Except.pure]
    | some body =>
      have hcreated : AllNamed (body :: body.args.elim [] Code.created) := by
        rwa [← Anonymous.created_eq]
      obtain ⟨label, hlabel⟩ := Option.isSome_iff_exists.mp (hcreated body List.mem_cons_self)
      rw [initItemText, h.argsText_eq fun a ha => hcreated a (List.mem_cons_of_mem _ ha), hopening,
        hclosing]
      simp [initItemFragments, bind, Except.bind, pure, Except.pure, hlabel]
  | assign name value =>
    rw [initItemText, Code.expression, layOut_eq _ _ hnamed]
    simp [initItemFragments, bind, Except.bind, pure, Except.pure]
  | block code =>
    rw [initItemText, h.blockText_eq 2 0 hnamed]
    simp [initItemFragments, bind, Except.bind, pure, Except.pure]

/-- A function that carries out an initialization, in fragments. -/
def initFragments (c : ClassInfo) (name : String) (items : List InitItem) : List Fragment :=
  .words (definitionHead c [] ++ lit "auto " ++ qualifier c ++ lit name ++
    lit "() -> void \x7b\n") ::
    items.flatMap (h.initItemFragments c) ++ [.words (lit "\x7d\n\n")]

theorem initFunction_eq (c : ClassInfo) (name : String) {items : List InitItem}
    (hnamed : AllNamed (items.flatMap InitItem.created)) :
    h.initFunction c name items = .ok (fragmentsText (h.initFragments c name items)) := by
  have hitems : ∀ item ∈ items, h.initItemText c item =
      .ok (fragmentsText (h.initItemFragments c item)) :=
    fun item hitem => h.initItemText_eq c fun a ha =>
      hnamed a (List.mem_flatMap.mpr ⟨item, hitem, ha⟩)
  rw [initFunction, initFragments, mapM_fragments hitems]
  simp [bind, Except.bind, pure, Except.pure, fragmentsText_flatMap]

/-- The call of another constructor in front of a body, in fragments. -/
def callFragments (c : ClassInfo) : Option LeadingCall → List Fragment
  | none => []
  | some call =>
    .words (lit " : " ++
      (if call.delegates then c.emitted ++ templateArgs c.typeParams else h.superName c) ++
      lit "(") :: layFragments (h.indent 1) false (call.args.map .token) ++ [.words (lit ")")]

def constructorFragments (i : Nat) (c : ClassInfo) (head : ConstructorHead) (body : Code) :
    List Fragment :=
  let call := leadingCall? body.leadingTokens
  .words (definitionHead c head.typeParams ++ qualifier c ++ c.emitted ++ lit "(" ++
    paramsText (h.typeScope i c head.typeParams) head.params ++ lit ")") ::
    h.callFragments c call ++
    .words (lit " \x7b\n" ++
      if !call.any (·.delegates) && c.needsInitInstance then h.indent 1 ++ lit "initInstance();\n"
        else []) ::
    h.blockFragments body 1 (call.elim 0 (·.length)) ++ [.words (lit "\x7d\n\n")]

theorem constructorDefinition_eq (i : Nat) (c : ClassInfo) (head : ConstructorHead) {body : Code}
    (hnamed : AllNamed body.created) :
    h.constructorDefinition i c head body =
    .ok (fragmentsText (h.constructorFragments i c head body)) := by
  unfold constructorDefinition constructorFragments
  cases leadingCall? body.leadingTokens with
  | none =>
    simp [callFragments, bind, Except.bind, pure, Except.pure, h.blockText_eq _ _ hnamed]
  | some call =>
    have hargs : AllNamed (piecesCreated (call.args.map .token)) := by
      rw [piecesCreated_tokens]
      exact fun _ ha => absurd ha List.not_mem_nil
    simp [callFragments, bind, Except.bind, pure, Except.pure, h.blockText_eq _ _ hnamed,
      tokensExpression, layOut_eq _ _ hargs]

def methodFragments (i : Nat) (c : ClassInfo) (m : MethodHead) : Option Code → List Fragment
  | some body => .words (h.methodHeadText i c m) :: h.blockFragments body 1 0 ++
    [.words (lit "\x7d\n\n")]
  | none =>
    [.words (if m.isGeneric && c.isAbstractMethod m none then
      h.methodHeadText i c m ++ h.indent 1 ++
      lit "throw std::logic_error(\"abstract generic method '" ++
        c.emitted ++ lit "::" ++ m.name ++ lit "' has no implementation\");\n\x7d\n\n"
    else [])]

theorem methodDefinition_eq (i : Nat) (c : ClassInfo) (m : MethodHead) {body : Option Code}
    (hnamed : AllNamed (body.elim [] Code.created)) :
    h.methodDefinition i c m body = .ok (fragmentsText (h.methodFragments i c m body)) := by
  cases body with
  | none => simp [methodDefinition, methodFragments, pure, Except.pure]
  | some body =>
    rw [methodDefinition, h.blockText_eq 1 0 hnamed]
    simp [methodFragments, bind, Except.bind, pure, Except.pure]

def memberFragments (i : Nat) (c : ClassInfo) : List Fragment :=
  (if c.needsInitStatic then h.initFragments c "initStatic" c.staticItems else []) ++
    (if c.needsInitInstance then h.initFragments c "initInstance" c.instanceItems else []) ++
    [.words (h.plainConstructor c)] ++
    (c.constructors.flatMap fun (head, body) => h.constructorFragments i c head body) ++
    c.methods.flatMap fun (head, body) => h.methodFragments i c head body

theorem memberDefinitions_eq (i : Nat) {c : ClassInfo} (hnamed : AllNamed c.created) :
    h.memberDefinitions i c = .ok (fragmentsText (h.memberFragments i c)) := by
  simp only [ClassInfo.created, List.forall_mem_append] at hnamed
  obtain ⟨⟨⟨hstatic, hinstance⟩, hconstructors⟩, hmethods⟩ := hnamed
  have hconstructors : ∀ x ∈ c.constructors,
      h.constructorDefinition i c x.1 x.2 =
      .ok (fragmentsText (h.constructorFragments i c x.1 x.2)) :=
    fun x hx => h.constructorDefinition_eq i c x.1 fun a ha =>
      hconstructors a (List.mem_flatMap.mpr ⟨x, hx, ha⟩)
  have hmethods : ∀ x ∈ c.methods,
      h.methodDefinition i c x.1 x.2 = .ok (fragmentsText (h.methodFragments i c x.1 x.2)) :=
    fun x hx => h.methodDefinition_eq i c x.1 fun a ha =>
      hmethods a (List.mem_flatMap.mpr ⟨x, hx, ha⟩)
  unfold memberDefinitions memberFragments
  rw [h.initFunction_eq c _ hstatic, h.initFunction_eq c _ hinstance, mapM_fragments hconstructors,
    mapM_fragments hmethods]
  cases c.needsInitStatic <;> cases c.needsInitInstance <;>
    simp [bind, Except.bind, pure, Except.pure, fragmentsText_flatMap]

/-- The whole header in fragments. -/
def fragments : List Fragment :=
  .words (h.banner ++ h.plan.classes.flatMap forwardDeclaration ++
    h.inOrder.flatMap fun (i, c) => h.definition i c) ::
    (h.inOrder.flatMap fun (i, c) => h.memberFragments i c) ++
    [.words (h.inOrder.flatMap (fun (_, c) => staticTrigger c) ++ h.footer)]

theorem text_eq (hnamed : ∀ x ∈ h.inOrder, AllNamed x.2.created) :
    h.text = .ok (fragmentsText h.fragments) := by
  have hmembers : ∀ x ∈ h.inOrder, h.memberDefinitions x.1 x.2 =
      .ok (fragmentsText (h.memberFragments x.1 x.2)) :=
    fun x hx => h.memberDefinitions_eq x.1 (hnamed x hx)
  unfold text fragments
  rw [mapM_fragments hmembers]
  simp [bind, Except.bind, pure, Except.pure, fragmentsText_flatMap]

end Header

end Unnest
