import Unnest.Proofs.Moving

/-!
# Members as heads and blocks

Methods, constructors, initializers and classes are read in two parts: a head, and behind it what is
in braces. A head never leads past a group in braces, nor past a semicolon. An enum constant has its
arguments between the two, and may end with a comma.

* `Walk.methodHead`, `Walk.constructorHead`, `Walk.initializerHead`: what walks keep, the heads
  keep;
* `gives_parse`: what all readers of members give, the forms give.
-/

namespace Unnest

open Unnest.Parser

/-! ### Heads and blocks -/

/-- The surroundings of the members of a class. -/
def TypeHead.context (head : TypeHead) : BodyContext :=
  { className := head.name, classKind := head.kind, inConstants := head.kind = .enumeration }

namespace Parser

/-- A method up to its body or its semicolon. -/
def methodHead : Parser MethodHead := do
  let place := (← get).here.place
  let front ← modifiers
  let hasTypeParams := (← get).isAtGroup .angle
  let typeParams ← typeParams
  let behind ← if hasTypeParams then modifiers else pure {}
  let modifiers := { front with annotations := front.annotations ++ behind.annotations }
  let type ← typeRef
  let name ← expect .ident (lit "method name")
  let params ← Parser.ofExcept (← expectGroup .round (lit "parameter list")).parameters
  let extra ← dims
  let throwing ← throwing
  return {
    place, name := name.text, modifiers, typeParams, params, throwing
    returns := { type with dims := type.dims + extra } }

/-- A constructor up to its body. -/
def constructorHead : Parser ConstructorHead := do
  let place := (← get).here.place
  let modifiers ← modifiers
  let typeParams ← typeParams
  let name ← expect .ident (lit "constructor name")
  let params ← Parser.ofExcept (← expectGroup .round (lit "parameter list")).parameters
  let throwing ← throwing
  return { place, name := name.text, modifiers, typeParams, params, throwing }

/-- What stands in front of an initializer block. -/
def initializerHead (isStatic : Bool) : Parser InitializerHead := do
  let place := (← get).here.place
  if isStatic then
    let _ ← expect (.modifier .static) (lit "'static'")
  return { place, isStatic }

/-- A member that ends with the code in braces. -/
def block (inside : Inside) (what : Text) (build : Code → Member) : Parser Member := do
  return build (← Parser.ofExcept (Code.ofGroup inside (← expectGroup .curly what)))

/-- A method that ends with a semicolon. -/
def bodiless (ctx : BodyContext) (head : MethodHead) : Parser Member := do
  let _ ← expect .semi (lit "method body or ';'")
  if ctx.classKind = .interface && !head.modifiers.isStatic && !head.modifiers.isAbstract then
    let keywords := head.modifiers.keywords ++ [lit "abstract"]
    return .method { head with modifiers := { head.modifiers with keywords } } none
  else
    return .method head none

theorem ite_bind {α β : Type} (c : Prop) [Decidable c] (p q : Parser α) (f : α → Parser β) :
    (if c then p else q) >>= f = if c then p >>= f else q >>= f := by
  split_ifs <;> rfl

theorem methodDecl_eq (inside : Inside) (ctx : BodyContext) :
    methodDecl inside ctx = methodHead >>= fun head => get >>= fun s =>
      if s.isAtGroup .curly then block inside (lit "method body") fun c => .method head (some c)
      else bodiless ctx head := by
  unfold methodDecl methodHead block bodiless
  simp only [bind_assoc, pure_bind, ite_bind]

theorem constructorDecl_eq (inside : Inside) :
    constructorDecl inside =
      constructorHead >>= fun head =>
      block inside (lit "constructor body") (.constructor head) := by
  unfold constructorDecl constructorHead block
  simp only [bind_assoc, pure_bind]

theorem initializerDecl_eq (inside : Inside) (isStatic : Bool) :
    initializerDecl inside isStatic =
      initializerHead isStatic >>= fun head =>
      block inside (lit "initializer block") (.initializer head) := by
  unfold initializerDecl initializerHead block
  simp only [bind_assoc, pure_bind, ite_bind]

/-- A class declaration up to its members. -/
def typeHead : Parser TypeHead := do
  let place := (← get).here.place
  let modifiers ← modifiers
  let kind ← classKeyword
  let name ← expect .ident (lit "type name")
  let typeParams ← typeParams
  let extending ← typesBehind (·.isAt .kwExtends)
  let implementing ← typesBehind (·.isAt .kwImplements)
  let _ ← typesBehind (·.isAtName (lit "permits"))
  return { place, kind, name := name.text, modifiers, typeParams, extending, implementing }

theorem typeDecl_eq (inside : Inside) :
    typeDecl inside = typeHead >>= fun head => expectGroup .curly (lit "class body") >>= fun body =>
      Parser.ofExcept (inside.members head.context body) >>= fun members =>
      pure { head, members } := by
  unfold typeDecl typeHead
  simp only [bind_assoc, pure_bind]
  rfl

/-- An enum constant up to its arguments, with the token that is its name. -/
def constantHead : Parser (ConstantHead × Token) := do
  let place := (← get).here.place
  let annotations ← constantAnnotations
  let name ← expect .ident (lit "enum constant name")
  return ({ place, name := name.text, annotations }, name)

/-- The arguments of an enum constant, if there are any. -/
def constantArgs (inside : Inside) : Parser (Option Code) := do
  if (← get).isAtGroup .round then
    let g ← expectGroup .round (lit "constant arguments")
    return some (← Parser.ofExcept (Code.ofGroup inside g))
  else
    return none

/-- An enum constant with its body, if there is one. -/
def constantBody (inside : Inside) (ctx : BodyContext) (head : ConstantHead) (name : Token)
    (args : Option Code) :
    Parser Member := do
  if (← get).isAtGroup .curly then
    let body ← expectGroup .curly (lit "constant body")
    let members ← Parser.ofExcept (inside.members {} body)
    let anonymous : Anonymous :=
      { place := name.place, base := { name := ctx.className }, args, members
        endLine := body.closing.line, label := none }
    return .constant head none (some anonymous)
  else
    return .constant head args none

/-- A comma, if there is one. -/
def optionalComma : Parser Unit := do
  if (← get).isAt .comma then
    advance

theorem constantDecl_eq (inside : Inside) (ctx : BodyContext) :
    constantDecl inside ctx = constantHead >>= fun (head, name) =>
    constantArgs inside >>= fun args =>
      constantBody inside ctx head name args >>= fun m => optionalComma >>= fun _ => pure m := by
  unfold constantDecl constantHead constantArgs constantBody optionalComma
  simp only [bind_assoc, pure_bind, ite_bind]

/-- Takes the element at the cursor, unless it is a token of one of the kinds `stops`. -/
def takeElement (stops : List TokenKind) : Parser (Option Element) := fun s =>
  match s.current? with
  | some e => if stops.any (e.is ·) then .ok none s else .ok (some e) s.next
  | none => .ok none s

theorem takeUntil_eq_many (stops : List TokenKind) :
    takeUntil stops = many (takeElement stops) := by
  unfold takeUntil
  congr 1
  funext s
  rw [get_bind]
  unfold takeElement
  cases hs : s.current? with
  | none => rfl
  | some e =>
    have hadvance : advance s = .ok () s.next := if_pos (Cursor.hasNext_iff.mpr ⟨e, hs⟩)
    simp only
    split_ifs
    · rfl
    · change EStateM.bind advance _ s = _
      unfold EStateM.bind
      rw [hadvance]
      rfl

end Parser

theorem Parser.block_eq_ok {inside : Inside} {what : Text} {build : Code → Member} {m : Member}
    {s t : Cursor} :
    block inside what build s = .ok m t ↔ ∃ g, s.current? = some (.group g) ∧ g.kind = .curly ∧
      ∃ code, Code.ofGroup inside g = .ok code ∧ m = build code ∧ t = s.next := by
  unfold block
  simp only [bind_eq_ok, expectGroup_eq_ok, ofExcept_eq_ok]
  constructor
  · rintro ⟨g, _, ⟨hg, hk, rfl⟩, code, _, ⟨hcode, rfl⟩, ⟨⟩⟩
    exact ⟨g, hg, hk, code, hcode, rfl, rfl⟩
  · rintro ⟨g, hg, hk, code, hcode, rfl, rfl⟩
    exact ⟨g, _, ⟨hg, hk, rfl⟩, code, _, ⟨hcode, rfl⟩, rfl⟩

/-- An enum constant has arguments or a body, but not both: with a body, the anonymous class has the
arguments. -/
theorem exists_constant_of_constantDecl {inside : Inside} {ctx : BodyContext} {s t : Cursor}
    {m : Member} (h : constantDecl inside ctx s = .ok m t) :
    ∃ head args body, m = .constant head args body ∧ (args = none ∨ body = none) := by
  have hgives : Gives (constantDecl inside ctx) s
      (fun m _ => ∃ head args body, m = .constant head args body ∧ (args = none ∨ body = none))
      fun _ => True := by
    rw [constantDecl_eq, gives_bind]
    refine gives_of_forall (fun head _ _ => ?_) fun _ _ _ => trivial
    rw [gives_bind]
    refine gives_of_forall (fun args _ _ => ?_) fun _ _ _ => trivial
    unfold constantBody optionalComma
    simp only [gives_bind, gives_get, gives_ite, gives_expectGroup, gives_ofExcept, gives_advance,
      gives_pure]
    simp
  exact hgives.ok h

/-! ### Walks over heads -/

namespace Walk

variable {I : Cursor → Prop} (w : Walk I fun _ => True)
include w

theorem methodHead : Keeps I (fun _ => True) methodHead := by
  intro s hs
  have htype : Keeps I (fun _ => True) typeRef := w.typeWith fun _ _ _ _ _ _ => trivial
  unfold Parser.methodHead
  rw [gives_bind, gives_get]
  refine (w.modifiers s hs).bind fun front s₁ h₁ => ?_
  rw [gives_bind, gives_get]
  refine (w.typeParams (fun _ _ _ _ _ _ => trivial) s₁ h₁).bind fun typeParams s₂ h₂ => ?_
  have hbehind : Gives (if s₁.isAtGroup .angle then Parser.modifiers else pure {}) s₂
      (fun _ s' => I s') fun _ => True :=
    gives_ite.mpr ⟨fun _ => w.modifiers s₂ h₂, fun _ => gives_pure.mpr h₂⟩
  refine gives_branch.mpr (hbehind.mono (fun behind s₃ h₃ => ?_) fun _ => id)
  simp only
  refine (htype s₃ h₃).bind fun type s₄ h₄ => ?_
  refine (w.expect .ident _ (by decide) s₄ h₄).bind fun name s₅ h₅ => ?_
  refine (w.expectGroup .round _ (by decide) s₅ h₅).bind fun g s₆ h₆ => ?_
  rw [gives_bind, gives_ofExcept]
  refine ⟨fun params _ => ?_, fun _ _ => trivial⟩
  refine (w.dims s₆ h₆).bind fun extra s₇ h₇ => ?_
  exact (w.throwing htype s₇ h₇).bind fun throwing s₈ h₈ => gives_pure.mpr h₈

theorem constructorHead : Keeps I (fun _ => True) constructorHead := by
  intro s hs
  have htype : Keeps I (fun _ => True) typeRef := w.typeWith fun _ _ _ _ _ _ => trivial
  unfold Parser.constructorHead
  rw [gives_bind, gives_get]
  refine (w.modifiers s hs).bind fun front s₁ h₁ => ?_
  refine (w.typeParams (fun _ _ _ _ _ _ => trivial) s₁ h₁).bind fun typeParams s₂ h₂ => ?_
  refine (w.expect .ident _ (by decide) s₂ h₂).bind fun name s₃ h₃ => ?_
  refine (w.expectGroup .round _ (by decide) s₃ h₃).bind fun g s₄ h₄ => ?_
  rw [gives_bind, gives_ofExcept]
  refine ⟨fun params _ => ?_, fun _ _ => trivial⟩
  exact (w.throwing htype s₄ h₄).bind fun throwing s₅ h₅ => gives_pure.mpr h₅

theorem initializerHead (isStatic : Bool) : Keeps I (fun _ => True) (initializerHead isStatic) := by
  intro s hs
  unfold Parser.initializerHead
  rw [gives_bind, gives_get]
  simp only [gives_ite]
  refine ⟨fun _ => ?_, fun _ => gives_pure.mpr hs⟩
  exact (w.expect (.modifier .static) _ (by decide) s hs).bind fun _ s₁ h₁ => gives_pure.mpr h₁

end Walk

theorem Cursor.Lasting.walk {I : Cursor → Prop} (h : Lasting I) : Walk I fun _ => True where
  next hs _ _ := h _ hs
  fail _ _ := trivial

theorem gives_typeHead {I : Cursor → Prop} (hI : Cursor.Lasting I) {s : Cursor}
    (hs : s.hasNext = true → I s.next) :
    Gives typeHead s (fun head t => I t ∧ head.place = s.here.place) fun _ => True := by
  -- until the word that says what sort of class it is, the cursor may still be at the first element
  have hJ : Walk (fun t => t = s ∨ I t) fun _ => True := by
    refine ⟨fun ht he _ => Or.inr ?_, fun _ _ => trivial⟩
    rcases ht with rfl | ht
    · exact hs (Cursor.hasNext_iff.mpr ⟨_, he⟩)
    · exact hI _ ht
  have w := hI.walk
  have htypes : Keeps I (fun _ => True) typeRef := w.typeWith fun _ _ _ _ _ _ => trivial
  unfold typeHead
  rw [gives_bind, gives_get]
  refine (hJ.modifiers s (Or.inl rfl)).bind fun modifiers s₁ h₁ => ?_
  have hnext : s₁.hasNext = true → I s₁.next := by
    intro hnext
    rcases h₁ with rfl | h₁
    · exact hs hnext
    · exact hI _ h₁
  have hkeyword : Gives classKeyword s₁ (fun _ t => I t) fun _ => True := by
    unfold classKeyword
    simp only [gives_bind, gives_get, gives_ite, gives_advance, gives_pure, gives_fail]
    exact ⟨fun _ => ⟨hnext, fun _ => trivial⟩, fun _ => ⟨fun _ => ⟨hnext, fun _ => trivial⟩,
      fun _ => ⟨fun _ => ⟨hnext, fun _ => trivial⟩, fun _ => trivial⟩⟩⟩
  refine hkeyword.bind fun kind s₂ h₂ => ?_
  refine (w.expect .ident _ (by decide) s₂ h₂).bind fun name s₃ h₃ => ?_
  refine (w.typeParams (fun _ _ _ _ _ _ => trivial) s₃ h₃).bind fun typeParams s₄ h₄ => ?_
  refine (w.typesBehind htypes (fun _ => id) (by decide) s₄ h₄).bind fun _ s₅ h₅ => ?_
  refine (w.typesBehind htypes (fun _ => id) (by decide) s₅ h₅).bind fun _ s₆ h₆ => ?_
  exact (w.typesBehindName htypes _ s₆ h₆).bind fun _ s₇ h₇ => gives_pure.mpr ⟨h₇, rfl⟩

theorem gives_parse {inside : Inside} {form : MemberForm}
    (hform : form ∈ constantForm inside :: memberForms inside) {ctx : BodyContext} {s : Cursor}
    {P : Member → Cursor → Prop} (hconstant : Gives (constantDecl inside ctx) s P fun _ => True)
    (hfield : Gives (fieldDecl inside) s P fun _ => True)
    (hmethod : Gives (methodDecl inside ctx) s P fun _ => True)
    (htype : Gives (typeDecl inside) s (fun d t => P (.nested d.head d.members) t) fun _ => True)
    (hinitializer : ∀ isStatic, Gives (initializerDecl inside isStatic) s P fun _ => True)
    (hconstructor : Gives (constructorDecl inside) s P fun _ => True) :
    Gives (form.parse ctx) s (fun node t => ∀ m, node = .member m → P m t) fun _ => True := by
  have hmap : ∀ {p : Parser Member}, Gives p s P (fun _ => True) →
      Gives (Node.member <$> p) s (fun node t => ∀ m, node = .member m → P m t) fun _ => True := by
    refine fun hp => gives_map.mpr (hp.mono (fun m t hm m' hm' => ?_) fun _ => id)
    cases hm'
    exact hm
  rcases MemberForm.eq_of_mem hform with rfl | rfl | rfl | rfl | rfl | rfl | rfl
  · exact hmap hconstant
  · exact hmap hfield
  · exact hmap hmethod
  · exact hmap (htype.bind fun _ _ hd => gives_pure.mpr hd)
  · exact hmap (hinitializer true)
  · exact hmap (hinitializer false)
  · exact hmap hconstructor

end Unnest
