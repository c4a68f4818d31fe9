import Unnest.Proofs.Elements
import Unnest.Proofs.Extent

/-!
# Where the parts of a member come from

The code of a member is the code of a group of the source (or of a run of elements, for the
initializer of a field), and the members of a class are those of one of its groups.
`ElementInvariant.ReadBy` says so for each form of member, together with the invariant of the
elements that were read.

* `ElementInvariant.Reads.gives_form`: every form of the language reads members of this shape and
  raises only errors with the property of the invariant.
-/

namespace Unnest

open Unnest.Parser

theorem Walk.fieldDecl {I : Cursor → Prop} {E : SourceError → Prop} (w : Walk I E) {inside : Inside}
    {P : Code → Prop}
    (hcode : ∀ s, I s → s.isAt .equal = true →
      Gives (codeUntil inside [.comma, .semi]) s.next (fun c s' => I s' ∧ P c) E)
    (htype : Keeps I E typeRef) (hnext : ∀ s, I s → I s.next) {s : Cursor} (hs : I s) :
    Gives (fieldDecl inside) s (fun m s' => I s' ∧ ∃ head declarators, m = .field head declarators ∧
      ∀ d ∈ declarators, ∀ c, d.init = some c → P c) E := by
  unfold Parser.fieldDecl
  rw [gives_bind, gives_get]
  refine (w.modifiers s hs).bind fun _ s₁ h₁ => ?_
  refine (htype s₁ h₁).bind fun _ s₂ h₂ => ?_
  refine (w.declarator hcode h₂).bind fun first s₃ h₃ => ?_
  refine (gives_many I (A := fun d : Declarator => ∀ c, d.init = some c → P c)
    (fun s hs => ?_) h₃.1).bind
    fun more s₄ h₄ => ?_
  · rw [gives_get_ite]
    refine ⟨fun hc => ?_, fun _ => gives_pure.mpr ⟨hs, by simp⟩⟩
    refine (w.advance_isAt hs hc (by decide)).bind fun _ s₁ h₁ => ?_
    refine (w.declarator hcode h₁).bind fun d s₂ h₂ => gives_pure.mpr ⟨h₂.1, ?_⟩
    rintro b ⟨⟩
    exact h₂.2
  · rw [gives_bind, gives_expect]
    refine ⟨fun _ _ _ => gives_pure.mpr ⟨hnext _ h₄.1, _, _, rfl, fun d hd => ?_⟩,
      fun _ => w.fail h₄.1 rfl⟩
    rcases List.mem_cons.mp hd with rfl | hd
    · exact h₃.2
    · exact h₄.2 d hd

namespace ElementInvariant

variable (inv : ElementInvariant) {s s' : Cursor}

/-- The code `c` was read from a group with the invariant. -/
def FromGroup (inside : Inside) (c : Code) : Prop :=
  ∃ g, inv.element (.group g) ∧ Code.ofGroup inside g = .ok c

/-- The code `c` was read from a run of elements with the invariant. -/
def FromElements (inside : Inside) (c : Code) : Prop :=
  ∃ es, (∀ e ∈ es, inv.element e) ∧ Code.ofElements inside es = .ok c

/-- The members `ms` were read from a group with the invariant. -/
def MembersFrom (inside : Inside) (ms : List Member) : Prop :=
  ∃ ctx g, inv.element (.group g) ∧ inside.members ctx g = .ok ms

/-- Where the parts of a member were read. -/
def ReadBy (inside : Inside) : Member → Prop
  | .field _ declarators => ∀ d ∈ declarators, ∀ c, d.init = some c → inv.FromElements inside c
  | .method _ body => ∀ c, body = some c → inv.FromGroup inside c
  | .constructor _ body => inv.FromGroup inside body
  | .nested _ members => inv.MembersFrom inside members
  | .initializer _ body => inv.FromGroup inside body
  | .constant _ args body =>
    (∀ c, args = some c → inv.FromGroup inside c) ∧
      ∀ a, body = some a → (∀ c, a.args = some c → inv.FromGroup inside c) ∧
        inv.MembersFrom inside a.members

variable {inv} {inside : Inside}

namespace Reads

variable (h : inv.Reads inside)
include h

/-! ### Fields -/

theorem gives_codeUntil (stops : List TokenKind) (hs : inv.cursor s) :
    Gives (codeUntil inside stops) s (fun c s' => inv.cursor s' ∧ inv.FromElements inside c)
    inv.error := by
  unfold codeUntil
  refine (gives_takeUntil (I := inv.cursor) (A := inv.element)
    (fun s e hs he _ => ⟨cursor_next hs, element_of_current hs he⟩) hs).bind
    fun es s' h' => ?_
  exact gives_ofExcept.mpr
    ⟨fun c hc => ⟨h'.1, es, h'.2, hc⟩, fun e he => h.error_of_ofElements h'.2 he⟩

theorem gives_fieldDecl (hs : inv.cursor s) :
    Gives (fieldDecl inside) s (fun m s' => inv.cursor s' ∧ inv.ReadBy inside m) inv.error := by
  refine (inv.walk.fieldDecl (fun s hs _ => h.gives_codeUntil [.comma, .semi] (cursor_next hs))
    inv.keeps_typeRef (fun _ => cursor_next) hs).mono (fun m s' hm => ?_) fun _ => id
  obtain ⟨hs', head, declarators, rfl, hinits⟩ := hm
  exact ⟨hs', hinits⟩

theorem gives_ofGroup {g : Group} (hg : inv.element (.group g)) (hs : inv.cursor s) :
    Gives (Parser.ofExcept (Code.ofGroup inside g)) s
      (fun c s' => inv.cursor s' ∧ inv.FromGroup inside c) inv.error :=
  gives_ofExcept.mpr ⟨fun _ hc => ⟨hs, g, hg, hc⟩, fun _ he => h.error_of_ofGroup hg he⟩

theorem gives_ofMembers {ctx : BodyContext} {g : Group} (hg : inv.element (.group g))
    (hs : inv.cursor s) :
    Gives (Parser.ofExcept (inside.members ctx g)) s
      (fun ms s' => inv.cursor s' ∧ inv.MembersFrom inside ms) inv.error :=
  gives_ofExcept.mpr ⟨fun _ hms => ⟨hs, ctx, g, hg, hms⟩, fun _ he => h.members hg he⟩

omit h in
theorem gives_expectGroup (kind : GroupKind) (what : Text) (hs : inv.cursor s) :
    Gives (expectGroup kind what) s (fun g s' => inv.cursor s' ∧ inv.element (.group g))
    inv.error :=
  Parser.gives_expectGroup.mpr ⟨fun _ hg _ => ⟨cursor_next hs, element_of_current hs hg⟩,
    fun _ => inv.walk.fail hs rfl⟩

theorem gives_methodDecl {ctx : BodyContext} (hs : inv.cursor s) :
    Gives (methodDecl inside ctx) s
    (fun m s' => inv.cursor s' ∧ m.field? = none ∧ inv.ReadBy inside m)
      inv.error := by
  have w := inv.walk
  unfold methodDecl
  rw [gives_bind, gives_get]
  refine (w.modifiers s hs).bind fun front s₁ h₁ => ?_
  rw [gives_bind, gives_get]
  refine (inv.keeps_typeParams s₁ h₁).bind fun typeParams s₂ h₂ => ?_
  have hbehind : Gives (if s₁.isAtGroup .angle then modifiers else pure {}) s₂
      (fun _ s' => inv.cursor s') inv.error :=
    gives_ite.mpr ⟨fun _ => w.modifiers s₂ h₂, fun _ => gives_pure.mpr h₂⟩
  refine gives_branch.mpr (hbehind.mono (fun behind s₃ h₃ => ?_) fun _ => id)
  simp only
  refine (inv.keeps_typeRef s₃ h₃).bind fun type s₄ h₄ => ?_
  refine (w.expect .ident _ (by decide) s₄ h₄).bind fun name s₅ h₅ => ?_
  refine (gives_expectGroup .round _ h₅).bind fun g s₆ h₆ => ?_
  rw [gives_bind, gives_ofExcept]
  refine ⟨fun params _ => ?_, fun _ he => inv.error_of_parameters h₆.2 he⟩
  refine (w.dims s₆ h₆.1).bind fun extra s₇ h₇ => ?_
  refine (w.throwing inv.keeps_typeRef s₇ h₇).bind fun throwing s₈ h₈ => ?_
  rw [gives_get_ite]
  refine ⟨fun _ => ?_, fun _ => ?_⟩
  · refine (gives_expectGroup .curly _ h₈).bind fun body s₉ h₉ => ?_
    refine (h.gives_ofGroup h₉.2 h₉.1).bind fun c s' hc => gives_pure.mpr ⟨hc.1, rfl, ?_⟩
    rintro c ⟨⟩
    exact hc.2
  · rw [gives_bind, gives_expect]
    refine ⟨fun _ _ _ => ?_, fun _ => w.fail h₈ rfl⟩
    simp only [gives_ite, gives_pure]
    exact ⟨fun _ => ⟨cursor_next h₈, rfl, by simp [ReadBy]⟩,
      fun _ => ⟨cursor_next h₈, rfl, by simp [ReadBy]⟩⟩

theorem gives_constructorDecl (hs : inv.cursor s) :
    Gives (constructorDecl inside) s
    (fun m s' => inv.cursor s' ∧ m.field? = none ∧ inv.ReadBy inside m)
      inv.error := by
  have w := inv.walk
  unfold constructorDecl
  rw [gives_bind, gives_get]
  refine (w.modifiers s hs).bind fun _ s₁ h₁ => ?_
  refine (inv.keeps_typeParams s₁ h₁).bind fun _ s₂ h₂ => ?_
  refine (w.expect .ident _ (by decide) s₂ h₂).bind fun name s₃ h₃ => ?_
  refine (gives_expectGroup .round _ h₃).bind fun g s₄ h₄ => ?_
  rw [gives_bind, gives_ofExcept]
  refine ⟨fun params _ => ?_, fun _ he => inv.error_of_parameters h₄.2 he⟩
  refine (w.throwing inv.keeps_typeRef s₄ h₄.1).bind fun throwing s₅ h₅ => ?_
  refine (gives_expectGroup .curly _ h₅).bind fun body s₆ h₆ => ?_
  exact (h.gives_ofGroup h₆.2 h₆.1).bind fun _ _ hc => gives_pure.mpr ⟨hc.1, rfl, hc.2⟩

theorem gives_initializerDecl {isStatic : Bool} (hs : inv.cursor s) :
    Gives (initializerDecl inside isStatic) s
      (fun m s' => inv.cursor s' ∧ m.field? = none ∧ inv.ReadBy inside m) inv.error := by
  have w := inv.walk
  unfold initializerDecl
  rw [gives_bind, gives_get]
  have hbody : ∀ {s} (f : Code → Member),
      (∀ c, inv.FromGroup inside c → (f c).field? = none ∧ inv.ReadBy inside (f c)) →
      inv.cursor s → Gives (do
        let body ← Parser.ofExcept
          (Code.ofGroup inside (← expectGroup .curly (lit "initializer block")))
        return f body) s (fun m s' => inv.cursor s' ∧ m.field? = none ∧ inv.ReadBy inside m)
          inv.error := by
    intro s f hf hs
    refine (gives_expectGroup .curly _ hs).bind fun body s₁ h₁ => ?_
    exact (h.gives_ofGroup h₁.2 h₁.1).bind fun c _ hc => gives_pure.mpr ⟨hc.1, hf c hc.2⟩
  simp only [gives_ite]
  refine ⟨fun _ => ?_, fun _ => hbody _ (fun _ hc => ⟨rfl, hc⟩) hs⟩
  refine (w.expect (.modifier .static) _ (by decide) s hs).bind fun _ s₁ h₁ => ?_
  exact hbody _ (fun _ hc => ⟨rfl, hc⟩) h₁

theorem gives_typeDecl (hs : inv.cursor s) :
    Gives (typeDecl inside) s (fun d s' => inv.cursor s' ∧ inv.MembersFrom inside d.members ∧
      ∃ t, inv.element (.token t) ∧ t.kind = .ident ∧ d.head.name = t.text) inv.error := by
  have w := inv.walk
  unfold typeDecl
  rw [gives_bind, gives_get]
  refine (w.modifiers s hs).bind fun _ s₁ h₁ => ?_
  refine (inv.keeps_classKeyword s₁ h₁).bind fun kind s₂ h₂ => ?_
  rw [gives_bind, gives_expect]
  refine ⟨fun name hname hk => ?_, fun _ => w.fail h₂ rfl⟩
  have h₃ := cursor_next h₂
  refine (inv.keeps_typeParams _ h₃).bind fun _ s₄ h₄ => ?_
  refine (w.typesBehind inv.keeps_typeRef (fun _ => id) (by decide) s₄ h₄).bind fun _ s₅ h₅ => ?_
  refine (w.typesBehind inv.keeps_typeRef (fun _ => id) (by decide) s₅ h₅).bind fun _ s₆ h₆ => ?_
  refine (w.typesBehindName inv.keeps_typeRef _ s₆ h₆).bind fun _ s₇ h₇ => ?_
  refine (gives_expectGroup .curly _ h₇).bind fun body s₈ h₈ => ?_
  refine (h.gives_ofMembers h₈.2 h₈.1).bind fun members s₉ h₉ => gives_pure.mpr ?_
  exact ⟨h₉.1, h₉.2, name, element_of_current h₂ hname, hk, rfl⟩

theorem gives_constantDecl {ctx : BodyContext} (hs : inv.cursor s) :
    Gives (constantDecl inside ctx) s
    (fun m s' => inv.cursor s' ∧ m.field? = none ∧ inv.ReadBy inside m)
      inv.error := by
  have w := inv.walk
  unfold constantDecl
  rw [gives_bind, gives_get]
  refine (Keeps.many (fun s hs => ?_) s hs).bind fun annotations s₁ h₁ => ?_
  · rw [gives_get_ite]
    refine ⟨fun _ => ?_, fun _ => gives_pure.mpr hs⟩
    exact (w.annotationText s hs).bind fun _ _ h => gives_pure.mpr h
  refine (w.expect .ident _ (by decide) s₁ h₁).bind fun name s₂ h₂ => ?_
  -- how it goes on behind the arguments, and behind the body
  have hargs : ∀ {Q : Member → Cursor → Prop} (go : Option Code → Parser Member),
      (∀ args s, inv.cursor s → (∀ c, args = some c → inv.FromGroup inside c) →
        Gives (go args) s Q inv.error) →
      Gives (do
        if s₂.isAtGroup .round then
          let g ← expectGroup .round (lit "constant arguments")
          go (← pure (some (← Parser.ofExcept (Code.ofGroup inside g))))
        else
          go (← pure none)) s₂ Q inv.error := by
    intro Q go hgo
    rw [gives_ite]
    refine ⟨fun _ => ?_, fun _ => hgo none s₂ h₂ (by simp)⟩
    refine (gives_expectGroup .round _ h₂).bind fun g s₃ h₃ => ?_
    refine (h.gives_ofGroup h₃.2 h₃.1).bind fun c s₄ h₄ => hgo (some c) s₄ h₄.1 ?_
    rintro c ⟨⟩
    exact h₄.2
  have hcomma : ∀ m s, inv.cursor s → m.field? = none ∧ inv.ReadBy inside m → Gives (do
      if (← get).isAt .comma then advance
      return m) s (fun m s' => inv.cursor s' ∧ m.field? = none ∧ inv.ReadBy inside m)
        inv.error := by
    intro m s hs hm
    rw [gives_bind, gives_get]
    simp only [gives_ite, gives_bind, gives_advance, gives_pure]
    exact ⟨fun _ => ⟨fun _ => ⟨cursor_next hs, hm⟩, fun _ => w.fail hs rfl⟩, fun _ => ⟨hs, hm⟩⟩
  rw [gives_bind, gives_get]
  refine hargs _ fun args s₃ h₃ hfrom => ?_
  simp only
  rw [gives_bind, gives_get]
  simp only [gives_ite]
  refine ⟨fun _ => ?_, fun _ => hcomma _ s₃ h₃ ⟨rfl, hfrom, by simp⟩⟩
  refine (gives_expectGroup .curly _ h₃).bind fun body s₄ h₄ => ?_
  refine (h.gives_ofMembers h₄.2 h₄.1).bind fun members s₅ h₅ => hcomma _ s₅ h₅.1 ?_
  refine ⟨rfl, by simp, ?_⟩
  rintro a ⟨⟩
  exact ⟨hfrom, h₅.2⟩

/-! ### All forms -/

/-- **Every form** reads a member whose parts come from the source, or raises an error with the
property. Only one of them reads fields. -/
theorem gives_form {form : MemberForm} (hform : form ∈ constantForm inside :: memberForms inside)
    (ctx : BodyContext) (hs : inv.cursor s) :
    Gives (form.parse ctx) s (fun node s' => inv.cursor s' ∧ ∃ m, node = .member m ∧
      (m.field? = none ∨ form = fieldForm inside) ∧ inv.ReadBy inside m) inv.error := by
  have hmember : ∀ {p : Parser Member}, Gives p s (fun m s' => inv.cursor s' ∧
        (m.field? = none ∨ form = fieldForm inside) ∧ inv.ReadBy inside m) inv.error →
      Gives (Node.member <$> p) s (fun node s' => inv.cursor s' ∧ ∃ m, node = .member m ∧
        (m.field? = none ∨ form = fieldForm inside) ∧ inv.ReadBy inside m) inv.error := by
    intro p hp
    rw [gives_map]
    exact hp.mono (fun m _ hm => ⟨hm.1, m, rfl, hm.2⟩) fun _ => id
  have hother : ∀ {p : Parser Member},
      Gives p s (fun m s' => inv.cursor s' ∧ m.field? = none ∧ inv.ReadBy inside m) inv.error →
      Gives (Node.member <$> p) s (fun node s' => inv.cursor s' ∧ ∃ m, node = .member m ∧
        (m.field? = none ∨ form = fieldForm inside) ∧ inv.ReadBy inside m) inv.error :=
    fun hp => hmember (hp.mono (fun _ _ hm => ⟨hm.1, Or.inl hm.2.1, hm.2.2⟩) fun _ => id)
  rcases MemberForm.eq_of_mem hform with rfl | rfl | rfl | rfl | rfl | rfl | rfl
  · exact hother (h.gives_constantDecl hs)
  · exact hmember ((h.gives_fieldDecl hs).mono (fun _ _ hm => ⟨hm.1, Or.inr rfl, hm.2⟩) fun _ => id)
  · exact hother (h.gives_methodDecl hs)
  · exact hother ((h.gives_typeDecl hs).bind fun _ _ hd => gives_pure.mpr ⟨hd.1, rfl, hd.2.1⟩)
  · exact hother (h.gives_initializerDecl hs)
  · exact hother (h.gives_initializerDecl hs)
  · exact hother (h.gives_constructorDecl hs)

end Reads

end ElementInvariant

end Unnest
