import Unnest.Proofs.Cycles
import Unnest.Proofs.HeaderCreations
import Unnest.Proofs.Separators
import Mathlib

/-!
# Methods declared to override others

A method is declared with `override` if a class above its own, not too far above, has a method of
the same name with as many parameters that is neither static nor private. The other method need not
be virtual itself: methods with type parameters and final methods are found as well. Where there are
none of these, and no class is too far above, the declarations agree with each other: the methods
declared with `override` are those with a virtual one above.

* `Plan.AboveBy`: how far a class is above another one, `Plan.AboveBy.lt_size`: less than there are
  classes;
* `Header.IsDeclaredWith`: what stands in front of the type of a method and behind its parameters;
* `Header.methodText_overrides`: the same in terms of the methods above.
-/

namespace Unnest

/-! ### Classes above a class -/

namespace Plan

variable {p : Plan} {n i base cls : Nat}

/-- The class `base` is above the class `cls`, with `n` steps from a class to a base between
them. -/
inductive AboveBy (p : Plan) : (n base cls : Nat) → Prop
  | one {base cls : Nat} (h : p.IsBase base cls) : AboveBy p 1 base cls
  | more {n base via cls : Nat} (h : AboveBy p n base via) (hvia : p.IsBase via cls) :
      AboveBy p (n + 1) base cls

theorem AboveBy.above (h : p.AboveBy n base cls) : p.Above base cls := by
  induction h with
  | one h => exact .single h
  | more _ hvia ih => exact .tail ih hvia

theorem Above.exists_aboveBy (h : p.Above base cls) : ∃ n, p.AboveBy n base cls := by
  induction h with
  | single h => exact ⟨1, .one h⟩
  | tail _ hvia ih =>
    obtain ⟨n, ih⟩ := ih
    exact ⟨n + 1, .more ih hvia⟩

theorem AboveBy.exists_path (hcycles : ∀ i, ¬ p.Above i i) (h : p.AboveBy n base cls) :
    ∃ path : List Nat, path.length = n ∧ path.Nodup ∧ ∀ x ∈ path, p.Above x cls := by
  induction h with
  | @one base _ h => exact ⟨[base], rfl, List.nodup_singleton base, by simpa using .single h⟩
  | @more _ _ via _ _ hvia ih =>
    obtain ⟨path, hlength, hnodup, habove⟩ := ih
    refine ⟨via :: path, by rw [List.length_cons, hlength], ?_, ?_⟩
    · exact List.nodup_cons.mpr ⟨fun hmem => hcycles via (habove via hmem), hnodup⟩
    · intro x hx
      rcases List.mem_cons.mp hx with rfl | hx
      · exact .single hvia
      · exact .tail (habove x hx) hvia

theorem AboveBy.lt_size {known : List Text} {f : File} (hp : ofFile known f = .ok p)
    (h : p.AboveBy n base cls) :
    n < p.size := by
  have hcycles := not_above_self_of_ofFile hp
  obtain ⟨path, rfl, hnodup, habove⟩ := h.exists_path hcycles
  have hnodup' : (cls :: path).Nodup :=
    List.nodup_cons.mpr ⟨fun hmem => hcycles cls (habove cls hmem), hnodup⟩
  have hcls : cls < p.size := by
    obtain ⟨via, -, hvia⟩ := Relation.TransGen.tail'_iff.mp h.above
    obtain ⟨c, hc⟩ := exists_class_of_isBase hvia
    exact lt_size_of_getElem? hc
  have hsubset : cls :: path ⊆ List.range p.size := by
    intro x hx
    rcases List.mem_cons.mp hx with rfl | hx
    · exact List.mem_range.mpr hcls
    · obtain ⟨via, hvia, -⟩ := Relation.TransGen.head'_iff.mp (habove x hx)
      exact List.mem_range.mpr (lt_size_of_ofFile hp hvia)
  have hle := hnodup'.length_le_of_subset hsubset
  rw [List.length_cons, List.length_range] at hle
  exact hle

/-- **The search upwards** finds the classes within its number of steps. -/
theorem declaresAbove_iff {m : MethodHead} {levels : Nat} : p.declaresAbove m levels i = true ↔
    ∃ n ≤ levels, ∃ j d, p.AboveBy n j i ∧ p.class? j = some d ∧ d.declares m = true := by
  induction levels generalizing i with
  | zero =>
    refine iff_of_false (by simp [declaresAbove]) ?_
    rintro ⟨n, hn, j, d, habove, -⟩
    cases habove <;> omega
  | succ levels ih =>
    simp only [declaresAbove, List.any_eq_true, Bool.or_eq_true, Option.any_eq_true, ih]
    constructor
    · rintro ⟨via, hvia, ⟨d, hd, hdeclares⟩ | ⟨n, hn, j, d, habove, hd, hdeclares⟩⟩
      · exact ⟨1, by omega, via, d, .one hvia, hd, hdeclares⟩
      · exact ⟨n + 1, by omega, j, d, .more habove hvia, hd, hdeclares⟩
    · rintro ⟨n, hn, j, d, habove, hd, hdeclares⟩
      cases habove with
      | one hj => exact ⟨j, hj, Or.inl ⟨d, hd, hdeclares⟩⟩
      | @more n _ via _ habove hvia =>
        exact ⟨via, hvia, Or.inr ⟨n, by omega, j, d, habove, hd, hdeclares⟩⟩

end Plan

/-! ### Methods of a class -/

/-- A method with the name and the number of parameters of the method `m`, in the class `d` with the
number `j`. -/
structure Plan.Counterpart (p : Plan) (m : MethodHead) (j : Nat) (d : ClassInfo)
    (other : MethodHead) (code : Option Code) : Prop where
  ofClass : p.class? j = some d
  isMember : Member.method other code ∈ d.members
  name : other.name = m.name
  arity : other.arity = m.arity

theorem ClassInfo.declares_iff {p : Plan} {j : Nat} {d : ClassInfo} (hd : p.class? j = some d)
    {m : MethodHead} :
    d.declares m = true ↔ ∃ other code, p.Counterpart m j d other code ∧
      other.modifiers.isStatic = false ∧ other.isPrivate = false := by
  simp only [declares, List.any_eq_true, Bool.and_eq_true, beq_iff_eq, Bool.not_eq_true',
    Prod.exists, mem_methods]
  constructor
  · rintro ⟨other, code, hmem, ⟨⟨hname, harity⟩, hstatic⟩, hprivate⟩
    exact ⟨other, code, ⟨hd, hmem, hname, harity⟩, hstatic, hprivate⟩
  · rintro ⟨other, code, hother, hstatic, hprivate⟩
    exact ⟨other, code, hother.isMember, ⟨⟨hother.name, hother.arity⟩, hstatic⟩, hprivate⟩

/-! ### Declarations of methods -/

namespace Header

variable {h : Header} {i : Nat} {c : ClassInfo} {m : MethodHead} {body : Option Code}

/-- The declaration of a method with other words in front of its type and behind its parameters. -/
def methodWith (h : Header) (i : Nat) (c : ClassInfo) (m : MethodHead) (before behind : Text) :
    Text :=
  let types := h.typeScope i c m.typeParams
  h.memberTemplate m.typeParams ++ h.indent 1 ++ before ++ types.valueType m.returns ++ lit " " ++
    m.name ++
    lit "(" ++ paramsText types m.params ++ lit ")" ++ behind ++ lit ";\n"

/-- The words in the declaration of a method in front of its type and behind its parameters. -/
structure IsDeclaredWith (h : Header) (i : Nat) (c : ClassInfo) (m : MethodHead)
    (body : Option Code) (before behind : Text) : Prop where
  text : h.methodText i c m body = h.methodWith i c m before behind
  behind : chr ')' ∉ behind

def DeclaredOverride (h : Header) (i : Nat) (c : ClassInfo) (m : MethodHead) (body : Option Code) :
    Prop :=
  ∃ before behind, h.IsDeclaredWith i c m body before (lit " override" ++ behind)

/-- The method is declared as a virtual one that overrides no other. -/
def DeclaredVirtual (h : Header) (i : Nat) (c : ClassInfo) (m : MethodHead) (body : Option Code) :
    Prop :=
  ∃ behind, h.IsDeclaredWith i c m body (lit "virtual ") behind

/-- What stands in front of the type of a method. -/
def methodBefore (h : Header) (i : Nat) (c : ClassInfo) (m : MethodHead) (body : Option Code) :
    Text :=
  if m.modifiers.isStatic then lit "static "
  else if h.plan.isVirtual i c m body && !h.plan.isOverriding i m then lit "virtual " else []

/-- What stands behind the parameters of a method. -/
def methodBehind (h : Header) (i : Nat) (c : ClassInfo) (m : MethodHead) (body : Option Code) :
    Text :=
  (if h.plan.isOverriding i m then lit " override" else []) ++
    (if h.plan.isOverriding i m && m.modifiers.isFinal then lit " final" else []) ++
    (if c.isAbstractMethod m body && h.plan.isVirtual i c m body then lit " = 0" else [])

theorem notMem_methodBehind : chr ')' ∉ h.methodBehind i c m body := by
  unfold methodBehind
  split_ifs <;> decide

theorem methodWith_inj {before before' behind behind' : Text} (hbehind : chr ')' ∉ behind)
    (hbehind' : chr ')' ∉ behind')
    (heq : h.methodWith i c m before behind = h.methodWith i c m before' behind') :
    before = before' ∧ behind = behind' := by
  unfold methodWith at heq
  have heq := List.append_cancel_right heq
  have hparen : lit ")" = [chr ')'] := by decide
  rw [hparen, List.append_assoc _ [chr ')'] behind, List.append_assoc _ [chr ')'] behind',
    List.singleton_append, List.singleton_append] at heq
  obtain ⟨hfront, hbehinds⟩ := Text.append_separator_inj hbehind hbehind' heq
  simp only [List.append_assoc, List.append_cancel_left_eq] at hfront
  exact ⟨List.append_cancel_right hfront, hbehinds⟩

theorem isDeclaredWith_iff {before behind : Text} : h.IsDeclaredWith i c m body before behind ↔
    before = h.methodBefore i c m body ∧ behind = h.methodBehind i c m body := by
  have htext : h.methodText i c m body =
      h.methodWith i c m (h.methodBefore i c m body) (h.methodBehind i c m body) := by
    simp only [methodText, methodWith, methodBefore, methodBehind, List.append_assoc]
  constructor
  · intro hdeclared
    exact methodWith_inj hdeclared.behind notMem_methodBehind (hdeclared.text.symm.trans htext)
  · rintro ⟨rfl, rfl⟩
    exact ⟨htext, notMem_methodBehind⟩

theorem declaredOverride_iff : h.DeclaredOverride i c m body ↔ h.plan.isOverriding i m = true := by
  simp only [DeclaredOverride, isDeclaredWith_iff, exists_eq_left, exists_and_left]
  unfold methodBehind
  cases h.plan.isOverriding i m with
  | true => exact iff_of_true ⟨_, (List.append_assoc ..).symm⟩ rfl
  | false =>
    refine iff_of_false ?_ Bool.false_ne_true
    rintro ⟨behind, hbehind⟩
    -- all that can stand there is shorter
    have hword : (lit " override").length = 9 := by decide
    have hzero : (lit " = 0").length = 4 := by decide
    have hlength := congrArg List.length hbehind
    simp only [List.length_append, hword, Bool.false_and, Bool.false_eq_true, if_false,
      List.length_nil] at hlength
    split_ifs at hlength
    · omega
    · rw [List.length_nil] at hlength
      omega

/-- A method is virtual if it is declared so, or declared to override another one. -/
theorem declaredVirtual_or_declaredOverride_iff :
    h.DeclaredVirtual i c m body ∨ h.DeclaredOverride i c m body ↔
    h.plan.isVirtual i c m body = true := by
  have hbefore : h.DeclaredVirtual i c m body ↔ lit "virtual " = h.methodBefore i c m body := by
    simp only [DeclaredVirtual, isDeclaredWith_iff, exists_and_left, exists_eq, and_true]
  rw [hbefore, declaredOverride_iff]
  unfold methodBefore
  cases hoverriding : h.plan.isOverriding i m with
  | true =>
    have hmay : m.mayBeVirtual = true := (Bool.and_eq_true_iff.mp hoverriding).1
    refine iff_of_true (Or.inr rfl) ?_
    rw [Plan.isVirtual, hoverriding, hmay, Bool.or_true, Bool.and_true]
  | false =>
    rw [Bool.not_false, Bool.and_true, or_iff_left Bool.false_ne_true]
    cases hvirtual : h.plan.isVirtual i c m body with
    | true =>
      -- a static method is not virtual
      have hmay : m.mayBeVirtual = true := (Bool.and_eq_true_iff.mp hvirtual).1
      have hstatic : m.modifiers.isStatic = false := by
        simp only [MethodHead.mayBeVirtual, Bool.and_eq_true, Bool.not_eq_true'] at hmay
        exact hmay.1.1
      rw [hstatic]
      exact iff_of_true rfl rfl
    | false =>
      refine iff_of_false ?_ Bool.false_ne_true
      split_ifs
      · decide
      · contradiction
      · decide

variable {code : Option Code} {other : MethodHead} {text : Text}

theorem isVirtual_of_overridable (hstatic : other.modifiers.isStatic = false)
    (hprivate : other.isPrivate = false) (hgeneric : other.isGeneric = false)
    (hfinal : other.modifiers.isFinal = true →
      h.plan.isOverriding i other = true) :
    h.plan.isVirtual i c other code = true := by
  cases hfin : other.modifiers.isFinal with
  | true => simp [Plan.isVirtual, MethodHead.mayBeVirtual, hstatic, hprivate, hgeneric, hfinal hfin]
  | false => simp [Plan.isVirtual, MethodHead.mayBeVirtual, hstatic, hprivate, hgeneric, hfin]

theorem overridable_of_isVirtual (hvirtual : h.plan.isVirtual i c other code = true) :
    other.modifiers.isStatic = false ∧ other.isPrivate = false := by
  simp only [Plan.isVirtual, MethodHead.mayBeVirtual, Bool.and_eq_true, Bool.not_eq_true']
    at hvirtual
  exact hvirtual.1.1

/-! ### Methods of a header -/

theorem mem_inOrder {options : HeaderOptions} {f : File} (hh : ofFile options f = .ok h)
    (hc : h.plan.class? i = some c) : (i, c) ∈ h.inOrder := by
  obtain ⟨p, hp, rfl⟩ := Except.map_eq_ok.mp hh
  have hemitted : i ∈ p.emission :=
    (Plan.emission_perm hp).mem_iff.mpr (List.mem_range.mpr (Plan.lt_size_of_getElem? hc))
  exact List.mem_filterMap.mpr ⟨i, hemitted, by rw [hc]; rfl⟩

theorem infix_sections {current v : Visibility} {parts : List (Visibility × Text)}
    (hmem : (v, text) ∈ parts) : text <:+: sections current parts := by
  induction parts generalizing current with
  | nil => cases hmem
  | cons part parts ih =>
    obtain ⟨v', text'⟩ := part
    rw [sections]
    rcases List.mem_cons.mp hmem with heq | hmem
    · cases heq
      exact ⟨_, _, rfl⟩
    · exact (ih hmem).trans (List.suffix_append _ _).isInfix

theorem infix_declaration {v : Visibility} (hpart : (v, text) ∈ h.aliases i ++
    (if c.isAnonymous then [(.pub, h.forwardingConstructor c)] else []) ++ c.members.flatMap
    (h.memberText i c) ++
    h.initDeclarations c) : text <:+: h.definition i c :=
  (infix_sections hpart).trans ⟨_, _, rfl⟩

theorem infix_definition {member : Member} {v : Visibility}
    (hmember : member ∈ c.members) (htext : (v, text) ∈ h.memberText i c member) :
    text <:+: h.definition i c :=
  infix_declaration
    (List.mem_append_left _
      (List.mem_append_right _ (List.mem_flatMap.mpr ⟨member, hmember, htext⟩)))

/-- **Overriding methods**. Every method of a class is declared in its definition. It is declared to
override another one exactly if it is not static, not private and without type parameters and if,
within the number of steps that are searched, a class above has a method of the same name with as
many parameters that is neither static nor private. If no class is farther above and none of these
methods has type parameters or is final without overriding another one, then it is declared so
exactly if one of these methods is itself declared as virtual or overriding. -/
theorem methodText_overrides {options : HeaderOptions} {f : File} (hh : ofFile options f = .ok h)
    (hc : h.plan.class? i = some c) (hm : Member.method m body ∈ c.members) :
    (i, c) ∈ h.inOrder ∧ h.methodText i c m body <:+: h.definition i c ∧
    (h.DeclaredOverride i c m body ↔
      m.mayBeVirtual = true ∧ ∃ n ≤ Plan.overrideLevels, ∃ j d other code, h.plan.AboveBy n j i ∧
      h.plan.Counterpart m j d other code ∧
      other.modifiers.isStatic = false ∧ other.isPrivate = false) ∧
    ((∀ n j, h.plan.AboveBy n j i → n ≤ Plan.overrideLevels) →
      (∀ j d other code, h.plan.Above j i → h.plan.Counterpart m j d other code →
        other.modifiers.isStatic = false → other.isPrivate = false →
        other.isGeneric = false ∧
        (other.modifiers.isFinal = true → h.DeclaredOverride j d other code)) →
      (h.DeclaredOverride i c m body ↔ m.mayBeVirtual = true ∧ ∃ j d other code,
        h.plan.Above j i ∧ h.plan.Counterpart m j d other code ∧
        (h.DeclaredVirtual j d other code ∨ h.DeclaredOverride j d other code))) := by
  have hiff : h.DeclaredOverride i c m body ↔
      m.mayBeVirtual = true ∧ ∃ n ≤ Plan.overrideLevels, ∃ j d other code, h.plan.AboveBy n j i ∧
      h.plan.Counterpart m j d other code ∧
      other.modifiers.isStatic = false ∧ other.isPrivate = false := by
    rw [declaredOverride_iff, Plan.isOverriding, Bool.and_eq_true, Plan.declaresAbove_iff]
    refine and_congr_right fun _ => ?_
    constructor
    · rintro ⟨n, hn, j, d, habove, hd, hdeclares⟩
      obtain ⟨other, code, hother, hfree⟩ := (ClassInfo.declares_iff hd).mp hdeclares
      exact ⟨n, hn, j, d, other, code, habove, hother, hfree⟩
    · rintro ⟨n, hn, j, d, other, code, habove, hother, hfree⟩
      exact ⟨n, hn, j, d, habove, hother.ofClass,
        (ClassInfo.declares_iff hother.ofClass).mpr ⟨other, code, hother, hfree⟩⟩
  refine ⟨mem_inOrder hh hc, infix_definition hm (List.mem_singleton.mpr rfl), hiff,
    fun hdepth hplain => ?_⟩
  rw [hiff]
  simp only [declaredVirtual_or_declaredOverride_iff]
  refine and_congr_right fun _ => ?_
  constructor
  · rintro ⟨n, -, j, d, other, code, habove, hother, hstatic, hprivate⟩
    obtain ⟨hgeneric, hfinal⟩ := hplain j d other code habove.above hother hstatic hprivate
    exact ⟨j, d, other, code, habove.above, hother,
      isVirtual_of_overridable hstatic hprivate hgeneric
      fun hfin => declaredOverride_iff.mp (hfinal hfin)⟩
  · rintro ⟨j, d, other, code, habove, hother, hvirtual⟩
    obtain ⟨n, hn⟩ := habove.exists_aboveBy
    exact ⟨n, hdepth n j hn, j, d, other, code, hn, hother, overridable_of_isVirtual hvirtual⟩

theorem check_of_above {known : List Text} {f : File} {p : Plan} (hp : Plan.ofFile known f = .ok p)
    (check : Nat → ClassInfo → MethodHead → Option Code → Bool)
    (hall : (p.classes.zipIdx.all fun x => x.2 == i || x.1.methods.all
      fun y => check x.2 x.1 y.1 y.2) = true)
    {j : Nat} {d : ClassInfo} (habove : p.Above j i)
    (hother : p.Counterpart m j d other code) : check j d other code = true := by
  have hclass := List.all_eq_true.mp hall (d, j) (List.mem_zipIdx_iff_getElem?.mpr hother.ofClass)
  have hne : j ≠ i := by
    rintro rfl
    exact Plan.not_above_self_of_ofFile hp j habove
  rw [beq_false_of_ne hne, Bool.false_or] at hclass
  exact List.all_eq_true.mp hclass (other, code) (ClassInfo.mem_methods.mpr hother.isMember)

/-- A method of an interface, overridden in a class below another interface. -/
def overridesFarAbove : Source :=
  ⟨lit "S",
    lit
    "interface A { void f(int x); } interface B extends A {} class C implements B { void f(int z) {} }"⟩

/-- The second method overrides, and the one two steps above it is virtual. -/
theorem methodText_overrides_far_above : ∃ f h c m body, File.ofSource overridesFarAbove = .ok f ∧
    ofFile {} f = .ok h ∧ h.plan.class? 2 = some c ∧ Member.method m body ∈ c.members ∧
    h.methodText 2 c m body = lit "    void f(int32_t z) override;\n" ∧
    ∃ j d other code, h.plan.Above j 2 ∧ h.plan.Counterpart m j d other code ∧
      (h.DeclaredVirtual j d other code ∨ h.DeclaredOverride j d other code) := by
  have hview : ((File.ofSource overridesFarAbove).bind fun f => (ofFile {} f).map fun h =>
      ((h.plan.class? 2).any fun c => c.methods.any fun x => h.plan.isOverriding 2 x.1 &&
        h.methodText 2 c x.1 x.2 == lit "    void f(int32_t z) override;\n",
      h.plan.size, h.plan.classes.zipIdx.all fun x => x.2 == 2 || x.1.methods.all fun y =>
        !y.1.isGeneric && !y.1.modifiers.isFinal)) = .ok (true, 3, true) := by
    cbv
  obtain ⟨f, hf, hview⟩ := Except.bind_eq_ok.mp hview
  obtain ⟨h, hh, hview⟩ := Except.map_eq_ok.mp hview
  simp only [Prod.mk.injEq, Option.any_eq_true, List.any_eq_true, Bool.and_eq_true, beq_iff_eq,
    Prod.exists] at hview
  obtain ⟨⟨c, hc, m, body, hm, hoverriding, htext⟩, hsize, hplain⟩ := hview
  have hmember := ClassInfo.mem_methods.mp hm
  obtain ⟨p, hp, rfl⟩ := Except.map_eq_ok.mp hh
  have hdepth : ∀ n j, p.AboveBy n j 2 → n ≤ Plan.overrideLevels := by
    intro n j habove
    have hlt : n < 3 := hsize ▸ habove.lt_size hp
    rw [Plan.overrideLevels]
    omega
  have hfree : ∀ j d other code, p.Above j 2 → p.Counterpart m j d other code →
      other.isGeneric = false ∧ other.modifiers.isFinal = false := by
    intro j d other code habove hother
    have hcheck :=
      check_of_above hp (fun _ _ other _ => !other.isGeneric && !other.modifiers.isFinal) hplain
      habove hother
    rwa [Bool.and_eq_true, Bool.not_eq_true', Bool.not_eq_true'] at hcheck
  obtain ⟨-, -, -, hiff⟩ := methodText_overrides hh hc hmember
  have hplain : ∀ j d other code, p.Above j 2 → p.Counterpart m j d other code →
      other.modifiers.isStatic = false → other.isPrivate = false → other.isGeneric = false ∧
      (other.modifiers.isFinal = true →
        Header.DeclaredOverride ⟨{}, f.labelled, p⟩ j d other code) := by
    intro j d other code habove hother _ _
    obtain ⟨hgeneric, hfinal⟩ := hfree j d other code habove hother
    exact ⟨hgeneric, fun hfinal' => absurd hfinal' (Bool.eq_false_iff.mp hfinal)⟩
  obtain ⟨-, habove⟩ := (hiff hdepth hplain).mp (declaredOverride_iff.mpr hoverriding)
  exact ⟨f, _, c, m, body, hf, hh, hc, hmember, htext, habove⟩

/-- A method with type parameters, and a method of the same name in a class below. -/
def genericAbove : Source :=
  ⟨lit "S", lit "class A { <T> void f(T x) {} } class B extends A { void f(int x) {} }"⟩

/-- The second method is declared to override, although no class above has a virtual method of that
name. -/
theorem override_of_generic : ∃ f h c m body, File.ofSource genericAbove = .ok f ∧
    ofFile {} f = .ok h ∧ h.plan.class? 1 = some c ∧ Member.method m body ∈ c.members ∧
    h.methodText 1 c m body = lit "    void f(int32_t x) override;\n" ∧
    h.DeclaredOverride 1 c m body ∧ ¬ ∃ j d other code, h.plan.Above j 1 ∧
    h.plan.Counterpart m j d other code ∧
      (h.DeclaredVirtual j d other code ∨ h.DeclaredOverride j d other code) := by
  have hview : ((File.ofSource genericAbove).bind fun f => (ofFile {} f).map fun h =>
      ((h.plan.class? 1).any fun c => c.methods.any fun x => h.plan.isOverriding 1 x.1 &&
        h.methodText 1 c x.1 x.2 == lit "    void f(int32_t x) override;\n",
      h.plan.classes.zipIdx.all fun x => x.2 == 1 || x.1.methods.all fun y =>
        !h.plan.isVirtual x.2 x.1 y.1 y.2)) = .ok (true, true) := by
    cbv
  obtain ⟨f, hf, hview⟩ := Except.bind_eq_ok.mp hview
  obtain ⟨h, hh, hview⟩ := Except.map_eq_ok.mp hview
  simp only [Prod.mk.injEq, Option.any_eq_true, List.any_eq_true, Bool.and_eq_true, beq_iff_eq,
    Prod.exists] at hview
  obtain ⟨⟨c, hc, m, body, hm, hoverriding, htext⟩, hnone⟩ := hview
  refine ⟨f, h, c, m, body, hf, hh, hc, ClassInfo.mem_methods.mp hm, htext,
    declaredOverride_iff.mpr hoverriding, ?_⟩
  rintro ⟨j, d, other, code, habove, hother, hdeclared⟩
  obtain ⟨p, hp, rfl⟩ := Except.map_eq_ok.mp hh
  have hcheck :=
    check_of_above hp (fun j d other code => !p.isVirtual j d other code) hnone habove hother
  rw [Bool.not_eq_true', declaredVirtual_or_declaredOverride_iff.mp hdeclared] at hcheck
  exact absurd hcheck.symm Bool.false_ne_true

end Header

end Unnest
