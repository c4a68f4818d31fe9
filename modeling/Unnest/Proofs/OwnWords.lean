import Unnest.Proofs.Fragments
import Mathlib

/-!
# The words of a header

What a header says in words of its own is made of a fixed stock of words and of the names in the
plan, whatever classes the header is for. So a word outside the stock stands in a header only in a
name or in the code of the source.

* `Text.words`: the words of a text, and where texts can be joined without joining words;
* `Header.Wording`: a property of words that the stock and all names have;
* `Header.hasNameWith_of_mem_words`: a word outside the stock is the word of a name.
-/

namespace Unnest

open Text Lexeme

/-! ### Words -/

/-- The words of a text: its longest runs of bytes that names are made of. -/
def Text.words (s : Text) : List Text := (s.splitOnP fun b => !isNameByte b).filter (!·.isEmpty)

/-- All words of a text are such words. -/
def Text.Worded (W : Text → Prop) (s : Text) : Prop := ∀ w ∈ s.words, W w

/-- A text that does not end within a word. -/
def Text.isClosed (s : Text) : Bool := s.getLast?.all (!isNameByte ·)

/-- A text that does not begin within a word. -/
def Text.isOpening (s : Text) : Bool := s.head?.all (!isNameByte ·)

section Words

variable {W : Text → Prop} {a b s : Text}

theorem words_append_cons {sep : UInt8} (hsep : isNameByte sep = false) (a b : Text) :
    words (a ++ sep :: b) = words a ++ words b := by
  rw [words, List.splitOnP_append_cons a b (by simp [hsep]), List.filter_append, words, words]

theorem words_nil : words [] = [] := rfl

theorem words_append_of_isClosed (h : a.isClosed = true) : words (a ++ b) = words a ++ words b := by
  rcases List.eq_nil_or_concat a with rfl | ⟨a, sep, rfl⟩
  · rfl
  · have hsep : isNameByte sep = false := by simpa [isClosed] using h
    rw [List.concat_eq_append, List.append_assoc, List.singleton_append, words_append_cons hsep,
      words_append_cons hsep, words_nil, List.append_nil]

theorem words_append_of_isOpening (h : b.isOpening = true) :
    words (a ++ b) = words a ++ words b := by
  cases b with
  | nil => rw [List.append_nil, words_nil, List.append_nil]
  | cons sep b =>
    have hsep : isNameByte sep = false := by simpa [isOpening] using h
    have hcons : words (sep :: b) = words b := words_append_cons hsep [] b
    rw [words_append_cons hsep, hcons]

theorem worded_append_of_isClosed (h : a.isClosed = true) :
    Worded W (a ++ b) ↔ Worded W a ∧ Worded W b := by
  rw [Worded, words_append_of_isClosed h, List.forall_mem_append]
  rfl

theorem worded_append_of_isOpening (h : b.isOpening = true) :
    Worded W (a ++ b) ↔ Worded W a ∧ Worded W b := by
  rw [Worded, words_append_of_isOpening h, List.forall_mem_append]
  rfl

theorem isClosed_append_of_ne_nil (hne : b ≠ []) (hb : b.isClosed = true) :
    isClosed (a ++ b) = true := by
  rw [isClosed] at hb ⊢
  rwa [List.getLast?_append_of_ne_nil _ hne]

theorem isClosed_append (ha : a.isClosed = true) (hb : b.isClosed = true) :
    isClosed (a ++ b) = true := by
  by_cases hne : b = []
  · rwa [hne, List.append_nil]
  · exact isClosed_append_of_ne_nil hne hb

theorem worded_nil : Worded W [] := by
  intro w hw
  cases hw

theorem worded_of_words_eq_nil (h : words s = []) : Worded W s := by
  intro w hw
  rw [h] at hw
  cases hw

theorem worded_spaces (n : Nat) : Worded W (spaces n) := by
  induction n with
  | zero => exact worded_nil
  | succ n ih => exact (worded_append_of_isClosed (a := [chr ' ']) (by decide)).mpr ⟨worded_nil, ih⟩

theorem isClosed_spaces (n : Nat) : isClosed (spaces n) = true := by
  cases n with
  | zero => rfl
  | succ n =>
    rw [isClosed, spaces, List.replicate_succ', List.getLast?_concat]
    decide

/-- A dotted name has the same words, however the dots are written. -/
theorem words_qualifiedText (name : Text) : words (qualifiedText name) = words name := by
  have hname : ∀ a : Text, words (a ++ qualifiedText name) = words (a ++ name) := by
    induction name with
    | nil => exact fun _ => rfl
    | cons b name ih =>
      intro a
      have hcons : qualifiedText (b :: name) = (if b == chr '.' then lit "::" else [b]) ++
          qualifiedText name := rfl
      rw [hcons, ← List.append_assoc]
      split_ifs with hb
      · have hdot : isNameByte b = false := beq_iff_eq.mp hb ▸ by decide
        have hclosed : isClosed (a ++ lit "::") = true :=
          isClosed_append_of_ne_nil (by decide) (by decide)
        have hcolons : words (a ++ lit "::") = words a ++ words (lit "::") :=
          words_append_of_isOpening (by decide)
        have hnone : words (lit "::") = [] := by decide
        rw [words_append_of_isClosed hclosed, hcolons, hnone, List.append_nil,
          words_append_cons hdot]
        exact congrArg _ (ih [])
      · rw [ih, List.append_assoc, List.singleton_append]
  exact hname []

theorem worded_join {parts : List Text} (h : ∀ p ∈ parts, Worded W p) :
    Worded W (Text.join (lit ", ") parts) := by
  induction parts with
  | nil => exact worded_nil
  | cons p parts ih =>
    cases parts with
    | nil => simpa [Text.join] using h p
    | cons q parts =>
      have hjoin : Text.join (lit ", ") (p :: q :: parts) = p ++ lit ", " ++
          Text.join (lit ", ") (q :: parts) := by
        simp [Text.join]
      have hclosed : isClosed (p ++ lit ", ") = true :=
        isClosed_append_of_ne_nil (by decide) (by decide)
      rw [hjoin, worded_append_of_isClosed hclosed, worded_append_of_isOpening (by decide)]
      exact ⟨⟨h p List.mem_cons_self, worded_of_words_eq_nil (by decide)⟩,
        ih fun q hq => h q (List.mem_cons_of_mem _ hq)⟩

end Words

/-! ### Names -/

mutual

def TypeRef.names : TypeRef → List Text
  | ⟨name, args, _, _, _, _⟩ => name :: typeNames args

def typeNames : List TypeRef → List Text
  | [] => []
  | t :: ts => t.names ++ typeNames ts

end

theorem typeNames_eq (ts : List TypeRef) : typeNames ts = ts.flatMap TypeRef.names := by
  induction ts with
  | nil => rfl
  | cons t ts ih => rw [typeNames, ih, List.flatMap_cons]

theorem TypeRef.names_withDims (t : TypeRef) (dims : Nat) :
    { t with dims : TypeRef }.names = t.names := by
  cases t
  rfl

def paramNames (params : List Parameter) : List Text :=
  params.flatMap fun p => p.name :: p.type.names

/-- The names in what a member says apart from its code. -/
def Member.headNames : Member → List Text
  | .field head declarators => head.type.names ++ declarators.map (·.name)
  | .method m _ => m.name :: m.typeParams.map (·.name) ++ m.returns.names ++ paramNames m.params
  | .constructor m _ => m.typeParams.map (·.name) ++ paramNames m.params
  | .constant head .. => [head.name]
  | .nested .. | .initializer .. => []

theorem ClassInfo.mem_methods {c : ClassInfo} {m : MethodHead} {body : Option Code} :
    (m, body) ∈ c.methods ↔ Member.method m body ∈ c.members := by
  unfold methods
  rw [List.mem_filterMap]
  constructor
  · rintro ⟨member, hmem, hmethod⟩
    cases member <;> cases hmethod
    exact hmem
  · exact fun hmem => ⟨_, hmem, rfl⟩

theorem ClassInfo.mem_constructors {c : ClassInfo} {head : ConstructorHead} {body : Code} :
    (head, body) ∈ c.constructors ↔ Member.constructor head body ∈ c.members := by
  unfold constructors
  rw [List.mem_filterMap]
  constructor
  · rintro ⟨member, hmem, hconstructor⟩
    cases member <;> cases hconstructor
    exact hmem
  · exact fun hmem => ⟨_, hmem, rfl⟩

/-- The name in a step of an initialization. -/
def InitItem.names : InitItem → List Text
  | .constant name .. | .assign name _ => [name]
  | .block _ => []

def ClassInfo.names (c : ClassInfo) : List Text :=
  c.emitted :: (c.emitted ++ lit "_staticInit") :: c.simpleName :: c.typeParams ++
    typeNames c.baseRefs ++
    c.members.flatMap Member.headNames

/-- The texts that a header is given to write. -/
def HeaderOptions.texts (o : HeaderOptions) : List Text :=
  [o.sourceName, o.runtimeHeader, o.rootClass]

/-- The names in a header, apart from those in code. -/
def Header.names (h : Header) : List Text :=
  h.options.texts ++ h.file.package :: h.plan.classes.flatMap ClassInfo.names

def Header.HasNameWith (h : Header) (word : Text) : Prop := ∃ n ∈ h.names, word ∈ n.words

instance (h : Header) (word : Text) : Decidable (h.HasNameWith word) :=
  inferInstanceAs (Decidable (∃ n ∈ h.names, word ∈ n.words))

/-- The words that headers have in common. -/
def ownWords : List Text :=
  ["class", "template", "typename", "friend", "using", "Ts", "explicit", "Args", "args", "std",
    "forward", "public", "protected", "private", "inline", "static", "virtual", "override", "final",
    "0", "Array", "Object", "void", "bool", "int8_t", "char16_t", "int16_t", "int32_t", "int64_t",
    "auto", "throw", "logic_error", "abstract", "generic", "method", "has", "no", "implementation",
    "maybe_unused", "const", "true", "Generated", "by", "nestport", "from", "Do", "not", "edit",
    "pragma", "once", "include", "cstdint", "stdexcept", "utility", "namespace"].map lit

/-! ### Lines -/

/-- Lines of such words. -/
structure Text.Lines (W : Text → Prop) (s : Text) : Prop where
  worded : Worded W s
  closed : s.isClosed = true

section Lines

variable {W : Text → Prop} {a b : Text}

variable {p : Prop}

@[simp] theorem worded_ite [Decidable p] :
    Worded W (if p then a else b) ↔ (p → Worded W a) ∧ (¬ p → Worded W b) := by
  split_ifs with h <;> simp [h]

@[simp] theorem isClosed_ite [Decidable p] :
    isClosed (if p then a else b) = true ↔ (p → isClosed a = true) ∧ (¬ p → isClosed b = true) := by
  split_ifs with h <;> simp [h]

@[simp] theorem isOpening_ite [Decidable p] :
    isOpening (if p then a else b) = true ↔ (p → isOpening a = true) ∧
    (¬ p → isOpening b = true) := by
  split_ifs with h <;> simp [h]

theorem isClosed_append_lit {l : String} (h : (lit l).getLast?.any (!isNameByte ·) = true) :
    isClosed (a ++ lit l) = true := by
  obtain ⟨c, hc, hname⟩ := (Option.any_eq_true _ _).mp h
  refine isClosed_append_of_ne_nil (fun hnil => ?_) ?_
  · rw [hnil] at hc
    cases hc
  · rw [isClosed, hc]
    exact hname

attribute [simp] worded_nil worded_append_of_isOpening worded_append_of_isClosed isClosed_append_lit
  isClosed_append

theorem lines_nil : Lines W [] := ⟨worded_nil, rfl⟩

theorem lines_ite [Decidable p] (ha : p → Lines W a) :
    Lines W (if p then a else []) := by
  split_ifs with h
  · exact ha h
  · exact lines_nil

theorem Text.Lines.append (ha : Lines W a) (hb : Lines W b) : Lines W (a ++ b) :=
  ⟨(worded_append_of_isClosed ha.closed).mpr ⟨ha.worded, hb.worded⟩,
    isClosed_append ha.closed hb.closed⟩

theorem lines_flatMap {α : Type} {f : α → Text} {l : List α} (h : ∀ x ∈ l, Lines W (f x)) :
    Lines W (l.flatMap f) := by
  induction l with
  | nil => exact lines_nil
  | cons x l ih =>
    rw [List.flatMap_cons]
    exact (h x List.mem_cons_self).append (ih fun x hx => h x (List.mem_cons_of_mem _ hx))

end Lines

theorem Header.plan_typeScope (h : Header) (i : Nat) (c : ClassInfo)
    (typeParams : List TypeParam) : (h.typeScope i c typeParams).plan = h.plan := rfl

/-- Words that are allowed for all of a header apart from its code. -/
structure Header.Wording (h : Header) (W : Text → Prop) : Prop where
  own : ∀ w ∈ ownWords, W w
  names : ∀ n ∈ h.names, Worded W n

namespace Header.Wording

theorem lines_indent {h : Header} {W : Text → Prop} (depth : Nat) : Lines W (h.indent depth) :=
  ⟨worded_spaces _, isClosed_spaces _⟩

@[simp] theorem worded_indent {h : Header} {W : Text → Prop} (depth : Nat) :
    Worded W (h.indent depth) :=
  worded_spaces _

@[simp] theorem isClosed_indent (h : Header) (depth : Nat) : isClosed (h.indent depth) = true :=
  isClosed_spaces _

variable {h : Header} {W : Text → Prop} (hW : h.Wording W) {i : Nat} {c : ClassInfo}
  (hc : c ∈ h.plan.classes) {types : TypeScope} (htypes : types.plan = h.plan)

include hW

variable {l : String} {body : Option Code} {m : MethodHead}

theorem literal (hl : (words (lit l)).all (ownWords.contains ·) = true) :
    Worded W (lit l) :=
  fun w hw => hW.own w (List.contains_iff_mem.mp (List.all_eq_true.mp hl w hw))

theorem literal_of {word : Text} (hword : W word)
    (hl : (words (lit l)).all (fun w => ownWords.contains w || w == word) = true) :
    Worded W (lit l) := by
  intro w hw
  rcases Bool.or_eq_true_iff.mp (List.all_eq_true.mp hl w hw) with hown | hsame
  · exact hW.own w (List.contains_iff_mem.mp hown)
  · rwa [beq_iff_eq.mp hsame]

theorem line (hl : (words (lit l)).all (ownWords.contains ·) = true)
    (hclosed : isClosed (lit l) = true) :
    Lines W (lit l) :=
  ⟨hW.literal hl, hclosed⟩

/-! ### Types -/

theorem templateHead {params : List Text} (hparams : ∀ n ∈ params, Worded W n) :
    Worded W (templateHead params) := by
  have hjoin : Worded W (Text.join (lit ", ") (params.map (lit "typename " ++ ·))) := by
    refine worded_join fun p hp => ?_
    obtain ⟨n, hn, rfl⟩ := List.mem_map.mp hp
    exact (worded_append_of_isClosed (by decide)).mpr ⟨hW.literal (by decide), hparams n hn⟩
  unfold Unnest.templateHead
  simp +decide [-List.append_assoc, hjoin, hW.literal]

theorem templateArgs {args : List Text} (hargs : ∀ n ∈ args, Worded W n) :
    Worded W (templateArgs args) := by
  have hjoin := worded_join hargs
  unfold Unnest.templateArgs
  simp +decide [-List.append_assoc, hjoin, hW.literal]

omit hW in
theorem isOpening_templateArgs (args : List Text) :
    isOpening (Unnest.templateArgs args) = true := by
  unfold Unnest.templateArgs
  split_ifs <;> rfl

theorem arrayText {element : Text} (helement : Worded W element) :
    Worded W (arrayText element) := by
  unfold Unnest.arrayText
  simp +decide [-List.append_assoc, helement, hW.literal]

theorem primitiveText {name : Text} (hname : Worded W name) : Worded W (primitiveText name) := by
  unfold Unnest.primitiveText
  simp +decide [hname, hW.literal]

include hc in
theorem ofClass {n : Text} (hn : n ∈ c.names) : Worded W n :=
  hW.names n (List.mem_append_right _ (List.mem_cons_of_mem _ (List.mem_flatMap.mpr ⟨c, hc, hn⟩)))

include hc in
theorem emitted : Worded W c.emitted := hW.ofClass hc (by simp [ClassInfo.names])

theorem planEmitted (j : Nat) : Worded W (h.plan.emitted j) := by
  unfold Plan.emitted
  cases hj : h.plan.class? j with
  | none => exact worded_nil
  | some c => exact hW.emitted (List.mem_of_getElem? hj)

include htypes in
theorem classText {name : Text} {args : List Text} (hname : Worded W name)
    (hargs : ∀ n ∈ args, Worded W n) :
    Worded W (types.classText name args) := by
  have hargs := hW.templateArgs hargs
  have hqualified : Worded W (qualifiedText name) := by rwa [Worded, words_qualifiedText]
  unfold TypeScope.classText
  rw [worded_append_of_isOpening (isOpening_templateArgs args), htypes]
  refine ⟨?_, hargs⟩
  split
  · exact hW.planEmitted _
  · exact hqualified

theorem repeat_arrayText (dims : Nat) {element : Text} (helement : Worded W element) :
    Worded W (dims.repeat Unnest.arrayText element) := by
  induction dims with
  | zero => exact helement
  | succ dims ih => exact hW.arrayText ih

omit hW

mutual

theorem valueType (hW : h.Wording W) (htypes : types.plan = h.plan) (t : TypeRef)
    (ht : ∀ n ∈ t.names, Worded W n) : Worded W (types.valueType t) := by
  obtain ⟨name, args, dims, primitive, wildcard, place⟩ := t
  obtain ⟨hname, hargs⟩ := List.forall_mem_cons.mp ht
  have hbound : Worded W (types.boundType args) := by
    cases args with
    | nil => exact hW.literal (by decide)
    | cons t ts => exact valueType hW htypes t fun n hn => hargs n (List.mem_append_left _ hn)
  have hplain : Worded W (if primitive then Unnest.primitiveText name
      else if args.isEmpty && types.vars.contains name then name
      else types.classText name (types.valueTypes args) ++ lit "*") := by
    have hclass := hW.classText htypes hname (valueTypes hW htypes args hargs)
    simp +decide [-List.append_assoc, hW.primitiveText hname, hname, hclass, hW.literal]
  cases wildcard with
  | unbounded => exact hW.literal (by decide)
  | upper => exact hbound
  | lower => exact hbound
  | plain => exact hW.repeat_arrayText dims hplain

theorem valueTypes (hW : h.Wording W) (htypes : types.plan = h.plan) (ts : List TypeRef)
    (hts : ∀ n ∈ typeNames ts, Worded W n) : ∀ x ∈ types.valueTypes ts, Worded W x := by
  cases ts with
  | nil => exact List.forall_mem_nil _
  | cons t ts =>
    rw [typeNames, List.forall_mem_append] at hts
    exact List.forall_mem_cons.mpr ⟨valueType hW htypes t hts.1, valueTypes hW htypes ts hts.2⟩

end

include hW htypes

theorem className {t : TypeRef} (ht : ∀ n ∈ t.names, Worded W n) :
    Worded W (types.className t) := by
  obtain ⟨name, args, dims, primitive, wildcard, place⟩ := t
  obtain ⟨hname, hargs⟩ := List.forall_mem_cons.mp ht
  exact hW.classText htypes hname (hW.valueTypes htypes args hargs)

theorem paramsText {params : List Parameter} (hparams : ∀ n ∈ paramNames params, Worded W n) :
    Worded W (paramsText types params) := by
  refine worded_join fun x hx => ?_
  obtain ⟨p, hp, rfl⟩ := List.mem_map.mp hx
  obtain ⟨hname, htype⟩ :=
    List.forall_mem_cons.mp fun n hn => hparams n (List.mem_flatMap.mpr ⟨p, hp, hn⟩)
  have htype := hW.valueType htypes p.type htype
  simp +decide [-List.append_assoc, hW.arrayText htype, htype, hname, hW.literal]

omit htypes

/-! ### Class definitions -/

include hc

theorem typeParams : ∀ n ∈ c.typeParams, Worded W n :=
  fun n hn => hW.ofClass hc (by simp [ClassInfo.names, hn])

theorem baseNames : ∀ n ∈ h.baseNames c, Worded W n := by
  have hroot : Worded W h.options.rootClass :=
    hW.names _ (by simp [Header.names, HeaderOptions.texts])
  have hrefs : ∀ t ∈ c.baseRefs, ∀ n ∈ t.names, Worded W n := by
    intro t ht n hn
    refine hW.ofClass hc ?_
    simpa [ClassInfo.names, typeNames_eq]
      using Or.inr (Or.inr (Or.inr (Or.inr (Or.inl ⟨t, ht, hn⟩))))
  have hname : ∀ t ∈ c.baseRefs, Worded W
      (TypeScope.className { plan := h.plan, scope := c.parent, vars := c.typeParams } t) :=
    fun t ht => hW.className rfl (hrefs t ht)
  intro n hn
  unfold Header.baseNames at hn
  unfold ClassInfo.baseRefs at hname
  split at hn
  · next place base horigin =>
    rw [horigin] at hname
    rw [List.mem_singleton.mp hn]
    exact hname base (List.mem_singleton_self _)
  · next head horigin =>
    rw [horigin] at hname
    simp only [List.mem_append, List.mem_map, List.mem_ite_nil_right, List.mem_singleton] at hn
    rcases hn with (⟨t, ht, rfl⟩ | ⟨-, rfl⟩) | ⟨t, ht, rfl⟩
    · exact hname t (List.mem_append_left _ ht)
    · exact hroot
    · exact hname t (List.mem_append_right _ ht)

theorem superName : Worded W (h.superName c) := by
  have hnames := hW.baseNames hc
  unfold Header.superName
  cases hbases : h.baseNames c with
  | nil => exact hW.names _ (by simp [Header.names, HeaderOptions.texts])
  | cons n ns => exact hnames n (hbases ▸ List.mem_cons_self)

theorem forwardDeclaration : Lines W (forwardDeclaration c) := by
  have hhead := hW.templateHead (hW.typeParams hc)
  unfold Header.forwardDeclaration
  constructor <;> simp +decide [-List.append_assoc, hW.emitted hc, hhead, hW.literal]

theorem friendText : Lines W (h.friendText c) := by
  have hjoin : Worded W
      (Text.join (lit ", ") (List.replicate c.typeParams.length (lit "typename"))) :=
    worded_join fun p hp => List.eq_of_mem_replicate hp ▸ hW.literal (by decide)
  have hfront : Lines W (h.indent 1 ++ if c.isTemplate then lit "template <" ++
      Text.join (lit ", ") (List.replicate c.typeParams.length (lit "typename")) ++ lit "> "
      else []) := by
    refine (lines_indent 1).append (lines_ite fun _ => ?_)
    constructor <;> simp +decide [-List.append_assoc, hjoin, hW.literal]
  unfold Header.friendText
  rw [List.map_const']
  constructor <;> simp +decide [-List.append_assoc, hfront.worded, hfront.closed, hW.emitted hc,
    hW.literal]

theorem aliasText : Lines W (h.aliasText c) := by
  have hsimple : Worded W c.simpleName := hW.ofClass hc (by simp [ClassInfo.names])
  unfold Header.aliasText
  constructor <;> simp +decide [-List.append_assoc, hW.emitted hc, hsimple, hW.literal]

theorem ofMember {m : Member} (hm : m ∈ c.members) : ∀ n ∈ m.headNames, Worded W n := fun _ hn =>
  hW.ofClass hc (List.mem_append_right _ (List.mem_flatMap.mpr ⟨m, hm, hn⟩))

omit hc

theorem memberTemplate {typeParams : List TypeParam}
    (hparams : ∀ n ∈ typeParams.map (·.name), Worded W n) :
    Lines W (h.memberTemplate typeParams) := by
  have hhead := hW.templateHead hparams
  unfold Header.memberTemplate
  constructor <;> simp +decide [-List.append_assoc, hhead, hW.literal]

include hc

theorem fieldText {head : FieldHead} {declarators : List Declarator}
    (hm : .field head declarators ∈ c.members) : Lines W (h.fieldText i c head declarators) := by
  obtain ⟨htype, hnames⟩ := List.forall_mem_append.mp (hW.ofMember hc hm)
  refine lines_flatMap fun d hd => ?_
  have hname := hnames d.name (List.mem_map_of_mem hd)
  have htype := hW.valueType (h.plan_typeScope i c [])
    { head.type with dims := head.type.dims + d.extraDims }
    (by rwa [TypeRef.names_withDims])
  constructor <;> simp +decide [-List.append_assoc, htype, hname, hW.literal]

theorem methodText (hm : .method m body ∈ c.members) :
    Lines W (h.methodText i c m body) := by
  have hnames := hW.ofMember hc hm
  simp only [Member.headNames, List.forall_mem_append, List.forall_mem_cons] at hnames
  obtain ⟨⟨⟨hname, hparams⟩, hreturns⟩, hvalues⟩ := hnames
  have htemplate := hW.memberTemplate hparams
  have htype := hW.valueType (h.plan_typeScope i c m.typeParams) m.returns hreturns
  have hvalues := hW.paramsText (h.plan_typeScope i c m.typeParams) hvalues
  have hfront : Lines W
      (h.memberTemplate m.typeParams ++ h.indent 1 ++ if m.modifiers.isStatic then lit "static "
      else if h.plan.isVirtual i c m body && !h.plan.isOverriding i m then lit "virtual "
      else []) := by
    refine (htemplate.append (lines_indent 1)).append ?_
    split_ifs
    · exact hW.line (by decide) (by decide)
    · exact hW.line (by decide) (by decide)
    · exact lines_nil
  unfold Header.methodText
  constructor <;>
    simp +decide [-List.append_assoc, -Bool.and_eq_true, hfront.worded, hfront.closed, htype, hname,
      hvalues, hW.literal]

theorem constructorText {head : ConstructorHead} {body : Code}
    (hm : .constructor head body ∈ c.members) :
    Lines W (h.constructorText i c head) := by
  obtain ⟨hparams, hvalues⟩ := List.forall_mem_append.mp (hW.ofMember hc hm)
  have htemplate := hW.memberTemplate hparams
  have hvalues := hW.paramsText (h.plan_typeScope i c head.typeParams) hvalues
  unfold Header.constructorText
  constructor <;>
    simp +decide [-List.append_assoc, htemplate.worded, htemplate.closed, hW.emitted hc, hvalues,
      hW.literal]

theorem memberText {m : Member} (hm : m ∈ c.members) : ∀ x ∈ h.memberText i c m, Lines W x.2 := by
  cases m with
  | field head declarators => exact List.forall_mem_singleton.mpr (hW.fieldText hc hm)
  | method head body => exact List.forall_mem_singleton.mpr (hW.methodText hc hm)
  | constructor head body => exact List.forall_mem_singleton.mpr (hW.constructorText hc hm)
  | constant head args body =>
    have hname := List.forall_mem_singleton.mp (hW.ofMember hc hm)
    refine List.forall_mem_singleton.mpr ?_
    constructor <;> simp +decide [-List.append_assoc, hname, hW.emitted hc, hW.literal]
  | nested head members => exact List.forall_mem_nil _
  | initializer head body => exact List.forall_mem_nil _

omit hc

theorem sections {current : Visibility} {parts : List (Visibility × Text)}
    (hparts : ∀ x ∈ parts, Lines W x.2) :
    Lines W (sections current parts) := by
  induction parts generalizing current with
  | nil => exact lines_nil
  | cons part parts ih =>
    obtain ⟨v, text⟩ := part
    obtain ⟨htext, hparts⟩ := List.forall_mem_cons.mp hparts
    have hlabel : Lines W (v.label ++ lit ":\n") := by
      cases v <;> constructor <;> simp +decide [Visibility.label, hW.literal]
    have hopening : Lines W (if v = current then [] else v.label ++ lit ":\n") := by
      split_ifs
      · exact lines_nil
      · exact hlabel
    exact (hopening.append htext).append (ih hparts)

include hc

theorem forwardingConstructor (hinstance : c.needsInitInstance = true → W (lit "initInstance")) :
    Lines W (h.forwardingConstructor c) := by
  have hfront : Lines W (h.indent 1 ++ lit "template <typename... Args>\n" ++ h.indent 1 ++
      lit "explicit ") :=
    (((lines_indent 1).append (hW.line (by decide) (by decide))).append (lines_indent 1)).append
      (hW.line (by decide) (by decide))
  have hbody : Worded W (if c.needsInitInstance then lit " initInstance(); \x7d\n"
      else lit "\x7d\n") :=
    worded_ite.mpr ⟨fun hneeds => hW.literal_of (hinstance hneeds) (by decide),
      fun _ => hW.literal (by decide)⟩
  unfold Header.forwardingConstructor
  constructor <;> simp +decide [-List.append_assoc, -worded_ite, hfront.worded, hfront.closed,
    hbody, hW.emitted hc, hW.superName hc, hW.literal]

theorem initDeclarations (hstatic : c.needsInitStatic = true → W (lit "initStatic"))
    (hinstance : c.needsInitInstance = true → W (lit "initInstance")) :
    ∀ x ∈ h.initDeclarations c, Lines W x.2 := by
  intro x hx
  simp only [Header.initDeclarations, List.mem_append, List.mem_ite_nil_right, List.mem_singleton]
    at hx
  rcases hx with (⟨-, rfl⟩ | ⟨hneeds, rfl⟩) | ⟨hneeds, rfl⟩
  · constructor <;> simp +decide [-List.append_assoc, hW.emitted hc, hW.literal]
  · exact (lines_indent 1).append ⟨hW.literal_of (hstatic hneeds) (by decide), by decide⟩
  · exact (lines_indent 1).append ⟨hW.literal_of (hinstance hneeds) (by decide), by decide⟩

/-- **The definition of a class** mentions the functions for the initialization only if they are
needed. -/
theorem definition (hstatic : c.needsInitStatic = true → W (lit "initStatic"))
    (hinstance : c.needsInitInstance = true → W (lit "initInstance")) :
    Lines W (h.definition i c) := by
  have hhead : Worded W (Unnest.templateHead c.typeParams) := hW.templateHead (hW.typeParams hc)
  have htemplate : Lines W (if c.isTemplate then Unnest.templateHead c.typeParams ++ lit "\n"
      else []) :=
    lines_ite fun _ => ⟨by simp +decide [hhead, hW.literal], by simp +decide⟩
  have hopening : ∀ bases, Worded W bases → isOpening bases = true → Lines W
      ((if c.isTemplate then Unnest.templateHead c.typeParams ++ lit "\n" else []) ++
        lit "class " ++ c.emitted ++
        bases ++ lit " \x7b\n") := by
    intro bases hbases hopening
    constructor <;> simp +decide [-List.append_assoc, htemplate.worded, htemplate.closed, hbases,
      hopening, hW.emitted hc, hW.literal]
  have hfriends : Lines W (h.friends i c) := by
    refine lines_flatMap fun x hx => lines_ite fun _ => hW.friendText ?_
    exact List.fst_mem_of_mem_zipIdx hx
  have hparts : Lines W (Unnest.sections .priv (h.aliases i ++
      (if c.isAnonymous then [(.pub, h.forwardingConstructor c)] else []) ++
      c.members.flatMap (h.memberText i c) ++ h.initDeclarations c)) := by
    refine hW.sections fun x hx => ?_
    simp only [List.mem_append, List.mem_ite_nil_right, List.mem_singleton, List.mem_flatMap] at hx
    rcases hx with ((hx | ⟨-, rfl⟩) | ⟨m, hm, hx⟩) | hx
    · obtain ⟨j, -, hj⟩ := List.mem_filterMap.mp hx
      obtain ⟨d, hd, rfl⟩ := Option.map_eq_some_iff.mp hj
      exact hW.aliasText (List.mem_of_getElem? hd)
    · exact hW.forwardingConstructor hc hinstance
    · exact hW.memberText hc hm x hx
    · exact hW.initDeclarations hc hstatic hinstance x hx
  refine (((hopening _ ?_ ?_).append hfriends).append hparts).append
    (hW.line (by decide) (by decide))
  · have hnames := hW.baseNames hc
    split
    · exact worded_nil
    · refine (worded_append_of_isClosed (by decide)).mpr
        ⟨hW.literal (by decide), worded_join fun p hp => ?_⟩
      obtain ⟨n, hn, rfl⟩ := List.mem_map.mp hp
      exact (worded_append_of_isClosed (by decide)).mpr ⟨hW.literal (by decide), hnames n hn⟩
  · split <;> rfl

/-! ### Member definitions -/

theorem qualifier : Lines W (qualifier c) := by
  have hargs := hW.templateArgs (hW.typeParams hc)
  unfold Header.qualifier
  constructor <;> simp +decide [-List.append_assoc, isOpening_templateArgs, hargs, hW.emitted hc,
    hW.literal]

theorem definitionHead (typeParams : List TypeParam)
    (hparams : ∀ n ∈ typeParams.map (·.name), Worded W n) :
    Lines W (definitionHead c typeParams) := by
  have hclass := hW.templateHead (hW.typeParams hc)
  have hmember := hW.templateHead hparams
  unfold Header.definitionHead
  refine ((lines_ite fun _ => ?_).append ?_).append ?_
  · constructor <;> simp +decide [-List.append_assoc, hclass, hW.literal]
  · constructor <;> simp +decide [-List.append_assoc, hmember, hW.literal]
  · constructor <;> simp +decide [hW.literal]

theorem methodHeadText (hm : .method m body ∈ c.members) :
    Lines W (h.methodHeadText i c m) := by
  have hnames := hW.ofMember hc hm
  simp only [Member.headNames, List.forall_mem_append, List.forall_mem_cons] at hnames
  obtain ⟨⟨⟨hname, hparams⟩, hreturns⟩, hvalues⟩ := hnames
  have hauto := hW.line (l := "auto ") (by decide) (by decide)
  have hfront := ((hW.definitionHead hc _ hparams).append hauto).append (hW.qualifier hc)
  have htype := hW.valueType (h.plan_typeScope i c m.typeParams) m.returns hreturns
  have hvalues := hW.paramsText (h.plan_typeScope i c m.typeParams) hvalues
  unfold Header.methodHeadText
  constructor <;>
    simp +decide [-List.append_assoc, hfront.worded, hfront.closed, htype, hname, hvalues,
      hW.literal]

omit hc

theorem packageText : Worded W (qualifiedText h.file.package) := by
  rw [Worded, words_qualifiedText]
  exact hW.names _ (by simp [Header.names])

theorem banner : Lines W h.banner := by
  have hsource : Worded W h.options.sourceName :=
    hW.names _ (by simp [Header.names, HeaderOptions.texts])
  have hruntime : Worded W h.options.runtimeHeader :=
    hW.names _ (by simp [Header.names, HeaderOptions.texts])
  have hfrom : isOpening (if h.options.sourceName.isEmpty then [] else lit " from " ++
      h.options.sourceName) = true := by
    split_ifs <;> rfl
  have hfront : Lines W (lit "// Generated by nestport" ++
      (if h.options.sourceName.isEmpty then [] else lit " from " ++ h.options.sourceName) ++
      lit ". Do not edit.\n#pragma once\n\n") := by
    constructor <;> simp +decide [-List.append_assoc, -List.isEmpty_iff, hfrom, hsource, hW.literal]
  have hinclude : Lines W
      (lit "#include <cstdint>\n#include <stdexcept>\n#include <utility>\n#include \"" ++
      h.options.runtimeHeader ++ lit "\"\n") := by
    constructor <;> simp +decide [-List.append_assoc, hruntime, hW.literal]
  have hpackage : Lines W (if h.file.package.isEmpty then []
      else lit "\nnamespace " ++ qualifiedText h.file.package ++ lit " \x7b\n") := by
    constructor <;> simp +decide [-List.append_assoc, hW.packageText, hW.literal]
  have hbanner :=
    ((hfront.append hinclude).append hpackage).append (hW.line (l := "\n") (by decide) (by decide))
  simpa only [Header.banner, List.append_assoc] using hbanner

theorem footer : Worded W h.footer := by
  unfold Header.footer
  simp +decide [-List.append_assoc, hW.packageText, hW.literal]

include hc

theorem staticTrigger (hstatic : W (lit "initStatic")) : Lines W (staticTrigger c) := by
  have hvariable : Worded W (c.emitted ++ lit "_staticInit") :=
    hW.ofClass hc (by simp [ClassInfo.names])
  have htext : Lines W (lit "[[maybe_unused]] inline const bool " ++
      (c.emitted ++ lit "_staticInit") ++ lit " = (" ++
      c.emitted ++ lit "::initStatic(), true);\n") := by
    have hcall : Worded W (lit "::initStatic(), true);\n") := hW.literal_of hstatic (by decide)
    constructor <;> simp +decide [-List.append_assoc, hvariable, hcall, hW.emitted hc, hW.literal]
  have hsplit : lit "_staticInit = (" = lit "_staticInit" ++ lit " = (" := rfl
  unfold Header.staticTrigger
  split_ifs
  · exact lines_nil
  · simpa only [hsplit, List.append_assoc] using htext

theorem plainConstructor (hinstance : W (lit "initInstance")) : Lines W (h.plainConstructor c) := by
  have hfront := (hW.definitionHead hc [] (List.forall_mem_nil _)).append
    (hW.qualifier hc)
  have hcall : Worded W (lit "initInstance();\n\x7d\n\n") := hW.literal_of hinstance (by decide)
  have hopening : isClosed (Header.definitionHead c [] ++ Header.qualifier c ++ c.emitted ++
      lit "() \x7b\n" ++ h.indent 1) = true :=
    isClosed_append (isClosed_append_lit (by decide)) (isClosed_indent h 1)
  unfold Header.plainConstructor
  refine lines_ite fun _ => ?_
  constructor <;> simp +decide [-List.append_assoc, hfront.worded, hfront.closed, hopening, hcall,
    hW.emitted hc, hW.literal]

/-! ### Fragments -/

omit hc hW

/-- What fragments have of the words of the header itself is worded so. -/
def OwnWorded (W : Text → Prop) (xs : List Fragment) : Prop :=
  ∀ text ∈ fragmentsOwn xs, Worded W text

section

variable {xs ys args : List Fragment}

@[simp] theorem ownWorded_nil : OwnWorded W [] := List.forall_mem_nil _

@[simp] theorem ownWorded_append : OwnWorded W (xs ++ ys) ↔ OwnWorded W xs ∧ OwnWorded W ys := by
  rw [OwnWorded, fragmentsOwn_append, List.forall_mem_append]
  rfl

@[simp] theorem ownWorded_words {text : Text} : OwnWorded W (.words text :: xs) ↔
    Worded W text ∧ OwnWorded W xs :=
  List.forall_mem_cons

@[simp] theorem ownWorded_token {t : Token} : OwnWorded W (.token t :: xs) ↔ OwnWorded W xs :=
  Iff.rfl

@[simp] theorem ownWorded_creation {a : Anonymous} :
    OwnWorded W (.creation a args :: xs) ↔ OwnWorded W args ∧ OwnWorded W xs :=
  List.forall_mem_append

@[simp] theorem ownWorded_object {name : Text} :
    OwnWorded W (.object name args :: xs) ↔ OwnWorded W args ∧ OwnWorded W xs :=
  List.forall_mem_append

end

theorem ownWorded_flatMap {α : Type} {l : List α} {f : α → List Fragment}
    (hl : ∀ x ∈ l, OwnWorded W (f x)) :
    OwnWorded W (l.flatMap f) := by
  induction l with
  | nil => exact List.forall_mem_nil _
  | cons x l ih =>
    rw [List.flatMap_cons, ownWorded_append]
    exact ⟨hl x List.mem_cons_self, ih fun x hx => hl x (List.mem_cons_of_mem _ hx)⟩

theorem worded_gap {l : Layout} (hl : Lines W l.indent) (pen : Pen) (line col : Int)
    (space : Bool) :
    Worded W (pen.gap l line col space) := by
  have hmargins : Worded W (l.margins col) :=
    (worded_append_of_isClosed hl.closed).mpr ⟨hl.worded, worded_spaces _⟩
  have hbreak : Worded W (newline :: l.margins col) :=
    (worded_append_of_isClosed (a := [newline]) (by decide)).mpr
    ⟨worded_of_words_eq_nil (by decide), hmargins⟩
  unfold Pen.gap
  split_ifs
  · exact hmargins
  · exact worded_nil
  · exact hbreak
  · exact worded_of_words_eq_nil (by decide)
  · exact worded_nil

theorem worded_closingGap {l : Layout} (hl : Lines W l.indent) (pen : Pen) :
    Worded W (pen.closingGap l) := by
  unfold Pen.closingGap
  split_ifs
  · exact (worded_append_of_isClosed (a := [newline]) (by decide)).mpr
      ⟨worded_of_words_eq_nil (by decide), hl.worded⟩
  · exact worded_nil

theorem pieceFragments {l : Layout} (hl : Lines W l.indent) (pen : Pen) (ps : List Piece) :
    OwnWorded W (pieceFragments l pen ps) := by
  fun_induction Unnest.pieceFragments l pen ps with
  | case1 pen => exact ownWorded_nil
  | case2 pen t ps ih => simp [worded_gap hl, ih]
  | case3 pen place base members endLine label ps ih => simp [worded_gap hl, ih]
  | case4 pen place base argsPlace args members endLine label ps within ihargs ihrest =>
    simp [worded_gap hl, worded_closingGap hl, ihargs, ihrest]

theorem layFragments (isBlock : Bool) (depth : Nat) (ps : List Piece) :
    OwnWorded W (layFragments (h.indent depth) isBlock ps) := by
  have hpieces := fun l hl => pieceFragments (W := W) (l := ⟨h.indent depth, isBlock, l⟩) hl
  have hclosing := fun l hl => worded_closingGap (W := W) (l := ⟨h.indent depth, isBlock, l⟩) hl
  simp [Unnest.layFragments, hpieces _ (lines_indent depth), hclosing _ (lines_indent depth)]

theorem blockFragments (code : Code) (depth skip : Nat) :
    OwnWorded W (h.blockFragments code depth skip) := by
  have hbreak : Worded W (lit "\n") := worded_of_words_eq_nil (by decide)
  simp [Header.blockFragments, layFragments, hbreak]

theorem argsFragments (args : Option Code) : OwnWorded W (h.argsFragments args) := by
  cases args with
  | none => exact ownWorded_nil
  | some code => exact layFragments _ _ _

include hW hc

theorem initItem {item : InitItem} (hitem : item ∈ c.staticItems ++ c.instanceItems) :
    ∀ n ∈ item.names, Worded W n := by
  simp only [ClassInfo.staticItems, ClassInfo.instanceItems, List.mem_append, List.mem_flatMap,
    ← exists_or, ← and_or_left] at hitem
  obtain ⟨m, hm, hitem⟩ := hitem
  have hnames := hW.ofMember hc hm
  cases m with
  | field head declarators =>
    have hitem : item ∈ assignments declarators := by
      simp only [ClassInfo.staticItemsOf, ClassInfo.instanceItemsOf] at hitem
      split_ifs at hitem <;> simpa using hitem
    obtain ⟨d, hd, hinit⟩ := List.mem_filterMap.mp hitem
    obtain ⟨value, -, rfl⟩ := Option.map_eq_some_iff.mp hinit
    exact List.forall_mem_singleton.mpr
      (hnames _ (List.mem_append_right _ (List.mem_map_of_mem hd)))
  | constant head args body =>
    obtain rfl : item = .constant head.name args body := by
      simpa [ClassInfo.staticItemsOf, ClassInfo.instanceItemsOf] using hitem
    exact hnames
  | initializer head code =>
    obtain rfl : item = .block code := by
      simp only [ClassInfo.staticItemsOf, ClassInfo.instanceItemsOf] at hitem
      split_ifs at hitem <;> simpa using hitem
    exact List.forall_mem_nil _
  | _ => simp [ClassInfo.staticItemsOf, ClassInfo.instanceItemsOf] at hitem

theorem initItemFragments {item : InitItem} (hitem : item ∈ c.staticItems ++ c.instanceItems) :
    OwnWorded W (h.initItemFragments c item) := by
  have hassign : ∀ n ∈ item.names, Worded W (h.indent 1 ++ n ++ lit " = ") := fun n hn => by
    simp +decide [-List.append_assoc, hW.initItem hc hitem n hn, hW.literal]
  cases item with
  | constant name args body =>
    have hname := hassign name List.mem_cons_self
    cases body <;> simp +decide [-List.append_assoc, Header.initItemFragments, hname, argsFragments,
      hW.literal]
  | assign name value =>
    have hname := hassign name List.mem_cons_self
    simp +decide [-List.append_assoc, Header.initItemFragments, hname, layFragments, hW.literal]
  | block code => simp +decide [Header.initItemFragments, blockFragments, hW.literal]

theorem initFragments {name : String} (hname : Worded W (lit name)) {items : List InitItem}
    (hitems : ∀ item ∈ items, item ∈ c.staticItems ++ c.instanceItems) :
    OwnWorded W (h.initFragments c name items) := by
  have hfront := (hW.definitionHead hc [] (List.forall_mem_nil _)).append
    (hW.line (l := "auto ") (by decide) (by decide))
  have hfront := hfront.append (hW.qualifier hc)
  have hsteps := ownWorded_flatMap fun item hitem => hW.initItemFragments hc (hitems item hitem)
  simp +decide [-List.append_assoc, Header.initFragments, hfront.worded, hfront.closed, hname,
    hsteps, hW.literal]

theorem callFragments (call : Option LeadingCall) : OwnWorded W (h.callFragments c call) := by
  have hargs := hW.templateArgs (hW.typeParams hc)
  cases call with
  | none => exact ownWorded_nil
  | some call =>
    simp +decide [-List.append_assoc, Header.callFragments, isOpening_templateArgs, hargs,
      hW.emitted hc, hW.superName hc, layFragments, hW.literal]

theorem constructorFragments {head : ConstructorHead} {body : Code}
    (hm : .constructor head body ∈ c.members) (hinstance : W (lit "initInstance")) :
    OwnWorded W (h.constructorFragments i c head body) := by
  obtain ⟨hparams, hvalues⟩ := List.forall_mem_append.mp (hW.ofMember hc hm)
  have hfront := (hW.definitionHead hc _ hparams).append (hW.qualifier hc)
  have hvalues := hW.paramsText (h.plan_typeScope i c head.typeParams) hvalues
  have hcall : Worded W (lit "initInstance();\n") := hW.literal_of hinstance (by decide)
  simp +decide [-List.append_assoc, -Bool.and_eq_true, Header.constructorFragments, hfront.worded,
    hfront.closed, hvalues, hW.emitted hc, hW.callFragments hc, blockFragments, hcall, hW.literal]

theorem methodFragments (hm : .method m body ∈ c.members) :
    OwnWorded W (h.methodFragments i c m body) := by
  have hhead := hW.methodHeadText (i := i) hc hm
  have hname := hW.ofMember hc hm m.name (by simp [Member.headNames])
  cases body with
  | none => 
    simp +decide [-List.append_assoc, -Bool.and_eq_true, Header.methodFragments, hhead.worded,
      hhead.closed, hname, hW.emitted hc, hW.literal]
  | some body => simp +decide [Header.methodFragments, hhead.worded, blockFragments, hW.literal]

theorem memberFragments (hstatic : W (lit "initStatic")) (hinstance : W (lit "initInstance")) :
    OwnWorded W (h.memberFragments i c) := by
  have hclass := hW.initFragments hc (hW.literal_of (l := "initStatic") hstatic (by decide))
    fun item hitem =>
    List.mem_append_left c.instanceItems hitem
  have hobject := hW.initFragments hc (hW.literal_of (l := "initInstance") hinstance (by decide))
    fun item hitem =>
    List.mem_append_right c.staticItems hitem
  have hconstructors := ownWorded_flatMap fun x hx =>
    hW.constructorFragments (i := i) hc (ClassInfo.mem_constructors.mp hx) hinstance
  have hmethods := ownWorded_flatMap fun x hx =>
    hW.methodFragments (i := i) hc (ClassInfo.mem_methods.mp hx)
  have hplain := (hW.plainConstructor hc hinstance).worded
  unfold Header.memberFragments
  split_ifs <;> simp [hclass, hobject, hplain, hconstructors, hmethods]

omit hc

/-- **The own words of a header** are those that all headers have in common and those of the names
in it. -/
theorem fragments (hstatic : W (lit "initStatic")) (hinstance : W (lit "initInstance")) :
    OwnWorded W h.fragments := by
  have hc : ∀ x ∈ h.inOrder, x.2 ∈ h.plan.classes := by
    intro x hx
    obtain ⟨j, -, hj⟩ := List.mem_filterMap.mp hx
    obtain ⟨d, hd, rfl⟩ := Option.map_eq_some_iff.mp hj
    exact List.mem_of_getElem? hd
  have hforward := lines_flatMap fun c hc => hW.forwardDeclaration (c := c) hc
  have hdefinitions := lines_flatMap fun x hx =>
    hW.definition (i := x.1) (hc x hx) (fun _ => hstatic) fun _ => hinstance
  have htriggers := lines_flatMap fun x hx => hW.staticTrigger (hc x hx) hstatic
  simp only [Header.fragments, ownWorded_append, ownWorded_words, List.cons_append]
  refine ⟨((hW.banner.append hforward).append hdefinitions).worded,
    ownWorded_flatMap fun x hx => ?_, ?_, ownWorded_nil⟩
  · exact hW.memberFragments (hc x hx) hstatic hinstance
  · exact (worded_append_of_isClosed htriggers.closed).mpr ⟨htriggers.worded, hW.footer⟩

end Header.Wording

theorem Header.wording (h : Header) (word : Text) (hword : ownWords.contains word = false) :
    h.Wording fun w => w = word → h.HasNameWith word where
  own w hw := by
    rintro rfl
    rw [List.contains_iff_mem.mpr hw] at hword
    cases hword
  names n hn w hw := by
    rintro rfl
    exact ⟨n, hn, hw⟩

theorem Header.hasNameWith_of_mem_words {word : Text} (hword : ownWords.contains word = false)
    (hstatic : lit "initStatic" ≠ word) (hinstance : lit "initInstance" ≠ word) {h : Header}
    {text : Text} (hmem : text ∈ fragmentsOwn h.fragments) (hwords : word ∈ words text) :
    h.HasNameWith word :=
  (h.wording word hword).fragments (fun heq => absurd heq hstatic)
    (fun heq => absurd heq hinstance) text hmem word hwords rfl

end Unnest
