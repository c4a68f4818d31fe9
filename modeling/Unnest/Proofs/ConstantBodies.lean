import Unnest.Proofs.Aliases
import Unnest.Proofs.ClassBodies
import Unnest.Proofs.Cycles
import Unnest.Proofs.ErrorPlaces
import Unnest.Proofs.Positions
import Mathlib

/-!
# The bases of the bodies of enum constants

The body of an enum constant is an anonymous class inside the enum. Its base is the enum, but only
the name of the enum is kept, and this name is looked up from the enum outwards: among the classes
that are declared in the enum or inherited by it first, and only then as the name of the enum
itself. So the base is the enum unless the enum has or inherits a class of its own name.

* `Plan.child?_of_memberWithin?`: where a class of a name is found;
* `Plan.bases_constantBody`: the base of the body of an enum constant.
-/

namespace Unnest

open Unnest.Parser

/-! ### Names of classes -/

variable {source : Source} {f : File} {head : TypeHead} {members : List Member} {root : Group}
  {a : Anonymous}

theorem lexes_of_lex {tokens : List Token} (h : lex source = .ok tokens)
    {t : Token} (ht : t ∈ tokens) (hkind : t.kind ≠ .eof) : ∃ rest, Lexes t.kind rest t.text := by
  obtain ⟨front, back, hstands⟩ := exists_stands_of_lex h ht hkind
  exact ⟨_, hstands.lexes⟩

theorem dot_notMem_of_ident {tokens : List Token} (h : lex source = .ok tokens)
    {t : Token} (ht : t ∈ tokens) (hkind : t.kind = .ident) : chr '.' ∉ t.text := by
  obtain ⟨rest, hlexes⟩ := lexes_of_lex h ht (by simp [hkind])
  rw [hkind] at hlexes
  generalize t.text = text at hlexes
  cases hlexes with
  | long hkind => cases hkind
  | @short c more _ _ _ hlexeme =>
    obtain ⟨hstart, hbytes⟩ := Lexeme.bytes_of_ident hlexeme
    intro hmem
    rcases List.mem_cons.mp hmem with rfl | hmem
    · exact absurd hstart (by decide)
    · exact absurd (hbytes _ hmem) (by decide)

theorem exists_ident_of_within (hf : File.ofGroup root = .ok f)
    (h : f.Within (.member (.nested head members))) :
    ∃ t, root.Holds (.token t) ∧ t.kind = .ident ∧ head.name = t.text := by
  obtain ⟨d, hd, m₀, hm₀, hwithin⟩ := h
  obtain ⟨levels, ms, hms, hm⟩ := (Node.fromTree_of_mem hf hd hm₀).within hwithin
  obtain ⟨k, ctx, g, form, s, s', m₁, span, hg, hdepth, hs, hform, hparse, -, -, heq⟩ :=
    exists_parse_of_membersFrom hms hm
  have hcursor : (ElementInvariant.inTree root k).cursor s := by
    refine ⟨trivial, fun e he => ?_⟩
    have hchild : e ∈ g.children := List.drop_subset _ _ (hs.1 ▸ he)
    exact ⟨hg.children e hchild, (depth_le_of_mem hchild).trans hdepth⟩
  have htype : Gives (typeDecl (insideAt k)) s (fun d _ => ∀ head members,
      Member.nested d.head d.members = .nested head members →
        ∃ t, root.Holds (.token t) ∧ t.kind = .ident ∧ head.name = t.text) fun _ => True := by
    refine (((ElementInvariant.inTree root k).reads_insideAt k).gives_typeDecl hcursor).mono ?_
      fun _ => id
    rintro d - ⟨-, -, t, ht, hkind, hname⟩ _ _ ⟨⟩
    exact ⟨t, ht.1, hkind, hname⟩
  have hnested := holds_of_parse (P := fun m => ∀ head members, m = .nested head members →
      ∃ t, root.Holds (.token t) ∧ t.kind = .ident ∧ head.name = t.text) hform
    (gives_of_forall (fun m _ hm => ?_) fun _ _ _ => trivial) htype (by simp) (by simp) (by simp)
    (by simp) hparse
  · cases m₁ with
    | nested head₁ members₁ =>
      cases heq
      exact hnested head₁ _ rfl
    | _ => cases heq
  · obtain ⟨head, args, body, rfl, -⟩ := exists_constant_of_constantDecl hm
    simp

/-- **The names of the classes of a file** are identifiers of the source. -/
theorem File.exists_ident_of_mem_nodes (hf : File.ofGroup root = .ok f)
    (h : .named head members ∈ f.nodes) :
    ∃ t, root.Holds (.token t) ∧ t.kind = .ident ∧ head.name = t.text := by
  rcases mem_nodes_iff.mp h with ⟨d, hd, heq⟩ | hwithin
  · cases heq
    obtain ⟨-, t, ht, hkind, hname⟩ :=
      (ElementInvariant.inTree root _).typesFrom_ofGroup (ElementInvariant.inTree_cursor root)
      hf d hd
    exact ⟨t, ht.1, hkind, hname⟩
  · exact exists_ident_of_within hf hwithin

theorem File.dot_notMem_of_mem_nodes (hf : File.ofSource source = .ok f)
    (h : .named head members ∈ f.nodes) : chr '.' ∉ head.name := by
  obtain ⟨root, hroot, hf⟩ := Except.bind_eq_ok.mp hf
  obtain ⟨tokens, htokens, hgroup⟩ := Except.bind_eq_ok.mp hroot
  obtain ⟨t, ht, hkind, hname⟩ := exists_ident_of_mem_nodes hf h
  rw [hname]
  exact dot_notMem_of_ident htokens (mem_of_holds hgroup ht) hkind

/-! ### Before the classes were named -/

/-- The class `c'` is the class `c` with the anonymous classes in it, and itself if it is one,
named. -/
inductive ClassNode.Labelled (top : Text) : ClassNode → ClassNode → Prop
  | named (n : Nat) (head : TypeHead) (members : List Member) :
    Labelled top (.named head members) (.named head (labelMembers top n members).1)
  | anonymous (n : Nat) (a : Anonymous) :
      Labelled top (.anonymous a) (.anonymous (a.labelled top n).1)

/-- **Naming the anonymous classes** of a file changes nothing else of its classes. -/
theorem File.exists_node_of_labelled {c' : ClassNode} (h : c' ∈ f.labelled.nodes) :
    ∃ c ∈ f.nodes, ∃ top, c.Labelled top c' := by
  rcases mem_nodes_iff.mp h with ⟨d', hd', rfl⟩ | hwithin
  · obtain ⟨d, hd, rfl⟩ := List.mem_map.mp hd'
    exact ⟨.named d.head d.members, mem_nodes_iff.mpr (Or.inl ⟨d, hd, rfl⟩), d.head.name,
      .named 1 d.head d.members⟩
  · obtain ⟨top, y, hy, hlabelled⟩ := exists_within_of_labelled hwithin
    have hnode : ∀ c : ClassNode, y = c.node → c ∈ f.nodes := by
      rintro c rfl
      exact mem_nodes_iff.mpr (Or.inr hy)
    generalize hx : c'.node = x at hlabelled
    cases hlabelled with
    | code => cases c' <;> cases hx
    | anonymous n a =>
      cases c' <;> cases hx
      exact ⟨.anonymous a, hnode (.anonymous a) rfl, _, .anonymous n a⟩
    | member n m₁ =>
      cases c' with
      | anonymous => cases hx
      | named head members =>
        cases m₁ with
        | nested head₁ members₁ =>
          cases hx
          exact ⟨.named head members₁, hnode (.named head members₁) rfl, _, .named n head members₁⟩
        | field => cases hx
        | method head₁ body => rcases body with _ | ⟨place, pieces⟩ <;> cases hx
        | constructor head₁ body => cases body; cases hx
        | initializer head₁ body => cases body; cases hx
        | constant head₁ args body =>
          rcases args with _ | ⟨place, pieces⟩ <;> rcases body with _ | body <;> cases hx

theorem Anonymous.base_labelled (top : Text) (n : Nat) (a : Anonymous) :
    (a.labelled top n).1.base = a.base := by
  obtain ⟨place, base, _ | ⟨argsPlace, pieces⟩, members, endLine, label⟩ := a <;> rfl

theorem exists_constant_of_labelled {top : Text} {n : Nat} {ms : List Member} {head : ConstantHead}
    {args : Option Code}
    (h : .constant head args (some a) ∈ (labelMembers top n ms).1) :
    ∃ args₀ a₀, .constant head args₀ (some a₀) ∈ ms ∧ a.base = a₀.base := by
  obtain ⟨m, hm, k, heq⟩ := exists_of_mem_labelMembers h
  cases m with
  | constant head₀ args₀ body₀ =>
    rcases args₀ with _ | ⟨place, pieces⟩ <;> rcases body₀ with _ | a₀ <;> cases heq
    · exact ⟨none, a₀, hm, a₀.base_labelled _ _⟩
    · exact ⟨_, a₀, hm, a₀.base_labelled _ _⟩
  | field => cases heq
  | nested => cases heq
  | method head₀ body => rcases body with _ | ⟨place, pieces⟩ <;> cases heq
  | constructor head₀ body =>
    cases body
    cases heq
  | initializer head₀ body =>
    cases body
    cases heq

theorem File.enum_of_constantBody (hf : File.ofGroup root = .ok f)
    {c' : ClassNode} (hc' : c' ∈ f.labelled.nodes) {head : ConstantHead} {args : Option Code}
    (hm : .constant head args (some a) ∈ c'.members) :
    ∃ enum members members₀, c' = .named enum members ∧ .named enum members₀ ∈ f.nodes ∧
      enum.kind = .enumeration ∧ a.base.name = enum.name := by
  obtain ⟨c, hc, top, hlabelled⟩ := exists_node_of_labelled hc'
  have hformed := ClassNode.wellFormed_of_readAs (readAs_of_mem_nodes hf hc)
  cases hlabelled with
  | named n enum members₀ =>
    obtain ⟨args₀, a₀, hm₀, hbase⟩ := exists_constant_of_labelled hm
    have hname := (hformed.constantBodies head args₀ a₀ hm₀).2
    refine ⟨enum, _, members₀, rfl, hc, hformed.constants _ hm₀ rfl, ?_⟩
    rw [hbase]
    exact (Option.some.inj hname).symm
  | anonymous n a' =>
    -- an anonymous class has no name to base a body on
    obtain ⟨k, hmembers⟩ : ∃ k, (a'.labelled top n).1.members =
        (labelMembers top k a'.members).1 := by
      obtain ⟨place, base, _ | ⟨argsPlace, pieces⟩, members, endLine, label⟩ := a'
      · exact ⟨n + 1, rfl⟩
      · exact ⟨_, rfl⟩
    change _ ∈ (a'.labelled top n).1.members at hm
    rw [hmembers] at hm
    obtain ⟨args₀, a₀, hm₀, -⟩ := exists_constant_of_labelled hm
    have hname := (hformed.constantBodies head args₀ a₀ hm₀).2
    cases hname

/-! ### Classes inside a class -/

def Member.constantBody? : Member → Option Anonymous
  | constant _ _ body => body
  | _ => none

theorem Member.eq_constant_of_constantBody? {m : Member}
    (h : m.constantBody? = some a) :
    ∃ head args, m = .constant head args (some a) := by
  cases m with
  | constant head args body =>
    cases h
    exact ⟨head, args, rfl⟩
  | _ => cases h

/-- In a list of classes numbered from `next` on, the classes inside each class are listed, too. -/
def ListsInside (next : Nat) (cs : List ClassInfo) : Prop :=
  ∀ (k : Nat) c, cs[k]? = some c →
    ∃ n, memberClasses ⟨next + k, c.top, c.emitted⟩ n c.members <:+: cs

section ListsInside

variable {next : Nat} {c : ClassInfo} {cs cs' : List ClassInfo}

theorem listsInside_nil : ListsInside next [] := by simp [ListsInside]

theorem ListsInside.append (h : ListsInside next cs) (h' : ListsInside (next + cs.length) cs') :
    ListsInside next (cs ++ cs') := by
  intro k c hc
  rcases Nat.lt_or_ge k cs.length with hk | hk
  · rw [List.getElem?_append_left hk] at hc
    obtain ⟨n, hn⟩ := h k c hc
    exact ⟨n, hn.trans (List.prefix_append cs cs').isInfix⟩
  · rw [List.getElem?_append_right hk] at hc
    obtain ⟨n, hn⟩ := h' _ c hc
    have hnumber : next + cs.length + (k - cs.length) = next + k := by omega
    rw [hnumber] at hn
    exact ⟨n, hn.trans (List.suffix_append cs cs').isInfix⟩

theorem listsInside_cons {n : Nat}
    (hinside : memberClasses ⟨next, c.top, c.emitted⟩ n c.members <:+: cs)
    (h : ListsInside (next + 1) cs) : ListsInside next (c :: cs) := by
  intro k d hd
  cases k with
  | zero =>
    cases hd
    exact ⟨n, hinside.trans (List.suffix_cons _ _).isInfix⟩
  | succ k =>
    obtain ⟨n, hn⟩ := h k d hd
    rw [Nat.add_assoc, Nat.add_comm 1 k] at hn
    exact ⟨n, hn.trans (List.suffix_cons _ _).isInfix⟩

end ListsInside

theorem Listed.inside {within : Enclosing} {next : Nat} {cs : List ClassInfo}
    (h : Listed within next cs) :
    ListsInside next cs := by
  induction h with
  | nil => exact listsInside_nil
  | append _ _ ih ih' => exact ih.append ih'
  | @cons _ next c cs cs' _ htop _ _ hinside _ _ ihbeside ihbelow =>
    have hbelow : memberClasses ⟨next, c.top, c.emitted⟩ (next + 1 + cs.length) c.members <:+: cs ++
        cs' := by
      rw [htop, ← hinside]
      exact (List.suffix_append cs cs').isInfix
    exact listsInside_cons hbelow (ihbeside.append ihbelow)

theorem File.listsInside_classes (f : File) : ListsInside 0 f.classes := by
  have htypes : ∀ (ds : List TypeDecl) (next : Nat), ListsInside next (typeClasses next ds) := by
    intro ds
    induction ds with
    | nil => exact fun _ => listsInside_nil
    | cons d ds ih =>
      intro next
      exact (listsInside_cons List.infix_rfl (listed_members d.members _ _).inside).append (ih _)
  exact htypes f.types 0

theorem exists_infix_memberClasses {m : Member} {ms : List Member} (hm : m ∈ ms)
    (within : Enclosing) (next : Nat) :
    ∃ n, m.classes within n <:+: memberClasses within next ms := by
  induction ms generalizing next with
  | nil => cases hm
  | cons m' ms ih =>
    rw [memberClasses]
    rcases List.mem_cons.mp hm with rfl | hm
    · exact ⟨next, (List.prefix_append _ _).isInfix⟩
    · obtain ⟨n, hn⟩ := ih hm (next + (m'.classes within next).length)
      exact ⟨n, hn.trans (List.suffix_append _ _).isInfix⟩

theorem exists_mem_classes_constant (within : Enclosing) (next : Nat) (head : ConstantHead)
    (args : Option Code) (a : Anonymous) :
    ∃ d ∈ (Member.constant head args (some a)).classes within next,
      d.parent = some within.self ∧ (ClassNode.anonymous a).Describes d := by
  have hbody : ∀ n, ∃ d ∈ a.classes within n,
      d.parent = some within.self ∧ (ClassNode.anonymous a).Describes d := by
    intro n
    obtain ⟨place, base, _ | ⟨argsPlace, pieces⟩, members, endLine, label⟩ := a <;>
      exact ⟨_, List.mem_cons_self, rfl, rfl, rfl, rfl⟩
  rcases args with _ | ⟨place, pieces⟩
  · exact hbody next
  · obtain ⟨d, hd, hdescribes⟩ := hbody (next + (pieceClasses within next pieces).length)
    exact ⟨d, List.mem_append_right _ hd, hdescribes⟩

theorem Described.exists_node {nodes : List ClassNode} {cs : List ClassInfo}
    (h : Described nodes cs) {c : ClassInfo} (hc : c ∈ cs) : ∃ n ∈ nodes, n.Describes c := by
  induction h with
  | nil => cases hc
  | cons hnode _ ih =>
    rcases List.mem_cons.mp hc with rfl | hc
    · exact ⟨_, List.mem_cons_self, hnode⟩
    · obtain ⟨n, hn, hdescribes⟩ := ih hc
      exact ⟨n, List.mem_cons_of_mem _ hn, hdescribes⟩

namespace Plan

variable {known : List Text} {f : File} {p q s : Plan} {e j k b : Nat} {c d : ClassInfo}
  {name : Text}

theorem getElem?_classes_of_ofFile (h : ofFile known f = .ok p) (j : Nat) :
    f.classes[j]? = (p.class? j).map ({ · with bases := [] }) := by
  have hplain : ∀ c ∈ f.classes, ({ c with bases := [] } : ClassInfo) = id c := by
    intro c hc
    obtain ⟨k, hk⟩ := List.mem_iff_getElem?.mp hc
    rw [← (f.nested_classes k c hk).1]
    rfl
  rw [class?, ← List.getElem?_map, classes_ofFile h, List.map_congr_left hplain, List.map_id]

/-- The class `d` with the number `j` is the body `a` of an enum constant of the class with the
number `e`. -/
structure ConstantBody (p : Plan) (e : Nat) (a : Anonymous) (j : Nat) (d : ClassInfo) : Prop where
  ofClass : p.class? j = some d
  parent : d.parent = some e
  describes : (ClassNode.anonymous a).Describes d

theorem exists_constantBody (h : ofFile known f = .ok p) (hc : p.class? e = some c)
    {head : ConstantHead} {args : Option Code} {a : Anonymous}
    (hm : .constant head args (some a) ∈ c.members) :
    ∃ j d, p.ConstantBody e a j d := by
  have hclass := getElem?_classes_of_ofFile h e
  rw [hc, Option.map_some] at hclass
  obtain ⟨n, hinside⟩ := f.listsInside_classes e _ hclass
  rw [Nat.zero_add] at hinside
  obtain ⟨n', hmember⟩ := exists_infix_memberClasses hm ⟨e, c.top, c.emitted⟩ n
  obtain ⟨d, hd, hparent, hdescribes⟩ :=
    exists_mem_classes_constant ⟨e, c.top, c.emitted⟩ n' head args a
  obtain ⟨j, hj⟩ := List.mem_iff_getElem?.mp ((hmember.trans hinside).subset hd)
  rw [getElem?_classes_of_ofFile h j] at hj
  obtain ⟨d', hd', rfl⟩ := Option.map_eq_some_iff.mp hj
  exact ⟨j, d', hd', hparent, hdescribes⟩

/-! ### The name of the class around -/

/-- The plan in which only the bases of the classes in front of class `j` are known. -/
def upTo (p : Plan) (j : Nat) : Plan where
  classes := p.classes.mapIdx fun k c => if k < j then c else { c with bases := [] }

theorem bases_upTo (p : Plan) (j k : Nat) :
    (p.upTo j).bases k = if k < j then p.bases k else [] := by
  simp only [bases, class?, upTo, List.getElem?_mapIdx]
  cases p.classes[k]? with
  | none => simp
  | some c => split_ifs <;> rfl

theorem withoutBases_upTo (p : Plan) (j : Nat) : (p.upTo j).withoutBases = p.withoutBases := by
  unfold withoutBases upTo
  congr 1
  refine List.ext_getElem? fun k => ?_
  simp only [List.getElem?_map, List.getElem?_mapIdx]
  cases p.classes[k]? with
  | none => rfl
  | some c =>
    simp only [Option.map_some]
    split_ifs <;> rfl

theorem child?_upTo (p : Plan) (j : Nat) (name : Text) (k : Nat) :
    (p.upTo j).child? name k = p.child? name k := by
  rw [← child?_withoutBases, withoutBases_upTo, child?_withoutBases]

theorem Above.of_upTo (h : (p.upTo j).Above b k) : p.Above b k := by
  refine Relation.TransGen.mono (fun base cls hbase => ?_) _ _ h
  unfold IsBase at hbase ⊢
  rw [bases_upTo] at hbase
  split_ifs at hbase
  · exact hbase
  · cases hbase

/-- A class found by its name is declared in the class that is searched or in one above it. -/
theorem child?_of_memberWithin? {levels owner : Nat}
    (h : p.memberWithin? name levels owner = some b) :
    ∃ k, (k = owner ∨ p.Above k owner) ∧ p.child? name k = some b := by
  induction levels generalizing owner with
  | zero => cases h
  | succ levels ih =>
    rw [memberWithin?] at h
    rcases Option.or_eq_some_iff.mp h with hchild | ⟨-, h⟩
    · exact ⟨owner, Or.inl rfl, hchild⟩
    · obtain ⟨base, hbase, hfound⟩ := List.exists_of_findSome?_eq_some h
      obtain ⟨k, hk, hchild⟩ := ih hfound
      refine ⟨k, Or.inr ?_, hchild⟩
      rcases hk with rfl | hk
      · exact .single hbase
      · exact .tail hk hbase

theorem lookup_simpleName (p : Plan) (e : Nat) :
    p.lookup (p.simpleName e) (some e) = some ((p.member? e (p.simpleName e)).getD e) := by
  obtain ⟨outer, houter⟩ := p.exists_outward_cons e
  have hvisible : p.visible? (p.simpleName e) e = some ((p.member? e (p.simpleName e)).getD e) := by
    rw [visible?, if_pos (beq_self_eq_true _)]
    cases p.member? e (p.simpleName e) <;> rfl
  rw [lookup, Option.elim_some, houter, List.findSome?_cons, hvisible]
  rfl

/-- **The bases of an anonymous class** whose base is named like the class around it. -/
theorem bases_of_simpleName (h : ofFile known f = .ok p) (hd : p.class? j = some d) {place : Place}
    {base : TypeRef} (horigin : d.origin = .anonymous place base) (hparent : d.parent = some e)
    (hname : base.name = p.simpleName e) (hdot : chr '.' ∉ p.simpleName e) :
    p.bases j = [((p.upTo j).member? e (p.simpleName e)).getD e] := by
  obtain ⟨q, hq, hpq, -⟩ := exists_of_ofFile h
  have hbases : ∀ k, q.bases k = p.bases k := fun _ => by rw [hpq]; rfl
  have hclass : f.classes[j]? = some { d with bases := [] } := by
    rw [getElem?_classes_of_ofFile h j, hd, Option.map_some]
  have hrefs : ({ d with bases := [] } : ClassInfo).baseRefs = [base] := by
    simp only [ClassInfo.baseRefs, horigin]
  obtain ⟨s, t, -, ht, hext, hbefore, hbehind⟩ := exists_turn f.nested_classes hq hclass
  rw [hrefs, List.foldlM_cons] at ht
  obtain ⟨_, hstep, ht⟩ := Except.bind_eq_ok.mp ht
  cases ht
  have hj : j < s.size := by
    rw [hext.size_eq]
    exact lt_size_of_getElem? (p := { classes := f.classes }) hclass
  have hgrown := bases_of_resolveBase hj hstep
  have hnone : ∀ k, ¬ k < j → s.bases k = [] := fun k hk => by
    rw [← hbefore.bases_eq k hk, bases_eq_nil f.nested_classes]
  -- when the class takes its turn, the bases of the classes in front of it are known
  have hknown : ∀ k, s.bases k = (p.upTo j).bases k := by
    intro k
    rw [bases_upTo]
    split_ifs with hk
    · rw [← hbases, ← hbehind.bases_eq k (by omega), hgrown k, if_neg (by omega), List.append_nil]
    · exact hnone k hk
  have hsame : s.withoutBases = (p.upTo j).withoutBases := by
    have hplan : p.withoutBases = q.withoutBases := by rw [hpq]; rfl
    rw [withoutBases_upTo, hplan, withoutBases_of_extends hext,
      withoutBases_of_extends (extends_of_resolveBases f.nested_classes hq)]
  have hsimple : (p.upTo j).simpleName e = p.simpleName e := by
    rw [← simpleName_withoutBases, withoutBases_upTo, simpleName_withoutBases]
  have hresolve : s.resolve base.name d.parent =
      some (((p.upTo j).member? e (p.simpleName e)).getD e) := by
    rw [resolve_eq_of_consulted hsame fun k _ => hknown k, hname, hparent, resolve_eq_lookup hdot,
      ← hsimple]
    exact (p.upTo j).lookup_simpleName e
  calc p.bases j = t.bases j := by rw [← hbases, hbehind.bases_eq j (lt_irrefl j)]
    _ = (s.resolve base.name d.parent).toList := by
      rw [hgrown j, hnone j (lt_irrefl j), if_pos rfl, List.nil_append]
    _ = _ := by rw [hresolve, Option.toList_some]

/-- **The base of the body of an enum constant**. The class that has the constant is an enum, and
the body is a class inside it with one base: the class with the name of the enum that the enum has
or inherits, as far as bases are known by then, or else the enum. So it is the enum if neither the
enum nor a class above it has another class of its name. -/
theorem bases_constantBody {source : Source} {f : File} (hf : File.ofSource source = .ok f)
    (hp : ofFile known f.labelled = .ok p) (hc : p.class? e = some c) {head : ConstantHead}
    {args : Option Code} {a : Anonymous} (hm : .constant head args (some a) ∈ c.members) :
    c.isEnum = true ∧ (∃ j d, p.ConstantBody e a j d) ∧ ∀ j d, p.ConstantBody e a j d →
      p.bases j = [((p.upTo j).member? e c.simpleName).getD e] ∧
      ((∀ k b, k = e ∨ p.Above k e → p.child? c.simpleName k = some b → b = e) →
        p.bases j = [e]) := by
  obtain ⟨root, -, hroot⟩ := Except.bind_eq_ok.mp hf
  obtain ⟨node, hnode, hnodeDescribes⟩ :=
    (described_ofFile hp).exists_node (List.mem_of_getElem? hc)
  rw [hnodeDescribes.members] at hm
  obtain ⟨enum, members, members₀, rfl, hmem, hkind, hname⟩ :=
    File.enum_of_constantBody hroot hnode hm
  have horigin : c.origin = .named enum := hnodeDescribes.1
  have hsimple : c.simpleName = enum.name := by rw [ClassInfo.simpleName, horigin]
  have hplan : p.simpleName e = c.simpleName := by rw [simpleName, hc, Option.elim_some]
  rw [← hnodeDescribes.members] at hm
  refine ⟨?_, exists_constantBody hp hc hm, fun j d hbody => ?_⟩
  · simp [ClassInfo.isEnum, ClassInfo.isKind, ClassInfo.head?, horigin, hkind]
  have hbases : p.bases j = [((p.upTo j).member? e c.simpleName).getD e] := by
    rw [← hplan]
    refine bases_of_simpleName hp hbody.ofClass hbody.describes.1 hbody.parent
      (by rw [hname, hplan, hsimple]) ?_
    rw [hplan, hsimple]
    exact File.dot_notMem_of_mem_nodes hf hmem
  refine ⟨hbases, fun hunique => ?_⟩
  rw [hbases]
  cases hmember : (p.upTo j).member? e c.simpleName with
  | none => rfl
  | some b =>
    obtain ⟨k, hk, hchild⟩ := child?_of_memberWithin? hmember
    rw [child?_upTo] at hchild
    rw [hunique k b (hk.imp_right Above.of_upTo) hchild, Option.getD_some]

/-- An enum that implements the interface around it. -/
def enumInItself : Source :=
  ⟨lit "S", lit "interface I \x7b enum E implements I \x7b A \x7b int x; \x7d, B \x7d \x7d"⟩

/-- The enum is the only class of its name, though it is found as one that it inherits. -/
theorem bases_constantBody_inherited : ∃ f p c head args a j d, File.ofSource enumInItself = .ok f ∧
    ofFile libraryTypes f.labelled = .ok p ∧ p.class? 1 = some c ∧
    .constant head args (some a) ∈ c.members ∧
    p.ConstantBody 1 a j d ∧ p.member? 1 c.simpleName = some 1 ∧ p.bases j = [1] := by
  have hview :
      ((File.ofSource enumInItself).bind fun f => (ofFile libraryTypes f.labelled).map fun p =>
      ((p.class? 1).any fun c => c.simpleName == lit "E" && p.member? 1 c.simpleName == some 1 &&
        c.members.any (·.constantBody?.isSome),
      p.classes.zipIdx.all fun x => x.1.simpleName != lit "E" || x.2 == 1)) = .ok (true, true) := by
    cbv
  obtain ⟨f, hf, hview⟩ := Except.bind_eq_ok.mp hview
  obtain ⟨p, hp, hview⟩ := Except.map_eq_ok.mp hview
  simp only [Prod.mk.injEq, Option.any_eq_true, Bool.and_eq_true, beq_iff_eq, List.any_eq_true]
    at hview
  obtain ⟨⟨c, hc, ⟨hname, hmember⟩, m, hm, hbody⟩, hall⟩ := hview
  obtain ⟨a, ha⟩ := Option.isSome_iff_exists.mp hbody
  obtain ⟨head, args, rfl⟩ := Member.eq_constant_of_constantBody? ha
  obtain ⟨-, ⟨j, d, hconstant⟩, hbases⟩ := bases_constantBody hf hp hc hm
  refine ⟨f, p, c, head, args, a, j, d, hf, hp, hc, hm, hconstant, hmember, ?_⟩
  refine (hbases j d hconstant).2 fun k b _ hchild => ?_
  obtain ⟨e, he, -, hsimple, -⟩ := child?_eq_some hchild
  have hcheck := List.all_eq_true.mp hall (e, b) (List.mem_zipIdx_iff_getElem?.mpr he)
  simpa [hsimple, hname] using hcheck

/-- An enum that inherits another class of its own name. -/
def enumNamedAlike : Source :=
  ⟨lit "S", lit "interface I \x7b class E \x7b\x7d \x7d\nenum E implements I \x7b A \x7b\x7d \x7d"⟩

/-- The body of the constant is based on the inherited class `1`, not on the enum `2`. -/
theorem constantBody_of_class_named_alike :
    ∃ f p c head args a j d, File.ofSource enumNamedAlike = .ok f ∧
    ofFile libraryTypes f.labelled = .ok p ∧ p.class? 2 = some c ∧
    .constant head args (some a) ∈ c.members ∧
    p.ConstantBody 2 a j d ∧ p.bases j = [1] := by
  have hview :
      ((File.ofSource enumNamedAlike).bind fun f => (ofFile libraryTypes f.labelled).map fun p =>
      (p.classes.map (·.parent), p.classes.map (·.bases),
        (p.class? 2).any fun c => c.members.any (·.constantBody?.isSome))) =
      .ok ([none, some 0, none, some 2], [[], [], [0], [1]], true) := by
    cbv
  obtain ⟨f, hf, hview⟩ := Except.bind_eq_ok.mp hview
  obtain ⟨p, hp, hview⟩ := Except.map_eq_ok.mp hview
  simp only [Prod.mk.injEq, Option.any_eq_true, List.any_eq_true] at hview
  obtain ⟨hparents, hbases, c, hc, m, hm, hbody⟩ := hview
  obtain ⟨a, ha⟩ := Option.isSome_iff_exists.mp hbody
  obtain ⟨head, args, rfl⟩ := Member.eq_constant_of_constantBody? ha
  obtain ⟨j, d, hconstant⟩ := exists_constantBody hp hc hm
  have hj : [none, some 0, none, some 2][j]? = some (some 2) := by
    rw [← hparents, List.getElem?_map, ← class?, hconstant.ofClass, Option.map_some,
      hconstant.parent]
  refine ⟨f, p, c, head, args, a, j, d, hf, hp, hc, hm, hconstant, ?_⟩
  have hclass : p.bases j = [[], [], [0], [1]][j]?.getD [] := by
    rw [← hbases, List.getElem?_map, ← class?, bases]
    cases p.class? j <;> rfl
  rcases j with _ | _ | _ | _ | j
  all_goals simp at hj
  exact hclass

end Plan

end Unnest
