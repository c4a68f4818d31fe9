import Unnest.Header.Initialization

/-!
# Sorted bodies

The body of a class has its members sorted into lists. Each list holds the members of its sort in
source order, so the lists tell whether the class or its objects have to be initialized: exactly if
the initialization has steps.

* `ClassBody.sorted_ofNodes`: the lists of a body hold the members of their sorts;
* `ClassInfo.needsInitStatic_iff`, `ClassInfo.needsInitInstance_iff`: what the lists tell.
-/

namespace Unnest

namespace ClassBody

variable {body : ClassBody}

/-- Each list holds the members of its sort, in source order. -/
def Sorted (body : ClassBody) : Prop :=
  ∀ kind, body.list kind = body.members.filter (·.kind == kind)

theorem list_sort (body : ClassBody) (m : Member) (kind : NodeKind) :
    (body.sort m).list kind = body.list kind ++ if m.kind = kind then [m] else [] := by
  cases m with
  | initializer head code =>
    by_cases h : head.isStatic = true <;> cases kind <;>
      simp [sort, list, Member.kind, h, -List.map_subtype]
  | _ => cases kind <;> simp [sort, list, Member.kind, -List.map_subtype]

theorem members_add (body : ClassBody) (node : Node) :
    (body.add node).2.members = body.members ++ node.member?.toList := by
  unfold add
  cases node.member? <;> simp

theorem Sorted.add (h : body.Sorted) (node : Node) : (body.add node).2.Sorted := by
  intro kind
  unfold ClassBody.add
  cases node.member? with
  | none => exact h kind
  | some m =>
    have hlist : ({ body.sort m with members := body.members ++ [m] } : ClassBody).list kind =
        (body.sort m).list kind := by
      cases kind <;> rfl
    simp only [hlist, list_sort, h kind, List.filter_append]
    by_cases hkind : m.kind = kind <;> simp [hkind]

/-- **Sorting members**: a body to which nodes were added is sorted, and holds the members among
them. -/
theorem sorted_ofNodes (nodes : List Node) :
    (ofNodes nodes).Sorted ∧ (ofNodes nodes).members = nodes.filterMap Node.member? := by
  have hfold : ∀ body : ClassBody, body.Sorted →
      (nodes.foldl (fun body node => (body.add node).2) body).Sorted ∧
        (nodes.foldl (fun body node => (body.add node).2) body).members =
          body.members ++ nodes.filterMap Node.member? := by
    induction nodes with
    | nil => exact fun body h => ⟨h, by simp⟩
    | cons node nodes ih =>
      intro body h
      obtain ⟨hsorted, hmembers⟩ := ih (body.add node).2 (h.add node)
      refine ⟨hsorted, ?_⟩
      rw [List.foldl_cons, hmembers, members_add, List.append_assoc]
      cases hnode : node.member? <;> simp [hnode]
  exact hfold {} fun kind => by cases kind <;> rfl

theorem members_ofMembers (members : List Member) : (ofMembers members).members = members := by
  rw [ofMembers, (sorted_ofNodes _).2, Node.filterMap_member?]

theorem list_ofMembers (members : List Member) (kind : NodeKind) :
    (ofMembers members).list kind = members.filter (·.kind == kind) := by
  have hsorted := (sorted_ofNodes (members.map .member)).1 kind
  rw [ofMembers, hsorted, ← ofMembers, members_ofMembers]

end ClassBody

namespace ClassInfo

variable (c : ClassInfo)

theorem mem_list {m : Member} {kind : NodeKind} :
    m ∈ c.body.list kind ↔ m ∈ c.members ∧ m.kind = kind := by
  rw [body, ClassBody.list_ofMembers, List.mem_filter, beq_iff_eq]

theorem list_ne_nil (kind : NodeKind) : c.body.list kind ≠ [] ↔ ∃ m ∈ c.members, m.kind = kind := by
  simp only [ne_eq, List.eq_nil_iff_forall_not_mem, mem_list, Classical.not_forall,
    Classical.not_not]

theorem any_fields {test : FieldHead → Bool} :
    (c.body.fields.any (·.val.assigns test)) = true ↔ ∃ m ∈ c.members, m.assigns test = true := by
  have hlist : (c.body.fields.any (·.val.assigns test)) =
      (c.body.list .fieldDecl).any (·.assigns test) := by
    rw [ClassBody.list, List.any_map]
    rfl
  simp only [hlist, List.any_eq_true, mem_list]
  constructor
  · rintro ⟨m, ⟨hm, -⟩, hassigns⟩
    exact ⟨m, hm, hassigns⟩
  · rintro ⟨m, hm, hassigns⟩
    refine ⟨m, ⟨hm, ?_⟩, hassigns⟩
    cases m with
    | field => rfl
    | _ => cases hassigns

theorem staticItemsOf_ne_nil {m : Member} : c.staticItemsOf m ≠ [] ↔
    m.kind = .staticInitializer ∨ m.kind = .enumConstant ∨ m.assigns c.isStaticField = true := by
  cases m with
  | field head declarators =>
    cases hstatic : c.isStaticField head <;>
      simp [staticItemsOf, Member.kind, Member.assigns, Member.field?, assignments, hstatic,
        Option.isSome_iff_ne_none]
  | initializer head code =>
    cases hstatic : head.isStatic <;>
      simp [staticItemsOf, Member.kind, Member.assigns, Member.field?, hstatic]
  | _ => simp [staticItemsOf, Member.kind, Member.assigns, Member.field?]

theorem instanceItemsOf_ne_nil {m : Member} : c.instanceItemsOf m ≠ [] ↔
    m.kind = .instanceInitializer ∨ m.assigns (!c.isStaticField ·) = true := by
  cases m with
  | field head declarators =>
    cases hstatic : c.isStaticField head <;>
      simp [instanceItemsOf, Member.kind, Member.assigns, Member.field?, assignments, hstatic,
        Option.isSome_iff_ne_none]
  | initializer head code =>
    cases hstatic : head.isStatic <;>
      simp [instanceItemsOf, Member.kind, Member.assigns, Member.field?, hstatic]
  | _ => simp [instanceItemsOf, Member.kind, Member.assigns, Member.field?]

/-- **The class has to be initialized** if its initialization has steps. -/
theorem needsInitStatic_iff : c.needsInitStatic = true ↔ c.staticItems ≠ [] := by
  have hsteps : c.staticItems ≠ [] ↔ ∃ m ∈ c.members, c.staticItemsOf m ≠ [] := by
    simp only [staticItems, ne_eq, List.flatMap_eq_nil_iff, Classical.not_forall, exists_prop]
  have hinitializers : c.body.staticInitializers ≠ [] ↔
      ∃ m ∈ c.members, m.kind = .staticInitializer :=
    (not_congr List.map_eq_nil_iff).symm.trans (c.list_ne_nil .staticInitializer)
  have hconstants : c.body.enumConstants ≠ [] ↔ ∃ m ∈ c.members, m.kind = .enumConstant :=
    (not_congr List.map_eq_nil_iff).symm.trans (c.list_ne_nil .enumConstant)
  rw [hsteps]
  simp only [needsInitStatic, Bool.or_eq_true, Bool.not_eq_true', List.isEmpty_eq_false_iff,
    hinitializers, hconstants, any_fields, staticItemsOf_ne_nil, and_or_left, exists_or, or_assoc]

/-- **Objects have to be initialized** if their initialization has steps. -/
theorem needsInitInstance_iff : c.needsInitInstance = true ↔ c.instanceItems ≠ [] := by
  have hsteps : c.instanceItems ≠ [] ↔ ∃ m ∈ c.members, c.instanceItemsOf m ≠ [] := by
    simp only [instanceItems, ne_eq, List.flatMap_eq_nil_iff, Classical.not_forall, exists_prop]
  have hinitializers : c.body.instanceInitializers ≠ [] ↔
      ∃ m ∈ c.members, m.kind = .instanceInitializer :=
    (not_congr List.map_eq_nil_iff).symm.trans (c.list_ne_nil .instanceInitializer)
  rw [hsteps]
  simp only [needsInitInstance, Bool.or_eq_true, Bool.not_eq_true', List.isEmpty_eq_false_iff,
    hinitializers, any_fields, instanceItemsOf_ne_nil, and_or_left, exists_or]

end ClassInfo

end Unnest
