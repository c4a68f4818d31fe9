import Unnest.Proofs.Bodies

/-!
# Runs over a range

The reading of a range goes step by step: it passes over a semicolon or reads one node. `Run` is the
relation of several such steps, from a cursor to another, with the nodes that were read on the way.
Each step goes forward and each node is a member, so that a reading is a run that either uses the
range up or comes to a member that cannot be read, and it can be cut after every step
(`Run.dispatchWith_eq`).

* `Run.lasts`: what lasts when the cursor moves on holds at the end of a run;
* `exists_run_of_dispatchWith`: the run behind a reading.
-/

namespace Unnest

open Unnest.Parser

variable {inside : Inside} {ctx ctx' : BodyContext} {s s' t : Cursor} {node : Node}
  {e : SourceError}

/-! ### One step -/

theorem exists_member_of_parse {form : MemberForm}
    (hform : form ∈ constantForm inside :: memberForms inside)
    (h : form.parse ctx s = .ok node s') :
    ∃ m, node = .member m := by
  have hmap : ∀ p : Parser Member, (Node.member <$> p) s = .ok node s' → ∃ m, node = .member m := by
    intro p hp
    have hgives : Gives (Node.member <$> p) s (fun node _ => ∃ m, node = .member m) fun _ => True :=
      gives_map.mpr (gives_of_forall (fun m _ _ => ⟨m, rfl⟩) fun _ _ _ => trivial)
    exact hgives.ok hp
  rcases MemberForm.eq_of_mem hform with rfl | rfl | rfl | rfl | rfl | rfl | rfl <;> exact hmap _ h

theorem memberStep_eq_read
    (h : memberStep (constantForm inside) (memberForms inside) ctx s = .read node ctx' s') :
    ∃ form decided ctx₁ m,
      selectForm (constantForm inside) (memberForms inside) ctx s = (some (form, decided), ctx₁) ∧
      form.parse ctx₁ s = .ok (.member m) s' ∧ node = .member (m.withSpan ⟨s.pos, s'.pos⟩) ∧
      ctx' = { ctx₁ with inConstants := ctx₁.inConstants && m.kind == .enumConstant } := by
  rcases hsel : selectForm (constantForm inside) (memberForms inside) ctx s with
    ⟨_ | ⟨form, decided⟩, ctx₁⟩
  · rw [memberStep_of_none hsel] at h
    cases h
  · cases hparse : form.parse ctx₁ s with
    | error e s₁ =>
      rw [memberStep_of_error hsel hparse] at h
      cases h
    | ok node₁ s₁ =>
      obtain ⟨m, rfl⟩ := exists_member_of_parse (selectForm_eq_some hsel).1 hparse
      rw [memberStep_of_parse hsel hparse] at h
      cases h
      exact ⟨form, decided, ctx₁, m, rfl, hparse, rfl, rfl⟩

theorem memberStep_eq_failed
    (h : memberStep (constantForm inside) (memberForms inside) ctx s = .failed e s') :
    (∃ ctx₁, selectForm (constantForm inside) (memberForms inside) ctx s = (none, ctx₁) ∧
      e = s.error (.noMember ctx.className)) ∨
    ∃ form decided ctx₁,
      selectForm (constantForm inside) (memberForms inside) ctx s = (some (form, decided), ctx₁) ∧
      form.parse ctx₁ s = .error e s' := by
  rcases hsel : selectForm (constantForm inside) (memberForms inside) ctx s with
    ⟨_ | ⟨form, decided⟩, ctx₁⟩
  · rw [memberStep_of_none hsel] at h
    cases h
    exact Or.inl ⟨ctx₁, rfl, rfl⟩
  · cases hparse : form.parse ctx₁ s with
    | error e s₁ =>
      rw [memberStep_of_error hsel hparse] at h
      cases h
      exact Or.inr ⟨form, decided, ctx₁, rfl, hparse⟩
    | ok node₁ s₁ =>
      rw [memberStep_of_parse hsel hparse] at h
      cases h

theorem Cursor.Lasting.memberStep {I : Cursor → Prop} (hI : Lasting I)
    (h : memberStep (constantForm inside) (memberForms inside) ctx s = .read node ctx' s')
    (hs : I s.next) : I s' := by
  obtain ⟨form, decided, ctx₁, m, hsel, hparse, -, -⟩ := memberStep_eq_read h
  obtain ⟨hform, hrec⟩ := selectForm_eq_some hsel
  exact hI.parse hform hrec hparse hs

theorem length_rest_of_memberStep
    (h : memberStep (constantForm inside) (memberForms inside) ctx s = .read node ctx' s')
    (hnext : s.hasNext = true) : s'.rest.length < s.rest.length :=
  (Cursor.lasting_length_lt _).memberStep h (Cursor.length_rest_next_lt hnext)

/-! ### Runs -/

/-- A run over a range from one cursor to another. It passes over semicolons and reads the listed
nodes. -/
inductive Run (inside : Inside) : BodyContext → Cursor → List Node → BodyContext → Cursor → Prop
  | done (ctx : BodyContext) (s : Cursor) : Run inside ctx s [] ctx s
  | semi {ctx ctx' : BodyContext} {s t : Cursor} {nodes : List Node} (hsemi : s.isAt .semi = true)
    (rest : Run inside { ctx with inConstants := false } s.next nodes ctx' t) :
    Run inside ctx s nodes ctx' t
  | read {ctx ctx₁ ctx' : BodyContext} {s s₁ t : Cursor} {node : Node} {nodes : List Node}
    (hnext : s.hasNext = true) (hsemi : ¬ s.isAt .semi = true)
    (hstep : memberStep (constantForm inside) (memberForms inside) ctx s = .read node ctx₁ s₁)
    (rest : Run inside ctx₁ s₁ nodes ctx' t) : Run inside ctx s (node :: nodes) ctx' t

namespace Run

variable {nodes : List Node}

theorem member (h : Run inside ctx s nodes ctx' t) : ∀ node ∈ nodes, ∃ m, node = .member m := by
  induction h with
  | done => simp
  | semi _ _ ih => exact ih
  | read _ _ hstep _ ih =>
    obtain ⟨-, -, -, m, -, -, rfl, -⟩ := memberStep_eq_read hstep
    simpa using ih

theorem lasts {I : Cursor → Prop} (hI : Cursor.Lasting I) (h : Run inside ctx s nodes ctx' t)
    (hs : I s) : I t := by
  induction h with
  | done => exact hs
  | semi _ _ ih => exact ih (hI _ hs)
  | read _ _ hstep _ ih => exact ih (hI.memberStep hstep (hI _ hs))

theorem exists_memberStep {I : Cursor → Prop} (hI : Cursor.Lasting I)
    (h : Run inside ctx s nodes ctx' t) (hs : I s) (hnode : node ∈ nodes) :
    ∃ ctx₁ s₁ ctx₂ s₂, I s₁ ∧
      memberStep (constantForm inside) (memberForms inside) ctx₁ s₁ = .read node ctx₂ s₂ := by
  induction h with
  | done => cases hnode
  | semi _ _ ih => exact ih (hI _ hs) hnode
  | read _ _ hstep _ ih =>
    rcases List.mem_cons.mp hnode with rfl | hnode
    · exact ⟨_, _, _, _, hs, hstep⟩
    · exact ih (hI.memberStep hstep (hI _ hs)) hnode

theorem trans {ctx₁ : BodyContext} {s₁ : Cursor} {nodes₁ : List Node}
    (h : Run inside ctx s nodes ctx₁ s₁) (h₁ : Run inside ctx₁ s₁ nodes₁ ctx' t) :
    Run inside ctx s (nodes ++ nodes₁) ctx' t := by
  induction h with
  | done => exact h₁
  | semi hsemi _ ih => exact .semi hsemi (ih h₁)
  | read hnext hsemi hstep _ ih => exact .read hnext hsemi hstep (ih h₁)

theorem exists_of_append_cons {nodes₁ : List Node}
    (h : Run inside ctx s (nodes₁ ++ node :: nodes) ctx' t) :
    ∃ ctx₁ s₁ ctx₂ s₂, Run inside ctx s nodes₁ ctx₁ s₁ ∧ s₁.hasNext = true ∧
      ¬ s₁.isAt .semi = true ∧
      memberStep (constantForm inside) (memberForms inside) ctx₁ s₁ = .read node ctx₂ s₂ ∧
      Run inside ctx₂ s₂ nodes ctx' t := by
  generalize hall : nodes₁ ++ node :: nodes = all at h
  induction h generalizing nodes₁ with
  | done => simp at hall
  | semi hsemi _ ih =>
    obtain ⟨ctx₁, s₁, ctx₂, s₂, hfront, hrest⟩ := ih hall
    exact ⟨ctx₁, s₁, ctx₂, s₂, .semi hsemi hfront, hrest⟩
  | @read ctx ctx₁ ctx' s s₁ t node' nodes' hnext hsemi hstep rest ih =>
    cases nodes₁ with
    | nil =>
      cases hall
      exact ⟨ctx, s, ctx₁, s₁, .done ctx s, hnext, hsemi, hstep, rest⟩
    | cons node₁ nodes₁ =>
      cases hall
      obtain ⟨ctx₂, s₂, ctx₃, s₃, hfront, hrest⟩ := ih rfl
      exact ⟨ctx₂, s₂, ctx₃, s₃, .read hnext hsemi hstep hfront, hrest⟩

/-- The reading of a range goes on where a run has got to. -/
theorem dispatchWith_eq (h : Run inside ctx s nodes ctx' t) :
    dispatchWith (constantForm inside) (memberForms inside) ctx s =
      (dispatchWith (constantForm inside) (memberForms inside) ctx' t).prepend
        (nodes.filterMap Node.member?) := by
  induction h with
  | done => rfl
  | semi hsemi _ ih => rw [dispatchWith_semi hsemi, ih]
  | read hnext hsemi hstep _ ih =>
    obtain ⟨-, -, -, m, -, -, rfl, -⟩ := memberStep_eq_read hstep
    rw [dispatchWith_read hnext hsemi hstep (length_rest_of_memberStep hstep hnext), ih]
    rfl

end Run

/-- From every cursor there is a run to where nothing is left, or to a member that cannot be
read. -/
theorem exists_run (inside : Inside) (ctx : BodyContext) (s : Cursor) :
    ∃ nodes ctx' t, Run inside ctx s nodes ctx' t ∧
      (¬ t.hasNext = true ∨ t.hasNext = true ∧ ¬ t.isAt .semi = true ∧
        ∃ e t', memberStep (constantForm inside) (memberForms inside) ctx' t = .failed e t') := by
  induction hn : s.rest.length using Nat.strong_induction_on generalizing ctx s with
  | _ n ih =>
    subst hn
    by_cases hnext : s.hasNext = true
    · by_cases hsemi : s.isAt .semi = true
      · obtain ⟨nodes, ctx', t, hrun, hend⟩ := ih _ (Cursor.length_rest_next_lt hnext) _ _ rfl
        exact ⟨nodes, ctx', t, .semi hsemi hrun, hend⟩
      · cases hstep : memberStep (constantForm inside) (memberForms inside) ctx s with
        | failed e t' => exact ⟨[], ctx, s, .done ctx s, Or.inr ⟨hnext, hsemi, e, t', hstep⟩⟩
        | read node ctx₁ s₁ =>
          obtain ⟨nodes, ctx', t, hrun, hend⟩ :=
            ih _ (length_rest_of_memberStep hstep hnext) ctx₁ s₁ rfl
          exact ⟨node :: nodes, ctx', t, .read hnext hsemi hstep hrun, hend⟩
    · exact ⟨[], ctx, s, .done ctx s, Or.inl hnext⟩

/-- **The run behind a reading** reads the members that the reading gives. It uses the range up, or
it comes to the member whose error stops the reading. -/
theorem exists_run_of_dispatchWith (inside : Inside) (ctx : BodyContext) (s : Cursor) :
    let d := dispatchWith (constantForm inside) (memberForms inside) ctx s
    ∃ ctx' t, Run inside ctx s (d.members.map .member) ctx' t ∧
      (d.failure = none ∧ t.rest = [] ∨ ∃ e t', d.failure = some e ∧ t.hasNext = true ∧
        memberStep (constantForm inside) (memberForms inside) ctx' t = .failed e t') := by
  obtain ⟨nodes, ctx', t, hrun, hend⟩ := exists_run inside ctx s
  have hnodes : (nodes.filterMap Node.member?).map .member = nodes := by
    have hmember := hrun.member
    clear hrun
    induction nodes with
    | nil => rfl
    | cons node nodes ih =>
      obtain ⟨m, rfl⟩ := hmember node List.mem_cons_self
      simpa [Node.member?] using ih fun node hnode => hmember node (List.mem_cons_of_mem _ hnode)
  refine ⟨ctx', t, ?_⟩
  rw [hrun.dispatchWith_eq]
  rcases hend with hend | ⟨hnext, hsemi, e, t', hstep⟩
  · rw [dispatchWith_end hend]
    refine ⟨?_, Or.inl ⟨rfl, by simpa [Cursor.hasNext] using hend⟩⟩
    simpa [Dispatched.prepend, hnodes] using hrun
  · rw [dispatchWith_failed hnext hsemi hstep]
    refine ⟨?_, Or.inr ⟨e, t', rfl, hnext, hstep⟩⟩
    simpa [Dispatched.prepend, hnodes] using hrun

theorem toExcept_dispatchWith_eq_ok {members : List Member} :
    (dispatchWith (constantForm inside) (memberForms inside) ctx s).toExcept = .ok members ↔
      ∃ ctx' t, Run inside ctx s (members.map .member) ctx' t ∧ t.rest = [] := by
  constructor
  · intro h
    obtain ⟨ctx', t, hrun, hend⟩ := exists_run_of_dispatchWith inside ctx s
    unfold Dispatched.toExcept at h
    rcases hend with ⟨hok, hrest⟩ | ⟨e, -, he, -⟩
    · rw [hok] at h
      cases h
      exact ⟨ctx', t, hrun, hrest⟩
    · rw [he] at h
      cases h
  · rintro ⟨ctx', t, hrun, hrest⟩
    rw [hrun.dispatchWith_eq, dispatchWith_end (by simp [Cursor.hasNext, hrest]),
      Node.filterMap_member?]
    simp [Dispatched.prepend, Dispatched.toExcept]

end Unnest
