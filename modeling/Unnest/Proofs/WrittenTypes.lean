import Unnest.Proofs.ConstantBodies
import Unnest.Proofs.Nesting
import Unnest.Proofs.Reentry
import Mathlib

/-!
# The types that are read

`Written` says what a reference to a type is made of when it was read from a source: words of the
source, with points between them, arguments that were read as such, and wildcards only among
arguments. The word `void` is read as a type as well, but it cannot stand in type arguments, as no
`<` with this word behind it opens a group.

* `IsWord`: the words of a source;
* `written_of_typeRef`: a type.
-/

namespace Unnest

open Text Lexeme Unnest.Parser

/-- A word that is scanned as a token of the given kind. -/
def IsWord (kind : TokenKind) (word : Text) : Prop :=
  ∃ c more, word = c :: more ∧ isNameStart c = true ∧ (∀ b ∈ more, isNameByte b = true) ∧
    TokenKind.ofWord word = kind

/-- The references that are read, as type arguments or where no wildcard can stand. -/
inductive Written : (isArgument : Bool) → TypeRef → Prop
  | primitive {isArgument : Bool} {name : Text} {dims : Nat} {place : Place}
      (hname : IsWord .primitive name) :
      Written isArgument { name, dims, primitive := true, place }
  | named {isArgument : Bool} {first : Text} {more : List Text} {args : List TypeRef} {dims : Nat}
      {place : Place}
      (hfirst : IsWord .ident first) (hmore : ∀ word ∈ more, IsWord .ident word)
      (hargs : ∀ a ∈ args, Written true a) :
      Written isArgument { name := first ++ (more.map (lit "." ++ ·)).flatten, args, dims, place }
  | unbounded {place : Place} : Written true { wildcard := .unbounded, place }
  | upper {bound : TypeRef} {place : Place} (hbound : Written false bound) :
      Written true { wildcard := .upper, args := [bound], place }
  | lower {bound : TypeRef} {place : Place} (hbound : Written false bound) :
      Written true { wildcard := .lower, args := [bound], place }

theorem Written.argument {t : TypeRef} (h : Written false t) : Written true t := by
  cases h with
  | primitive hname => exact .primitive hname
  | named hfirst hmore hargs => exact .named hfirst hmore hargs

theorem Cursor.lasting_subset (es : List Element) : Cursor.Lasting fun s => s.rest ⊆ es :=
  fun s hs _ he => hs (s.rest_next_subset he)

theorem kind_ne_void_of_matchAngleFrom? {depth : Int} {ts : List Token} {k : Nat}
    (h : matchAngleFrom? depth ts = some k) : ∀ t ∈ ts.take (k + 1), t.kind ≠ .kwVoid := by
  induction hn : ts.length using Nat.strong_induction_on generalizing depth ts k with
  | _ n ih =>
    cases ts with
    | nil => cases h
    | cons t ts =>
      have hstep : ∀ {depth : Int} {m : Nat}, t.kind ≠ .kwVoid → matchAngleFrom? depth ts = some m →
          k = m + 1 →
          ∀ u ∈ (t :: ts).take (k + 1), u.kind ≠ .kwVoid := by
        rintro depth m ht hm rfl u hu
        rcases List.mem_cons.mp hu with rfl | hu
        · exact ht
        · exact ih ts.length (by rw [← hn]; exact Nat.lt_succ_self _) hm rfl u hu
      rcases matchAngleFrom?_cases h with ⟨ht, m, hm, hk⟩ | ⟨ht, -, rfl⟩ | ⟨ht, -, m, hm, hk⟩ |
        ⟨ht, u, us, rfl, hu, m, hm, rfl⟩ | ⟨ht, m, hm, hk⟩
      · exact hstep (by simp [ht]) hm hk
      · simp [ht]
      · exact hstep (by simp [ht]) hm hk
      · intro v hv
        rcases List.mem_cons.mp hv with rfl | hv
        · simp [ht]
        rcases List.mem_cons.mp hv with rfl | hv
        · simp [hu]
        · refine ih us.length ?_ hm rfl v hv
          rw [← hn, List.length_cons, List.length_cons]
          omega
      · refine hstep (fun hvoid => ?_) hm hk
        rw [hvoid] at ht
        cases ht

theorem lit_point : lit "." = [chr '.'] := by decide

theorem mem_flattenAll {u : Token} {es : List Element} (h : .token u ∈ es) : u ∈ flattenAll es := by
  obtain ⟨front, back, rfl⟩ := List.append_of_mem h
  rw [flattenAll_append]
  simp [flattenAll, Element.flatten]

section Source

variable {source : Source} {root : Group} (hroot : Group.ofSource source = .ok root)
include hroot

/-! ### The tokens of a source -/

theorem isWord_of_holds {t : Token} (ht : root.Holds (.token t)) (hmarks : t.kind ∉ markKinds)
    (hint : t.kind ≠ .intLit) (hfloat : t.kind ≠ .floatLit) (heof : t.kind ≠ .eof) :
    IsWord t.kind t.text := by
  obtain ⟨tokens, htokens, hgroup⟩ := Except.bind_eq_ok.mp hroot
  obtain ⟨rest, hlexes⟩ := lexes_of_lex htokens (mem_of_holds hgroup ht) heof
  generalize t.text = text at hlexes ⊢
  cases hlexes with
  | long hkind =>
    rw [hkind] at hmarks
    exact absurd (by decide) hmarks
  | @short c more _ _ _ hlexeme =>
    obtain ⟨hc, hmore, hkind⟩ := word_of_kind hmarks hint hfloat hlexeme
    exact ⟨c, more, rfl, hc, hmore, hkind.symm⟩

theorem kind_ne_void_of_angle {g : Group} (hg : root.Holds (.group g)) (hangle : g.kind = .angle) :
    ∀ t ∈ flattenAll g.children, t.kind ≠ .kwVoid := by
  obtain ⟨tokens, -, hgroup⟩ := Except.bind_eq_ok.mp hroot
  obtain ⟨-, hflat, hgrouped⟩ := grouped_of_ofTokens hgroup
  obtain ⟨⟨i, j, _⟩, hp, rfl⟩ := hg
  have hplaced : ({ roots := root.children.reverse } : Nest).placed = root.placed := by
    simp [Nest.placed, Nest.placedFrames, Group.placed]
  rcases hgrouped.closed i j g (hplaced ▸ hp) with ⟨-, -, d, ⟨-, hd⟩, hj⟩ | ⟨hopens, -⟩
  · obtain ⟨front, back, hsplit, hi, hlast⟩ := flattenAll_of_placedAll root.children hp
    obtain ⟨behind, hbehind⟩ : flattenAll root.children <+: tokens :=
      hflat ▸ List.takeWhile_prefix _
    simp only [Element.flatten_group, List.length_append, List.length_cons, List.length_nil]
      at hsplit hi hlast
    have hdrop : tokens.drop i =
        g.opening :: (flattenAll g.children ++ g.closing :: (back ++ behind)) := by
      rw [← hbehind, hsplit, show i = front.length by omega]
      simp
    have hlen : d = (flattenAll g.children).length + 1 := by omega
    intro t ht
    refine kind_ne_void_of_matchAngleFrom? hd t ?_
    rw [hdrop, hlen, List.take_succ_cons]
    refine List.mem_cons_of_mem _ ?_
    rw [List.take_append, List.mem_append]
    exact Or.inl (by rwa [List.take_of_length_le (by omega)])
  · exact absurd (hangle ▸ hopens) (TokenKind.opens?_ne_angle _)

/-! ### Types -/

section Types

variable {args : Group → Except SourceError (List TypeRef)} {es : List Element} {s : Cursor}
  (hargs : ∀ g, root.Holds (.group g) → g.kind = .angle →
    ∀ ts, args g = .ok ts → ∀ t ∈ ts, Written true t)
  (hes : ∀ e ∈ es, root.Holds e)
include hargs hes

omit hroot in
theorem gives_angleArgs_written (hs : s.rest ⊆ es) :
    Gives (typeWith.angleArgs args) s
    (fun found s' => s'.rest ⊆ es ∧ ∀ ts, found = some ts → ∀ t ∈ ts, Written true t)
      fun _ => True := by
  unfold typeWith.angleArgs
  rw [gives_get_ite]
  refine ⟨fun _ => ?_, fun _ => gives_pure.mpr ⟨hs, by simp⟩⟩
  rw [gives_bind, gives_expectGroup]
  refine ⟨fun g hg hk => ?_, fun _ => trivial⟩
  rw [gives_bind, gives_ofExcept]
  refine ⟨fun ts hts => gives_pure.mpr ⟨Cursor.lasting_subset es s hs, ?_⟩, fun _ _ => trivial⟩
  rintro _ ⟨⟩
  exact hargs g (hes _ (hs (Cursor.mem_rest_of_current hg))) hk ts hts

theorem gives_typeWith_written (hs : s.rest ⊆ es) :
    Gives (typeWith args) s
    (fun t s' => s'.rest ⊆ es ∧ (Written false t ∨ ∃ u dims place, .token u ∈ es ∧
      u.kind = .kwVoid ∧ t = { name := u.text, dims, primitive := true, place })) fun _ =>
      True := by
  have w := (Cursor.lasting_subset es).walk
  have hword : ∀ {t : Token} {s : Cursor} {kind : TokenKind}, s.rest ⊆ es →
      s.current? = some (.token t) →
      t.kind = kind → kind = .ident ∨ kind = .primitive → IsWord kind t.text := by
    rintro t s _ hs ht rfl hkind
    have hholds := hes _ (hs (Cursor.mem_rest_of_current ht))
    rcases hkind with hkind | hkind
    all_goals
      refine isWord_of_holds hroot hholds ?_ ?_ ?_ ?_ <;> rw [hkind] <;> decide
  unfold typeWith
  refine (w.dropAnnotations s hs).bind fun _ s₁ h₁ => ?_
  rw [gives_get_ite]
  refine ⟨fun hprim => ?_, fun _ => ?_⟩
  · simp only [gives_bind, gives_advance, gives_pure]
    refine ⟨fun _ => ?_, fun _ => trivial⟩
    refine (w.dims _ (Cursor.lasting_subset es s₁ h₁)).mono (fun dims s₂ h₂ => ⟨h₂, ?_⟩) fun _ => id
    rcases Bool.or_eq_true_iff.mp hprim with hat | hat
    all_goals
      obtain ⟨t, ht, hkind⟩ := Cursor.isAt_iff.mp hat
      have hhere : s₁.here.text = t.text := by simp [Cursor.here, ht, Element.firstToken]
      rw [hhere]
    · exact Or.inl (.primitive (hword h₁ ht hkind (Or.inr rfl)))
    · exact Or.inr ⟨t, dims, _, h₁ (Cursor.mem_rest_of_current ht), hkind, rfl⟩
  · rw [gives_bind, gives_expect]
    refine ⟨fun first ht hkind => ?_, fun _ => trivial⟩
    have hfirst := hword h₁ ht hkind (Or.inl rfl)
    refine (gives_angleArgs_written hargs hes (Cursor.lasting_subset es s₁ h₁)).bind
      fun firstArgs s₂ h₂ => ?_
    refine (gives_many (fun s => s.rest ⊆ es)
      (A := fun part => (∃ word, part.1 = lit "." ++ word ∧ IsWord .ident word) ∧
        ∀ ts, part.2 = some ts → ∀ t ∈ ts, Written true t) (fun s hs => ?_) h₂.1).bind
      fun parts s₃ h₃ => ?_
    · rw [gives_get_ite]
      refine ⟨fun hdot => ?_, fun _ => gives_pure.mpr ⟨hs, by simp⟩⟩
      refine (w.advance_isAt hs hdot (by decide)).bind fun _ s₁ h₁ => ?_
      rw [gives_bind, gives_expect]
      refine ⟨fun part ht hkind => ?_, fun _ => trivial⟩
      refine (gives_angleArgs_written hargs hes (Cursor.lasting_subset es s₁ h₁)).bind
        fun found s₂ h₂ => ?_
      refine gives_pure.mpr ⟨h₂.1, ?_⟩
      rintro _ ⟨⟩
      exact ⟨⟨_, rfl, hword h₁ ht hkind (Or.inl rfl)⟩, h₂.2⟩
    · have hpart : ∀ p ∈ parts, p.1 = lit "." ++ p.1.tail ∧ IsWord .ident p.1.tail := by
        intro p hp
        obtain ⟨word, hword, hident⟩ := (h₃.2 p hp).1
        rw [hword, lit_point]
        exact ⟨rfl, hident⟩
      have hnames : parts.map (·.1) = (parts.map (·.1.tail)).map (lit "." ++ ·) := by
        rw [List.map_map]
        exact List.map_congr_left fun p hp => (hpart p hp).1
      rw [gives_bind, hnames]
      refine (w.dims s₃ h₃.1).mono
        (fun dims s₄ h₄ => gives_pure.mpr ⟨h₄, Or.inl (.named hfirst ?_ ?_)⟩) fun _ => id
      · intro word hword
        obtain ⟨p, hp, rfl⟩ := List.mem_map.mp hword
        exact (hpart p hp).2
      · -- the arguments that are kept are those of some part
        intro t ht
        cases hlast : ((firstArgs :: parts.map (·.2)).filterMap id).getLast? with
        | none =>
          rw [hlast] at ht
          cases ht
        | some ts =>
          rw [hlast] at ht
          obtain ⟨found, hfound, rfl⟩ := List.mem_filterMap.mp (List.mem_of_getLast? hlast)
          rcases List.mem_cons.mp hfound with hfound | hfound
          · exact h₂.2 ts hfound.symm t ht
          · obtain ⟨p, hp, hargs⟩ := List.mem_map.mp hfound
            exact (h₃.2 p hp).2 ts hargs t ht

theorem gives_typeArgument_written (hvoid : ∀ u, .token u ∈ es → u.kind ≠ .kwVoid)
    (hs : s.rest ⊆ es) :
    Gives (typeArgument (typeWith args)) s (fun t s' => s'.rest ⊆ es ∧ Written true t) fun _ =>
    True := by
  have w := (Cursor.lasting_subset es).walk
  have htype : ∀ s : Cursor, s.rest ⊆ es →
      Gives (typeWith args) s (fun t s' => s'.rest ⊆ es ∧ Written false t) fun _ => True := by
    intro s hs
    refine (gives_typeWith_written hroot hargs hes hs).mono (fun t s' h => ⟨h.1, ?_⟩) fun _ => id
    rcases h.2 with hwritten | ⟨u, -, -, hu, hkind, -⟩
    · exact hwritten
    · exact absurd hkind (hvoid u hu)
  unfold typeArgument
  refine (w.dropAnnotations s hs).bind fun _ s₁ h₁ => ?_
  rw [gives_get_ite]
  refine ⟨fun hq => ?_, fun _ => (htype s₁ h₁).mono (fun _ _ h => ⟨h.1, h.2.argument⟩) fun _ => id⟩
  refine (w.advance_isAt h₁ hq (by decide)).bind fun _ s₂ h₂ => ?_
  -- both bounds are a word and a type
  have hbound : ∀ {kind : TokenKind} {f : TypeRef → TypeRef}, s₂.isAt kind = true → kind ≠ .semi →
      (∀ t, Written false t → Written true (f t)) →
      Gives (do advance; return f (← typeWith args)) s₂ (fun t s' => s'.rest ⊆ es ∧ Written true t)
      fun _ => True := by
    intro kind f hat hk hf
    refine (w.advance_isAt h₂ hat hk).bind fun _ s₃ h₃ => ?_
    exact (htype s₃ h₃).bind fun t _ h => gives_pure.mpr ⟨h.1, hf t h.2⟩
  rw [gives_get_ite]
  refine ⟨fun h => hbound h (by decide) fun t => .upper, fun _ => ?_⟩
  rw [gives_ite]
  exact ⟨fun h => hbound h (by decide) fun t => .lower, fun _ => gives_pure.mpr ⟨h₂, .unbounded⟩⟩

end Types

theorem written_of_typeArgsAt (levels : Nat) {g : Group} (hg : root.Holds (.group g))
    (hangle : g.kind = .angle) {ts : List TypeRef} (h : typeArgsAt levels g = .ok ts) :
    ∀ t ∈ ts, Written true t := by
  induction levels generalizing g ts with
  | zero =>
    cases h
    simp
  | succ levels ih =>
    have hvoid : ∀ u, .token u ∈ g.children → u.kind ≠ .kwVoid := fun u hu =>
      kind_ne_void_of_angle hroot hg hangle u (mem_flattenAll hu)
    have hitem : ∀ s : Cursor, s.rest ⊆ g.children →
        Gives (typeArgument (typeWith (typeArgsAt levels))) s
        (fun t s' => s'.rest ⊆ g.children ∧ Written true t) fun _ => True := fun s hs =>
      gives_typeArgument_written hroot (fun k hk hkind ts hts => ih hk hkind hts) hg.children
      hvoid hs
    obtain ⟨s', hrun⟩ := runOn_eq_ok.mp h
    exact ((gives_separated _ hitem (fun s hs _ => Cursor.lasting_subset g.children s hs)
      (fun _ _ => trivial)
      (Cursor.rest_ofGroup_subset g)).ok hrun).2

/-- **The types that are read** are written as types, or they are the word `void`. -/
theorem written_of_typeRef {s s' : Cursor} {t : TypeRef} (hs : ∀ e ∈ s.rest, root.Holds e)
    (h : typeRef s = .ok t s') :
    Written false t ∨ ∃ name dims place, IsWord .kwVoid name ∧
    t = { name, dims, primitive := true, place } := by
  have hargs : ∀ g, root.Holds (.group g) → g.kind = .angle →
      ∀ ts, g.typeArgs = .ok ts → ∀ t ∈ ts, Written true t :=
    fun g hg hangle ts hts => written_of_typeArgsAt hroot _ hg hangle hts
  have hgives := gives_typeWith_written hroot hargs hs (List.Subset.refl s.rest)
  rcases (hgives.ok h).2 with hwritten | ⟨u, dims, place, hu, hkind, rfl⟩
  · exact Or.inl hwritten
  · refine Or.inr ⟨u.text, dims, place, hkind ▸ isWord_of_holds hroot (hs _ hu) ?_ ?_ ?_ ?_, rfl⟩
    all_goals
      rw [hkind]
      decide

end Source

end Unnest
