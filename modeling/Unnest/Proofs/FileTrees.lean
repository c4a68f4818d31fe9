import Unnest.Proofs.Outcome
import Unnest.Proofs.Paths

/-!
# Files in a tree

What a path leads to depends on the directories of a tree alone, and a file that is written does not
change them. Directories that have been made along a path are there when they are made again.

* `FileTree.SameDirectories`: trees with the same directories, and what is the same in them;
* `FileTree.Leads`: a directory that is there, and need not be made again.
-/

namespace Unnest.FileTree

variable {t t' t₁ : FileTree} {p q : TreePath} {e : Entry} {path content part : Text}
  {parts parts' : List Text}

/-! ### Entries -/

theorem entry?_insert_of_ne (h : q ≠ p) : entry? (t.insert p e) q = t.entry? q := by
  unfold entry? insert
  split
  · rfl
  · rw [List.find?_cons_of_neg (by simpa using Ne.symm h), List.find?_filter]
    congr 2
    funext a
    by_cases ha : a.1 = q
    · simp [ha, h]
    · simp [ha]

theorem entry?_insert_self (h : t.entry? p ≠ some .directory) :
    entry? (t.insert p e) p = some e := by
  unfold entry? at h ⊢
  split_ifs at h ⊢ with hout
  · exact absurd rfl h
  · simp [insert]

theorem isDirectory_eq_true : t.isDirectory p = true ↔ t.entry? p = some .directory := beq_iff_eq

theorem isDirectory_startOf (t : FileTree) (path : Text) : t.isDirectory (startOf path) = true := by
  have hout : ∀ p ∈ [[], [lit "/"]], p.all (fun name => name == lit ".." || name == lit "/") =
      true := by decide
  have hstart : startOf path ∈ [[], [lit "/"]] := by
    unfold startOf
    split <;> simp
  rw [isDirectory_eq_true, entry?, if_pos (hout _ hstart)]

/-! ### Following a path -/

theorem follow_cons_eq_ok : t.follow p (part :: parts) = .ok q ↔
    t.isDirectory p = true ∧ part.length ≤ nameLimit ∧ t.follow (enter p part) parts = .ok q := by
  rw [follow, isDirectory_eq_true]
  cases hentry : t.entry? p with
  | none => simp
  | some e =>
    cases e with
    | file content => simp
    | directory => by_cases hlength : part.length ≤ nameLimit <;> simp [hlength]

theorem follow_append_eq_ok : t.follow p (parts ++ parts') = .ok q ↔
    ∃ r, t.follow p parts = .ok r ∧ t.follow r parts' = .ok q := by
  induction parts generalizing p with
  | nil => simp [follow]
  | cons part parts ih =>
    rw [List.cons_append, follow_cons_eq_ok, ih]
    constructor
    · rintro ⟨hdir, hlength, r, hr, hq⟩
      exact ⟨r, follow_cons_eq_ok.mpr ⟨hdir, hlength, hr⟩, hq⟩
    · rintro ⟨r, hr, hq⟩
      obtain ⟨hdir, hlength, hr⟩ := follow_cons_eq_ok.mp hr
      exact ⟨hdir, hlength, r, hr, hq⟩

theorem isDirectory_of_follow (h : t.follow p parts = .ok q) (hparts : parts ≠ []) :
    t.isDirectory p = true := by
  obtain ⟨part, rest, rfl⟩ := List.exists_cons_of_ne_nil hparts
  exact (follow_cons_eq_ok.mp h).1

theorem beforeNul_of_notMem (hnul : (0 : UInt8) ∉ path) : Text.beforeNul path = path :=
  List.takeWhile_eq_self_iff.mpr fun b hb => by
    rw [bne_iff_ne]
    rintro rfl
    exact hnul hb

theorem place_eq_ok (hnul : (0 : UInt8) ∉ path) : t.place path = .ok p ↔
    path ≠ [] ∧ path.length ≤ pathLimit ∧
    t.follow (startOf path) (Text.splitOn slash path) = .ok p := by
  unfold place
  rw [beforeNul_of_notMem hnul]
  by_cases hempty : path = []
  · simp [hempty]
  · by_cases hlength : path.length ≤ pathLimit <;> simp [hempty, hlength]

/-! ### Trees with the same directories -/

def SameDirectories (t t' : FileTree) : Prop := ∀ p, t'.isDirectory p = t.isDirectory p

namespace SameDirectories

theorem refl (t : FileTree) : SameDirectories t t := fun _ => rfl

theorem insert (h : SameDirectories t t') (hp : t'.isDirectory p = false) (content : Text) :
    SameDirectories t (t'.insert p (.file content)) := by
  intro q
  rw [← h q]
  by_cases hq : q = p
  · subst hq
    have hentry : t'.entry? q ≠ some .directory := by
      rw [Ne, ← isDirectory_eq_true, hp]
      simp
    rw [hp, isDirectory, entry?_insert_self hentry]
    rfl
  · rw [isDirectory, entry?_insert_of_ne hq]
    rfl

theorem follow (h : SameDirectories t t') : t'.follow p parts = .ok q ↔
    t.follow p parts = .ok q := by
  induction parts generalizing p with
  | nil => rfl
  | cons part parts ih => rw [follow_cons_eq_ok, follow_cons_eq_ok, h p, ih]

theorem place (h : SameDirectories t t') : t'.place path = .ok p ↔ t.place path = .ok p := by
  simp only [FileTree.place]
  split_ifs
  · rfl
  · exact h.follow
  · rfl

theorem read (h : SameDirectories t t')
    (hentry : ∀ p, t.place path = .ok p → t'.entry? p = t.entry? p) :
    t'.read path = t.read path := by
  have hfind : t'.find? path = t.find? path := by
    unfold find?
    cases hp : t.place path with
    | ok p =>
      rw [h.place.mpr hp]
      exact hentry p hp
    | error fault =>
      cases hp' : t'.place path with
      | ok p =>
        rw [h.place.mp hp'] at hp
        cases hp
      | error fault' => rfl
  rw [FileTree.read, FileTree.read, hfind]

end SameDirectories

/-! ### Making directories -/

theorem makeAlong_of_follow (h : t.follow p parts = .ok q) (hq : t.isDirectory q = true) :
    t.makeAlong p parts = (t, .ok ()) := by
  induction parts generalizing p with
  | nil => rfl
  | cons part parts ih =>
    obtain ⟨-, hlength, h⟩ := follow_cons_eq_ok.mp h
    have hnext : t.entry? (enter p part) = some .directory := by
      cases parts with
      | nil =>
        cases h
        exact isDirectory_eq_true.mp hq
      | cons part' parts => exact isDirectory_eq_true.mp (isDirectory_of_follow h (by simp))
    rw [makeAlong, if_neg (Nat.not_lt.mpr hlength)]
    simp only [hnext]
    exact ih h

theorem entry?_makeAlong (h : t.entry? q = some e) : entry? (t.makeAlong p parts).1 q = some e := by
  induction parts generalizing t p with
  | nil => exact h
  | cons part parts ih =>
    rw [makeAlong]
    dsimp only
    split
    · exact h
    · split
      · exact ih h
      · exact h
      · next hnone =>
        refine ih ?_
        rw [entry?_insert_of_ne, h]
        rintro rfl
        rw [hnone] at h
        cases h

theorem isDirectory_makeAlong (h : t.isDirectory q = true) :
    (t.makeAlong p parts).1.isDirectory q = true :=
  isDirectory_eq_true.mpr (entry?_makeAlong (isDirectory_eq_true.mp h))

variable {dir : Text} {b : UInt8} {front : Text}

theorem entry?_makeDirectories (h : t.entry? q = some e) :
    entry? (t.makeDirectories dir).1 q = some e := by
  unfold makeDirectories
  split
  · exact h
  · exact entry?_makeAlong h

theorem follow_mono (hdirs : ∀ r, t.isDirectory r = true → t'.isDirectory r = true)
    (h : t.follow p parts = .ok q) :
    t'.follow p parts = .ok q := by
  induction parts generalizing p with
  | nil => exact h
  | cons part parts ih =>
    obtain ⟨hp, hlength, h⟩ := follow_cons_eq_ok.mp h
    exact follow_cons_eq_ok.mpr ⟨hdirs p hp, hlength, ih h⟩

theorem follow_of_makeAlong (h : t.makeAlong p parts = (t', .ok ())) (hp : t.isDirectory p = true) :
    ∃ q, t'.follow p parts = .ok q ∧ t'.isDirectory q = true := by
  induction parts generalizing t p with
  | nil =>
    cases h
    exact ⟨p, rfl, hp⟩
  | cons part parts ih =>
    have hp' : t'.isDirectory p = true := by
      have hkept : (t.makeAlong p (part :: parts)).1.isDirectory p = true :=
        isDirectory_makeAlong hp
      rwa [h] at hkept
    rw [makeAlong] at h
    dsimp only at h
    split at h
    · cases h
    · next hlength =>
      -- the next directory is there, or it is made
      obtain ⟨u, hu, hnext⟩ : ∃ u : FileTree, u.makeAlong (enter p part) parts = (t', .ok ()) ∧
          u.isDirectory (enter p part) = true := by
        split at h
        · next hentry => exact ⟨t, h, isDirectory_eq_true.mpr hentry⟩
        · cases h
        · next hnone =>
          refine ⟨_, h, isDirectory_eq_true.mpr (entry?_insert_self ?_)⟩
          rw [hnone]
          simp
      obtain ⟨q, hfollow, hq⟩ := ih hu hnext
      exact ⟨q, follow_cons_eq_ok.mpr ⟨hp', Nat.not_lt.mp hlength, hfollow⟩, hq⟩

/-! ### Looking ahead -/

theorem flatMap_splitOn (sep : UInt8) (s : Text) :
    (Text.splitOn sep s).flatMap (· ++ [sep]) = s ++ [sep] := by
  induction s with
  | nil => rfl
  | cons b s ih =>
    rw [Text.splitOn]
    split
    · next hb => simp [ih, beq_iff_eq.mp hb]
    · obtain ⟨part, parts, hparts⟩ := List.exists_cons_of_ne_nil (Text.splitOn_ne_nil sep s)
      rw [hparts] at ih ⊢
      simp only [List.flatMap_cons, List.cons_append] at ih ⊢
      rw [ih]

theorem stagesFrom_append (before : Text) : stagesFrom before (parts ++ parts') =
    stagesFrom before parts ++ stagesFrom (before ++ parts.flatMap (· ++ [slash])) parts' := by
  have hslash : lit "/" = [slash] := by decide
  induction parts generalizing before with
  | nil => simp [stagesFrom]
  | cons part parts ih =>
    rw [List.cons_append, stagesFrom, stagesFrom, ih, hslash]
    split <;> simp [List.append_assoc]

theorem exists_last_stage (hb : b ≠ slash) :
    ∃ outer name, stages (front ++ [b]) = outer ++ [⟨name, front ++ [b]⟩] := by
  obtain ⟨dir, hdir, hpath⟩ := exists_directoryPart (front ++ [b])
  have hname := slash_notMem_fileName (front ++ [b])
  obtain ⟨name, hfile⟩ : ∃ name, fileName (front ++ [b]) = name := ⟨_, rfl⟩
  rw [hfile] at hpath hname
  have hne : name ≠ [] := by
    rintro rfl
    rw [List.append_nil] at hpath
    rcases hdir with rfl | ⟨front', rfl⟩
    · simp at hpath
    · exact hb (List.cons.inj (List.append_inj' hpath rfl).2).1
  rw [hpath]
  unfold stages
  rcases hdir with rfl | ⟨front', rfl⟩
  · rw [List.nil_append, Text.splitOn_of_notMem hname]
    exact ⟨[], name, by simp [stagesFrom, hne]⟩
  · rw [List.append_assoc, List.singleton_append, Text.splitOn_append, stagesFrom_append,
      Text.splitOn_of_notMem hname, flatMap_splitOn]
    exact ⟨_, name, by simp [stagesFrom, hne]; rfl⟩

theorem checkWay_of_directory (h : t.look path = .directory)
    (hpath : path = front ++ [b]) (hb : b ≠ slash) :
    Id.run (checkWay (fun path => pure (t.look path)) path) = .ok () := by
  obtain ⟨outer, name, hstages⟩ := exists_last_stage hb
  rw [← hpath] at hstages
  unfold checkWay
  rw [hstages, List.reverse_append, List.reverse_singleton, List.singleton_append, checkStages]
  simp [h]

theorem length_le_of_checkWay (h : Id.run (checkWay (fun path => pure (t.look path)) path) = .ok ())
    (hnul : (0 : UInt8) ∉ path) (hpath : path = front ++ [b])
    (hb : b ≠ slash) :
    path.length ≤ pathLimit := by
  by_contra hlength
  have hlook : t.look path = .unknown PathFault.tooLong.reason := by
    have hplace : t.place path = .error .tooLong := by
      rw [place, beforeNul_of_notMem hnul]
      simp [hpath] at hlength ⊢
      omega
    rw [look, hplace]
  obtain ⟨outer, name, hstages⟩ := exists_last_stage hb
  rw [← hpath] at hstages
  unfold checkWay at h
  rw [hstages, List.reverse_append, List.reverse_singleton, List.singleton_append, checkStages] at h
  simp [hlook] at h

/-- What a directory needs to be found: the path is not too long, and it leads to a directory. -/
structure Leads (t : FileTree) (dir : Text) : Prop where
  length_le : dir.length ≤ pathLimit
  exists_follow : ∃ q, t.follow (startOf dir) (Text.splitOn slash dir) = .ok q ∧
    t.isDirectory q = true

theorem SameDirectories.leads (h : SameDirectories t t') (hdir : t.Leads dir) :
    t'.Leads dir := by
  obtain ⟨hlength, q, hfollow, hq⟩ := hdir
  exact ⟨hlength, q, h.follow.mpr hfollow, by rw [h q, hq]⟩

section Parent

variable (hnul : (0 : UInt8) ∉ parentPath path)

include hnul

theorem makeDirectories_of_leads (h : t.Leads (parentPath path)) :
    t.makeDirectories (parentPath path) = (t, .ok ()) := by
  obtain ⟨hlength, q, hfollow, hq⟩ := h
  have hway : Id.run (checkWay (fun path => pure (t.look path)) (parentPath path)) = .ok () := by
    rcases parentPath_cases path with ⟨-, hdir⟩ | ⟨-, -, hdir⟩ | ⟨-, -, front, b, hdir, hb⟩
    · rw [hdir]
      rfl
    · rw [hdir]
      rfl
    · refine checkWay_of_directory ?_ hdir hb
      have hplace : t.place (parentPath path) = .ok q :=
        (place_eq_ok hnul).mpr ⟨by simp [hdir], hlength, hfollow⟩
      rw [look, hplace]
      simp only [isDirectory_eq_true.mp hq]
  rw [makeDirectories, hway]
  exact makeAlong_of_follow hfollow hq

theorem leads_of_makeDirectories (h : t.makeDirectories (parentPath path) = (t', .ok ())) :
    t'.Leads (parentPath path) := by
  unfold makeDirectories at h
  split at h
  · cases h
  · next hway =>
    refine ⟨?_, follow_of_makeAlong h (isDirectory_startOf t _)⟩
    rcases parentPath_cases path with ⟨-, hdir⟩ | ⟨-, -, hdir⟩ | ⟨-, -, front, b, hdir, hb⟩
    · simp [hdir]
    · simp [hdir, pathLimit]
    · exact length_le_of_checkWay hway hnul hdir hb

end Parent

theorem leads_parentPath (hnul : (0 : UInt8) ∉ path) (hp : t.place path = .ok p) :
    t.Leads (parentPath path) := by
  obtain ⟨-, hlength, hfollow⟩ := (place_eq_ok hnul).mp hp
  have hwhole := directoryPart_append_fileName path
  rcases parentPath_cases path with ⟨-, hdir⟩ | ⟨-, -, hdir⟩ | ⟨n, hpart, front, b, hdir, hb⟩
  · rw [hdir]
    exact ⟨by simp, [], follow_cons_eq_ok.mpr ⟨isDirectory_startOf t [], by simp, rfl⟩,
      isDirectory_startOf t []⟩
  · rw [hdir]
    have hroot := isDirectory_startOf t [slash]
    refine ⟨by simp [pathLimit], startOf [slash], ?_, hroot⟩
    exact follow_cons_eq_ok.mpr ⟨hroot, by simp, follow_cons_eq_ok.mpr ⟨hroot, by simp, rfl⟩⟩
  · -- the path goes on behind the slash at the end of its directory
    generalize parentPath path = dir at hpart hdir ⊢
    obtain ⟨rest, hpath⟩ : ∃ rest, path = dir ++ slash :: rest := by
      refine ⟨List.replicate n slash ++ fileName path, ?_⟩
      conv_lhs => rw [← hwhole, hpart, List.replicate_succ]
      simp
    subst hpath
    have hstart : startOf (dir ++ slash :: rest) = startOf dir := by
      rw [startOf, hdir]
      cases front <;> rfl
    rw [Text.splitOn_append, follow_append_eq_ok, hstart] at hfollow
    obtain ⟨q, hq, hrest⟩ := hfollow
    refine ⟨?_, q, hq, isDirectory_of_follow hrest (Text.splitOn_ne_nil _ _)⟩
    rw [List.length_append] at hlength
    omega

theorem exists_place_of_read {source : Text} (h : t.read path = .ok source) :
    ∃ p, t.place path = .ok p := by
  unfold read find? at h
  cases hp : t.place path with
  | ok p => exact ⟨p, rfl⟩
  | error fault =>
    rw [hp] at h
    cases h

/-! ### Writing -/

/-- A file is put at the place of its path, unless the path leads nowhere or to a directory. Further
files in the tree do not matter. -/
theorem put_cases (t : FileTree) (path : Text) :
    (∀ t', SameDirectories t t' → ∀ content, t'.put path content = .error (.cannotWrite path)) ∨
      ∃ p, t.place path = .ok p ∧ t.isDirectory p = false ∧
        ∀ t', SameDirectories t t' →
          ∀ content, t'.put path content = .ok (t'.insert p (.file content)) := by
  by_cases hfile : ∃ p, t.place path = .ok p ∧ t.isDirectory p = false
  · obtain ⟨p, hp, hfile⟩ := hfile
    refine Or.inr ⟨p, hp, hfile, fun t' h content => ?_⟩
    rw [put, h.place.mpr hp]
    simp [h p, hfile]
  · refine Or.inl fun t' h content => ?_
    unfold put
    cases hp : t'.place path with
    | error fault => rfl
    | ok p =>
      have hdir : t'.isDirectory p = true := by
        rw [h p]
        by_contra hnot
        exact hfile ⟨p, h.place.mp hp, by simpa using hnot⟩
      simp [hdir]

/-- What becomes of a file whose directories are there: it is put at its place, or it cannot be
written. Further files in the tree do not matter. -/
theorem write_cases (hdir : t.Leads (parentPath path)) (hnul : (0 : UInt8) ∉ parentPath path) :
    (∀ t', SameDirectories t t' →
      ∀ content, t'.write path content = (t', .error (.cannotWrite path))) ∨
      ∃ p, t.place path = .ok p ∧ t.isDirectory p = false ∧
        ∀ t', SameDirectories t t' →
          ∀ content, t'.write path content = (t'.insert p (.file content), .ok ()) := by
  have hmade : ∀ t', SameDirectories t t' → t'.makeDirectories (parentPath path) = (t', .ok ()) :=
    fun t' h =>
    makeDirectories_of_leads hnul (h.leads hdir)
  rcases t.put_cases path with hput | ⟨p, hp, hfile, hput⟩
  · exact Or.inl fun t' h content => by simp [write, hmade t' h, hput t' h content]
  · exact Or.inr ⟨p, hp, hfile, fun t' h content => by simp [write, hmade t' h, hput t' h content]⟩

theorem write_of_makeDirectories (hnul : (0 : UInt8) ∉ parentPath path)
    (h : t.makeDirectories (parentPath path) = (t₁, .ok ())) (content : Text) :
    t.write path content = t₁.write path content := by
  have hmade := makeDirectories_of_leads hnul (leads_of_makeDirectories hnul h)
  rw [write, write, h, hmade]

theorem write_of_unmade {reason : Text}
    (h : t.makeDirectories (parentPath path) = (t₁, .error reason)) (content : Text) :
    (t.write path content).1 = t₁ := by
  rw [write, h]

/-- Apart from the directories around it, a file changes the tree at its own place only, if it is
written. -/
theorem write_eq_or (t : FileTree) (path content : Text) :
    ∃ t₁, (t.makeDirectories (parentPath path)).1 = t₁ ∧
    ((t.write path content).1 = t₁ ∧ (t.write path content).2 ≠ .ok () ∨
      ∃ p, t₁.place path = .ok p ∧
      t₁.isDirectory p = false ∧ t.write path content = (t₁.insert p (.file content), .ok ())) := by
  unfold write
  rcases t.makeDirectories (parentPath path) with ⟨t₁, result⟩
  refine ⟨t₁, rfl, ?_⟩
  cases result with
  | error reason => exact Or.inl ⟨rfl, by simp⟩
  | ok _ =>
    dsimp only
    rcases t₁.put_cases path with hput | ⟨p, hp, hfile, hput⟩
    · rw [hput t₁ (.refl t₁)]
      exact Or.inl ⟨rfl, by simp⟩
    · rw [hput t₁ (.refl t₁)]
      exact Or.inr ⟨p, hp, hfile, rfl⟩

theorem read_insert (hp : t.place path = .ok p) (hfile : t.isDirectory p = false) (content : Text) :
    (t.insert p (.file content)).read path = .ok content := by
  have hsame := (SameDirectories.refl t).insert hfile content
  have hentry : t.entry? p ≠ some .directory := by
    rw [Ne, ← isDirectory_eq_true, hfile]
    simp
  have hfind : (t.insert p (.file content)).find? path = some (.file content) := by
    unfold find?
    rw [hsame.place.mpr hp]
    exact entry?_insert_self hentry
  rw [read, hfind]

theorem read_insert_of_ne (hp : t.place path ≠ .ok p) (hfile : t.isDirectory p = false)
    (content : Text) :
    (t.insert p (.file content)).read path = t.read path := by
  refine ((SameDirectories.refl t).insert hfile content).read fun q hq => entry?_insert_of_ne ?_
  rintro rfl
  exact hp hq

theorem read_makeDirectories (h : t.read path = .ok content) :
    (t.makeDirectories dir).1.read path = .ok content := by
  have hdirs : ∀ r, t.isDirectory r = true → (t.makeDirectories dir).1.isDirectory r = true :=
    fun r hr =>
    isDirectory_eq_true.mpr (entry?_makeDirectories (isDirectory_eq_true.mp hr))
  obtain ⟨p, hp⟩ := exists_place_of_read h
  have hplace : (t.makeDirectories dir).1.place path = .ok p := by
    simp only [place] at hp ⊢
    split_ifs at hp ⊢
    exact follow_mono hdirs hp
  unfold read find? at h ⊢
  rw [hp] at h
  rw [hplace]
  cases hentry : t.entry? p with
  | none =>
    rw [Except.toOption, Option.bind_some, hentry] at h
    cases h
  | some e =>
    rw [Except.toOption, Option.bind_some, hentry] at h
    rw [Except.toOption, Option.bind_some, entry?_makeDirectories hentry]
    exact h

/-- **A file that is written** replaces what is at its place, and nothing else. -/
theorem read_write {y old : Text} (path content : Text) (hread : t.read y = .ok old) :
    (t.write path content).1.read y =
    .ok (if (t.write path content).2 = .ok () ∧
      (t.write path content).1.place y = (t.write path content).1.place path
      then content else old) := by
  obtain ⟨t₁, ht₁, hwrite⟩ := t.write_eq_or path content
  have hread : t₁.read y = .ok old := ht₁ ▸ read_makeDirectories hread
  obtain ⟨q, hq⟩ := exists_place_of_read hread
  rcases hwrite with ⟨htree, hfails⟩ | ⟨p, hp, hfile, htree⟩
  · rw [htree, hread, if_neg fun h => hfails h.1]
  · have hsame := (SameDirectories.refl t₁).insert hfile content
    rw [htree]
    dsimp only
    rw [hsame.place.mpr hq, hsame.place.mpr hp]
    by_cases hqp : q = p
    · subst hqp
      rw [if_pos ⟨rfl, rfl⟩, read_insert hq hfile]
    · rw [if_neg fun h => hqp (Except.ok.inj h.2), ← hread]
      exact read_insert_of_ne (fun hp' => hqp (Except.ok.inj (hq.symm.trans hp'))) hfile content

/-- A file that does not change what is read in one tree does not change it in a tree with further
files. -/
theorem SameDirectories.read_insert (h : SameDirectories t t') (hfile : t.isDirectory p = false)
    (hread : (t.insert p (.file content)).read path = t'.read path) :
    (t'.insert p (.file content)).read path = t'.read path := by
  have hfile' : t'.isDirectory p = false := (h p).trans hfile
  by_cases hp : t.place path = .ok p
  · rw [← hread, FileTree.read_insert hp hfile, FileTree.read_insert (h.place.mpr hp) hfile']
  · exact read_insert_of_ne (fun hp' => hp (h.place.mp hp')) hfile' content

end Unnest.FileTree
