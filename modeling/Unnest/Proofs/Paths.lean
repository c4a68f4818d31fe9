import Unnest.Command.FileTree
import Unnest.Proofs.Separators
import Mathlib.Data.List.Induction

/-!
# Paths and their parts

A path is a directory part, which is empty or ends in a slash, and a file name without slashes
behind it. This makes clear when two headers are written to the same path, and when a header is
written to the path of a source.

* `Options.nodup_targets_iff`: when the headers of a command go to different paths;
* `parentPath_cases`: the directory part without the slashes at its end.
-/

namespace Unnest

variable {path dir name : Text}

/-- The slash between the parts of a path. -/
abbrev slash : UInt8 := chr '/'

/-! ### The two parts -/

/-- What can stand in front of a file name: nothing, or a text that ends in a slash. -/
def IsDirectoryPart (dir : Text) : Prop := dir = [] ∨ ∃ front, dir = front ++ [slash]

theorem fileName_append (hdir : IsDirectoryPart dir) (hname : slash ∉ name) :
    fileName (dir ++ name) = name := by
  rcases hdir with rfl | ⟨front, rfl⟩
  · exact Text.afterLast_of_notMem hname
  · rw [List.append_assoc, List.singleton_append]
    exact Text.afterLast_append hname

theorem directoryPart_append (hdir : IsDirectoryPart dir) (hname : slash ∉ name) :
    directoryPart (dir ++ name) = dir := by
  rw [directoryPart, fileName_append hdir hname, List.length_append, Nat.add_sub_cancel,
    List.take_left]

theorem slash_notMem_fileName (path : Text) : slash ∉ fileName path := Text.notMem_afterLast

theorem exists_directoryPart (path : Text) :
    ∃ dir, IsDirectoryPart dir ∧ path = dir ++ fileName path := by
  rcases Text.eq_append_afterLast slash path with ⟨-, hname⟩ | ⟨front, hpath⟩
  · exact ⟨[], Or.inl rfl, hname.symm⟩
  · refine ⟨front ++ [slash], Or.inr ⟨front, rfl⟩, ?_⟩
    rw [List.append_assoc, List.singleton_append]
    exact hpath

theorem directoryPart_append_fileName (path : Text) :
    directoryPart path ++ fileName path = path := by
  obtain ⟨dir, hdir, hpath⟩ := exists_directoryPart path
  have hsame := directoryPart_append hdir (slash_notMem_fileName path)
  rw [← hpath] at hsame
  rw [hsame, ← hpath]

theorem isDirectoryPart_directoryPart (path : Text) : IsDirectoryPart (directoryPart path) := by
  obtain ⟨dir, hdir, hpath⟩ := exists_directoryPart path
  have hsame := directoryPart_append hdir (slash_notMem_fileName path)
  rw [← hpath] at hsame
  rwa [hsame]

theorem path_eq_iff {dir' name' : Text} (hdir : IsDirectoryPart dir) (hdir' : IsDirectoryPart dir')
    (hname : slash ∉ name) (hname' : slash ∉ name') : dir ++ name = dir' ++ name' ↔
    dir = dir' ∧ name = name' := by
  refine ⟨fun h => ⟨?_, ?_⟩, fun ⟨h, h'⟩ => by rw [h, h']⟩
  · rw [← directoryPart_append hdir hname, h, directoryPart_append hdir' hname']
  · rw [← fileName_append hdir hname, h, fileName_append hdir' hname']

/-! ### The path of a header -/

theorem beforeLastDot?_of_notMem (hname : chr '.' ∉ name) : beforeLastDot? name = none := by
  have hnone : name.reverse.dropWhile (· != chr '.') = [] :=
    List.dropWhile_eq_nil_iff.mpr (Text.bne_of_mem_reverse hname)
  rw [beforeLastDot?, hnone]

theorem beforeLastDot?_append {front back : Text} (hback : chr '.' ∉ back) :
    beforeLastDot? (front ++ chr '.' :: back) = some front := by
  have hdrop : (front ++ chr '.' :: back).reverse.dropWhile (· != chr '.') =
      chr '.' :: front.reverse := by
    rw [List.reverse_append, List.reverse_cons, List.append_assoc,
      List.dropWhile_append_of_pos (Text.bne_of_mem_reverse hback)]
    simp
  rw [beforeLastDot?, hdrop]
  simp

theorem stem_isPrefix (name : Text) : stem name <+: name := by
  unfold stem
  split
  · exact List.prefix_rfl
  rcases Text.eq_append_afterLast (chr '.') name with ⟨hdot, -⟩ | ⟨front, hname⟩
  · simp only [beforeLastDot?_of_notMem hdot, List.prefix_rfl]
  · have hfront : beforeLastDot? name = some front := by
      conv_lhs => rw [hname]
      exact beforeLastDot?_append Text.notMem_afterLast
    rw [hfront]
    cases front with
    | nil => exact List.prefix_rfl
    | cons b bs => exact ⟨_, hname.symm⟩

theorem slash_notMem_headerName (hname : slash ∉ name) : slash ∉ headerName name := by
  have hext : slash ∉ lit ".h" := by decide
  unfold headerName
  rw [List.mem_append, not_or]
  exact ⟨fun h => hname ((stem_isPrefix name).subset h), hext⟩

theorem headerName_eq_iff {name' : Text} : headerName name = headerName name' ↔
    stem name = stem name' :=
  List.append_left_inj _

namespace Options

variable {o : Options} {x y : Text}

def headerDirectory (o : Options) (input : Text) : Text :=
  if o.outDir.isEmpty then directoryPart input else inDirectory o.outDir []

theorem isDirectoryPart_headerDirectory (o : Options) (x : Text) :
    IsDirectoryPart (o.headerDirectory x) := by
  unfold headerDirectory
  split
  · exact isDirectoryPart_directoryPart x
  · unfold inDirectory
    rw [List.append_nil]
    split_ifs with hlast
    · obtain ⟨front, hfront⟩ := List.getLast?_eq_some_iff.mp (beq_iff_eq.mp hlast)
      exact Or.inr ⟨front, by rw [List.append_nil, hfront]⟩
    · exact Or.inr ⟨o.outDir, rfl⟩

theorem target_eq (ho : o.output = []) (x : Text) :
    o.target x = o.headerDirectory x ++ headerName (fileName x) := by
  unfold target headerDirectory inDirectory
  rw [ho]
  split_ifs <;> simp_all

/-- Where the headers of different sources go: two of them go to the same path if they have the same
name and the same directory. -/
theorem target_eq_target_iff (ho : o.output = []) : o.target x = o.target y ↔
    o.headerDirectory x = o.headerDirectory y ∧ stem (fileName x) = stem (fileName y) := by
  rw [target_eq ho, target_eq ho, path_eq_iff (o.isDirectoryPart_headerDirectory x)
    (o.isDirectoryPart_headerDirectory y) (slash_notMem_headerName (slash_notMem_fileName x))
    (slash_notMem_headerName (slash_notMem_fileName y)), headerName_eq_iff]

/-- A header goes to the path of a source if the source is in the directory of the header and has
its name. -/
theorem target_eq_iff (ho : o.output = []) : o.target x = y ↔
    directoryPart y = o.headerDirectory x ∧ fileName y = headerName (fileName x) := by
  rw [target_eq ho, ← directoryPart_append_fileName y,
    path_eq_iff (o.isDirectoryPart_headerDirectory x)
    (isDirectoryPart_directoryPart y) (slash_notMem_headerName (slash_notMem_fileName x))
    (slash_notMem_fileName y), directoryPart_append_fileName]
  exact ⟨fun ⟨h, h'⟩ => ⟨h.symm, h'.symm⟩, fun ⟨h, h'⟩ => ⟨h.symm, h'.symm⟩⟩

theorem output_of_ofArgs {args : List Text} (h : ofArgs args = (o, none)) (hhelp : o.help = false) :
    o.output = [] ∨ o.output ≠ [] ∧ ∃ x, o.inputs = [x] := by
  have hproblem : o.problem? = none := by
    unfold ofArgs at h
    split at h
    · cases h
    · next hread =>
      obtain ⟨rfl, hproblem⟩ := Prod.mk.inj h
      exact hproblem
  by_cases houtput : o.output = []
  · exact Or.inl houtput
  · refine Or.inr ⟨houtput, ?_⟩
    unfold problem? at hproblem
    match hinputs : o.inputs with
    | [] => simp [hhelp, hinputs] at hproblem
    | [x] => exact ⟨x, rfl⟩
    | x :: y :: rest => simp [hhelp, hinputs, houtput] at hproblem

/-- When the headers of a command go to paths apart from each other and from the sources. -/
theorem nodup_targets_iff {args : List Text} (h : ofArgs args = (o, none))
    (hhelp : o.help = false) :
    ((o.inputs.map o.target).Nodup ∧ ∀ x ∈ o.inputs, o.target x ∉ o.inputs) ↔
      (o.output ≠ [] ∧ o.output ∉ o.inputs) ∨
      (o.output = [] ∧ (o.inputs.map fun x => (o.headerDirectory x, stem (fileName x))).Nodup ∧
        ∀ x ∈ o.inputs, ∀ y ∈ o.inputs,
          ¬ (directoryPart y = o.headerDirectory x ∧ fileName y = headerName (fileName x))) := by
  rcases output_of_ofArgs h hhelp with ho | ⟨ho, x, hx⟩
  · have hnames : (o.inputs.map o.target).Nodup ↔
        (o.inputs.map fun x => (o.headerDirectory x, stem (fileName x))).Nodup := by
      rw [List.Nodup, List.pairwise_map, List.Nodup, List.pairwise_map]
      simp only [ne_eq, target_eq_target_iff ho, Prod.mk.injEq]
    have hsources : (∀ x ∈ o.inputs, o.target x ∉ o.inputs) ↔ ∀ x ∈ o.inputs, ∀ y ∈ o.inputs,
        ¬ (directoryPart y = o.headerDirectory x ∧ fileName y = headerName (fileName x)) := by
      refine forall₂_congr fun x _ => ?_
      simp only [← target_eq_iff ho]
      exact ⟨fun hx y hy hxy => hx (hxy ▸ hy), fun hx hmem => hx _ hmem rfl⟩
    rw [hnames, hsources]
    simp [ho]
  · have htarget : o.target x = o.output := by simp [target, ho]
    simp [hx, htarget, ho]

end Options

/-! ### Directories without the slashes at their end -/

/-- What can be left when the slashes at the end of a text are left out. -/
def IsTrimmed (s : Text) : Prop := s = [] ∨ ∃ front b, s = front ++ [b] ∧ b ≠ slash

theorem dropWhile_slashes {s : Text} (hs : IsTrimmed s) (n : Nat) :
    ((s ++ List.replicate n slash).reverse.dropWhile (· == slash)).reverse = s := by
  rw [List.reverse_append, List.reverse_replicate, List.dropWhile_append_of_pos (by simp)]
  rcases hs with rfl | ⟨front, b, rfl, hb⟩
  · rfl
  · simp [hb]

theorem exists_trimmed (s : Text) : ∃ t n, IsTrimmed t ∧ s = t ++ List.replicate n slash := by
  induction s using List.reverseRecOn with
  | nil => exact ⟨[], 0, Or.inl rfl, rfl⟩
  | append_singleton s b ih =>
    by_cases hb : b = slash
    · obtain ⟨t, n, ht, rfl⟩ := ih
      exact ⟨t, n + 1, ht, by rw [hb, List.replicate_succ', List.append_assoc]⟩
    · exact ⟨s ++ [b], 0, Or.inr ⟨s, b, rfl, hb⟩, by simp⟩

/-- The directory part of a path is empty, or made of slashes, or it has slashes at its end that are
left out. -/
theorem parentPath_cases (path : Text) : (directoryPart path = [] ∧ parentPath path = []) ∨
    (∃ n, directoryPart path = List.replicate (n + 1) slash ∧ parentPath path = [slash]) ∨
    ∃ n, directoryPart path = parentPath path ++ List.replicate (n + 1) slash ∧
      ∃ front b, parentPath path = front ++ [b] ∧ b ≠ slash := by
  have hpart := isDirectoryPart_directoryPart path
  obtain ⟨t, n, ht, hdir⟩ := exists_trimmed (directoryPart path)
  have htrim : parentPath path = if t = [] then (if n = 0 then [] else [slash]) else t := by
    have hdrop := dropWhile_slashes ht n
    rw [← hdir] at hdrop
    unfold parentPath
    dsimp only
    rw [hdrop, hdir]
    have hroot : lit "/" = [slash] := by decide
    cases t <;> cases n <;> simp [hroot]
  rcases ht with rfl | ⟨front, b, rfl, hb⟩
  · cases n with
    | zero => exact Or.inl ⟨hdir, by simpa using htrim⟩
    | succ n => exact Or.inr (Or.inl ⟨n, hdir, by simpa using htrim⟩)
  · rw [if_neg (by simp)] at htrim
    cases n with
    | zero =>
      -- the directory part ends in a slash
      rcases hpart with hnil | ⟨front', hslash⟩
      · simp [hdir] at hnil
      · rw [hdir, List.replicate_zero, List.append_nil] at hslash
        exact absurd (List.cons.inj (List.append_inj' hslash rfl).2).1 hb
    | succ n => exact Or.inr (Or.inr ⟨n, by rw [hdir, htrim], front, b, htrim, hb⟩)

theorem parentPath_congr {path' : Text} (h : directoryPart path = directoryPart path') :
    parentPath path = parentPath path' := by
  rw [parentPath, parentPath, h]

theorem mem_of_mem_parentPath {b : UInt8} (h : b ∈ parentPath path) (hb : b ≠ slash) :
    b ∈ path := by
  rw [← directoryPart_append_fileName path]
  refine List.mem_append_left _ ?_
  rcases parentPath_cases path with ⟨-, hdir⟩ | ⟨-, -, hdir⟩ | ⟨n, hpart, -⟩
  · simp [hdir] at h
  · simp [hdir, hb] at h
  · rw [hpart]
    exact List.mem_append_left _ h

end Unnest
