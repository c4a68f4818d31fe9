import Unnest.Command.Convert
import Unnest.Proofs.FileTrees
import Mathlib

/-!
# What a conversion reads, writes and counts

A conversion reads its input, writes at most one header and adds to the counters. What it prints and
counts depends on the tree through two answers only: what the input is read as, and whether the
header can be written. A header that goes elsewhere changes neither of them.

* `Tally`: the counters, which can be added up in any order;
* `Adds`: a part of a run, with what it gives, counts and does to the tree;
* `Options.SeparatePlaces`, `Options.SteadyDirectories`: conversions that stay out of each other's
  way.
-/

namespace Unnest

/-! ### Counters -/

/-- The counters of a run. -/
@[ext]
structure Tally where
  tokens : UInt64 := 0
  nodes : UInt64 := 0
  maxDepth : UInt64 := 0
  ok : UInt64 := 0
  failed : UInt64 := 0
deriving DecidableEq

namespace Tally

instance : Zero Tally := ⟨{}⟩

/-- What was counted in one part and in another: sums, and the greater depth. -/
instance : Add Tally where
  add a b :=
    { tokens := a.tokens + b.tokens
      nodes := a.nodes + b.nodes
      maxDepth := max a.maxDepth b.maxDepth
      ok := a.ok + b.ok
      failed := a.failed + b.failed }

theorem toNat_max (a b : UInt64) : (max a b).toNat = max a.toNat b.toNat := by
  rw [instMaxUInt64, maxOfLe]
  simp only [UInt64.le_iff_toNat_le]
  split <;> omega

theorem max_assoc (a b c : UInt64) : max (max a b) c = max a (max b c) :=
  UInt64.toNat_inj.mp (by simp only [toNat_max, Nat.max_assoc])

theorem max_comm (a b : UInt64) : max a b = max b a :=
  UInt64.toNat_inj.mp (by simp only [toNat_max, Nat.max_comm])

theorem zero_max (a : UInt64) : max 0 a = a :=
  UInt64.toNat_inj.mp (by rw [toNat_max, UInt64.toNat_zero, Nat.zero_max])

theorem add_comm' (a b : Tally) : a + b = b + a :=
  Tally.ext (add_comm _ _) (add_comm _ _) (max_comm _ _) (add_comm _ _) (add_comm _ _)

theorem zero_add' (a : Tally) : 0 + a = a :=
  Tally.ext (zero_add _) (zero_add _) (zero_max _) (zero_add _) (zero_add _)

instance : AddCommMonoid Tally where
  add_assoc _ _ _ :=
    Tally.ext (add_assoc _ _ _) (add_assoc _ _ _) (max_assoc _ _ _) (add_assoc _ _ _)
    (add_assoc _ _ _)
  zero_add := zero_add'
  add_zero a := (add_comm' a 0).trans (zero_add' a)
  add_comm := add_comm'
  nsmul := nsmulRec

end Tally

/-- The counters of metrics. -/
def Metrics.tally (m : Metrics) : Tally :=
  { tokens := m.tokens, nodes := m.nodes, maxDepth := m.maxDepth, ok := m.ok, failed := m.failed }

/-! ### Parts of a run -/

/-- A part of a run that gives `a`, adds `gain` to the counters and turns the tree `t` into `t'`. -/
def Adds {α : Type} (c : Counted (StateM FileTree) α) (t : FileTree) (a : α) (gain : Tally)
    (t' : FileTree) :
    Prop :=
  ∀ m : Metrics, ∃ m', (c.run m).run t = ((a, m'), t') ∧ m'.enabled = m.enabled ∧
    m'.tally = m.tally + if m.enabled then gain else 0

/-- A part of a run that does not depend on the tree and does not change it. -/
def OnlyCounts {α : Type} (c : Counted (StateM FileTree) α) : Prop :=
  ∃ a gain, ∀ t, Adds c t a gain t

section Parts

variable {α β : Type} {t t' t'' : FileTree} {a : α} {b : β} {gain gain' : Tally}
  {c : Counted (StateM FileTree) α} {f : α → Counted (StateM FileTree) β}

theorem adds_pure : Adds (pure a) t a 0 t := fun m => ⟨m, rfl, rfl, by simp⟩

theorem Adds.bind (h : Adds c t a gain t') (h' : Adds (f a) t' b gain' t'') :
    Adds (c >>= f) t b (gain + gain') t'' := by
  intro m
  obtain ⟨m₁, hrun, henabled, htally⟩ := h m
  obtain ⟨m₂, hrun', henabled', htally'⟩ := h' m₁
  refine ⟨m₂, ?_, henabled'.trans henabled, ?_⟩
  · rw [StateT.run_bind, StateT.run_bind]
    exact (congrArg (fun r : (α × Metrics) × FileTree => ((f r.1.1).run r.1.2).run r.2) hrun).trans
      hrun'
  · rw [htally', htally, henabled, add_assoc]
    split <;> simp

theorem adds_modify {change : Metrics → Metrics} (henabled : ∀ m, (change m).enabled = m.enabled)
    (htally : ∀ m, (change m).tally = m.tally + if m.enabled then gain else 0) :
    Adds (modify change) t ⟨⟩ gain t := fun m => ⟨change m, rfl, henabled m, htally m⟩

theorem adds_count {change : Metrics → Metrics} (henabled : ∀ m, (change m).enabled = m.enabled)
    (htally : ∀ m, (change m).tally = m.tally + gain) :
    Adds (modify (Metrics.count change)) t ⟨⟩ gain t := by
  refine adds_modify (fun m => ?_) fun m => ?_
  · unfold Metrics.count
    split
    · exact henabled m
    · rfl
  · unfold Metrics.count
    split
    · exact htally m
    · exact (add_zero _).symm

theorem adds_lift {step : StateM FileTree α} (h : step.run t = (a, t')) :
    Adds (liftM step : Counted (StateM FileTree) α) t a 0 t' := by
  intro m
  refine ⟨m, ?_, rfl, by simp⟩
  exact (congrArg (fun r : α × FileTree => ((r.1, m), r.2)) h)

theorem adds_timed {phase : Phase} {step : StateM FileTree α} (h : step.run t = (a, t')) :
    Adds (timed FileTree.host phase step) t a 0 t' := by
  have hclock : ∀ t, FileTree.host.clock.run t = (0, t) := fun _ => rfl
  have hduration : ∀ n, Adds (modify (Metrics.addDuration phase n)) t' ⟨⟩ 0 t' := fun n =>
    adds_count (fun _ => rfl) fun m => (add_zero m.tally).symm
  have hzero : (0 : Tally) = 0 + (0 + (0 + (0 + 0))) := by simp
  rw [hzero]
  exact (adds_lift (hclock t)).bind ((adds_lift h).bind ((adds_lift (hclock t')).bind
    ((hduration _).bind adds_pure)))

theorem onlyCounts_pure : OnlyCounts (pure a) := ⟨a, 0, fun _ => adds_pure⟩

theorem OnlyCounts.bind (h : OnlyCounts c) (h' : ∀ a, OnlyCounts (f a)) : OnlyCounts (c >>= f) := by
  obtain ⟨a, gain, h⟩ := h
  obtain ⟨b, gain', h'⟩ := h' a
  exact ⟨b, gain + gain', fun t => (h t).bind (h' t)⟩

theorem onlyCounts_timed (phase : Phase) (compute' : Unit → α) :
    OnlyCounts (timed FileTree.host phase (compute compute')) :=
  ⟨compute' (), 0, fun _ => adds_timed rfl⟩

theorem onlyCounts_addTokens (n : UInt64) : OnlyCounts (modify (Metrics.addTokens n)) :=
  ⟨⟨⟩, { tokens := n }, fun _ => adds_count (fun _ => rfl) fun m => by
    refine Tally.ext rfl (add_zero m.nodes).symm ?_ (add_zero m.ok).symm (add_zero m.failed).symm
    exact ((Tally.max_comm _ _).trans (Tally.zero_max _)).symm⟩

theorem onlyCounts_addGeometry (nodes depth : UInt64) :
    OnlyCounts (modify (Metrics.addGeometry nodes depth)) :=
  ⟨⟨⟩, { nodes, maxDepth := depth }, fun _ => adds_count (fun _ => rfl) fun m =>
    Tally.ext (add_zero m.tokens).symm rfl rfl (add_zero m.ok).symm (add_zero m.failed).symm⟩

theorem onlyCounts_buildHeader (o : Options) (input source : Text) :
    OnlyCounts (buildHeader FileTree.host o input source) := by
  refine (onlyCounts_timed _ _).bind fun lexed => ?_
  cases lexed with
  | error e => exact onlyCounts_pure
  | ok tokens =>
    refine (onlyCounts_addTokens _).bind fun _ => (onlyCounts_timed _ _).bind fun grouped => ?_
    cases grouped with
    | error e => exact onlyCounts_pure
    | ok root =>
      refine (onlyCounts_timed _ _).bind fun parsed => ?_
      cases parsed with
      | error e => exact onlyCounts_pure
      | ok file =>
        exact (onlyCounts_addGeometry _ _).bind fun _ => (onlyCounts_timed _ _).bind fun _ =>
          onlyCounts_pure

end Parts

/-! ### One conversion -/

section Conversion

variable {o : Options} {color : Bool} {x y : Text} {t t' t₁ : FileTree}

/-- The outcome of a conversion whose header was, or could not be, written. -/
def Outcome.delivered (out : Text) : Except FileError Unit → Outcome
  | .ok () => { out }
  | .error e => { status := .unusable, out, err := errorLine e.message false }

theorem adds_deliver_console (header out : Text) :
    Adds (deliver FileTree.host (lit "-") header out) t { out := out ++ header } 0 t := by
  unfold deliver
  rw [if_pos rfl]
  exact adds_pure

theorem adds_deliver {target : Text} (htarget : target ≠ lit "-") (header out : Text) :
    Adds (deliver FileTree.host target header out) t (.delivered out (t.write target header).2) 0
      (t.write target header).1 := by
  have hwrite : (FileTree.host.write target header).run t =
      ((t.write target header).2, (t.write target header).1) :=
    rfl
  unfold deliver
  rw [if_neg htarget, ← add_zero (0 : Tally)]
  refine (adds_timed hwrite).bind ?_
  cases (t.write target header).2 <;> exact adds_pure

/-- A conversion that does nothing but read its input, which is read as in `t`. -/
def Options.Silent (o : Options) (color : Bool) (t : FileTree) (x : Text) : Prop :=
  ∃ outcome gain, ∀ t', t'.read x = t.read x →
    Adds (convertFile FileTree.host o color x) t' outcome gain t'

/-- A conversion that writes a header, for an input that is read as in `t`. -/
structure Options.Writes (o : Options) (color : Bool) (t : FileTree) (x header out : Text)
    (gain : Tally) :
    Prop where
  exists_source : ∃ source, t.read x = .ok source
  adds : ∀ t', t'.read x = t.read x → Adds (convertFile FileTree.host o color x) t'
    (.delivered out (t'.write (o.target x) header).2) gain (t'.write (o.target x) header).1

theorem Options.silent_or_writes (o : Options) (color : Bool) (t : FileTree) (x : Text) :
    o.Silent color t x ∨ ∃ header out gain, o.Writes color t x header out gain := by
  have hread : ∀ t', t'.read x = t.read x →
      Adds (timed FileTree.host .read (FileTree.host.read x)) t' (t.read x) 0 t' := fun t' ht' =>
    adds_timed (congrArg (·, t') ht')
  cases hsource : t.read x with
  | error e =>
    rw [hsource] at hread
    exact Or.inl ⟨{ status := .unusable, err := errorLine e.message color }, 0 + 0, fun t' ht' =>
      (hread t' (ht'.trans hsource)).bind adds_pure⟩
  | ok source =>
    rw [hsource] at hread
    obtain ⟨⟨out, result⟩, gain, hbuild⟩ := onlyCounts_buildHeader o x source
    cases result with
    | error e =>
      exact Or.inl ⟨{ status := .sourceError, out, err := e.diagnostic source color },
        0 + (gain + 0), fun t' ht' => (hread t' (ht'.trans hsource)).bind
        ((hbuild t').bind adds_pure)⟩
    | ok header =>
      by_cases htarget : o.target x = lit "-"
      · refine Or.inl ⟨{ out := out ++ header }, 0 + (gain + 0), fun t' ht' => ?_⟩
        refine (hread t' (ht'.trans hsource)).bind ((hbuild t').bind ?_)
        rw [htarget]
        exact adds_deliver_console header out
      · exact Or.inr ⟨header, out, 0 + (gain + 0), ⟨source, hsource⟩, fun t' ht' =>
          (hread t' (ht'.trans hsource)).bind ((hbuild t').bind (adds_deliver htarget header out))⟩

/-- The tree after the conversion of an input. -/
def Options.treeAfter (o : Options) (color : Bool) (t : FileTree) (x : Text) : FileTree :=
  (((convertFile FileTree.host o color x).run {}).run t).2

theorem Adds.treeAfter {outcome : Outcome} {gain : Tally}
    (h : Adds (convertFile FileTree.host o color x) t outcome gain t') :
    o.treeAfter color t x = t' := by
  obtain ⟨m, hrun, -⟩ := h {}
  rw [Options.treeAfter, hrun]

theorem Options.exists_adds (o : Options) (color : Bool) (t : FileTree) (x : Text) :
    ∃ outcome gain, Adds (convertFile FileTree.host o color x) t outcome gain
      (o.treeAfter color t x) := by
  rcases o.silent_or_writes color t x with ⟨outcome, gain, hadds⟩ | ⟨header, out, gain, hwrites⟩
  · have hadds := hadds t rfl
    exact ⟨outcome, gain, by rwa [hadds.treeAfter]⟩
  · have hadds := hwrites.adds t rfl
    exact ⟨_, gain, by rwa [hadds.treeAfter]⟩

end Conversion

/-! ### What headers overwrite -/

namespace Options

variable {o : Options}

theorem treeAfter_eq_or (o : Options) (color : Bool) (t : FileTree) (x : Text) :
    o.treeAfter color t x = t ∨
    ∃ header, o.treeAfter color t x = (t.write (o.target x) header).1 := by
  rcases o.silent_or_writes color t x with ⟨outcome, gain, hadds⟩ | ⟨header, out, gain, hwrites⟩
  · exact Or.inl (hadds t rfl).treeAfter
  · exact Or.inr ⟨header, (hwrites.adds t rfl).treeAfter⟩

/-- **Where the headers of a command go.** They go to different paths, and to none of the paths of
the sources, exactly if the output that was named is not the source, or if no output was named, no
two sources have the same name up to the extension and headers in the same directory, and no source
has the name of a header and is where that header goes. A conversion overwrites a source or another
header exactly if it writes its header and their paths lead to one place. -/
theorem targets_apart_iff {args : List Text} (h : ofArgs args = (o, none))
    (hhelp : o.help = false) :
    (((o.inputs.map o.target).Nodup ∧ ∀ x ∈ o.inputs, o.target x ∉ o.inputs) ↔
      (o.output ≠ [] ∧ o.output ∉ o.inputs) ∨
      (o.output = [] ∧ (o.inputs.map fun x => (o.headerDirectory x, stem (fileName x))).Nodup ∧
        ∀ x ∈ o.inputs, ∀ y ∈ o.inputs,
          ¬ (directoryPart y = o.headerDirectory x ∧ fileName y = headerName (fileName x)))) ∧
    ∀ x ∈ o.inputs, ∀ (color : Bool) (t t' : FileTree), o.treeAfter color t x = t' → t' = t ∨
      ∃ header result, t.write (o.target x) header = (t', result) ∧
        ∀ y ∈ o.inputs ++ o.inputs.map o.target, ∀ old, t.read y = .ok old →
        t'.read y = .ok (if result = .ok () ∧ t'.place y = t'.place (o.target x) then header
          else old) := by
  refine ⟨nodup_targets_iff h hhelp, fun x _ color t t' ht' => ?_⟩
  rcases o.treeAfter_eq_or color t x with hsame | ⟨header, htree⟩
  · exact Or.inl (ht'.symm.trans hsame)
  · rcases hwrite : t.write (o.target x) header with ⟨t₁, result⟩
    rw [hwrite, ht'] at htree
    subst htree
    refine Or.inr ⟨header, result, hwrite, fun y _ old hread => ?_⟩
    have hafter := FileTree.read_write (o.target x) header hread
    rwa [hwrite] at hafter

/-- The options of a command that puts the headers of two sources into one directory. -/
def intoOneDirectory (x y : Text) : Options := { inputs := [x, y], outDir := lit "out" }

theorem targets_apart_iff_two :
    ((intoOneDirectory (lit "a/X.java") (lit "b/Y.java")).inputs.map
      (intoOneDirectory (lit "a/X.java") (lit "b/Y.java")).target).Nodup ∧
    ∀ x ∈ (intoOneDirectory (lit "a/X.java") (lit "b/Y.java")).inputs,
      (intoOneDirectory (lit "a/X.java") (lit "b/Y.java")).target x ∉
        (intoOneDirectory (lit "a/X.java") (lit "b/Y.java")).inputs := by
  have hargs : ofArgs [lit "--out-dir", lit "out", lit "a/X.java", lit "b/Y.java"] =
      (intoOneDirectory (lit "a/X.java") (lit "b/Y.java"), none) := by decide
  refine (targets_apart_iff hargs rfl).1.mpr (Or.inr ⟨rfl, ?_, ?_⟩)
  · decide
  · decide

/-- Headers of sources with the same name go to one path in a common directory, a header can have
the path of a source, and a header that was given another path can still overwrite its source. -/
theorem targets_collide :
    (ofArgs [lit "--out-dir", lit "out", lit "a/X.java", lit "b/X.java"] =
        (intoOneDirectory (lit "a/X.java") (lit "b/X.java"), none) ∧
      (intoOneDirectory (lit "a/X.java") (lit "b/X.java")).target (lit "a/X.java") =
        (intoOneDirectory (lit "a/X.java") (lit "b/X.java")).target (lit "b/X.java")) ∧
    (ofArgs [lit "X.java", lit "X.h"] = ({ inputs := [lit "X.java", lit "X.h"] }, none) ∧
      Options.target { inputs := [lit "X.java", lit "X.h"] } (lit "X.java") = lit "X.h") ∧
    (ofArgs [lit "-o", lit "./A.java", lit "A.java"] =
        ({ inputs := [lit "A.java"], output := lit "./A.java" }, none) ∧
      Options.target { inputs := [lit "A.java"], output := lit "./A.java" } (lit "A.java") ∉
      [lit "A.java"] ∧
      (Options.treeAfter { inputs := [lit "A.java"], output := lit "./A.java" } false
        ⟨[([lit "A.java"], .file (lit "class A \x7b\x7d"))]⟩ (lit "A.java")).read (lit "A.java") ≠
          .ok (lit "class A \x7b\x7d")) := by
  refine ⟨by decide, by decide, by decide, by decide, ?_⟩
  cbv
  simp

end Options

/-! ### The directories for headers -/

namespace Options

variable {o : Options} {color : Bool} {x y : Text} {t t' t₁ : FileTree}

/-- No path of a command has a NUL byte, as paths on a command line are ended by one. -/
def NoNul (o : Options) : Prop := ∀ path ∈ o.output :: o.outDir :: o.inputs, (0 : UInt8) ∉ path

theorem nul_notMem_target (h : o.NoNul) (hx : x ∈ o.inputs) : (0 : UInt8) ∉ o.target x := by
  have houtput : (0 : UInt8) ∉ o.output := h _ (by simp)
  have hdir : (0 : UInt8) ∉ o.outDir := h _ (by simp)
  have hinput : (0 : UInt8) ∉ x := h _ (by simp [hx])
  have hparts := directoryPart_append_fileName x
  rw [← hparts, List.mem_append, not_or] at hinput
  have hname : (0 : UInt8) ∉ headerName (fileName x) := by
    have hext : (0 : UInt8) ∉ lit ".h" := by decide
    rw [headerName, List.mem_append, not_or]
    exact ⟨fun h => hinput.2 ((stem_isPrefix _).subset h), hext⟩
  have hslash : (0 : UInt8) ∉ lit "/" := by decide
  unfold target inDirectory
  split_ifs <;> simp_all

theorem nul_notMem_headerDirectory (h : o.NoNul) (hx : x ∈ o.inputs) :
    (0 : UInt8) ∉ parentPath (o.target x) :=
  fun hnul => nul_notMem_target h hx (mem_of_mem_parentPath hnul (by decide))

/-- The directory of an input that can be read is there, so nothing has to be made for a header
beside it. -/
theorem makeDirectories_beside (h : o.NoNul) (hx : x ∈ o.inputs)
    (hbeside : o.output = [] ∧ o.outDir = []) {source : Text} (hread : t.read x = .ok source) :
    t.makeDirectories (parentPath (o.target x)) = (t, .ok ()) := by
  obtain ⟨p, hp⟩ := FileTree.exists_place_of_read hread
  refine FileTree.makeDirectories_of_leads (nul_notMem_headerDirectory h hx) ?_
  have hdir : directoryPart (o.target x) = directoryPart x := by
    rw [target_eq hbeside.1, headerDirectory, hbeside.2]
    exact directoryPart_append (isDirectoryPart_directoryPart x)
      (slash_notMem_headerName (slash_notMem_fileName x))
  rw [parentPath_congr hdir]
  exact FileTree.leads_parentPath (h x (by simp [hx])) hp

theorem makeDirectories_eq (h : o.NoNul) (hx : x ∈ o.inputs) (hy : y ∈ o.inputs)
    {source source' : Text} (hreadx : t.read x = .ok source) (hready : t.read y = .ok source') :
    t.makeDirectories (parentPath (o.target x)) = t.makeDirectories (parentPath (o.target y)) := by
  by_cases houtput : o.output = []
  · by_cases hdir : o.outDir = []
    · rw [makeDirectories_beside h hx ⟨houtput, hdir⟩ hreadx,
        makeDirectories_beside h hy ⟨houtput, hdir⟩ hready]
    · have hpart : ∀ x, directoryPart (o.target x) = inDirectory o.outDir [] := fun x => by
        have hheader := o.isDirectoryPart_headerDirectory x
        rw [target_eq houtput,
          directoryPart_append hheader (slash_notMem_headerName (slash_notMem_fileName x)),
          headerDirectory, if_neg (by simpa using hdir)]
      rw [parentPath_congr ((hpart x).trans (hpart y).symm)]
  · have htarget : ∀ x, o.target x = o.output := fun x => by simp [target, houtput]
    rw [htarget, htarget]

end Options

/-! ### Conversions side by side -/

/-- The input with a number. -/
abbrev Options.input (o : Options) (k : Nat) : Text := o.inputs.getD k []

/-- Conversions of the inputs of a command that do not get in each other's way: each has one outcome
and one gain in all trees for which it is ready, and the others stay ready when it is done. -/
structure Independent (o : Options) (color : Bool) where
  outcome : Nat → Outcome
  gain : Nat → Tally
  Ready : Nat → FileTree → Prop
  convert : ∀ k < o.inputs.length, ∀ t, Ready k t → ∃ t',
    Adds (convertFile FileTree.host o color (o.input k)) t (outcome k) (gain k) t' ∧
      ∀ j < o.inputs.length, j ≠ k → Ready j t → Ready j t'

theorem Independent.exists_of_ready {o : Options} {color : Bool} (Ready : Nat → FileTree → Prop)
    (h : ∀ k < o.inputs.length, ∃ outcome gain, ∀ t, Ready k t → ∃ t',
      Adds (convertFile FileTree.host o color (o.input k)) t outcome gain t' ∧
        ∀ j < o.inputs.length, j ≠ k → Ready j t → Ready j t') :
    ∃ c : Independent o color, c.Ready = Ready := by
  have : Nonempty Outcome := ⟨{}⟩
  have : Nonempty Tally := ⟨0⟩
  choose! outcome gain convert using h
  exact ⟨⟨outcome, gain, Ready, convert⟩, rfl⟩

namespace Options

variable {o : Options} {color : Bool} {t t₁ : FileTree}

/-- The tree with the directories for the header of an input, as far as they can be made. -/
def withDirectories (o : Options) (t : FileTree) (x : Text) : FileTree :=
  (t.makeDirectories (parentPath (o.target x))).1

/-- The header of an input goes to the place of the path. -/
def HeaderAt (o : Options) (t : FileTree) (x path : Text) : Prop :=
  ∃ p ∈ ((o.withDirectories t x).place (o.target x)).toOption,
    p ∈ ((o.withDirectories t x).place path).toOption

instance (o : Options) (t : FileTree) (x path : Text) : Decidable (o.HeaderAt t x path) :=
  inferInstanceAs (Decidable (∃ p ∈ Except.toOption _, _))

/-- **No two conversions write the same place, and none writes another input.** -/
def SeparatePlaces (o : Options) (color : Bool) (t : FileTree) : Prop :=
  ∀ j < o.inputs.length, ∀ k < o.inputs.length, j ≠ k → ¬ o.Silent color t (o.input j) →
    ¬ o.HeaderAt t (o.input j) (o.input k) ∧ ¬ o.HeaderAt t (o.input j) (o.target (o.input k))

/-- **The directories for headers** can be made, or none of them is, and they do not change what
another input is read as. An input whose path leads through a directory that is made can only be
read afterwards. -/
def SteadyDirectories (o : Options) (color : Bool) (t : FileTree) : Prop :=
  ∀ j < o.inputs.length, ¬ o.Silent color t (o.input j) →
    ((t.makeDirectories (parentPath (o.target (o.input j)))).2 = .ok () ∨
      o.withDirectories t (o.input j) = t) ∧
    ∀ k < o.inputs.length, j ≠ k →
      (o.withDirectories t (o.input j)).read (o.input k) = t.read (o.input k)

theorem input_mem {k : Nat} (hk : k < o.inputs.length) : o.input k ∈ o.inputs := by
  rw [Options.input, List.getD_eq_getElem _ _ hk]
  exact List.getElem_mem hk

/-- The trees that conversions lead to from `t` when the directories for headers can be made: `t`
itself, and trees with those directories and some headers. -/
def Reaches (t t₁ t' : FileTree) : Prop := t' = t ∨ FileTree.SameDirectories t₁ t'

/-- A conversion that writes has the same outcome in all these trees and leads to another one of
them. What it does not change in `t`, it does not change there. -/
theorem Writes.reaches {x header out : Text} {gain : Tally}
    (hwrites : o.Writes color t x header out gain) (hnul : (0 : UInt8) ∉ parentPath (o.target x))
    (hmade : t.makeDirectories (parentPath (o.target x)) = (t₁, .ok ())) :
    ∃ outcome, ∀ t', Reaches t t₁ t' → t'.read x = t.read x → ∃ t'',
      Adds (convertFile FileTree.host o color x) t' outcome gain t'' ∧ Reaches t t₁ t'' ∧
        ∀ y, (o.treeAfter color t x).read y = t.read y → t'.read y = t.read y →
          t''.read y = t.read y := by
  have hleads := FileTree.leads_of_makeDirectories hnul hmade
  have hrefl := FileTree.SameDirectories.refl t₁
  have hfirst := hwrites.adds t rfl
  rw [FileTree.write_of_makeDirectories hnul hmade] at hfirst
  rcases FileTree.write_cases hleads hnul with hfails | ⟨p, -, hfile, hput⟩
  · -- the header can nowhere be written
    refine ⟨.delivered out (.error (.cannotWrite (o.target x))), fun t' ht' hread => ?_⟩
    rcases ht' with rfl | hsame
    · rw [hfails t₁ hrefl] at hfirst
      exact ⟨t₁, hfirst, Or.inr hrefl, fun y hy _ => by rwa [hfirst.treeAfter] at hy⟩
    · have hadds := hwrites.adds t' hread
      rw [hfails t' hsame] at hadds
      exact ⟨t', hadds, Or.inr hsame, fun _ _ hy => hy⟩
  · refine ⟨.delivered out (.ok ()), fun t' ht' hread => ?_⟩
    rw [hput t₁ hrefl] at hfirst
    rcases ht' with rfl | hsame
    · exact ⟨_, hfirst, Or.inr (hrefl.insert hfile header),
        fun y hy _ => by rwa [hfirst.treeAfter] at hy⟩
    · have hadds := hwrites.adds t' hread
      rw [hput t' hsame] at hadds
      refine ⟨_, hadds, Or.inr (hsame.insert ((hsame p).trans hfile) header), fun y hafter hy => ?_⟩
      rw [hfirst.treeAfter] at hafter
      rw [hsame.read_insert hfile (hafter.trans hy.symm), hy]

theorem read_treeAfter (hplaces : o.SeparatePlaces color t) (hsteady : o.SteadyDirectories color t)
    {j k : Nat} (hj : j < o.inputs.length) (hk : k < o.inputs.length) (hjk : j ≠ k)
    (hloud : ¬ o.Silent color t (o.input j)) :
    (o.treeAfter color t (o.input j)).read (o.input k) = t.read (o.input k) := by
  obtain ⟨header, out, gain, hwrites⟩ := (o.silent_or_writes color t _).resolve_left hloud
  rw [(hwrites.adds t rfl).treeAfter]
  obtain ⟨t₁, hdirectories, hwrite⟩ := t.write_eq_or (o.target (o.input j)) header
  change o.withDirectories t (o.input j) = t₁ at hdirectories
  have hread := (hsteady j hj hloud).2 k hk hjk
  rw [hdirectories] at hread
  rcases hwrite with ⟨htree, -⟩ | ⟨p, hp, hfile, htree⟩
  · rw [htree]
    exact hread
  · have hne : t₁.place (o.input k) ≠ .ok p := by
      intro hsame
      refine (hplaces j hj k hk hjk hloud).1 ⟨p, ?_, ?_⟩
      · rw [hdirectories, hp]
        rfl
      · rw [hdirectories, hsame]
        rfl
    rw [htree]
    exact (FileTree.read_insert_of_ne hne hfile header).trans hread

theorem exists_independent_of_made (hnul : o.NoNul) (hplaces : o.SeparatePlaces color t)
    (hsteady : o.SteadyDirectories color t)
    (hmade : ∀ k < o.inputs.length, ¬ o.Silent color t (o.input k) →
      t.makeDirectories (parentPath (o.target (o.input k))) = (t₁, .ok ())) :
    ∃ c : Independent o color, ∀ k, c.Ready k t := by
  refine (Independent.exists_of_ready (fun k t' => Reaches t t₁ t' ∧
    t'.read (o.input k) = t.read (o.input k)) fun k hk => ?_).imp fun c hc k => ?_
  swap
  · rw [hc]
    exact ⟨Or.inl rfl, rfl⟩
  by_cases hsilent : o.Silent color t (o.input k)
  · obtain ⟨outcome, gain, hadds⟩ := hsilent
    exact ⟨outcome, gain, fun t' ⟨_, hread⟩ => ⟨t', hadds t' hread, fun _ _ _ hready => hready⟩⟩
  · obtain ⟨header, out, gain, hwrites⟩ := (o.silent_or_writes color t _).resolve_left hsilent
    obtain ⟨outcome, hreaches⟩ :=
      hwrites.reaches (nul_notMem_headerDirectory hnul (input_mem hk)) (hmade k hk hsilent)
    refine ⟨outcome, gain, fun t' ⟨ht', hread⟩ => ?_⟩
    obtain ⟨t'', hadds, ht'', hother⟩ := hreaches t' ht' hread
    exact ⟨t'', hadds, fun j hj hjk ⟨_, hready⟩ =>
      ⟨ht'', hother _ (read_treeAfter hplaces hsteady hk hj hjk.symm hsilent) hready⟩⟩

theorem exists_independent_of_unchanged
    (h : ∀ k < o.inputs.length, o.treeAfter color t (o.input k) = t) :
    ∃ c : Independent o color, ∀ k, c.Ready k t := by
  refine (Independent.exists_of_ready (fun _ t' => t' = t) fun k hk => ?_).imp fun c hc k =>
    by rw [hc]
  obtain ⟨outcome, gain, hadds⟩ := o.exists_adds color t (o.input k)
  rw [h k hk] at hadds
  refine ⟨outcome, gain, ?_⟩
  rintro _ rfl
  exact ⟨_, hadds, fun _ _ _ _ => rfl⟩

/-- **Conversions in separate places** with steady directories are independent. -/
theorem exists_independent (hnul : o.NoNul) (hplaces : o.SeparatePlaces color t)
    (hsteady : o.SteadyDirectories color t) : ∃ c : Independent o color, ∀ k, c.Ready k t := by
  have hequal : ∀ j < o.inputs.length, ∀ k < o.inputs.length, ¬ o.Silent color t (o.input j) →
      ¬ o.Silent color t (o.input k) → t.makeDirectories (parentPath (o.target (o.input j))) =
        t.makeDirectories (parentPath (o.target (o.input k))) := by
    intro j hj k hk hloudj hloudk
    obtain ⟨_, _, _, ⟨_, hreadj⟩, -⟩ := (o.silent_or_writes color t _).resolve_left hloudj
    obtain ⟨_, _, _, ⟨_, hreadk⟩, -⟩ := (o.silent_or_writes color t _).resolve_left hloudk
    exact makeDirectories_eq hnul (input_mem hj) (input_mem hk) hreadj hreadk
  by_cases hmade : ∃ k < o.inputs.length, ¬ o.Silent color t (o.input k) ∧
      (t.makeDirectories (parentPath (o.target (o.input k)))).2 = .ok ()
  · obtain ⟨k, hk, hloud, hok⟩ := hmade
    rcases hresult : t.makeDirectories (parentPath (o.target (o.input k))) with ⟨t₁, result⟩
    rw [hresult] at hok
    subst hok
    exact exists_independent_of_made hnul hplaces hsteady fun j hj hloudj =>
      (hequal j hj k hk hloudj hloud).trans hresult
  · -- no conversion gets as far as its header
    refine exists_independent_of_unchanged fun k hk => ?_
    by_cases hsilent : o.Silent color t (o.input k)
    · obtain ⟨outcome, gain, hadds⟩ := hsilent
      exact (hadds t rfl).treeAfter
    · obtain ⟨header, out, gain, hwrites⟩ := (o.silent_or_writes color t _).resolve_left hsilent
      rcases hresult : t.makeDirectories (parentPath (o.target (o.input k))) with ⟨t₁, result⟩
      cases result with
      | ok _ => exact absurd ⟨k, hk, hsilent, by rw [hresult]⟩ hmade
      | error reason =>
        have hsame := (hsteady k hk hsilent).1.resolve_left fun hok => by
          rw [hresult] at hok
          cases hok
        rw [withDirectories, hresult] at hsame
        rw [(hwrites.adds t rfl).treeAfter, FileTree.write_of_unmade hresult]
        exact hsame

end Options

end Unnest
