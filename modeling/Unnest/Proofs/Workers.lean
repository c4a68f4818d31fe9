import Unnest.Command.Pool
import Unnest.Proofs.Conversions

/-!
# Workers side by side

Workers convert the files of a command in any order of their steps. A file that a worker takes is
taken by no other, and conversions that stay apart have the same outcomes and gains in every order.
So all runs of the workers end with what the conversion of one file after the other gives.

* `Workshop.Tracks`: where each file stands, kept by every step;
* `Pool.results_eq_serial`: the workers do the same as a single one.
-/

namespace Unnest

/-! ### All runs end -/

/-- The steps that are left to a worker at most, if `left` files are not taken. -/
def Worker.stepsLeft (left : Nat) : Worker → Nat
  | .idle => 4 * left + 1
  | .taken _ => 4 * left + 4
  | .converted _ _ => 4 * left + 3
  | .counted _ _ => 4 * left + 2
  | .finished => 0

theorem Worker.stepsLeft_mono {left left' : Nat} (h : left ≤ left') (worker : Worker) :
    worker.stepsLeft left ≤ worker.stepsLeft left' := by
  cases worker <;> simp only [stepsLeft] <;> omega

theorem Worker.eq_finished {left : Nat} {worker : Worker} (h : worker.stepsLeft left = 0) :
    worker = .finished := by
  cases worker <;> simp_all [stepsLeft]

/-- A pool with the files it works on. -/
structure Workshop extends Pool where
  tree : FileTree

namespace Workshop

/-- The workshop of a command before the first step. -/
def start (o : Options) (t : FileTree) : Workshop := { Pool.start o with tree := t }

variable (o : Options) (color : Bool)

/-- What a worker does next. -/
def act (p : Workshop) (worker : Worker) : Worker × Workshop :=
  let ((after, pool), tree) := (p.toPool.act FileTree.host o color worker).run p.tree
  (after, { pool with tree })

def step (p : Workshop) (w : Nat) : Workshop :=
  let (pool, tree) := (p.toPool.step FileTree.host o color w).run p.tree
  { pool with tree }

def run (p : Workshop) (schedule : List Nat) : Workshop := schedule.foldl (step o color) p

variable {o color} {p : Workshop} {w : Nat} {worker : Worker}

theorem run_toPool (p : Workshop) (schedule : List Nat) :
    (p.toPool.run FileTree.host o color schedule).run p.tree =
      ((p.run o color schedule).toPool, (p.run o color schedule).tree) := by
  induction schedule generalizing p with
  | nil => rfl
  | cons w schedule ih => exact ih (p.step o color w)

theorem act_idle (o : Options) (color : Bool) (p : Workshop) : p.act o color .idle =
    if p.stopped then (.finished, p) else
      (if p.next < o.inputs.length then .taken p.next else .finished,
        { p with next := p.next + 1 }) := by
  have hact : p.act o color .idle =
      ((p.toPool.take o).1, { (p.toPool.take o).2 with tree := p.tree }) := rfl
  rw [hact, Pool.take]
  split <;> rfl

theorem workers_act (o : Options) (color : Bool) (p : Workshop) (worker : Worker) :
    (p.act o color worker).2.workers = p.workers := by
  cases worker with
  | idle =>
    rw [act_idle]
    split <;> rfl
  | taken _ | converted _ _ | counted _ _ | finished => rfl

theorem step_eq (h : p.workers[w]? = some worker) : p.step o color w =
    { (p.act o color worker).2 with workers := p.workers.set w (p.act o color worker).1 } := by
  rw [← workers_act o color p worker, step, Pool.step, h]
  rfl

theorem step_of_none (h : p.workers[w]? = none) : p.step o color w = p := by
  rw [step, Pool.step, h]
  rfl

theorem length_workers_step (p : Workshop) (w : Nat) :
    (p.step o color w).workers.length = p.workers.length := by
  cases h : p.workers[w]? with
  | none => rw [step_of_none h]
  | some worker => rw [step_eq h, List.length_set]

theorem length_workers_run (p : Workshop) (schedule : List Nat) :
    (p.run o color schedule).workers.length = p.workers.length := by
  induction schedule generalizing p with
  | nil => rfl
  | cons w schedule ih => exact (ih _).trans (length_workers_step p w)

theorem next_le_act (o : Options) (color : Bool) (p : Workshop) (worker : Worker) :
    p.next ≤ (p.act o color worker).2.next := by
  cases worker with
  | idle =>
    rw [act_idle]
    split
    · exact le_rfl
    · exact Nat.le_succ _
  | taken _ | converted _ _ | counted _ _ | finished => exact le_rfl

theorem next_le_step (p : Workshop) (w : Nat) : p.next ≤ (p.step o color w).next := by
  cases h : p.workers[w]? with
  | none => rw [step_of_none h]
  | some worker =>
    rw [step_eq h]
    exact next_le_act o color p worker

theorem stepsLeft_act (o : Options) (color : Bool) (p : Workshop) (hworker : worker ≠ .finished) :
    (p.act o color worker).1.stepsLeft (o.inputs.length - (p.act o color worker).2.next) <
      worker.stepsLeft (o.inputs.length - p.next) := by
  cases worker with
  | idle =>
    rw [act_idle]
    split
    · simp [Worker.stepsLeft]
    · by_cases hnext : p.next < o.inputs.length
      · simp only [hnext, if_true, Worker.stepsLeft]
        omega
      · simp [hnext, Worker.stepsLeft]
  | taken _ | converted _ _ | counted _ _ => exact Nat.lt_succ_self _
  | finished => exact absurd rfl hworker

theorem finished_of_stepsLeft (schedule : List Nat) (h : p.workers[w]? = some worker)
    (hsteps : worker.stepsLeft (o.inputs.length - p.next) ≤ schedule.count w) :
    (p.run o color schedule).workers[w]? = some .finished := by
  induction schedule generalizing p worker with
  | nil =>
    rw [← Worker.eq_finished (Nat.le_zero.mp hsteps)]
    exact h
  | cons v schedule ih =>
    by_cases hv : v = w
    · subst hv
      rw [List.count_cons_self] at hsteps
      have hlt : v < p.workers.length := (List.getElem?_eq_some_iff.mp h).1
      have hstep : (p.step o color v).workers[v]? = some (p.act o color worker).1 := by
        rw [step_eq h, List.getElem?_set_self hlt]
      refine ih hstep ?_
      rw [step_eq h]
      by_cases hworker : worker = .finished
      · subst hworker
        exact Nat.zero_le _
      · have hless := stepsLeft_act o color p hworker
        dsimp only
        omega
    · rw [List.count_cons_of_ne hv] at hsteps
      have hstep : (p.step o color v).workers[w]? = some worker := by
        cases h' : p.workers[v]? with
        | none => rwa [step_of_none h']
        | some worker' => rwa [step_eq h', List.getElem?_set_ne hv]
      refine ih hstep (le_trans (Worker.stepsLeft_mono ?_ worker) hsteps)
      exact Nat.sub_le_sub_left (next_le_step p v) _

/-- However the workers take turns, they finish if each of them makes enough steps. -/
theorem isDone_run (t : FileTree) (schedule : List Nat)
    (h : ∀ w < (start o t).workers.length, 4 * o.inputs.length + 1 ≤ schedule.count w) :
    ((start o t).run o color schedule).isDone = true := by
  rw [Pool.isDone, List.all_eq_true]
  intro worker hworker
  obtain ⟨w, hw, rfl⟩ := List.getElem_of_mem hworker
  rw [length_workers_run] at hw
  have hidle : (start o t).workers[w]? = some .idle := by
    rw [List.getElem?_eq_getElem hw]
    simp [start, Pool.start]
  have hfinished : ((start o t).run o color schedule).workers[w]? = some .finished :=
    finished_of_stepsLeft schedule hidle (h w hw)
  rw [List.getElem?_eq_some_iff] at hfinished
  exact beq_iff_eq.mpr hfinished.2

/-! ### Where the files stand -/

end Workshop

/-- The number of the file that a worker has taken but not converted. -/
def Worker.unconverted : Worker → Multiset Nat
  | .taken k => {k}
  | _ => 0

/-- The number of the file that a worker has converted but not counted. -/
def Worker.uncounted : Worker → Multiset Nat
  | .converted k _ => {k}
  | _ => 0

/-- The number of the file that a worker has counted but not stored. -/
def Worker.unstored : Worker → Multiset Nat
  | .counted k _ => {k}
  | _ => 0

/-- What an outcome adds to the counters. -/
def Outcome.gain (outcome : Outcome) : Tally :=
  if outcome.status == .ok then { ok := 1 } else { failed := 1 }

theorem Metrics.enabled_addFile (m : Metrics) (ok : Bool) : (m.addFile ok).enabled = m.enabled := by
  unfold addFile count
  split
  · cases ok <;> rfl
  · rfl

theorem Metrics.tally_addFile (m : Metrics) (outcome : Outcome) :
    (m.addFile (outcome.status == .ok)).tally = m.tally + if m.enabled then outcome.gain
    else 0 := by
  have hdepth : m.maxDepth = max m.maxDepth 0 :=
    ((Tally.max_comm _ _).trans (Tally.zero_max _)).symm
  have htokens := (add_zero m.tokens).symm
  have hnodes := (add_zero m.nodes).symm
  unfold addFile count Outcome.gain
  split
  · cases outcome.status == .ok with
    | true => exact Tally.ext htokens hnodes hdepth rfl (add_zero m.failed).symm
    | false => exact Tally.ext htokens hnodes hdepth (add_zero m.ok).symm rfl
  · exact (add_zero _).symm

/-- When what a worker holds agrees with independent conversions. -/
def Worker.Fits {o : Options} {color : Bool} (c : Independent o color) (next : Nat) : Worker → Prop
  | .idle | .taken _ => True
  | .converted k outcome | .counted k outcome => outcome = c.outcome k
  | .finished => o.inputs.length ≤ next

theorem Worker.Fits.mono {o : Options} {color : Bool} {c : Independent o color} {next next' : Nat}
    {worker : Worker} (h : worker.Fits c next) (hnext : next ≤ next') : worker.Fits c next' := by
  cases worker with
  | idle | taken _ | converted _ _ | counted _ _ => exact h
  | finished => exact le_trans (b := next) h hnext

namespace Workshop

variable {o : Options} {color : Bool} {c : Independent o color} {p : Workshop} {w k : Nat}
  {worker : Worker} {outcome : Outcome} {stored : Multiset Nat} {log : List Nat}

/-- What workers hold together. -/
def total (held : Worker → Multiset Nat) (workers : List Worker) : Multiset Nat :=
  (workers.map held).sum

theorem total_set {workers : List Worker} (h : workers[w]? = some worker)
    (held : Worker → Multiset Nat) (after : Worker) :
    total held (workers.set w after) + held worker = total held workers + held after := by
  unfold total
  induction workers generalizing w with
  | nil => simp at h
  | cons first rest ih =>
    cases w with
    | zero =>
      cases h
      simp only [List.set_cons_zero, List.map_cons, List.sum_cons]
      abel
    | succ w =>
      simp only [List.set_cons_succ, List.map_cons, List.sum_cons, add_assoc]
      rw [ih h]

section Moves

variable {workers : List Worker} (h : workers[w]? = some worker) (held : Worker → Multiset Nat)
  (after : Worker)

include h

theorem total_set_same (hsame : held after = held worker) :
    total held (workers.set w after) = total held workers := by
  have hset := total_set h held after
  rw [hsame] at hset
  exact add_right_cancel hset

theorem total_set_enter (hbefore : held worker = 0) (hafter : held after = {k}) :
    total held (workers.set w after) = total held workers + {k} := by
  have hset := total_set h held after
  rwa [hbefore, hafter, add_zero] at hset

theorem total_set_leave (hbefore : held worker = {k}) (hafter : held after = 0) :
    total held workers = total held (workers.set w after) + {k} := by
  have hset := total_set h held after
  rwa [hbefore, hafter, add_zero, eq_comm] at hset

theorem mem_total (hk : held worker = {k}) : k ∈ total held workers := by
  have hle : held worker ≤ total held workers :=
    List.single_le_sum (by simp) _ (List.mem_map_of_mem (List.mem_of_getElem? h))
  exact Multiset.mem_of_le hle (by simp [hk])

end Moves

theorem sum_map_add_singleton (f : Nat → Tally) (s : Multiset Nat) (k : Nat) :
    ((s + {k}).map f).sum = (s.map f).sum + f k := by
  rw [Multiset.map_add, Multiset.sum_add, Multiset.map_singleton, Multiset.sum_singleton]

/-- Where the files stand: taken, converted, counted or stored. `log` are the files in the order of
their conversions. -/
structure Tracks (c : Independent o color) (p : Workshop) (stored : Multiset Nat) (log : List Nat) :
    Prop where
  taken : total Worker.unconverted p.workers + log = Multiset.range (min p.next o.inputs.length)
  converted : (log : Multiset Nat) =
    total Worker.uncounted p.workers + (total Worker.unstored p.workers + stored)
  outcomes : p.outcomes = (List.range o.inputs.length).map fun k =>
    if k ∈ stored then some (c.outcome k) else none
  fits : ∀ worker ∈ p.workers, worker.Fits c p.next
  enabled : p.metrics.enabled = o.metrics
  tally : p.metrics.tally = if o.metrics then ((log : Multiset Nat).map c.gain).sum +
    ((total Worker.unstored p.workers + stored).map fun k => (c.outcome k).gain).sum else 0
  ready : ∀ k < o.inputs.length, k ∉ log → c.Ready k p.tree
  running : p.stopped = false

namespace Tracks

theorem fits_set (h : Tracks c p stored log) {next : Nat} (hnext : p.next ≤ next) {after : Worker}
    (hafter : after.Fits c next) : ∀ worker ∈ p.workers.set w after, worker.Fits c next := by
  intro worker hworker
  rcases List.mem_or_eq_of_mem_set hworker with hworker | rfl
  · exact (h.fits worker hworker).mono hnext
  · exact hafter

theorem lt_of_mem_range (hk : k ∈ Multiset.range (min p.next o.inputs.length)) :
    k < o.inputs.length :=
  lt_of_lt_of_le (Multiset.mem_range.mp hk) (min_le_right _ _)

theorem lt_of_mem (h : Tracks c p stored log) (hk : k ∈ log) : k < o.inputs.length := by
  refine lt_of_mem_range (p := p) ?_
  rw [← h.taken]
  exact Multiset.mem_add.mpr (Or.inr hk)

theorem notMem_of_taken (h : Tracks c p stored log) (hw : p.workers[w]? = some (.taken k)) :
    k < o.inputs.length ∧ k ∉ log := by
  have hmem := mem_total hw Worker.unconverted rfl
  constructor
  · refine lt_of_mem_range (p := p) ?_
    rw [← h.taken]
    exact Multiset.mem_add.mpr (Or.inl hmem)
  · have hnodup : (total Worker.unconverted p.workers + log).Nodup := by
      rw [h.taken]
      exact Multiset.nodup_range _
    exact Multiset.disjoint_left.mp (Multiset.nodup_add.mp hnodup).2.2 hmem

theorem take (h : Tracks c p stored log) (hw : p.workers[w]? = some .idle) :
    Tracks c (p.step o color w) stored log := by
  have hact : p.act o color .idle =
      (if p.next < o.inputs.length then .taken p.next else .finished,
        { p with next := p.next + 1 }) := by
    rw [act_idle, h.running]
    rfl
  obtain ⟨after, hafter⟩ : ∃ after, after = if p.next < o.inputs.length then Worker.taken p.next
      else .finished :=
    ⟨_, rfl⟩
  rw [step_eq hw, hact, ← hafter]
  have hnone : after.uncounted = 0 ∧ after.unstored = 0 := by
    rw [hafter]
    split <;> exact ⟨rfl, rfl⟩
  have huncounted := total_set_same hw Worker.uncounted after hnone.1
  have hunstored := total_set_same hw Worker.unstored after hnone.2
  have htaken : total Worker.unconverted (p.workers.set w after) + log =
      Multiset.range (min (p.next + 1) o.inputs.length) := by
    have htaken := h.taken
    by_cases hnext : p.next < o.inputs.length
    · rw [if_pos hnext] at hafter
      rw [min_eq_left hnext.le] at htaken
      rw [total_set_enter hw Worker.unconverted after rfl (by rw [hafter]; rfl), min_eq_left hnext,
        Multiset.range_succ, ← htaken, ← Multiset.singleton_add]
      abel
    · rw [if_neg hnext] at hafter
      rw [min_eq_right (by omega)] at htaken ⊢
      rw [total_set_same hw Worker.unconverted after (by rw [hafter]; rfl)]
      exact htaken
  have hfits : after.Fits c (p.next + 1) := by
    rw [hafter]
    split
    · trivial
    · next hnext => exact Nat.le_succ_of_le (Nat.not_lt.mp hnext)
  exact
    { taken := htaken
      converted := by rw [huncounted, hunstored]; exact h.converted
      outcomes := h.outcomes
      fits := h.fits_set (Nat.le_succ _) hfits
      enabled := h.enabled
      tally := by rw [hunstored]; exact h.tally
      ready := h.ready
      running := h.running }

theorem convert (h : Tracks c p stored log) (hw : p.workers[w]? = some (.taken k)) :
    Tracks c (p.step o color w) stored (log ++ [k]) := by
  obtain ⟨hk, hlog⟩ := h.notMem_of_taken hw
  obtain ⟨t, hadds, hothers⟩ := c.convert k hk p.tree (h.ready k hk hlog)
  obtain ⟨m, hrun, henabled, htally⟩ := hadds p.metrics
  have hact : p.act o color (.taken k) =
      (.converted k (c.outcome k), { p with metrics := m, tree := t }) :=
    congrArg (fun r : (Outcome × Metrics) × FileTree =>
      (Worker.converted k r.1.1, ({ p with metrics := r.1.2, tree := r.2 } : Workshop))) hrun
  rw [step_eq hw, hact]
  have hunconverted := total_set_leave hw Worker.unconverted (.converted k (c.outcome k)) rfl rfl
  have huncounted := total_set_enter hw Worker.uncounted (.converted k (c.outcome k)) rfl rfl
  have hunstored := total_set_same hw Worker.unstored (.converted k (c.outcome k)) rfl
  have hlog' : ((log ++ [k] : List Nat) : Multiset Nat) = log + {k} := by
    rw [← Multiset.coe_add, Multiset.coe_singleton]
  exact
    { taken := by
        rw [← h.taken, hunconverted, hlog']
        abel
      converted := by
        rw [huncounted, hunstored, hlog', h.converted]
        abel
      outcomes := h.outcomes
      fits := h.fits_set le_rfl rfl
      enabled := henabled.trans h.enabled
      tally := by
        rw [htally, h.tally, h.enabled, hunstored, hlog', sum_map_add_singleton]
        split
        · abel
        · rfl
      ready := fun j hj hjlog => by
        rw [List.mem_append, List.mem_singleton, not_or] at hjlog
        exact hothers j hj hjlog.2 (h.ready j hj hjlog.1)
      running := h.running }

theorem count (h : Tracks c p stored log)
    (hgo : o.keepGoing = true ∨ ∀ k < o.inputs.length, (c.outcome k).status = .ok)
    (hw : p.workers[w]? = some (.converted k outcome)) :
    Tracks c (p.step o color w) stored log := by
  have houtcome : outcome = c.outcome k := h.fits _ (List.mem_of_getElem? hw)
  have hk : k < o.inputs.length := by
    refine h.lt_of_mem (Multiset.mem_coe.mp ?_)
    rw [h.converted]
    exact Multiset.mem_add.mpr (Or.inl (mem_total hw Worker.uncounted rfl))
  have hrunning : (p.stopped || (!(outcome.status == .ok) && !o.keepGoing)) = false := by
    rcases hgo with hgo | hgo
    · simp [h.running, hgo]
    · simp [h.running, houtcome, hgo k hk]
  have hact : p.act o color (.converted k outcome) = (.counted k outcome,
      { p with metrics := p.metrics.addFile (outcome.status == .ok), stopped := false }) := by
    rw [← hrunning]
    rfl
  rw [step_eq hw, hact]
  have hunconverted := total_set_same hw Worker.unconverted (.counted k outcome) rfl
  have huncounted := total_set_leave hw Worker.uncounted (.counted k outcome) rfl rfl
  have hunstored := total_set_enter hw Worker.unstored (.counted k outcome) rfl rfl
  exact
    { taken := by
        rw [hunconverted]
        exact h.taken
      converted := by
        rw [hunstored, h.converted, huncounted]
        abel
      outcomes := h.outcomes
      fits := h.fits_set le_rfl houtcome
      enabled := (Metrics.enabled_addFile _ _).trans h.enabled
      tally := by
        rw [Metrics.tally_addFile, h.tally, h.enabled, hunstored, add_right_comm,
          sum_map_add_singleton, houtcome]
        split
        · abel
        · rfl
      ready := h.ready
      running := rfl }

theorem store (h : Tracks c p stored log) (hw : p.workers[w]? = some (.counted k outcome)) :
    Tracks c (p.step o color w) (stored + {k}) log := by
  have houtcome : outcome = c.outcome k := h.fits _ (List.mem_of_getElem? hw)
  have hact : p.act o color (.counted k outcome) =
      (.idle, { p with outcomes := p.outcomes.set k (some outcome) }) := rfl
  rw [step_eq hw, hact]
  have hunstored := total_set_leave hw Worker.unstored .idle rfl rfl
  have hsum : total Worker.unstored (p.workers.set w .idle) + (stored + {k}) =
      total Worker.unstored p.workers + stored := by
    rw [hunstored]
    abel
  exact
    { taken := by
        rw [total_set_same hw Worker.unconverted .idle rfl]
        exact h.taken
      converted := by
        rw [total_set_same hw Worker.uncounted .idle rfl, hsum]
        exact h.converted
      outcomes := by
        rw [h.outcomes, houtcome]
        refine List.ext_getElem (by simp) fun j hj hj' => ?_
        simp only [List.getElem_set, List.getElem_map, List.getElem_range, Multiset.mem_add,
          Multiset.mem_singleton]
        by_cases hjk : k = j
        · simp [hjk]
        · simp [hjk, Ne.symm hjk]
      fits := h.fits_set le_rfl trivial
      enabled := h.enabled
      tally := by
        rw [hsum]
        exact h.tally
      ready := h.ready
      running := h.running }

end Tracks

/-! ### All runs -/

/-- The number of the file that the next step of a worker converts. -/
def converting? (p : Workshop) (w : Nat) : Option Nat :=
  match p.workers[w]? with
  | some (.taken k) => some k
  | _ => none

/-- The numbers of the files that are converted in the steps of a schedule, in order. -/
def conversions (o : Options) (color : Bool) (p : Workshop) : List Nat → List Nat
  | [] => []
  | w :: schedule => (p.converting? w).toList ++ conversions o color (p.step o color w) schedule

theorem Tracks.step (h : Tracks c p stored log)
    (hgo : o.keepGoing = true ∨ ∀ k < o.inputs.length, (c.outcome k).status = .ok) (w : Nat) :
    ∃ stored, Tracks c (p.step o color w) stored (log ++ (p.converting? w).toList) := by
  unfold converting?
  cases hw : p.workers[w]? with
  | none => exact ⟨stored, by rw [step_of_none hw]; simpa using h⟩
  | some worker =>
    cases worker with
    | idle => exact ⟨stored, by simpa using h.take hw⟩
    | taken k => exact ⟨stored, h.convert hw⟩
    | converted k outcome => exact ⟨stored, by simpa using h.count hgo hw⟩
    | counted k outcome => exact ⟨stored + {k}, by simpa using h.store hw⟩
    | finished =>
      have hstep : p.step o color w = p := by
        obtain ⟨hlt, hget⟩ := List.getElem?_eq_some_iff.mp hw
        have hact : p.act o color .finished = (.finished, p) := rfl
        rw [step_eq hw, hact, ← hget, List.set_getElem_self]
      exact ⟨stored, by rw [hstep]; simpa using h⟩

theorem Tracks.run (h : Tracks c p stored log)
    (hgo : o.keepGoing = true ∨ ∀ k < o.inputs.length, (c.outcome k).status = .ok)
    (schedule : List Nat) :
    ∃ stored, Tracks c (p.run o color schedule) stored (log ++ conversions o color p schedule) := by
  induction schedule generalizing p stored log with
  | nil => exact ⟨stored, by rwa [conversions, List.append_nil]⟩
  | cons w schedule ih =>
    obtain ⟨stored, hstep⟩ := h.step hgo w
    rw [conversions, ← List.append_assoc]
    exact ih hstep

theorem tracks_start (c : Independent o color) {t : FileTree} (hready : ∀ k, c.Ready k t) :
    Tracks c (start o t) 0 [] := by
  have hidle : ∀ held : Worker → Multiset Nat, held .idle = 0 →
      total held (start o t).workers = 0 := by
    intro held hheld
    simp [total, start, Pool.start, hheld]
  exact
    { taken := by
        rw [hidle Worker.unconverted rfl, start, Pool.start, Nat.zero_min]
        rfl
      converted := by simp [hidle Worker.uncounted rfl, hidle Worker.unstored rfl]
      outcomes := by simp [start, Pool.start]
      fits := fun worker hworker => by
        rw [List.eq_of_mem_replicate hworker]
        trivial
      enabled := rfl
      tally := by
        simp [hidle Worker.unstored rfl]
        rfl
      ready := fun k _ _ => hready k
      running := rfl }

theorem Tracks.of_isDone (h : Tracks c p stored log) (hdone : p.isDone = true)
    (hworkers : p.workers = [] → o.inputs.length = 0) :
    log.Perm (List.range o.inputs.length) ∧ p.results = (List.range o.inputs.length).map c.outcome ∧
      p.metrics.tally = if o.metrics then
        ((Multiset.range o.inputs.length).map fun k => c.gain k + (c.outcome k).gain).sum
        else 0 := by
  have hfinished : ∀ worker ∈ p.workers, worker = .finished := fun worker hworker =>
    beq_iff_eq.mp (List.all_eq_true.mp hdone worker hworker)
  have hnone : ∀ held : Worker → Multiset Nat, held .finished = 0 → total held p.workers = 0 := by
    intro held hheld
    refine List.sum_eq_zero fun s hs => ?_
    obtain ⟨worker, hworker, rfl⟩ := List.mem_map.mp hs
    rw [hfinished worker hworker, hheld]
  have hnext : o.inputs.length ≤ p.next := by
    cases hempty : p.workers with
    | nil => exact (hworkers hempty).le.trans (Nat.zero_le _)
    | cons worker rest =>
      have hmem : worker ∈ p.workers := by simp [hempty]
      have hfits := h.fits worker hmem
      rwa [hfinished worker hmem] at hfits
  have hlog : (log : Multiset Nat) = Multiset.range o.inputs.length := by
    have htaken := h.taken
    rwa [hnone Worker.unconverted rfl, zero_add, min_eq_right hnext] at htaken
  have hstored : stored = Multiset.range o.inputs.length := by
    have hconverted := h.converted
    rw [hnone Worker.uncounted rfl, hnone Worker.unstored rfl, zero_add, zero_add] at hconverted
    rw [← hconverted, hlog]
  refine ⟨Multiset.coe_eq_coe.mp hlog, ?_, ?_⟩
  · have hall : p.outcomes = ((List.range o.inputs.length).map c.outcome).map some := by
      rw [h.outcomes, List.map_map]
      refine List.map_congr_left fun k hk => ?_
      rw [hstored, if_pos (by simpa using hk)]
      rfl
    rw [Pool.results, hall, List.filterMap_map]
    exact List.filterMap_some
  · rw [h.tally, hlog, hnone Worker.unstored rfl, hstored, zero_add, Multiset.sum_map_add]

end Workshop

/-! ### One file after the other -/

/-- The outcomes and the metrics of the conversion of one file after the other. -/
def Options.serial (o : Options) (color : Bool) (t : FileTree) : List Outcome × Metrics :=
  (((convertAll FileTree.host o color o.inputs).run { enabled := o.metrics }).run t).1

theorem adds_addFile (outcome : Outcome) (t : FileTree) :
    Adds (modify (Metrics.addFile (outcome.status == .ok))) t ⟨⟩ outcome.gain t :=
  adds_modify (fun m => m.enabled_addFile _) fun m => m.tally_addFile outcome

theorem Independent.adds_convertAll {o : Options} {color : Bool} (c : Independent o color)
    {inputs : List Text} {k : Nat} {t : FileTree} (hinputs : o.inputs.drop k = inputs)
    (hready : ∀ j < o.inputs.length, k ≤ j → c.Ready j t) :
    ∃ outcomes gain t', Adds (convertAll FileTree.host o color inputs) t outcomes gain t' ∧
      ((o.keepGoing = true ∨ ∀ outcome ∈ outcomes, outcome.status = .ok) →
        outcomes = (List.range' k inputs.length).map c.outcome ∧
        gain = ((List.range' k inputs.length).map fun j => c.gain j + (c.outcome j).gain).sum) := by
  induction inputs generalizing k t with
  | nil => exact ⟨[], 0, t, adds_pure, fun _ => ⟨rfl, rfl⟩⟩
  | cons input inputs ih =>
    have hk : k < o.inputs.length := by
      by_contra hk
      rw [List.drop_eq_nil_of_le (Nat.not_lt.mp hk)] at hinputs
      cases hinputs
    rw [List.drop_eq_getElem_cons hk] at hinputs
    obtain ⟨hinput, hinputs⟩ := List.cons.inj hinputs
    obtain ⟨t₁, hadds, hothers⟩ := c.convert k hk t (hready k hk le_rfl)
    rw [Options.input, List.getD_eq_getElem _ _ hk, hinput] at hadds
    by_cases hstops : (c.outcome k).status ≠ .ok ∧ !o.keepGoing
    · refine ⟨[c.outcome k], c.gain k + ((c.outcome k).gain + 0), t₁, ?_, fun hgo => ?_⟩
      · refine hadds.bind ((adds_addFile _ t₁).bind ?_)
        rw [if_pos hstops]
        exact adds_pure
      · rcases hgo with hgo | hgo
        · simp [hgo] at hstops
        · exact absurd (hgo _ (by simp)) hstops.1
    · obtain ⟨outcomes, gain, t', hrest, hresult⟩ := ih hinputs fun j hj hkj =>
        hothers j hj (by omega) (hready j hj (by omega))
      refine ⟨c.outcome k :: outcomes, c.gain k + ((c.outcome k).gain + (gain + 0)), t', ?_,
        fun hgo => ?_⟩
      · refine hadds.bind ((adds_addFile _ t₁).bind ?_)
        rw [if_neg hstops]
        exact hrest.bind adds_pure
      · obtain ⟨houtcomes, hgain⟩ :=
          hresult (hgo.imp_right fun hgo outcome hmem => hgo _ (by simp [hmem]))
        simp only [List.length_cons, List.range'_succ, List.map_cons, List.sum_cons]
        exact ⟨by rw [houtcomes], by rw [hgain, add_zero, add_assoc]⟩

theorem Independent.serial_eq {o : Options} {color : Bool} (c : Independent o color) {t : FileTree}
    (hready : ∀ k, c.Ready k t)
    (hgo : o.keepGoing = true ∨ ∀ outcome ∈ (o.serial color t).1, outcome.status = .ok) :
    (o.serial color t).1 = (List.range o.inputs.length).map c.outcome ∧
      (o.serial color t).2.tally = if o.metrics then
        ((Multiset.range o.inputs.length).map fun k => c.gain k + (c.outcome k).gain).sum
        else 0 := by
  obtain ⟨outcomes, gain, t', hadds, hresult⟩ :=
    c.adds_convertAll List.drop_zero fun j _ _ => hready j
  obtain ⟨m, hrun, -, htally⟩ := hadds { enabled := o.metrics }
  rw [Options.serial, hrun] at hgo ⊢
  obtain ⟨houtcomes, hgain⟩ := hresult hgo
  rw [← List.range_eq_range'] at houtcomes hgain
  refine ⟨houtcomes, htally.trans ?_⟩
  rw [hgain]
  exact zero_add _

namespace Workshop

/-- When the workers have finished, every file has been converted once, with the outcomes and the
counters of the conversion of one file after the other. -/
theorem results_of_isDone {o : Options} {color : Bool} {t : FileTree} (hnul : o.NoNul)
    (hplaces : o.SeparatePlaces color t) (hsteady : o.SteadyDirectories color t)
    (hgo : o.keepGoing = true ∨ ∀ outcome ∈ (o.serial color t).1, outcome.status = .ok)
    {schedule : List Nat} (hdone : ((start o t).run o color schedule).isDone = true) :
    (conversions o color (start o t) schedule).Perm (List.range o.inputs.length) ∧
      ((start o t).run o color schedule).results = (o.serial color t).1 ∧
      ((start o t).run o color schedule).metrics.tally = (o.serial color t).2.tally := by
  obtain ⟨c, hready⟩ := Options.exists_independent hnul hplaces hsteady
  obtain ⟨houtcomes, htally⟩ := c.serial_eq hready hgo
  have hgo' : o.keepGoing = true ∨ ∀ k < o.inputs.length, (c.outcome k).status = .ok := by
    refine hgo.imp_right fun hgo k hk => hgo _ ?_
    rw [houtcomes]
    exact List.mem_map_of_mem (List.mem_range.mpr hk)
  obtain ⟨stored, htracks⟩ := (tracks_start c hready).run hgo' schedule
  have hworkers : ((start o t).run o color schedule).workers = [] → o.inputs.length = 0 := by
    intro hempty
    have hlength : ((start o t).run o color schedule).workers.length =
        min (max o.jobs 1) o.inputs.length := by
      rw [length_workers_run, start, Pool.start, List.length_replicate, Options.workers]
    rw [hempty, List.length_nil] at hlength
    omega
  obtain ⟨hlog, hresults, htally'⟩ := htracks.of_isDone hdone hworkers
  exact ⟨hlog, hresults.trans houtcomes.symm, htally'.trans htally.symm⟩

theorem exists_takeTurns (o : Options) (color : Bool) (p : Workshop) (turn : List Nat)
    (rounds : Nat) : ∃ schedule, (p.toPool.takeTurns FileTree.host o color turn rounds).run p.tree =
      ((p.run o color schedule).toPool, (p.run o color schedule).tree) ∧
    ((p.run o color schedule).isDone = true ∨ ∀ w, schedule.count w = rounds * turn.count w) := by
  induction rounds generalizing p turn with
  | zero => exact ⟨[], rfl, Or.inr fun w => by simp⟩
  | succ rounds ih =>
    by_cases hdone : p.isDone = true
    · refine ⟨[], ?_, Or.inl hdone⟩
      rw [Pool.takeTurns, if_pos hdone]
      rfl
    · obtain ⟨schedule, hrun, hend⟩ := ih (p.run o color turn) turn.reverse
      refine ⟨turn ++ schedule, ?_, ?_⟩
      · rw [Pool.takeTurns, if_neg hdone, StateT.run_bind, run_toPool]
        refine hrun.trans ?_
        rw [run, run, run, List.foldl_append]
      · rw [run, List.foldl_append]
        refine hend.imp_right fun hcount w => ?_
        rw [List.count_append, hcount w, List.count_reverse]
        ring

theorem exists_convertTogether (o : Options) (color : Bool) (t : FileTree) : ∃ schedule,
    ((start o t).run o color schedule).isDone = true ∧
    ((convertTogether FileTree.host o color).run t).1 =
      (((start o t).run o color schedule).results, ((start o t).run o color schedule).metrics) := by
  obtain ⟨schedule, hrun, hend⟩ :=
    exists_takeTurns o color (start o t) (List.range o.workers) (4 * o.inputs.length + 1)
  refine ⟨schedule, ?_, ?_⟩
  · rcases hend with hdone | hcount
    · exact hdone
    · refine isDone_run t schedule fun w hw => ?_
      have hworkers : w < o.workers := by simpa [start, Pool.start] using hw
      rw [hcount w, List.count_eq_one_of_mem List.nodup_range (List.mem_range.mpr hworkers),
        Nat.mul_one]
  · exact congrArg (fun r : Pool × FileTree => (r.1.results, r.1.metrics)) hrun

end Workshop

/-- However many workers there are and however they take turns: they finish if each of them makes
enough steps, and when they have finished, every file has been converted once, with the outcomes and
the counters of the conversion of one file after the other. So it is with the turns that the workers
of the command take. -/
theorem Pool.results_eq_serial (o : Options) (color : Bool) (t : FileTree) (hnul : o.NoNul)
    (hplaces : o.SeparatePlaces color t) (hsteady : o.SteadyDirectories color t)
    (hgo : o.keepGoing = true ∨ ∀ outcome ∈ (o.serial color t).1, outcome.status = .ok)
    (schedule : List Nat) :
    ((∀ w < o.workers, 4 * o.inputs.length + 1 ≤ schedule.count w) →
      (((start o).run FileTree.host o color schedule).run t).1.isDone = true) ∧
    ((((start o).run FileTree.host o color schedule).run t).1.isDone = true →
      ((Workshop.start o t).conversions o color schedule).Perm (List.range o.inputs.length) ∧
      (((start o).run FileTree.host o color schedule).run t).1.results = (o.serial color t).1 ∧
      (((start o).run FileTree.host o color schedule).run t).1.metrics.tally =
      (o.serial color t).2.tally) ∧
    (((convertTogether FileTree.host o color).run t).1.1 = (o.serial color t).1 ∧
      ((convertTogether FileTree.host o color).run t).1.2.tally = (o.serial color t).2.tally) := by
  have hrun : (((start o).run FileTree.host o color schedule).run t).1 =
      ((Workshop.start o t).run o color schedule).toPool :=
    congrArg Prod.fst (Workshop.run_toPool (Workshop.start o t) schedule)
  have hworkers : (Workshop.start o t).workers.length = o.workers := by simp [Workshop.start, start]
  obtain ⟨turns, hdone, htogether⟩ := Workshop.exists_convertTogether o color t
  rw [hrun, htogether]
  refine ⟨fun h => Workshop.isDone_run t schedule (by rwa [hworkers]), fun h => ?_, ?_⟩
  · exact Workshop.results_of_isDone hnul hplaces hsteady hgo h
  · exact (Workshop.results_of_isDone hnul hplaces hsteady hgo hdone).2

/-- Two workers that convert two sources and go on after a failure. -/
def twoWorkers (x y : Text) : Options :=
  { inputs := [x, y], outDir := lit "out", jobs := 2, keepGoing := true, metrics := true }

/-- Two sources beside each other. -/
def twoSources (source source' : Text) : FileTree :=
  { entries := [([lit "A.java"], .file source), ([lit "B.java"], .file source')] }

/-- Turns in which the second worker is always one step ahead. -/
def turns : List Nat := (List.replicate 9 [1, 0]).flatten

/-- A source that can be converted, and one with an error. -/
theorem Pool.results_eq_serial_two :
    let o := twoWorkers (lit "A.java") (lit "B.java")
    let t := twoSources (lit "class A \x7b\x7d") (lit "class B")
    (((start o).run FileTree.host o false turns).run t).1.isDone = true ∧
    (((start o).run FileTree.host o false turns).run t).1.results = (o.serial false t).1 ∧
    (((start o).run FileTree.host o false turns).run t).1.metrics.tally =
    (o.serial false t).2.tally := by
  intro o t
  have hnul : o.NoNul := by unfold Options.NoNul; decide
  have hplaces : ∀ j < 2, ∀ k < 2, j ≠ k → ¬ o.HeaderAt t (o.input j) (o.input k) ∧
      ¬ o.HeaderAt t (o.input j) (o.target (o.input k)) := by
    decide +kernel
  have hmade : ∀ j < 2, (t.makeDirectories (parentPath (o.target (o.input j)))).2 = .ok () ∧
      ∀ k < 2, j ≠ k →
      (o.withDirectories t (o.input j)).read (o.input k) = t.read (o.input k) := by
    decide +kernel
  have hturns : ∀ w < o.workers, 4 * o.inputs.length + 1 ≤ turns.count w := by decide
  obtain ⟨hdone, hsame, -⟩ :=
    results_eq_serial o false t hnul (fun j hj k hk hjk _ => hplaces j hj k hk hjk)
    (fun j hj _ => (hmade j hj).imp_left Or.inl) (Or.inl rfl) turns
  exact ⟨hdone hturns, (hsame (hdone hturns)).2⟩

/-- Two sources for which no header goes to the place of another one or of a source. In the first
case the path of the second source leads through the directory for headers, which is not there: one
after the other both are converted, but workers that take turns do not find the second one. In the
second case a part of that directory is made before there is a failure, and the next conversion
fails at once for another reason. -/
theorem Pool.results_ne_serial :
    (let o := twoWorkers (lit "A.java") (lit "out/../B.java")
      let t := twoSources (lit "class A \x7b\x7d") (lit "class B \x7b\x7d")
      o.NoNul ∧ o.keepGoing = true ∧ o.SeparatePlaces false t ∧
      (o.serial false t).1.map (·.status) = [.ok, .ok] ∧
      ((convertTogether FileTree.host o false).run t).1.1.map (·.status) = [.ok, .unusable]) ∧
    (let o := { twoWorkers (lit "A.java") (lit "B.java") with outDir := lit "out/../A.java/out" }
      let t := twoSources (lit "class A \x7b\x7d") (lit "class B \x7b\x7d")
      let line := fun fault : PathFault =>
        errorLine (FileError.cannotCreate o.outDir fault.reason).message false
      o.NoNul ∧ o.keepGoing = true ∧ o.SeparatePlaces false t ∧
      (o.serial false t).1.map (·.err) = [line .fileExists, line .notDirectory] ∧
      ((convertTogether FileTree.host o false).run t).1.1.map (·.err) =
      [line .notDirectory, line .fileExists]) := by
  refine ⟨?_, ?_⟩
  all_goals
    intro o t
    have hplaces : ∀ j < 2, ∀ k < 2, j ≠ k → ¬ o.HeaderAt t (o.input j) (o.input k) ∧
        ¬ o.HeaderAt t (o.input j) (o.target (o.input k)) := by
      decide +kernel
    refine ⟨by unfold Options.NoNul; decide, rfl, fun j hj k hk hjk _ => hplaces j hj k hk hjk,
      ?_, ?_⟩
  · cbv
  · cbv
  · cbv
  · cbv

end Unnest
