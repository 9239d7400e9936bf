import Anthrex.Data.Graph
import Anthrex.Data.Lists
import Anthrex.Data.Longest
import Anthrex.Quota.Book
import Anthrex.Run.Model
import Mathlib.Data.List.MinMax
import Mathlib.Data.List.Sort

/-!
# The order of dispatch

The weight of the longest chain of tasks that wait for each other from a task on, the order the
tasks are dispatched in, and the chain that the snapshot shows (`run/engine/schedule.rs`). The
recursion over the tasks remembers the lengths it has found and leaves out the tasks it is in; where
no tasks wait for each other in a circle it is in none that it comes to, and finds the weight of the
heaviest chain.
-/

namespace Anthrex.Engine

open Anthrex.Run Graph Longest Relation

/-- A task's weight on a chain: that of its class in history, when the run has it. A large task
    never runs, and counts as a middle one. -/
def weight (limits : RunLimits) (task : Task) : ℕ :=
  match limits.pathWeights with
  | some w =>
    if task.hub then w.hubSecs
    else if task.size = .s then w.sSecs
    else w.mSecs
  | none => if task.size = .s then 1 else 3

variable (run : Run)

/-- Adds a task that is not finished to what waits for each task it depends on. -/
def addDependents (out : List (List ℕ)) (entry : Task × ℕ) : List (List ℕ) :=
  if entry.1.state.isFinished then out
  else
    (entry.1.spec.deps ++ entry.1.implicitDeps).foldl (fun out dep =>
      match run.position dep with
      | some i => if entry.2 ∈ out.getD i [] then out else push out i entry.2
      | none => out) out

/-- For each task the unfinished ones that wait for it. -/
def dependents : List (List ℕ) :=
  run.tasks.zipIdx.foldl (addDependents run) (List.replicate run.tasks.length [])

def finished (i : ℕ) : Bool := (run.tasks[i]?.map (·.state.isFinished)).getD true

def weightAt (i : ℕ) : ℕ := (run.tasks[i]?.map (weight run.limits)).getD 0

/-- The lengths found, and the tasks the recursion is in. -/
structure Visits where
  memo : ℕ → Option ℕ := fun _ => none
  visiting : ℕ → Bool := fun _ => false

/-- The length from a task on; the fuel bounds the depth of the recursion. -/
def visit (deps : List (List ℕ)) : ℕ → ℕ → Visits → ℕ × Visits
  | 0, _, m => (0, m)
  | fuel + 1, i, m =>
    match m.memo i with
    | some v => (v, m)
    | none =>
      if finished run i ∨ m.visiting i then (0, m)
      else
        let entered := { m with visiting := Function.update m.visiting i true }
        let tail := (deps.getD i []).foldl (fun s j =>
          let visited := visit deps fuel j s.2
          (max s.1 visited.1, visited.2)) (0, entered)
        let v := Quota.saturatingAdd (weightAt run i) tail.1
        (v, ⟨Function.update tail.2.memo i (some v), Function.update tail.2.visiting i false⟩)

/-- The weight of the longest chain from each task on; 0 for a finished one. -/
def criticalLens : List ℕ :=
  ((List.range run.tasks.length).foldl (fun s i =>
    let visited := visit run (dependents run) run.tasks.length i s.2
    (s.1 ++ [visited.1], visited.2)) ([], ({} : Visits))).1

def lenAt (i : ℕ) : ℕ := (criticalLens run).getD i 0

def priorityAt (i : ℕ) : ℤ := (run.tasks[i]?.map (·.spec.priority)).getD 0

/-- By length, then by priority, both from the highest down, then by the plan. -/
def dispatchKey (i : ℕ) : ℕᵒᵈ ×ₗ ℤᵒᵈ ×ₗ ℕ :=
  toLex (OrderDual.toDual (lenAt run i), toLex (OrderDual.toDual (priorityAt run i), i))

/-- The places of all tasks in the order of dispatch. -/
def dispatchOrder : List ℕ :=
  (List.range run.tasks.length).insertionSort fun i j => dispatchKey run i ≤ dispatchKey run j

/-- By length, from the highest down, then by the order of dispatch. -/
def pathKey (i : ℕ) : ℕᵒᵈ ×ₗ ℕ :=
  toLex (OrderDual.toDual (lenAt run i), (dispatchOrder run).idxOf i)

/-- Goes on with the task of the longest chain among those that wait for the last one. -/
def follow : ℕ → ℕ → List ℕ → List ℕ
  | 0, _, path => path
  | fuel + 1, last, path =>
    match (((dependents run).getD last []).filter (· ∉ path)).argmin (pathKey run) with
    | none => path
    | some next => follow fuel next (path ++ [next])

/-- The chain of the highest length: from the first unfinished task in the order of dispatch. -/
def criticalPath : List ℕ :=
  match (dispatchOrder run).find? fun i => !finished run i with
  | none => []
  | some first => follow run run.tasks.length first [first]

/-! ## What waits for a task -/

variable {run} {i j fuel : ℕ}

/-- An unfinished task depends on another, declared or implied. -/
def Follows (run : Run) (i j : ℕ) : Prop :=
  ∃ t, run.tasks[j]? = some t ∧ t.isActive ∧
    ∃ dep, (dep ∈ t.spec.deps ∨ dep ∈ t.implicitDeps) ∧ run.position dep = some i

theorem lt_of_position {dep : String} (h : run.position dep = some i) : i < run.tasks.length :=
  (List.findIdx?_eq_some_iff_getElem.1 h).1

/-- The dependencies of a task lead to it from the tasks they name. -/
theorem edge_addDependents {out : List (List ℕ)} (hlength : out.length = run.tasks.length)
    {t : Task} {k : ℕ} (hactive : t.isActive) :
    (addDependents run out (t, k)).length = run.tasks.length ∧
      ∀ a b, Edge (addDependents run out (t, k)) a b ↔
        Edge out a b ∨ b = k ∧ ∃ dep ∈ t.spec.deps ++ t.implicitDeps, run.position dep = some a := by
  have hunfinished : ¬t.state.isFinished = true := by simpa [Task.isActive] using hactive
  rw [addDependents, if_neg hunfinished]
  refine Lists.foldl_done (motive := fun done out' => out'.length = run.tasks.length ∧
    ∀ a b, Edge out' a b ↔ Edge out a b ∨ b = k ∧ ∃ dep ∈ done, run.position dep = some a) _
    ⟨hlength, fun a b => by simp⟩ ?_
  rintro done dep - out' ⟨hlength', hedges⟩
  cases hdep : run.position dep with
  | none => exact ⟨hlength', fun a b => by rw [hedges]; simp [or_and_right, exists_or, hdep]⟩
  | some i =>
    have hlt : i < out'.length := hlength'.symm ▸ lt_of_position hdep
    have hnew : ∀ a b, (Edge out' a b ∨ a = i ∧ b = k) ↔
        Edge out a b ∨ b = k ∧ ∃ d ∈ done ++ [dep], run.position d = some a := by
      intro a b
      rw [hedges]
      simp only [List.mem_append, List.mem_singleton, or_and_right, exists_or, exists_eq_left, hdep,
        Option.some.injEq, and_or_left, or_assoc]
      refine or_congr_right (or_congr_right ?_)
      rw [and_comm, eq_comm (a := a)]
    show (if k ∈ out'.getD i [] then out' else push out' i k).length = _ ∧
      ∀ a b, Edge (if k ∈ out'.getD i [] then out' else push out' i k) a b ↔ _
    split_ifs with hknown
    · refine ⟨hlength', fun a b => ?_⟩
      rw [← hnew]
      refine (or_iff_left_of_imp ?_).symm
      rintro ⟨rfl, rfl⟩
      exact hknown
    · refine ⟨by rw [push, List.length_modify, hlength'], fun a b => ?_⟩
      rw [edge_push hlt, hnew]

theorem lt_of_follows (h : Follows run i j) : i < run.tasks.length ∧ j < run.tasks.length := by
  obtain ⟨t, ht, -, dep, -, hposition⟩ := h
  exact ⟨lt_of_position hposition, (List.getElem?_eq_some_iff.1 ht).1⟩

/-- The list of the dependents is that of the unfinished tasks that depend on each. -/
theorem edge_dependents : Edge (dependents run) i j ↔ Follows run i j := by
  have hfold : (dependents run).length = run.tasks.length ∧
      ∀ a b, Edge (dependents run) a b ↔ ∃ e ∈ run.tasks.zipIdx, e.2 = b ∧ e.1.isActive ∧
        ∃ dep ∈ e.1.spec.deps ++ e.1.implicitDeps, run.position dep = some a := by
    refine Lists.foldl_done (motive := fun (done : List (Task × ℕ)) out =>
      out.length = run.tasks.length ∧ ∀ a b, Edge out a b ↔ ∃ e ∈ done, e.2 = b ∧ e.1.isActive ∧
        ∃ dep ∈ e.1.spec.deps ++ e.1.implicitDeps, run.position dep = some a) _
      ⟨List.length_replicate, fun a b => ?_⟩ ?_
    · simp only [Edge, List.getD_eq_getElem?_getD, List.getElem?_replicate]
      split_ifs <;> simp
    · rintro done ⟨t, k⟩ - out ⟨hlength, hedges⟩
      by_cases hactive : t.isActive
      · obtain ⟨hlength', hedges'⟩ := edge_addDependents hlength hactive (k := k)
        refine ⟨hlength', fun a b => ?_⟩
        rw [hedges', hedges]
        simp only [List.mem_append, List.mem_singleton, or_and_right, exists_or, exists_eq_left,
          hactive, true_and, eq_comm (a := b)]
      · have hfinished : t.state.isFinished = true := by simpa [Task.isActive] using hactive
        rw [addDependents, if_pos hfinished]
        refine ⟨hlength, fun a b => ?_⟩
        rw [hedges]
        simp [or_and_right, exists_or, hactive]
  rw [hfold.2]
  constructor
  · rintro ⟨⟨t, k⟩, hmem, rfl, hactive, dep, hdep, hposition⟩
    exact ⟨t, List.mem_zipIdx_iff_getElem?.1 hmem, hactive, dep, List.mem_append.1 hdep, hposition⟩
  · rintro ⟨t, ht, hactive, dep, hdep, hposition⟩
    exact ⟨(t, j), List.mem_zipIdx_iff_getElem?.2 ht, rfl, hactive, dep, List.mem_append.2 hdep,
      hposition⟩

theorem mem_dependents : j ∈ (dependents run).getD i [] ↔ Follows run i j := edge_dependents

theorem finished_eq_false (h : Follows run i j) : finished run j = false := by
  obtain ⟨t, ht, hactive, -⟩ := h
  rw [finished, ht]
  simpa [Task.isActive] using hactive

/-! ## The longest chains -/

def u64Max : ℕ := 18446744073709551615

theorem saturatingAdd_of_le {a b : ℕ} (h : a + b ≤ u64Max) : Quota.saturatingAdd a b = a + b :=
  min_eq_left h

/-- No chain of unfinished tasks weighs more than the counter holds. -/
def FitsCounter (run : Run) : Prop :=
  ∀ i l, finished run i = false → (i :: l).IsChain (Follows run) →
    total (weightAt run) (i :: l) ≤ u64Max

/-- How far a task's dependents lead. -/
noncomputable def depth (run : Run) (i : ℕ) : ℕ :=
  rank (List.range run.tasks.length) (fun i => (dependents run).getD i []) i

theorem acyclic_dependents (h : Acyclic (Follows run)) :
    Acyclic fun i j => j ∈ (dependents run).getD i [] :=
  h.mono fun _ _ => mem_dependents.1

theorem depth_lt (hacyclic : Acyclic (Follows run)) (h : Follows run i j) :
    depth run j < depth run i :=
  rank_lt (acyclic_dependents hacyclic) (List.mem_range.2 (lt_of_follows h).2) (mem_dependents.2 h)

theorem depth_lt_length (hacyclic : Acyclic (Follows run)) (hi : i < run.tasks.length) :
    depth run i < run.tasks.length := by
  have hlt := rank_lt_length (acyclic_dependents hacyclic) (List.mem_range.2 hi)
  rwa [List.length_range] at hlt

/-- The longest chains from the tasks on. -/
def Lengths (run : Run) (f : ℕ → ℕ) : Prop := ∀ i, Heaviest (Follows run) (weightAt run) i (f i)

theorem exists_lengths (hacyclic : Acyclic (Follows run)) : ∃ f, Lengths run f :=
  Classical.skolem.1 (exists_heaviest (fun _ _ => mem_dependents) fun _ _ => depth_lt hacyclic)

variable {f : ℕ → ℕ} {m : Visits}

theorem Lengths.eq (h : Lengths run f) (i : ℕ) :
    f i = weightAt run i + greatest f ((dependents run).getD i []) 0 :=
  (h i).unique (heaviest_of_next (fun _ => mem_dependents) fun j _ => h j)

theorem Lengths.le_max (h : Lengths run f) (hfits : FitsCounter run) (hi : finished run i = false) :
    f i ≤ u64Max := by
  obtain ⟨l, hl, htotal⟩ := (h i).reached
  exact htotal ▸ hfits i l hi hl

/-- The length of the longest chain from a task on, none from a finished one. -/
def lenOf (run : Run) (f : ℕ → ℕ) (i : ℕ) : ℕ := if finished run i then 0 else f i

/-- What the recursion remembers is right. -/
def Right (run : Run) (f : ℕ → ℕ) (m : Visits) : Prop :=
  ∀ k v, m.memo k = some v → finished run k = false ∧ v = f k

/-- The recursion finds the length, and leaves the tasks that it is in as they were. -/
structure Visited (run : Run) (f : ℕ → ℕ) (m : Visits) (i : ℕ) (result : ℕ × Visits) : Prop where
  len : result.1 = lenOf run f i
  right : Right run f result.2
  visiting : result.2.visiting = m.visiting

theorem visit_spec (hacyclic : Acyclic (Follows run)) (hfits : FitsCounter run) (h : Lengths run f)
    (hright : Right run f m) (hin : ∀ k, m.visiting k = true → TransGen (Follows run) k i)
    (hdepth : depth run i < fuel) : Visited run f m i (visit run (dependents run) fuel i m) := by
  induction fuel generalizing i m with
  | zero => omega
  | succ fuel ih =>
    rw [visit]
    cases hmemo : m.memo i with
    | some v =>
      obtain ⟨hi, rfl⟩ := hright i v hmemo
      exact ⟨by simp [lenOf, hi], hright, rfl⟩
    | none =>
      -- the recursion is in nothing that depends on itself
      have hout : m.visiting i = false := by
        by_contra hvisiting
        exact hacyclic i (hin i (by simpa using hvisiting))
      cases hi : finished run i with
      | true => exact ⟨by simp [lenOf, hi], hright, rfl⟩
      | false =>
        have hentered : ∀ j, Follows run i j → ∀ k, Function.update m.visiting i true k = true →
            TransGen (Follows run) k j := by
          intro j hj k hk
          rw [Function.update_apply] at hk
          split_ifs at hk with hki
          · exact .single (hki ▸ hj)
          · exact .tail (hin k hk) hj
        obtain ⟨s, hs⟩ : ∃ s : ℕ × Visits, s = ((dependents run).getD i []).foldl (fun s j =>
            (max s.1 (visit run (dependents run) fuel j s.2).1,
              (visit run (dependents run) fuel j s.2).2))
              (0, { m with visiting := Function.update m.visiting i true }) := ⟨_, rfl⟩
        have htail : s.1 = greatest f ((dependents run).getD i []) 0 ∧ Right run f s.2 ∧
            s.2.visiting = Function.update m.visiting i true := by
          rw [hs]
          refine Lists.foldl_done (motive := fun done (s : ℕ × Visits) =>
            s.1 = greatest f done 0 ∧ Right run f s.2 ∧
              s.2.visiting = Function.update m.visiting i true) _ ⟨rfl, hright, rfl⟩ ?_
          rintro done j hj s ⟨hbest, hright, hvisiting⟩
          have hfollows := mem_dependents.1 hj
          have hlt := depth_lt hacyclic hfollows
          have hvisit := ih hright (hvisiting ▸ hentered j hfollows) (by omega)
          refine ⟨?_, hvisit.right, hvisit.visiting.trans hvisiting⟩
          rw [greatest_concat, hbest, hvisit.len, lenOf, finished_eq_false hfollows]
          rfl
        obtain ⟨hbest, hrest, hvisiting⟩ := htail
        have hlen : Quota.saturatingAdd (weightAt run i) s.1 = f i := by
          have hmax := h.le_max hfits hi
          rw [h.eq, ← hbest] at hmax
          rw [saturatingAdd_of_le hmax, hbest, ← h.eq]
        suffices hvisited : Visited run f m i (Quota.saturatingAdd (weightAt run i) s.1,
            ⟨Function.update s.2.memo i (some (Quota.saturatingAdd (weightAt run i) s.1)),
              Function.update s.2.visiting i false⟩) by
          rw [hs] at hvisited
          rw [if_neg (by simp [hout])]
          exact hvisited
        rw [hlen]
        refine ⟨by simp [lenOf, hi], fun k v hk => ?_, ?_⟩
        · dsimp only at hk
          rw [Function.update_apply] at hk
          split_ifs at hk with hki
          · rw [hki]
            exact ⟨hi, (Option.some.inj hk).symm⟩
          · exact hrest k v hk
        · show Function.update s.2.visiting i false = m.visiting
          rw [hvisiting, Function.update_idem, ← hout, Function.update_eq_self]

/-- The lengths are those of the longest chains of unfinished tasks. -/
theorem criticalLens_eq (hacyclic : Acyclic (Follows run)) (hfits : FitsCounter run) (h : Lengths run f) :
    criticalLens run = (List.range run.tasks.length).map (lenOf run f) := by
  have hfold : ∀ s : List ℕ × Visits, s = (List.range run.tasks.length).foldl (fun s i =>
      (s.1 ++ [(visit run (dependents run) run.tasks.length i s.2).1],
        (visit run (dependents run) run.tasks.length i s.2).2)) ([], {}) →
      s.1 = (List.range run.tasks.length).map (lenOf run f) ∧ Right run f s.2 ∧
        s.2.visiting = fun _ => false := by
    rintro _ rfl
    refine Lists.foldl_done (motive := fun done (s : List ℕ × Visits) =>
      s.1 = done.map (lenOf run f) ∧ Right run f s.2 ∧ s.2.visiting = fun _ => false) _
      ⟨rfl, fun k v hk => by simp at hk, rfl⟩ ?_
    rintro done i hi s ⟨hlens, hright, hvisiting⟩
    have hdepth := depth_lt_length hacyclic (List.mem_range.1 hi)
    have hvisit := visit_spec hacyclic hfits h hright (i := i)
      (fun k hk => by rw [hvisiting] at hk; cases hk) hdepth
    refine ⟨?_, hvisit.right, hvisit.visiting.trans hvisiting⟩
    rw [hlens, hvisit.len, List.map_append]
    rfl
  exact (hfold _ rfl).1

theorem lenAt_eq (hacyclic : Acyclic (Follows run)) (hfits : FitsCounter run) (h : Lengths run f)
    (hi : i < run.tasks.length) : lenAt run i = lenOf run f i := by
  rw [lenAt, criticalLens_eq hacyclic hfits h, List.getD_eq_getElem?_getD, List.getElem?_map,
    List.getElem?_range hi]
  rfl

/-! ## The order of dispatch -/

theorem lenAt_le_of_dispatchKey (h : dispatchKey run i ≤ dispatchKey run j) :
    lenAt run j ≤ lenAt run i := by
  rcases Prod.Lex.toLex_le_toLex.1 h with hlt | ⟨heq, -⟩
  · exact (OrderDual.toDual_lt_toDual.1 hlt).le
  · exact (OrderDual.toDual_inj.1 heq).ge

theorem lenAt_le_of_pathKey (h : pathKey run i ≤ pathKey run j) : lenAt run j ≤ lenAt run i := by
  rcases Prod.Lex.toLex_le_toLex.1 h with hlt | ⟨heq, -⟩
  · exact (OrderDual.toDual_lt_toDual.1 hlt).le
  · exact (OrderDual.toDual_inj.1 heq).ge

theorem dispatchOrder_perm (run : Run) : (dispatchOrder run).Perm (List.range run.tasks.length) :=
  List.perm_insertionSort _ _

theorem pairwise_dispatchOrder (run : Run) :
    (dispatchOrder run).Pairwise fun i j => dispatchKey run i ≤ dispatchKey run j :=
  List.pairwise_insertionSort _ _

theorem mem_dispatchOrder : i ∈ dispatchOrder run ↔ i < run.tasks.length :=
  (dispatchOrder_perm run).mem_iff.trans List.mem_range

/-! ## The critical path -/

theorem lenAt_of_follows (hacyclic : Acyclic (Follows run)) (hfits : FitsCounter run) (h : Lengths run f)
    (hfollows : Follows run i j) : lenAt run j = f j := by
  rw [lenAt_eq hacyclic hfits h (lt_of_follows hfollows).2, lenOf, finished_eq_false hfollows]
  rfl

/-- The one gone on with is one that the longest chain goes on with. -/
theorem eq_add_of_argmin (hacyclic : Acyclic (Follows run)) (hfits : FitsCounter run) (h : Lengths run f)
    (hnext : ((dependents run).getD i []).argmin (pathKey run) = some j) :
    f i = weightAt run i + f j := by
  have hmem := List.argmin_mem hnext
  obtain ⟨-, hle⟩ := le_greatest f ((dependents run).getD i []) 0
  have hgreatest : greatest f ((dependents run).getD i []) 0 ≤ f j := by
    rcases greatest_eq f ((dependents run).getD i []) 0 with hzero | ⟨k, hk, hgreatest⟩
    · rw [hzero]
      exact Nat.zero_le _
    · have hlens := lenAt_le_of_pathKey (List.le_of_mem_argmin hk hnext)
      rw [lenAt_of_follows hacyclic hfits h (mem_dependents.1 hk),
        lenAt_of_follows hacyclic hfits h (mem_dependents.1 hmem)] at hlens
      rwa [hgreatest]
  rw [h.eq i, hgreatest.antisymm (hle j hmem)]

theorem eq_of_dependents_nil (h : Lengths run f) (hnone : (dependents run).getD i [] = []) :
    f i = total (weightAt run) [i] := by
  rw [h.eq, hnone]
  rfl

/-- The path goes on to the end of a longest chain. -/
theorem follow_spec (hacyclic : Acyclic (Follows run)) (hfits : FitsCounter run) (h : Lengths run f)
    {last : ℕ} {path : List ℕ} (hdepth : depth run last ≤ fuel)
    (hpath : ∀ k ∈ path, ReflTransGen (Follows run) k last) :
    ∃ rest, follow run fuel last path = path ++ rest ∧ (last :: rest).IsChain (Follows run) ∧
      total (weightAt run) (last :: rest) = f last := by
  induction fuel generalizing last path with
  | zero =>
    have hnone : (dependents run).getD last [] = [] := by
      refine next_eq_nil (acyclic_dependents hacyclic) (fun j hj => ?_) hdepth
      exact List.mem_range.2 (lt_of_follows (mem_dependents.1 hj)).2
    exact ⟨[], (List.append_nil _).symm, List.isChain_singleton last,
      (eq_of_dependents_nil h hnone).symm⟩
  | succ fuel ih =>
    -- what waits for the last task is not on the path
    have hfilter : ((dependents run).getD last []).filter (· ∉ path) = (dependents run).getD last [] := by
      refine List.filter_eq_self.2 fun j hj => ?_
      rw [decide_eq_true_eq]
      exact fun hmem => hacyclic j (.tail' (hpath j hmem) (mem_dependents.1 hj))
    rw [follow, hfilter]
    cases hnext : ((dependents run).getD last []).argmin (pathKey run) with
    | none =>
      exact ⟨[], (List.append_nil _).symm, List.isChain_singleton last,
        (eq_of_dependents_nil h (List.argmin_eq_none.1 hnext)).symm⟩
    | some next =>
      have hfollows := mem_dependents.1 (List.argmin_mem hnext)
      have hlt := depth_lt hacyclic hfollows
      have hreach : ∀ k ∈ path ++ [next], ReflTransGen (Follows run) k next := by
        intro k hk
        rcases List.mem_append.1 hk with hk | hk
        · exact (hpath k hk).tail hfollows
        · rw [List.mem_singleton.1 hk]
      obtain ⟨rest, hfollow, hchain, htotal⟩ := ih (show depth run next ≤ fuel by omega) hreach
      refine ⟨next :: rest, ?_, List.isChain_cons_cons.2 ⟨hfollows, hchain⟩, ?_⟩
      · rw [List.append_cons]
        exact hfollow
      · rw [total, htotal, eq_add_of_argmin hacyclic hfits h hnext]

theorem criticalPath_spec (hacyclic : Acyclic (Follows run)) (hfits : FitsCounter run)
    (h : Lengths run f) :
    (criticalPath run).IsChain (Follows run) ∧
      (criticalPath run).head? = (dispatchOrder run).find? (fun i => !finished run i) ∧
      total (weightAt run) (criticalPath run) = greatest (fun len => len) (criticalLens run) 0 := by
  have hlens : ∀ v, v ∈ criticalLens run ↔ ∃ i < run.tasks.length, lenOf run f i = v := by
    intro v
    rw [criticalLens_eq hacyclic hfits h]
    simp
  rw [criticalPath]
  cases hfirst : (dispatchOrder run).find? fun i => !finished run i with
  | none =>
    refine ⟨List.isChain_nil, rfl, ?_⟩
    rcases greatest_eq (fun len => len) (criticalLens run) 0 with hzero | ⟨v, hv, hgreatest⟩
    · exact hzero.symm
    · -- all tasks are finished
      obtain ⟨i, hi, rfl⟩ := (hlens v).1 hv
      have hfinished := List.find?_eq_none.1 hfirst i (mem_dispatchOrder.2 hi)
      rw [hgreatest, lenOf, if_pos (by simpa using hfinished)]
      rfl
  | some first =>
    obtain ⟨hunfinished, before, after, hsplit, hbefore⟩ := List.find?_eq_some_iff_append.1 hfirst
    rw [Bool.not_eq_true'] at hunfinished
    have hlt : first < run.tasks.length := mem_dispatchOrder.1 (hsplit ▸ by simp)
    have hlen : lenOf run f first = f first := by
      rw [lenOf, hunfinished]
      rfl
    -- from the first unfinished task the chain goes on by the longest follower
    obtain ⟨rest, hfollow, hchain, htotal⟩ := follow_spec hacyclic hfits h
      (depth_lt_length hacyclic hlt).le (show ∀ k ∈ [first], ReflTransGen (Follows run) k first by
        simp [ReflTransGen.refl])
    show (follow run run.tasks.length first [first]).IsChain _ ∧
      (follow run run.tasks.length first [first]).head? = _ ∧ total _ (follow run _ first [first]) = _
    rw [hfollow]
    refine ⟨hchain, rfl, htotal.trans (le_antisymm ?_ ?_)⟩
    · -- its weight is the length of the first task, which is among the lengths
      exact (le_greatest (fun len => len) (criticalLens run) 0).2 _ ((hlens _).2 ⟨first, hlt, hlen⟩)
    · rcases greatest_eq (fun len => len) (criticalLens run) 0 with hzero | ⟨v, hv, hgreatest⟩
      · rw [hzero]
        exact Nat.zero_le _
      · obtain ⟨i, hi, rfl⟩ := (hlens v).1 hv
        rw [hgreatest, ← hlen, ← lenAt_eq hacyclic hfits h hlt, ← lenAt_eq hacyclic hfits h hi]
        have hmem := mem_dispatchOrder.2 hi
        rw [hsplit, List.mem_append, List.mem_cons] at hmem
        have hsorted := pairwise_dispatchOrder run
        rw [hsplit, List.pairwise_append, List.pairwise_cons] at hsorted
        rcases hmem with hmem | rfl | hmem
        · -- before the first unfinished one all are finished
          rw [lenAt_eq hacyclic hfits h hi, lenOf, if_pos (by simpa using hbefore i hmem)]
          exact Nat.zero_le _
        · exact le_rfl
        · -- after it no length is greater, since the length comes first in the key
          exact lenAt_le_of_dispatchKey (hsorted.2.1.1 i hmem)

/-- Where no unfinished tasks wait for each other in a circle: the lengths are those of the longest
    chains of unfinished tasks, the critical path is one of the greatest, from the first unfinished
    task in the order of dispatch on, and that order puts no unfinished task after one that waits
    for it. -/
theorem critical_agree (run : Run) (hacyclic : Acyclic (Follows run)) (hfits : FitsCounter run) :
    ((criticalLens run).length = run.tasks.length ∧ ∀ i < run.tasks.length,
      (finished run i = true → lenAt run i = 0) ∧
      (finished run i = false → Heaviest (Follows run) (weightAt run) i (lenAt run i))) ∧
    ((criticalPath run).IsChain (Follows run) ∧
      (criticalPath run).head? = (dispatchOrder run).find? (fun i => !finished run i) ∧
      total (weightAt run) (criticalPath run) = greatest (fun len => len) (criticalLens run) 0) ∧
    (dispatchOrder run).Perm (List.range run.tasks.length) ∧
    ((∀ i < run.tasks.length, 0 < weightAt run i) →
      (dispatchOrder run).Pairwise fun i j => finished run j = false → ¬Follows run j i) := by
  obtain ⟨f, h⟩ := exists_lengths hacyclic
  refine ⟨⟨?_, fun i hi => ?_⟩, criticalPath_spec hacyclic hfits h, dispatchOrder_perm run, fun hpos => ?_⟩
  · rw [criticalLens_eq hacyclic hfits h, List.length_map, List.length_range]
  · rw [lenAt_eq hacyclic hfits h hi, lenOf]
    refine ⟨fun hfinished => if_pos hfinished, fun hfinished => ?_⟩
    rw [hfinished]
    exact h i
  · refine (pairwise_dispatchOrder run).imp fun {i j} hkey hunfinished hfollows => ?_
    have hlens := lenAt_le_of_dispatchKey hkey
    have hlt := lt_of_follows hfollows
    rw [lenAt_of_follows hacyclic hfits h hfollows, lenAt_eq hacyclic hfits h hlt.1, lenOf,
      hunfinished] at hlens
    have hadd := (h j).add_le (h i) hfollows
    have hweight := hpos j hlt.1
    simp only [Bool.false_eq_true, if_false] at hlens
    omega

/-- A task that another waits for. -/
def relay : Run where
  id := "r"
  limits := { maxTasks := 2, models := { rows := fun _ => ⟨⟨.claude, none⟩, none, none⟩ } }
  tasks := [{ spec := { id := "t2", owns := [], deps := ["t1"] }, route := ⟨.claude, "", ""⟩ },
    { spec := { id := "t1", owns := [] }, size := .m, route := ⟨.claude, "", ""⟩ }]

theorem dependents_relay : dependents relay = [[], [0]] := by decide

theorem follows_relay (h : Follows relay i j) : i = 1 ∧ j = 0 := by
  have hmem := mem_dependents.2 h
  have hlt : i < 2 := (lt_of_follows h).1
  rw [dependents_relay] at hmem
  obtain rfl | rfl : i = 0 ∨ i = 1 := by omega
  · simp at hmem
  · exact ⟨rfl, by simpa using hmem⟩

theorem critical_agree_relay : total (weightAt relay) (criticalPath relay) = 4 := by
  have hacyclic : Acyclic (Follows relay) := .of_rank (fun i => i) fun i j h => by
    obtain ⟨rfl, rfl⟩ := follows_relay h
    exact Nat.zero_lt_one
  have hweights : ∀ i < 2, weightAt relay i ≤ 3 := by decide
  have hfits : FitsCounter relay := by
    intro i l hi hl
    have hlt : i < 2 := by
      by_contra hge
      have hlength : relay.tasks.length ≤ i := Nat.le_of_not_lt hge
      rw [finished, List.getElem?_eq_none hlength] at hi
      cases hi
    have hfirst := hweights i hlt
    rcases l with _ | ⟨j, _ | ⟨k, l⟩⟩
    · simp only [total, u64Max]
      omega
    · obtain ⟨-, rfl⟩ := follows_relay (List.isChain_cons_cons.1 hl).1
      have hsecond := hweights 0 (by omega)
      simp only [total, u64Max]
      omega
    · obtain ⟨-, rfl⟩ := follows_relay (List.isChain_cons_cons.1 hl).1
      obtain ⟨hzero, -⟩ := follows_relay (List.isChain_cons_cons.1 (List.isChain_cons_cons.1 hl).2).1
      cases hzero
  have hagree := (critical_agree relay hacyclic hfits).2.1.2.2
  rw [hagree]
  decide

end Anthrex.Engine
