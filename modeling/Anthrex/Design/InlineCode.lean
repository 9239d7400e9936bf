import Anthrex.Data.Runs
import Mathlib.Data.List.DropRight

/-!
# Inline code

A spec may not say `TBD` in its prose, and inline code is no prose, so the check blanks out
the code spans of a line first (`without_inline_code` of `run/design/template.rs`). It reads
the line once for its runs of backticks, looks the closers up in tables made from the end,
and copies. `masked` says what that amounts to, from left to right: a run opens a span that
the next run of its length closes, and without one it is text.
-/

namespace Anthrex.Design

def tick : Char := '`'

/-! ## In one pass -/

/-- A run of backticks: where it starts, its length, and whether its first one is escaped. -/
structure Run where
  start : ℕ
  len : ℕ
  escaped : Bool
  deriving DecidableEq, Repr

/-- What is known at a place of the line: the runs before it, the last one first, and how many
    backslashes stand right before it. -/
structure Scan where
  runs : List Run := []
  slashes : ℕ := 0
  place : ℕ := 0

namespace Scan

/-- One more backtick, in the last run or a new one. -/
def tickAt (s : Scan) : List Run :=
  match s.runs with
  | r :: runs =>
    if r.start + r.len = s.place then { r with len := r.len + 1 } :: runs
    else ⟨s.place, 1, s.slashes % 2 = 1⟩ :: r :: runs
  | [] => [⟨s.place, 1, s.slashes % 2 = 1⟩]

def next (s : Scan) (c : Char) : Scan :=
  if c ≠ tick then ⟨s.runs, if c = '\\' then s.slashes + 1 else 0, s.place + 1⟩
  else ⟨s.tickAt, 0, s.place + 1⟩

end Scan

def backtickRuns (line : List Char) : List Run := (line.foldl Scan.next {}).runs.reverse

/-- For each run, from the one numbered `k` on: the nearest later run as long as it, and as long
    as it less one. Beside them, the nearest run of each length. -/
def nexts : List Run → (k : ℕ) → List (Option ℕ × Option ℕ) × (ℕ → Option ℕ)
  | [], _ => ([], fun _ => none)
  | r :: runs, k =>
    let (next, nearest) := nexts runs (k + 1)
    ((nearest r.len, nearest (r.len - 1)) :: next,
      fun len => if len = r.len then some k else nearest len)

/-- The line from `copied` on, where the run numbered `k` is the next that may open a span. -/
def copyFrom (line : List Char) (runs : List Run) (next : List (Option ℕ × Option ℕ)) :
    (fuel k copied : ℕ) → List Char
  | 0, _, copied => line.drop copied
  | fuel + 1, k, copied =>
    match runs[k]?, next[k]? with
    | some r, some n =>
      let (start, close) :=
        if !r.escaped then (r.start, n.1)
        else if 1 < r.len then (r.start + 1, n.2)
        else (r.start, none)
      match close with
      | some j =>
        -- the tables number runs of the line
        let closer := runs[j]?.getD r
        (line.drop copied).take (start - copied) ++
          ' ' :: copyFrom line runs next fuel (j + 1) (closer.start + closer.len)
      | none => copyFrom line runs next fuel (k + 1) copied
    | _, _ => line.drop copied

/-- The line with each inline code span blanked out. -/
def withoutInlineCode (line : List Char) : List Char :=
  let runs := backtickRuns line
  copyFrom line runs (nexts runs 0).1 runs.length 0 0

/-! ## From left to right -/

/-- What follows the nearest maximal run of `n` backticks. -/
def afterCloser (n : ℕ) : List Char → Option (List Char)
  | [] => none
  | c :: l =>
    if c ≠ tick then afterCloser n l
    else if (l.takeWhile (· = tick)).length + 1 = n then some (l.dropWhile (· = tick))
    else afterCloser n (l.dropWhile (· = tick))
termination_by l => l.length
decreasing_by
  all_goals simp only [List.length_cons]
  · omega
  · exact Nat.lt_succ_of_le (List.dropWhile_suffix _).length_le

theorem length_of_afterCloser {n : ℕ} {l rest : List Char} (h : afterCloser n l = some rest) :
    rest.length ≤ l.length := by
  fun_induction afterCloser n l with
  | case1 => cases h
  | case2 c l hc ih => exact (ih h).trans (Nat.le_succ _)
  | case3 c l hc hlen =>
    rw [← Option.some.inj h]
    exact (List.dropWhile_suffix _).length_le.trans (Nat.le_succ _)
  | case4 c l hc hlen ih =>
    exact (ih h).trans ((List.dropWhile_suffix _).length_le.trans (Nat.le_succ _))

/-- The line with each code span a space, where `slashes` backslashes stand right before it: an
    escaped backtick is text, and what follows it is a run of its own. -/
def masked (slashes : ℕ) : List Char → List Char
  | [] => []
  | c :: l =>
    if c ≠ tick then c :: masked (if c = '\\' then slashes + 1 else 0) l
    else
      let n := (l.takeWhile (· = tick)).length
      let rest := l.dropWhile (· = tick)
      let text := if slashes % 2 = 1 then [tick] else []
      match h : afterCloser (n + 1 - text.length) rest with
      | some rest => text ++ ' ' :: masked 0 rest
      | none => List.replicate (n + 1) tick ++ masked 0 rest
termination_by l => l.length
decreasing_by
  all_goals simp only [List.length_cons]
  · omega
  · exact Nat.lt_succ_of_le ((length_of_afterCloser h).trans (List.dropWhile_suffix _).length_le)
  · exact Nat.lt_succ_of_le (List.dropWhile_suffix _).length_le

/-! ## Texts and runs -/

variable {s p n m : ℕ} {t l rest : List Char}

/-- How many backslashes stand right before the end of a text. -/
def slashesAfter (s : ℕ) (t : List Char) : ℕ :=
  t.foldl (fun s c => if c = '\\' then s + 1 else 0) s

theorem afterCloser_text (ht : tick ∉ t) : afterCloser m (t ++ rest) = afterCloser m rest := by
  induction t with
  | nil => rfl
  | cons c t ih =>
    rw [List.mem_cons, not_or] at ht
    rw [List.cons_append, afterCloser, if_pos (Ne.symm ht.1), ih ht.2]

theorem afterCloser_run (hrest : rest.head? ≠ some tick) :
    afterCloser m (List.replicate (n + 1) tick ++ rest) =
      if n + 1 = m then some rest else afterCloser m rest := by
  rw [List.replicate_succ, List.cons_append, afterCloser, if_neg (not_not.2 rfl),
    Runs.takeWhile_run hrest, Runs.dropWhile_run hrest, List.length_replicate]

theorem masked_text (ht : tick ∉ t) :
    masked s (t ++ rest) = t ++ masked (slashesAfter s t) rest := by
  induction t generalizing s with
  | nil => rfl
  | cons c t ih =>
    rw [List.mem_cons, not_or] at ht
    rw [List.cons_append, masked, if_pos (Ne.symm ht.1), ih ht.2]
    rfl

theorem masked_tick : masked s (tick :: l) =
    let text := if s % 2 = 1 then [tick] else []
    match afterCloser ((l.takeWhile (· = tick)).length + 1 - text.length)
        (l.dropWhile (· = tick)) with
    | some rest => text ++ ' ' :: masked 0 rest
    | none => List.replicate ((l.takeWhile (· = tick)).length + 1) tick ++
        masked 0 (l.dropWhile (· = tick)) := by
  rw [masked, if_neg (not_not.2 rfl)]
  dsimp only
  split
  · rename_i h
    rw [h]
  · rename_i h
    rw [h]

/-- A run opens a span where a closer follows, perhaps without its first backtick. -/
theorem masked_run (hrest : rest.head? ≠ some tick) :
    masked s (List.replicate (n + 1) tick ++ rest) =
      let text := if s % 2 = 1 then [tick] else []
      match afterCloser (n + 1 - text.length) rest with
      | some after => text ++ ' ' :: masked 0 after
      | none => List.replicate (n + 1) tick ++ masked 0 rest := by
  rw [List.replicate_succ, List.cons_append, masked_tick, Runs.takeWhile_run hrest,
    Runs.dropWhile_run hrest, List.length_replicate, List.replicate_succ]

/-! ## The runs of the line -/

/-- The runs of a text that starts at a place of a line. -/
def runsFrom (p s : ℕ) (l : List Char) : List Run := (l.foldl Scan.next ⟨[], s, p⟩).runs.reverse

theorem foldl_text {runs : List Run} (ht : tick ∉ t) :
    t.foldl Scan.next ⟨runs, s, p⟩ = ⟨runs, slashesAfter s t, p + t.length⟩ := by
  induction t generalizing s p with
  | nil => rfl
  | cons c t ih =>
    rw [List.mem_cons, not_or] at ht
    rw [List.foldl_cons, Scan.next, if_pos (Ne.symm ht.1), ih ht.2, List.length_cons,
      Nat.add_comm t.length, ← Nat.add_assoc]
    rfl

theorem foldl_run {runs : List Run} (hfree : ∀ r ∈ runs.head?, r.start + r.len ≠ p) :
    (List.replicate (n + 1) tick).foldl Scan.next ⟨runs, s, p⟩ =
      ⟨⟨p, n + 1, s % 2 = 1⟩ :: runs, 0, p + (n + 1)⟩ := by
  induction n with
  | zero =>
    cases runs with
    | nil => rfl
    | cons r runs =>
      have hr : r.start + r.len ≠ p := hfree r rfl
      simp [Scan.next, Scan.tickAt, hr]
  | succ n ih =>
    rw [List.replicate_succ', List.foldl_append, ih, List.foldl_cons, List.foldl_nil]
    simp [Scan.next, Scan.tickAt, Nat.add_assoc]

/-- The runs known before stay as they are, when the text does not go on with the last one. -/
theorem runs_foldl {runs : List Run} (hle : ∀ r ∈ runs.head?, r.start + r.len ≤ p)
    (hfree : l.head? = some tick → ∀ r ∈ runs.head?, r.start + r.len ≠ p) :
    (l.foldl Scan.next ⟨runs, s, p⟩).runs = (l.foldl Scan.next ⟨[], s, p⟩).runs ++ runs := by
  induction l using Runs.induction_runs tick generalizing s p runs with
  | text t ht => rw [foldl_text ht, foldl_text ht, List.nil_append]
  | run t n rest ht hrest ih =>
    have hfree' : ∀ r ∈ runs.head?, r.start + r.len ≠ p + t.length := by
      intro r hr
      cases t with
      | nil => exact hfree rfl r hr
      | cons c t =>
        have := hle r hr
        rw [List.length_cons]
        omega
    have hafter : ∀ runs : List Run, (rest.foldl Scan.next
        ⟨⟨p + t.length, n + 1, slashesAfter s t % 2 = 1⟩ :: runs, 0, p + t.length + (n + 1)⟩).runs =
        _ := fun runs => ih (by simp) (fun h => absurd h hrest)
    rw [List.foldl_append, List.foldl_append, foldl_text ht, foldl_run hfree', List.foldl_append,
      List.foldl_append, foldl_text ht, foldl_run (by simp), hafter runs, hafter []]
    simp

theorem runsFrom_text (ht : tick ∉ t) : runsFrom p s t = [] := by
  rw [runsFrom, foldl_text ht]
  rfl

theorem runsFrom_run (ht : tick ∉ t) (hrest : rest.head? ≠ some tick) :
    runsFrom p s (t ++ List.replicate (n + 1) tick ++ rest) =
      ⟨p + t.length, n + 1, slashesAfter s t % 2 = 1⟩ ::
        runsFrom (p + t.length + (n + 1)) 0 rest := by
  rw [runsFrom, List.foldl_append, List.foldl_append, foldl_text ht, foldl_run (by simp),
    runs_foldl (by simp) (fun h => absurd h hrest), List.reverse_append]
  rfl

/-! ## The closers -/

theorem nearest_eq (runs : List Run) (k m : ℕ) :
    (nexts runs k).2 m = (runs.findIdx? fun r => r.len = m).map (· + k) := by
  induction runs generalizing k with
  | nil => rfl
  | cons r runs ih =>
    rw [nexts, List.findIdx?_cons]
    by_cases hr : m = r.len
    · simp [hr]
    · have hr' : ¬r.len = m := fun h => hr h.symm
      have hadd : ∀ i, i + (k + 1) = i + 1 + k := by omega
      simp [hr, hr', ih, Function.comp_def, hadd]

/-- The tables hold the nearest later runs. -/
theorem nexts_get (before after : List Run) (r : Run) (k : ℕ) :
    (nexts (before ++ r :: after) k).1[before.length]? = some
      ((after.findIdx? fun x => x.len = r.len).map (· + (k + before.length + 1)),
        (after.findIdx? fun x => x.len = r.len - 1).map (· + (k + before.length + 1))) := by
  induction before generalizing k with
  | nil => simp [nexts, nearest_eq]
  | cons x before ih =>
    have hadd : k + 1 + before.length + 1 = k + (before.length + 1) + 1 := by omega
    rw [List.cons_append, nexts, List.length_cons, List.getElem?_cons_succ, ih, hadd]

/-- The nearest run of a length closes a span where `afterCloser` says. -/
theorem closer_of_findIdx? (l : List Char) (p s m : ℕ) :
    (runsFrom p s l).findIdx? (fun r => r.len = m) = none ∧ afterCloser m l = none ∨
    ∃ before r mid rest, (runsFrom p s l).findIdx? (fun r => r.len = m) = some before.length ∧
      afterCloser m l = some rest ∧ l = mid ++ rest ∧ rest.head? ≠ some tick ∧
      runsFrom p s l = before ++ r :: runsFrom (p + mid.length) 0 rest ∧
      r.start + r.len = p + mid.length := by
  induction l using Runs.induction_runs tick generalizing p s with
  | text t ht =>
    left
    rw [runsFrom_text ht]
    refine ⟨rfl, ?_⟩
    have h : afterCloser m (t ++ []) = afterCloser m [] := afterCloser_text ht
    rwa [List.append_nil, afterCloser] at h
  | run t n rest ht hrest ih =>
    rw [runsFrom_run ht hrest, List.append_assoc, afterCloser_text ht, afterCloser_run hrest,
      List.findIdx?_cons]
    by_cases hm : n + 1 = m
    · right
      -- the first run is the closer
      rw [if_pos hm, if_pos (decide_eq_true hm)]
      have hlen : p + (t ++ List.replicate (n + 1) tick).length = p + t.length + (n + 1) := by
        rw [List.length_append, List.length_replicate, Nat.add_assoc]
      refine ⟨[], ⟨p + t.length, n + 1, slashesAfter s t % 2 = 1⟩, t ++ List.replicate (n + 1) tick,
        rest, rfl, rfl, by simp, hrest, ?_, ?_⟩
      · rw [hlen]
        rfl
      · rw [hlen]
    · rw [if_neg hm, if_neg (by simpa using hm)]
      -- the closer comes later, or not at all
      rcases ih (p + t.length + (n + 1)) 0 with ⟨hfind, hafter⟩ |
        ⟨before, r, mid, last, hfind, hafter, rfl, hlast, hruns, hend⟩
      · left
        exact ⟨by rw [hfind]; rfl, hafter⟩
      · right
        have hlen : p + (t ++ (List.replicate (n + 1) tick ++ mid)).length =
            p + t.length + (n + 1) + mid.length := by
          simp only [List.length_append, List.length_replicate]
          omega
        refine ⟨⟨p + t.length, n + 1, slashesAfter s t % 2 = 1⟩ :: before, r,
          t ++ (List.replicate (n + 1) tick ++ mid), last, ?_, hafter, ?_, hlast, ?_, ?_⟩
        · rw [hfind]
          rfl
        · simp
        · rw [hruns, hlen]
          rfl
        · rw [hend, hlen]

theorem afterCloser_zero (l : List Char) : afterCloser 0 l = none := by
  fun_induction afterCloser 0 l <;> simp_all

/-! ## The two agree -/

theorem take_drop_append {u v : List Char} {k : ℕ} (hk : k ≤ u.length) :
    ((u ++ v).drop k).take (u.length - k) = u.drop k := by
  rw [List.drop_append_of_le_length hk, List.take_left' (by simp)]

section Copy

variable {line pre : List Char} {earlier later runs : List Run} {next : List (Option ℕ × Option ℕ)}
  {fuel copied k : ℕ} {r : Run}

theorem copyFrom_end (h : runs.length ≤ k) : copyFrom line runs next fuel k copied = line.drop copied := by
  cases fuel with
  | zero => rfl
  | succ fuel => rw [copyFrom, List.getElem?_eq_none h]

/-- The part of a run that is text before a span. -/
def escapedPart (r : Run) : List Char := if r.escaped then [tick] else []

/-- One step of the copy: the span that a run opens, or none. -/
theorem copyFrom_step (hruns : runs = earlier ++ r :: later) (hlen : 0 < r.len)
    (hlater : ∀ x ∈ later, 0 < x.len) :
    copyFrom line runs (nexts runs 0).1 (fuel + 1) earlier.length copied =
      match later.findIdx? fun x => x.len = r.len - (escapedPart r).length with
      | some i =>
        let closer := runs[earlier.length + 1 + i]?.getD r
        (line.drop copied).take (r.start + (escapedPart r).length - copied) ++
          ' ' :: copyFrom line runs (nexts runs 0).1 fuel (earlier.length + 1 + i + 1)
            (closer.start + closer.len)
      | none => copyFrom line runs (nexts runs 0).1 fuel (earlier.length + 1) copied := by
  have hget : runs[earlier.length]? = some r := by simp [hruns]
  have hnext := nexts_get earlier later r 0
  rw [← hruns, Nat.zero_add] at hnext
  have hcomm : ∀ i, i + (earlier.length + 1) = earlier.length + 1 + i := fun i => Nat.add_comm _ _
  rw [copyFrom, hget, hnext]
  by_cases hesc : r.escaped = true
  · -- the escaped backtick is text, and the rest of the run opens a span
    have hpart : (escapedPart r).length = 1 := by simp [escapedPart, hesc]
    by_cases hone : 1 < r.len
    · cases hfind : later.findIdx? fun x => x.len = r.len - 1 <;>
        simp [hesc, hone, hpart, hfind, hcomm]
    · -- no run has length 0, which is what would be left of this one
      have hnone : (later.findIdx? fun x => x.len = r.len - 1) = none := by
        rw [List.findIdx?_eq_none_iff]
        intro x hx
        have := hlater x hx
        simp only [decide_eq_false_iff_not]
        omega
      simp [hesc, hone, hpart, hnone]
  · have hpart : (escapedPart r).length = 0 := by simp [escapedPart, hesc]
    cases hfind : later.findIdx? fun x => x.len = r.len <;>
      simp [hesc, hpart, hfind, hcomm]

theorem len_pos_of_mem_runsFrom {p s : ℕ} {l : List Char} {r : Run} (h : r ∈ runsFrom p s l) :
    0 < r.len := by
  induction l using Runs.induction_runs tick generalizing p s with
  | text t ht =>
    rw [runsFrom_text ht] at h
    cases h
  | run t n rest ht hrest ih =>
    rw [runsFrom_run ht hrest, List.mem_cons] at h
    rcases h with rfl | h
    · exact Nat.succ_pos _
    · exact ih h

/-- The text before a span starts its run. -/
theorem escapedPart_append (hlen : 0 < r.len) :
    List.replicate r.len tick =
      escapedPart r ++ List.replicate (r.len - (escapedPart r).length) tick := by
  obtain ⟨m, hm⟩ := Nat.exists_eq_add_of_lt hlen
  rw [Nat.zero_add] at hm
  by_cases hesc : r.escaped = true <;> simp [escapedPart, hesc, hm, List.replicate_succ]

/-- Behind `pre`, of which the part from `copied` on is not copied yet, the copy masks what
    is left. -/
theorem copyFrom_eq {l : List Char} {s : ℕ} (hline : line = pre ++ l)
    (hruns : runs = earlier ++ runsFrom pre.length s l)
    (hfuel : (runsFrom pre.length s l).length ≤ fuel) (hcopied : copied ≤ pre.length) :
    copyFrom line runs (nexts runs 0).1 fuel earlier.length copied =
      pre.drop copied ++ masked s l := by
  -- the copy goes on behind a closer, not behind the next run, so the induction is on the length
  induction hn : l.length using Nat.strongRecOn generalizing pre l earlier s fuel copied with
  | _ n ih =>
    rcases Runs.cut tick l with ht | ⟨t, k, rest, ht, hrest, rfl⟩
    · rw [runsFrom_text ht, List.append_nil] at hruns
      have hmask : masked s (l ++ []) = l ++ masked (slashesAfter s l) [] := masked_text ht
      rw [List.append_nil, masked, List.append_nil] at hmask
      rw [copyFrom_end (by rw [hruns]), hline, hmask, List.drop_append_of_le_length hcopied]
    · rw [runsFrom_run ht hrest] at hruns hfuel
      set r : Run := ⟨pre.length + t.length, k + 1, slashesAfter s t % 2 = 1⟩ with hr
      have hpart : escapedPart r = if slashesAfter s t % 2 = 1 then [tick] else [] := by
        simp [escapedPart, hr]
      obtain ⟨fuel, rfl⟩ : ∃ f, fuel = f + 1 := ⟨fuel - 1, by simp at hfuel; omega⟩
      rw [copyFrom_step hruns (Nat.succ_pos k) fun x hx => len_pos_of_mem_runsFrom hx,
        List.append_assoc t, masked_text ht, masked_run hrest, ← hpart]
      dsimp only
      have hlen : (pre ++ (t ++ List.replicate (k + 1) tick)).length =
          pre.length + t.length + (k + 1) := by
        simp [Nat.add_assoc]
      rcases closer_of_findIdx? rest (pre.length + t.length + (k + 1)) 0
          (k + 1 - (escapedPart r).length) with ⟨hfind, hafter⟩ |
        ⟨before, closer, mid, last, hfind, hafter, rfl, hlast, hclose, hend⟩
      · rw [hfind, hafter]
        have hline' : line = (pre ++ (t ++ List.replicate (k + 1) tick)) ++ rest := by
          rw [hline]
          simp
        have hruns' : runs = (earlier ++ [r]) ++
            runsFrom (pre ++ (t ++ List.replicate (k + 1) tick)).length 0 rest := by
          rw [hruns, hlen]
          simp
        have hfuel' : (runsFrom (pre ++ (t ++ List.replicate (k + 1) tick)).length 0 rest).length ≤
            fuel := by
          rw [hlen]
          exact Nat.le_of_succ_le_succ hfuel
        have hstep := ih rest.length (by simp at hn; omega) hline' hruns' hfuel'
          (hcopied.trans (by rw [hlen]; omega)) rfl
        rw [List.length_append, List.length_singleton] at hstep
        dsimp only
        rw [hstep, List.drop_append_of_le_length hcopied]
        simp
      · rw [hfind, hafter]
        have hline' : line =
            (pre ++ (t ++ List.replicate (k + 1) tick ++ mid)) ++ last := by
          rw [hline]
          simp
        have hlen' : (pre ++ (t ++ List.replicate (k + 1) tick ++ mid)).length =
            pre.length + t.length + (k + 1) + mid.length := by
          simp [Nat.add_assoc]
        have hruns' : runs = (earlier ++ r :: before ++ [closer]) ++
            runsFrom (pre ++ (t ++ List.replicate (k + 1) tick ++ mid)).length 0 last := by
          rw [hruns, hclose, hlen']
          simp
        have hget : runs[earlier.length + 1 + before.length]? = some closer := by
          rw [hruns, hclose, List.getElem?_append_right (by omega)]
          have hsub : earlier.length + 1 + before.length - earlier.length = before.length + 1 := by
            omega
          rw [hsub, List.getElem?_cons_succ, List.getElem?_append_right le_rfl, Nat.sub_self]
          rfl
        have hfuel' : (runsFrom (pre ++ (t ++ List.replicate (k + 1) tick ++ mid)).length 0
            last).length ≤ fuel := by
          rw [hclose] at hfuel
          rw [hlen']
          simp only [List.length_cons, List.length_append] at hfuel
          omega
        have hstep := ih last.length (by simp at hn; omega) hline' hruns' hfuel' le_rfl rfl
        rw [List.drop_length, List.nil_append] at hstep
        -- the text goes on up to the span, its escaped backtick included
        have hopen : (line.drop copied).take (r.start + (escapedPart r).length - copied) =
            pre.drop copied ++ (t ++ escapedPart r) := by
          have hpos : 0 < r.len := Nat.succ_pos k
          have hsplit : List.replicate (k + 1) tick = _ := escapedPart_append hpos
          have hspan : r.start + (escapedPart r).length = (pre ++ (t ++ escapedPart r)).length := by
            simp [hr, Nat.add_assoc]
          have hpre : ∀ u v w x y : List Char,
              u ++ (v ++ (w ++ x) ++ y) = (u ++ (v ++ w)) ++ (x ++ y) := by simp
          rw [hspan, hline, hsplit, hpre, take_drop_append (hcopied.trans (by simp)),
            List.drop_append_of_le_length hcopied]
        have hclose : closer.start + closer.len =
            (pre ++ (t ++ List.replicate (k + 1) tick ++ mid)).length := by
          rw [hlen', hend]
        have hnum : earlier.length + 1 + before.length + 1 =
            (earlier ++ r :: before ++ [closer]).length := by
          simp
          omega
        dsimp only
        rw [hopen, hget, Option.getD_some, hclose, hnum, hstep]
        simp

end Copy

/-- Blanking out with the tables is blanking out from left to right. -/
theorem withoutInlineCode_eq (line : List Char) : withoutInlineCode line = masked 0 line := by
  have hruns : backtickRuns line = [] ++ runsFrom ([] : List Char).length 0 line := rfl
  exact copyFrom_eq (List.nil_append line).symm hruns le_rfl le_rfl

end Anthrex.Design
