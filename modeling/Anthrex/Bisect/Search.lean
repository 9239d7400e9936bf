import Anthrex.Bisect.Engine

/-!
# What a bisect blames

The search keeps `lo < hi`, a green probe at `lo` and a red one at `hi`, whatever the
results of its probes, and however often they are lost or issued again. So the merge it
blames turned the tests red: it was probed red and its predecessor green
(`culprit_run`). When the verdicts are monotone, it is the first red merge.
-/

namespace Anthrex.Bisect

/-- Where a probe is in the line: after the base and the first `p` candidates. -/
def position (b : BisectRecord) : Probe → ℕ
  | .base => 0
  | .head => b.candidates.length
  | .mid p => p

/-- The results so far are green before the candidate `k`, and red from it on. -/
def Monotone (b : BisectRecord) (k : ℕ) : Prop :=
  ∀ probe red, (probe, red) ∈ b.results → (red = true ↔ k < position b probe)

/-- The search between its ends, as its probes found them. -/
structure Sound (b : BisectRecord) : Prop where
  lo_lt_hi : b.lo < b.hi
  hi_le : b.hi ≤ b.candidates.length
  head : b.candidates.getLast?.map commitOf = some b.head
  count : b.results.length = b.probes
  base : 1 ≤ b.probes → (.base, false) ∈ b.results
  redHead : 2 ≤ b.probes → (.head, true) ∈ b.results
  lo : b.lo = 0 ∨ (.mid b.lo, false) ∈ b.results
  hi : b.hi = b.candidates.length ∨ (.mid b.hi, true) ∈ b.results
  mids : ∀ p red, (.mid p, red) ∈ b.results → 1 ≤ p ∧ p < b.candidates.length
  /-- Each probe of the search halves it. -/
  halved : 2 ≤ b.probes → 2 ^ (b.probes - 2) * (b.hi - b.lo - 1) < b.candidates.length
  probes_le : b.probes ≤ 2 + Nat.clog 2 b.candidates.length
  early : b.probes < 2 → b.lo = 0 ∧ b.hi = b.candidates.length

/-- A bisect that has not ended: more than one merge is left, and the probe in flight is
    the one due. -/
structure Open (b : BisectRecord) : Prop extends Sound b where
  wide : 2 ≤ b.probes → b.lo + 2 ≤ b.hi
  due : ∀ op probe, b.probe = some (op, probe) → probe = due b

variable {b b' : BisectRecord} {n : ℕ} {r : Run}

theorem due_mid (hb : Open b) {p : ℕ} (h : Bisect.due b = .mid p) :
    2 ≤ b.probes ∧ p = (b.lo + b.hi) / 2 ∧ b.lo < p ∧ p < b.hi := by
  obtain ⟨head, tests, base, candidates, lo, hi, probe, probes, _, _, _, _⟩ := b
  match probes, h, hb.wide with
  | 0, h, _ | 1, h, _ => cases h
  | k + 2, h, hw =>
    cases h
    have hw := hw (by simp)
    simp only at hw ⊢
    exact ⟨by simp, trivial, by omega, by omega⟩

/-- A probe of the search is at one of the candidates. -/
theorem probeCommit_mid (hb : Open b) {p : ℕ} (h : Bisect.due b = .mid p) :
    1 ≤ p ∧ p < b.candidates.length ∧
      ∃ m, b.candidates[p - 1]? = some m ∧ probeCommit b (.mid p) = commitOf m := by
  obtain ⟨-, -, hlo, hhi⟩ := due_mid hb h
  have hlen := hb.hi_le
  have hp : p - 1 < b.candidates.length := by omega
  refine ⟨by omega, by omega, b.candidates[p - 1], List.getElem?_eq_getElem hp, ?_⟩
  have hp0 : p ≠ 0 := by omega
  simp only [probeCommit, hp0, if_false, List.getElem?_eq_getElem hp, Option.map_some,
    Option.getD_some]

/-- The record once the result of the probe in flight is in. -/
def withResult (b : BisectRecord) (probe : Probe) (red : Bool) : BisectRecord :=
  { b with
    probe := none, probes := b.probes + 1, infra := 0, results := (probe, red) :: b.results }

/-- A further probe of the search is within the bound. -/
theorem succ_probes_le (hb : Open b) (h2 : 2 ≤ b.probes) :
    b.probes + 1 ≤ 2 + Nat.clog 2 b.candidates.length := by
  have hwide := hb.wide h2
  have hpow : 2 ^ (b.probes - 2) < b.candidates.length := by
    calc 2 ^ (b.probes - 2) ≤ 2 ^ (b.probes - 2) * (b.hi - b.lo - 1) :=
          Nat.le_mul_of_pos_right _ (by omega)
      _ < b.candidates.length := hb.halved h2
  have hlt := (Nat.lt_clog_iff_pow_lt one_lt_two).2 hpow
  omega

/-- The search narrowed by a result of its middle: half of it is left. -/
theorem Sound.narrow_mid (hb : Open b) (h2 : 2 ≤ b.probes) {lo hi : ℕ} {red : Bool}
    {«show» : Option String}
    (hlohi : lo < hi) (hle : hi ≤ b.candidates.length)
    (hhalf : 2 * (hi - lo - 1) ≤ b.hi - b.lo - 1)
    (hlo : lo = 0 ∨ (.mid lo, false) ∈ (due b, red) :: b.results)
    (hhi : hi = b.candidates.length ∨ (.mid hi, true) ∈ (due b, red) :: b.results) :
    Sound { withResult b (due b) red with lo, hi, «show» } := by
  -- what the earlier probes said stays, and the new result is one of the two bounds
  refine ⟨hlohi, hle, hb.head, by simp [withResult, hb.count], fun _ => ?_, fun _ => ?_, hlo, hhi,
    fun p red' hp => ?_, fun _ => ?_, succ_probes_le hb h2, fun h => ?_⟩
  · exact List.mem_cons_of_mem _ (hb.base (by omega))
  · exact List.mem_cons_of_mem _ (hb.redHead h2)
  · rcases List.mem_cons.1 hp with hp | hp
    · obtain ⟨h1, h2, -⟩ := probeCommit_mid hb (Prod.mk.inj hp).1.symm
      exact ⟨h1, h2⟩
    · exact hb.mids p red' hp
  · -- each probe of the middle halves what is left between the bounds
    have hexp : (withResult b (due b) red).probes - 2 = b.probes - 2 + 1 := by
      simp only [withResult]
      omega
    calc 2 ^ ((withResult b (due b) red).probes - 2) * (hi - lo - 1)
        = 2 ^ (b.probes - 2) * (2 * (hi - lo - 1)) := by rw [hexp]; ring
      _ ≤ 2 ^ (b.probes - 2) * (b.hi - b.lo - 1) := Nat.mul_le_mul_left _ hhalf
      _ < b.candidates.length := hb.halved h2
  · simp only [withResult] at h
    omega

/-- A result of the probe due narrows the search soundly. -/
theorem Sound.narrow (hb : Open b) {floor «show» : Option String} {red : Bool}
    (h : Run.narrow (withResult b (due b) red) floor (due b) red «show» = .ok b') :
    Sound b' ∧ b'.probe = none := by
  match hd : due b, red with
  | .base, true | .head, false =>
    -- a red base or a green head ends the bisect
    simp [Run.narrow, hd] at h
  | .base, false =>
    simp only [Run.narrow, hd, Except.ok.injEq] at h
    subst h
    -- the base is probed first
    have h0 : b.probes = 0 := by
      rw [Bisect.due] at hd
      split at hd <;> simp_all
    obtain ⟨hlo, hhi⟩ := hb.early (by omega)
    refine ⟨⟨hb.lo_lt_hi, hb.hi_le, hb.head, by simp [withResult, hb.count],
      fun _ => List.mem_cons_self, fun h => ?_, .inl hlo, .inl hhi, fun p red hp => ?_, fun h => ?_,
      ?_, fun _ => ⟨hlo, hhi⟩⟩, rfl⟩
    · simp [withResult, h0] at h
    · exact hb.mids p red ((List.mem_cons.1 hp).resolve_left (by simp))
    · simp [withResult, h0] at h
    · simp only [withResult, h0]
      omega
  | .head, true =>
    simp only [Run.narrow, hd, Except.ok.injEq] at h
    subst h
    have h1 : b.probes = 1 := by
      rw [Bisect.due] at hd
      split at hd <;> simp_all
    obtain ⟨hlo, hhi⟩ := hb.early (by omega)
    refine ⟨⟨hb.lo_lt_hi, hb.hi_le, hb.head, by simp [withResult, hb.count],
      fun _ => List.mem_cons_of_mem _ (hb.base h1.ge), fun _ => List.mem_cons_self, .inl hlo,
      .inl hhi, fun p red hp => ?_, fun _ => ?_, ?_, fun h => ?_⟩, rfl⟩
    · exact hb.mids p red ((List.mem_cons.1 hp).resolve_left (by simp))
    · have hpos := hb.lo_lt_hi
      simp only [withResult, h1, hlo, hhi]
      omega
    · simp only [withResult, h1]
      omega
    · simp [withResult, h1] at h
  | .mid p, true =>
    obtain ⟨h2, hp, hlo, hhi⟩ := due_mid hb hd
    simp only [Run.narrow, hd, Except.ok.injEq] at h
    subst h
    have hle := hb.hi_le
    have hhalf : 2 * (p - b.lo - 1) ≤ b.hi - b.lo - 1 := by omega
    rw [← hd]
    refine ⟨Sound.narrow_mid hb h2 hlo (by omega) hhalf ?_ (.inr (by rw [hd]; simp)), rfl⟩
    exact hb.lo.imp_right (List.mem_cons_of_mem _)
  | .mid p, false =>
    obtain ⟨h2, hp, hlo, hhi⟩ := due_mid hb hd
    simp only [Run.narrow, hd, Except.ok.injEq] at h
    subst h
    have hhalf : 2 * (b.hi - p - 1) ≤ b.hi - b.lo - 1 := by omega
    rw [← hd]
    refine ⟨Sound.narrow_mid hb h2 hhi hb.hi_le hhalf (.inr (by rw [hd]; simp)) ?_, rfl⟩
    exact hb.hi.imp_right (List.mem_cons_of_mem _)

/-- The range of a bisect is not empty, and ends at the head. -/
theorem getLast?_range {s : StageRecord} {head base : String} {how : BisectRange}
    {candidates : List StageMerge} (h : range s head how = some (base, candidates)) :
    candidates.getLast?.map commitOf = some head := by
  simp only [range, Option.bind_eq_some_iff, Option.map_eq_some_iff, Option.ite_none_right_eq_some,
    Option.some.injEq, Prod.mk.injEq] at h
  obtain ⟨last, ⟨k, hk, rfl⟩, hfrom, -, rfl⟩ := h
  rw [List.findIdx?_eq_some_iff_getElem] at hk
  obtain ⟨hlt, hcommit, -⟩ := hk
  rw [List.getElem_reverse, decide_eq_true_eq] at hcommit
  rw [List.length_reverse] at hlt
  have hlast : s.merges.length - 1 - k < s.merges.length := by omega
  rw [List.getLast?_drop, List.length_take, if_neg (by omega), List.getLast?_take,
    if_neg (by omega), Nat.add_sub_cancel, List.getElem?_eq_getElem hlast, Option.some_or,
    Option.map_some, hcommit]

/-! ## The bisects of a run -/

/-- `m` is what a bisect that has narrowed its search to one merge blames. -/
structure Blames (b : BisectRecord) (m : StageMerge) : Prop extends Sound b where
  two_le : 2 ≤ b.probes
  one : b.hi - b.lo ≤ 1
  merge : b.candidates[b.hi - 1]? = some m

/-- The result that names a merge: a task's is the culprit, a propagate's is none. -/
def naming : StageMerge → BisectResult
  | .task id _ => .culprit id
  | .propagate «from» _ => .none (.firstRedPropagate «from»)

/-- An ended bisect that names a merge blames it, and none ends with nothing left. -/
def Justified (e : BisectEnd) : Prop :=
  e.result ≠ .none .nothingLeft ∧
    ∀ m, e.result = naming m → ∃ m', Blames e.bisect m' ∧ e.result = naming m'

/-- A bisect that ended for another reason than its search names no merge. -/
theorem justified_of_ne {n : ℕ} {b : BisectRecord} {reason : NoCulprit}
    (h : reason ≠ .nothingLeft) (hp : ∀ k, reason ≠ .firstRedPropagate k) :
    Justified ⟨n, b, .none reason⟩ := by
  refine ⟨by simpa using h, fun m hm => ?_⟩
  cases m with
  | task => cases hm
  | propagate k => exact absurd (BisectResult.none.inj hm) (hp k)

/-- The invariant of a run's bisects. -/
structure Inv (r : Run) : Prop where
  bisects : ∀ s ∈ r.stages, ∀ b, s.bisect = some b → Open b
  issued : ∀ t ∈ r.issued, Open t.bisect ∧ t.probe = Bisect.due t.bisect ∧
    t.commit = probeCommit t.bisect t.probe
  ended : ∀ e ∈ r.ended, Justified e
  /-- At most one stage is bisected. -/
  single : (r.stages.filterMap (·.bisect)).length ≤ 1

theorem updateFirst_cons {α : Type} (p : α → Bool) (f : α → α) (a : α) (l : List α) :
    updateFirst p f (a :: l) = if p a then f a :: l else a :: updateFirst p f l := rfl

theorem mem_updateFirst {α : Type} {p : α → Bool} {f : α → α} {l : List α} {a : α}
    (h : a ∈ updateFirst p f l) : a ∈ l ∨ ∃ a' ∈ l, p a' ∧ a = f a' := by
  induction l with
  | nil => exact absurd h List.not_mem_nil
  | cons x l ih =>
    rw [updateFirst_cons] at h
    split_ifs at h with hp
    · rcases List.mem_cons.1 h with rfl | h
      · exact .inr ⟨x, List.mem_cons_self, hp, rfl⟩
      · exact .inl (List.mem_cons_of_mem _ h)
    · rcases List.mem_cons.1 h with rfl | h
      · exact .inl List.mem_cons_self
      · rcases ih h with h | ⟨a', ha', hp', he⟩
        · exact .inl (List.mem_cons_of_mem _ h)
        · exact .inr ⟨a', List.mem_cons_of_mem _ ha', hp', he⟩

namespace Run

theorem stage_setBisect (r : Run) (n : ℕ) (b : Option BisectRecord) :
    (r.setBisect n b).stage n = (r.stage n).map fun s => { s with bisect := b } := by
  simp only [stage, setBisect]
  induction r.stages with
  | nil => rfl
  | cons s l ih =>
    by_cases h : s.n = n
    · simp [updateFirst_cons, h]
    · simpa [updateFirst_cons, h] using ih

theorem bisectOf_setBisect (h : (r.bisectOf n).isSome) (b : Option BisectRecord) :
    (r.setBisect n b).bisectOf n = b := by
  rw [bisectOf] at h
  rw [bisectOf, stage_setBisect]
  cases hs : r.stage n with
  | none => simp [hs] at h
  | some s => simp

theorem setBisect_setBisect (r : Run) (n : ℕ) (b b' : Option BisectRecord) :
    (r.setBisect n b).setBisect n b' = r.setBisect n b' := by
  have hupdate : ∀ l : List StageRecord,
      updateFirst (·.n = n) (fun s => { s with bisect := b' })
        (updateFirst (·.n = n) (fun s => { s with bisect := b }) l) =
      updateFirst (·.n = n) (fun s => { s with bisect := b' }) l := by
    intro l
    induction l with
    | nil => rfl
    | cons s l ih =>
      by_cases h : s.n = n
      · simp [updateFirst_cons, h]
      · simpa [updateFirst_cons, h] using ih
  simp only [setBisect, hupdate]

/-- A bisect in the place of another, or of none, adds none. -/
theorem length_setBisect_le {b : Option BisectRecord} (h : (r.bisectOf n).isSome ∨ b = none) :
    ((r.setBisect n b).stages.filterMap (·.bisect)).length ≤
      (r.stages.filterMap (·.bisect)).length := by
  simp only [bisectOf, stage, setBisect] at h ⊢
  generalize r.stages = l at h ⊢
  induction l with
  | nil => exact le_rfl
  | cons s l ih =>
    by_cases hn : s.n = n
    · cases hs : s.bisect <;> cases b <;> simp_all [updateFirst_cons]
    · simp only [updateFirst_cons, hn, decide_false, Bool.false_eq_true, if_false, List.find?_cons] at h ⊢
      cases hs : s.bisect <;> simpa [hs] using ih h

theorem length_setBisect_le_succ (r : Run) (n : ℕ) (b : Option BisectRecord) :
    ((r.setBisect n b).stages.filterMap (·.bisect)).length ≤
      (r.stages.filterMap (·.bisect)).length + 1 := by
  simp only [setBisect]
  induction r.stages with
  | nil => exact Nat.zero_le _
  | cons s l ih =>
    by_cases hn : s.n = n
    · cases hs : s.bisect <;> cases b <;> simp [updateFirst_cons, hn, hs]
      omega
    · cases hs : s.bisect <;> (simp [updateFirst_cons, hn, hs]; omega)

end Run

theorem Inv.bisectOf (hr : Inv r) (h : r.bisectOf n = some b) : Open b := by
  obtain ⟨s, hs, hb⟩ := Option.bind_eq_some_iff.1 h
  exact hr.bisects s (List.mem_of_find?_eq_some hs) b hb

/-- The one bisect of a run. -/
theorem Inv.unique (hr : Inv r) {s s' : StageRecord} (hs : s ∈ r.stages) (hs' : s' ∈ r.stages)
    (hb : s.bisect = some b) (hb' : s'.bisect = some b') : b = b' := by
  have hmem := List.mem_filterMap.2 ⟨s, hs, hb⟩
  have hmem' := List.mem_filterMap.2 ⟨s', hs', hb'⟩
  obtain ⟨x, hx⟩ := List.length_eq_one_iff.1 (le_antisymm hr.single (List.length_pos_of_mem hmem))
  rw [hx, List.mem_singleton] at hmem hmem'
  rw [hmem, hmem']

theorem Inv.setBisect (hr : Inv r) {b : Option BisectRecord}
    (h : (r.bisectOf n).isSome ∨ b = none) (hb : ∀ b', b = some b' → Open b') :
    Inv (r.setBisect n b) := by
  refine ⟨fun s hs b' hb' => ?_, hr.issued, hr.ended, (Run.length_setBisect_le h).trans hr.single⟩
  rcases mem_updateFirst hs with hs | ⟨s', -, -, rfl⟩
  · exact hr.bisects s hs b' hb'
  · exact hb b' hb'

theorem Inv.clearFull (hr : Inv r) (op : ℕ) : Inv (r.clearFull op) :=
  ⟨hr.bisects, hr.issued, hr.ended, hr.single⟩

theorem Inv.record (hr : Inv r) (n : ℕ) {b : BisectRecord} {result : BisectResult}
    (h : Justified ⟨n, b, result⟩) : Inv (r.record n b result) := by
  have hnone := hr.setBisect (n := n) (.inr rfl) (by simp)
  exact ⟨hnone.bisects, hnone.issued, List.forall_mem_cons.2 ⟨h, hr.ended⟩, hnone.single⟩

/-- A bisect ends, also one that is no longer open. -/
theorem Inv.end_setBisect (hr : Inv r) (hsome : (r.bisectOf n).isSome) {reason : NoCulprit}
    (h : Justified ⟨n, b, .none reason⟩) : Inv ((r.setBisect n (some b)).end n reason) := by
  have hrecord : ∀ r' : Run, (r'.setBisect n (some b)).record n b (.none reason) =
      r'.record n b (.none reason) := fun r' => by
    rw [Run.record, Run.setBisect_setBisect]
    rfl
  simp only [Run.end, Run.bisectOf_setBisect hsome]
  split
  case h_1 op _ _ =>
    rw [show (r.setBisect n (some b)).clearFull op = (r.clearFull op).setBisect n (some b) from rfl,
      hrecord]
    exact (hr.clearFull op).record n h
  case h_2 =>
    rw [hrecord]
    exact hr.record n h

theorem Inv.end (hr : Inv r) (n : ℕ) {reason : NoCulprit}
    (h : ∀ b, Justified ⟨n, b, .none reason⟩) : Inv (r.end n reason) := by
  rw [Run.end]
  cases r.bisectOf n with
  | none => exact hr
  | some b =>
    simp only
    split
    · exact (hr.clearFull _).record n (h b)
    · exact hr.record n (h b)

/-- The bisect that has narrowed its search to one merge ends with it. -/
theorem Inv.culprit (hr : Inv r) (hsome : (r.bisectOf n).isSome) (hb : Sound b)
    (h2 : 2 ≤ b.probes) (h1 : b.hi - b.lo ≤ 1) : Inv ((r.setBisect n (some b)).culprit n) := by
  have hlt := hb.lo_lt_hi
  have hle := hb.hi_le
  have hhi : b.hi ≠ 0 := by omega
  have hidx : b.hi - 1 < b.candidates.length := by omega
  have hm := List.getElem?_eq_getElem hidx
  simp only [Run.culprit, Run.bisectOf_setBisect hsome, if_neg hhi, hm]
  cases hc : b.candidates[b.hi - 1] with
  | task id commit =>
    have hrecord : (r.setBisect n (some b)).record n b (.culprit id) = r.record n b (.culprit id) := by
      rw [Run.record, Run.setBisect_setBisect]
      rfl
    simp only [hrecord]
    exact hr.record n ⟨by simp, fun _ _ => ⟨_, ⟨hb, h2, h1, hm.trans (congrArg some hc)⟩, rfl⟩⟩
  | propagate k commit =>
    exact hr.end_setBisect hsome
      ⟨by simp, fun _ _ => ⟨_, ⟨hb, h2, h1, hm.trans (congrArg some hc)⟩, rfl⟩⟩

theorem Inv.issue (hr : Inv r) (n : ℕ) : Inv (r.issue n) := by
  rw [Run.issue]
  split_ifs with hstate
  · exact hr
  cases hb : r.bisectOf n with
  | none => exact hr
  | some b =>
    cases r.singleTest with
    | none => exact hr
    | some single =>
      have hopen := hr.bisectOf hb
      have hset := hr.setBisect (n := n)
        (b := some { b with probe := some (r.nextOp, Bisect.due b) }) (.inl (by simp [hb]))
        fun b' hb' => by
          cases hb'
          refine ⟨⟨hopen.lo_lt_hi, hopen.hi_le, hopen.head, hopen.count, hopen.base, hopen.redHead,
            hopen.lo, hopen.hi, hopen.mids, hopen.halved, hopen.probes_le, hopen.early⟩, hopen.wide,
            fun op probe hp => ?_⟩
          cases hp
          rfl
      exact ⟨hset.bisects, List.forall_mem_cons.2 ⟨⟨hopen, rfl, rfl⟩, hset.issued⟩, hset.ended,
        hset.single⟩

/-- A search narrowed to one merge ends with it; else its next probe is issued. -/
theorem Inv.probed (hr : Inv r) {red : Bool} {«show» : Option String} (hb : r.bisectOf n = some b) :
    Inv ((r.setBisect n (some (withResult b (Bisect.due b) red))).probed n (Bisect.due b) red
      «show») := by
  have hopen := hr.bisectOf hb
  have hsome : (r.bisectOf n).isSome := by simp [hb]
  simp only [Run.probed, Run.bisectOf_setBisect hsome]
  split
  case h_1 reason hn =>
    refine hr.end_setBisect hsome ?_
    unfold Run.narrow at hn
    split at hn <;> cases hn <;> exact justified_of_ne (by simp) (by simp)
  case h_2 b' hn =>
    obtain ⟨hsound, hprobe⟩ := Sound.narrow hopen hn
    rw [Run.setBisect_setBisect]
    split_ifs with hone
    · exact hr.culprit hsome hsound hone.1 hone.2
    · refine (hr.setBisect (.inl hsome) fun b'' hb'' => ?_).issue n
      cases hb''
      exact ⟨hsound, fun h2 => by omega, by simp [hprobe]⟩

theorem findProbe_eq_some {op : ℕ} {probe : Probe} (h : r.findProbe op = some (n, probe)) :
    ∃ s ∈ r.stages, s.n = n ∧ ∃ b, s.bisect = some b ∧ b.probe = some (op, probe) := by
  obtain ⟨s, hs, h⟩ := List.exists_of_findSome?_eq_some h
  obtain ⟨b, hb, h⟩ := Option.bind_eq_some_iff.1 h
  obtain ⟨⟨op', probe'⟩, hp, h⟩ := Option.bind_eq_some_iff.1 h
  simp only [Option.ite_none_right_eq_some, Option.some.injEq, Prod.mk.injEq] at h
  obtain ⟨rfl, rfl, rfl⟩ := h
  exact ⟨s, hs, rfl, b, hb, hp⟩

/-- A bisect whose probe is no longer in flight. -/
theorem Open.idle (hb : Open b) {infra retryAt : ℕ} :
    Open { b with probe := none, infra, retryAt } :=
  ⟨⟨hb.lo_lt_hi, hb.hi_le, hb.head, hb.count, hb.base, hb.redHead, hb.lo, hb.hi, hb.mids, hb.halved,
    hb.probes_le, hb.early⟩, hb.wide, by simp⟩

theorem Inv.probeDone (hr : Inv r) (op : ℕ) (result : Run.OpResult) (now : ℕ)
    (ending : ℕ → Bool) : Inv (r.probeDone op result now ending) := by
  rw [Run.probeDone]
  cases hfind : r.findProbe op with
  | none => exact hr
  | some found =>
    obtain ⟨n, probe⟩ := found
    simp only
    cases hb : (r.clearFull op).bisectOf n with
    | none => exact hr.clearFull op
    | some b =>
      -- The stage found by its number has the run's one bisect, that of the operation.
      have hopen := hr.bisectOf (n := n) hb
      have hdue : probe = Bisect.due b := by
        obtain ⟨s, hs, -, b', hb', hp⟩ := findProbe_eq_some hfind
        obtain ⟨s', hs', hb''⟩ := Option.bind_eq_some_iff.1 hb
        obtain rfl := hr.unique hs (List.mem_of_find?_eq_some hs') hb' hb''
        exact hopen.due op probe hp
      have hr := hr.clearFull op
      have hsome : ((r.clearFull op).bisectOf n).isSome := by simp [hb]
      simp only
      by_cases hend : ending n
      · rw [if_pos hend]
        exact hr.end_setBisect hsome (justified_of_ne (by simp) (by simp))
      · rw [if_neg hend]
        cases result with
        | testAt red «show» =>
          simp only [Run.setBisect_setBisect]
          subst hdue
          exact hr.probed hb
        | setupFailed output => exact hr.end_setBisect hsome (justified_of_ne (by simp) (by simp))
        | failed message =>
          simp only [Run.setBisect_setBisect]
          split_ifs with hmax
          · exact hr.end_setBisect hsome (justified_of_ne (by simp) (by simp))
          · refine hr.setBisect (.inl hsome) fun b' hb' => ?_
            cases hb'
            exact hopen.idle
        | other =>
          refine hr.setBisect (.inl hsome) fun b' hb' => ?_
          cases hb'
          exact hopen.idle

theorem Inv.lost (hr : Inv r) (op : ℕ) : Inv (r.lost op) := by
  rw [Run.lost]
  split_ifs with hany
  · refine ⟨fun s hs b hb => ?_, hr.issued, hr.ended, ?_⟩
    · rcases mem_updateFirst hs with hs | ⟨s', hs', -, rfl⟩
      · exact hr.bisects s hs b hb
      · obtain ⟨b', hb', rfl⟩ := Option.map_eq_some_iff.1 hb
        exact (hr.bisects s' hs' b' hb').idle
    · have hlen : ∀ l : List StageRecord, ((updateFirst
          (fun s => s.bisect.any fun b => b.probe.any (·.1 = op))
          (fun s => { s with bisect := s.bisect.map fun b => { b with probe := none } })
          l).filterMap (·.bisect)).length = (l.filterMap (·.bisect)).length := by
        intro l
        induction l with
        | nil => rfl
        | cons s l ih =>
          rw [updateFirst_cons]
          split_ifs <;> cases hs : s.bisect <;> simp [hs, ih]
      exact (hlen r.stages).le.trans hr.single
  · exact hr

theorem Inv.start (hr : Inv r) (n : ℕ) (head : String) (tests : List String) (how : BisectRange) :
    Inv (r.start n head tests how).1 := by
  rw [Run.start]
  split_ifs with hbusy hsingle htests
  · exact hr
  · exact hr
  · exact hr
  cases r.stage n with
  | none => exact hr
  | some s =>
    simp only
    cases hrange : range s head how with
    | none => exact hr
    | some found =>
      obtain ⟨base, candidates⟩ := found
      have hlast := getLast?_range hrange
      have hpos : 0 < candidates.length := by
        rw [List.length_pos_iff]
        rintro rfl
        simp at hlast
      have hnone : ∀ s ∈ r.stages, s.bisect = none := by
        simpa [Run.bisecting] using (not_or.1 hbusy).2
      simp only
      refine Inv.issue (r := r.setBisect n _) ⟨fun s' hs' b hb => ?_, hr.issued, hr.ended, ?_⟩ n
      · rcases mem_updateFirst hs' with hs' | ⟨s'', -, -, rfl⟩
        · rw [hnone s' hs'] at hb
          cases hb
        · cases hb
          exact ⟨⟨hpos, le_rfl, hlast, rfl, by simp, by simp, .inl rfl, .inl rfl, by simp, by simp,
            by simp, fun _ => ⟨rfl, rfl⟩⟩, by simp, by simp⟩
      · refine (Run.length_setBisect_le_succ _ _ _).trans ?_
        rw [List.filterMap_eq_nil_iff.2 hnone]
        rfl

theorem Inv.pass (hr : Inv r) (now : ℕ) (ending spent : ℕ → Bool) :
    Inv (r.pass now ending spent) := by
  have hspent : ∀ (l : List ℕ) (r : Run), Inv r →
      Inv (l.foldl (fun r n => if spent n then r.end n .mergedAway else r) r) := by
    intro l
    induction l with
    | nil => exact fun r hr => hr
    | cons n l ih =>
      intro r hr
      refine ih _ ?_
      simp only
      split_ifs
      · exact hr.end n fun _ => justified_of_ne (by simp) (by simp)
      · exact hr
  have hidle : ∀ (l : List (ℕ × ℕ)) (r : Run), Inv r →
      Inv (l.foldl (fun r e =>
        if ending e.1 then r.end e.1 .runEnded else if e.2 ≤ now then r.issue e.1 else r) r) := by
    intro l
    induction l with
    | nil => exact fun r hr => hr
    | cons e l ih =>
      intro r hr
      refine ih _ ?_
      simp only
      split_ifs
      · exact hr.end e.1 fun _ => justified_of_ne (by simp) (by simp)
      · exact hr.issue e.1
      · exact hr
  exact hidle _ _ (hspent _ _ hr)

theorem Inv.step (hr : Inv r) (s : Step) : Inv (r.step s) := by
  cases s with
  | start n head tests how => exact hr.start n head tests how
  | probeDone op result now ending => exact hr.probeDone op result now ending
  | lost op => exact hr.lost op
  | pass now ending spent => exact hr.pass now ending spent
  | rebaselined n => exact hr.end n fun _ => justified_of_ne (by simp) (by simp)
  | other state singleTest fullOp ops change created =>
    refine ⟨fun s hs b hb => ?_, hr.issued, hr.ended, ?_⟩
    · rcases List.mem_append.1 hs with hs | hs
      · obtain ⟨s', hs', rfl⟩ := List.mem_map.1 hs
        exact hr.bisects s' hs' b hb
      · obtain ⟨s', -, rfl⟩ := List.mem_map.1 hs
        cases hb
    · simpa [Run.step, List.filterMap_append, List.filterMap_map, Function.comp_def] using hr.single

theorem Inv.run (hr : Inv r) (steps : List Step) : Inv (r.run steps) := by
  induction steps generalizing r with
  | nil => exact hr
  | cons s steps ih => exact ih (hr.step s)

/-! ## The culprit -/

/-- The blamed merge was probed red, or is the head, which was; the one before it, or
    the base, was probed green. -/
theorem Blames.transition {m : StageMerge} (h : Blames b m) :
    b.hi = b.lo + 1 ∧ b.hi ≤ b.candidates.length ∧
      ((.mid b.hi, true) ∈ b.results ∨
        b.hi = b.candidates.length ∧ commitOf m = b.head ∧ (.head, true) ∈ b.results) ∧
      (if b.lo = 0 then (.base, false) ∈ b.results else (.mid b.lo, false) ∈ b.results) := by
  have hlt := h.lo_lt_hi
  have hone := h.one
  refine ⟨by omega, h.hi_le, ?_, ?_⟩
  · rcases h.hi with hhi | hhi
    · refine .inr ⟨hhi, ?_, h.redHead h.two_le⟩
      have hhead := h.head
      rw [List.getLast?_eq_getElem?, ← hhi, h.merge] at hhead
      exact Option.some.inj hhead
    · exact .inl hhi
  · split_ifs with hlo
    · exact h.base (one_le_two.trans h.two_le)
    · exact h.lo.resolve_left hlo

/-- With monotone verdicts the blamed merge is the first red one. -/
theorem Blames.eq_first_red {m : StageMerge} (h : Blames b m) {k : ℕ} (hmono : Monotone b k) :
    b.hi - 1 = k := by
  obtain ⟨hhi, -, hred, hgreen⟩ := h.transition
  have hlt : k < b.hi := by
    rcases hred with hred | ⟨hlen, -, hred⟩
    · exact (hmono _ _ hred).1 rfl
    · rw [hlen]
      exact (hmono _ _ hred).1 rfl
  have hle : b.lo ≤ k := by
    by_contra hcon
    have hnot : ∀ probe, (probe, false) ∈ b.results → ¬k < position b probe := fun probe hp hk =>
      Bool.false_ne_true ((hmono probe false hp).2 hk)
    rw [if_neg (by omega)] at hgreen
    exact hnot _ hgreen (not_le.1 hcon)
  omega

/-- After any steps of a run with no bisect at first: the search of every bisect keeps
    its bounds, a probe of it is at a candidate strictly between its ends, and its
    commit that candidate's; a merge a bisect ended with was probed red, or is the head
    that was, and the one before it, or the base, was probed green; with monotone
    verdicts it is the first red merge; and the probes are few. -/
theorem culprit_run (r : Run) (hbisect : ∀ s ∈ r.stages, s.bisect = none) (hissued : r.issued = [])
    (hended : r.ended = []) (steps : List Step) :
    (∀ s ∈ (r.run steps).stages, ∀ b, s.bisect = some b →
      b.lo < b.hi ∧ b.hi ≤ b.candidates.length ∧
        ∀ op p, b.probe = some (op, .mid p) → 1 ≤ p ∧ p < b.candidates.length) ∧
    (∀ t ∈ (r.run steps).issued, ∀ p, t.probe = .mid p →
      1 ≤ p ∧ p < t.bisect.candidates.length ∧
        ∃ m, t.bisect.candidates[p - 1]? = some m ∧ t.commit = commitOf m) ∧
    ∀ e ∈ (r.run steps).ended, e.result ≠ .none .nothingLeft ∧
      ∀ m, e.result = naming m → ∃ m', e.bisect.candidates[e.bisect.hi - 1]? = some m' ∧
        e.result = naming m' ∧ e.bisect.hi = e.bisect.lo + 1 ∧
        e.bisect.hi ≤ e.bisect.candidates.length ∧
        ((.mid e.bisect.hi, true) ∈ e.bisect.results ∨
          e.bisect.hi = e.bisect.candidates.length ∧ commitOf m' = e.bisect.head ∧
            (.head, true) ∈ e.bisect.results) ∧
        (if e.bisect.lo = 0 then (.base, false) ∈ e.bisect.results
          else (.mid e.bisect.lo, false) ∈ e.bisect.results) ∧
        (∀ k, Monotone e.bisect k → e.bisect.hi - 1 = k) ∧
        e.bisect.results.length = e.bisect.probes ∧
        e.bisect.probes ≤ 2 + Nat.clog 2 e.bisect.candidates.length := by
  have hr : Inv r := ⟨fun s hs b hb => by simp [hbisect s hs] at hb, by simp [hissued],
    by simp [hended], by simp [List.filterMap_eq_nil_iff.2 hbisect]⟩
  have hrun := hr.run steps
  refine ⟨fun s hs b hb => ?_, fun t ht p hp => ?_, fun e he => ?_⟩
  · have hopen := hrun.bisects s hs b hb
    refine ⟨hopen.lo_lt_hi, hopen.hi_le, fun op p hp => ?_⟩
    obtain ⟨h1, h2, -⟩ := probeCommit_mid hopen (hopen.due op _ hp).symm
    exact ⟨h1, h2⟩
  · obtain ⟨hopen, hdue, hcommit⟩ := hrun.issued t ht
    rw [hcommit, hp]
    exact probeCommit_mid hopen (hdue.symm.trans hp)
  · obtain ⟨hleft, hnames⟩ := hrun.ended e he
    refine ⟨hleft, fun m hm => ?_⟩
    obtain ⟨m', hblames, hm'⟩ := hnames m hm
    obtain ⟨hhi, hle, hred, hgreen⟩ := hblames.transition
    exact ⟨m', hblames.merge, hm', hhi, hle, hred, hgreen, fun k => hblames.eq_first_red,
      hblames.count, hblames.probes_le⟩

/-- A stage of four merges, the third of which turned its tests red. -/
def fourMerges : Run where
  state := .running
  singleTest := some "cargo test"
  stages := [⟨1, "c0", [.task "a" "c1", .task "b" "c2", .task "c" "c3", .propagate 2 "c4"], none, none,
    none⟩]
  fullOp := none
  nextOp := 7
  issued := []
  ended := []

/-- Its bisect, with a probe lost in a restart and a failure of the executor. -/
def blameThird : List Step :=
  let never := fun _ : ℕ => false
  [.start 1 "c4" ["t"] .sinceGreen, .probeDone 7 (.testAt false none) 1 never,
    .lost 8, .pass 2 never never, .probeDone 9 (.testAt true none) 3 never,
    .probeDone 10 (.failed "no slot") 4 never, .pass 40 never never,
    .probeDone 11 (.testAt false none) 41 never, .probeDone 12 (.testAt true none) 42 never]

theorem culprit_run_blameThird :
    (fourMerges.run blameThird).ended.map (fun e => (e.result, e.bisect.results)) =
        [(.culprit "c", [(.mid 3, true), (.mid 2, false), (.head, true), (.base, false)])] ∧
      ∀ e ∈ (fourMerges.run blameThird).ended, e.result ≠ .none .nothingLeft := by
  refine ⟨by decide, fun e he => ?_⟩
  exact ((culprit_run fourMerges (by decide) rfl rfl blameThird).2.2 e he).1

end Anthrex.Bisect
