import Anthrex.Data.Kernel
import Anthrex.History.Reverts

/-!
# The reverts in effect

A record is in effect unless one in effect reverts its commit. Where the records name each other in
a circle this says nothing, or two things. Otherwise it holds of exactly one choice of records, the
kernel of the relation, and `effective_reverts` of `run/history_io.rs` returns those of them that
revert a merge: no line of reverts is as long as the depth it goes to, so the depth changes no
answer, and what it keeps for the commits seen is the answer for them.
-/

namespace Anthrex.History

open Graph Kernel Relation

variable {reverts : List RevertRecord} {record : RevertRecord} {known : SortedMap String Bool}
  {depth : ℕ}

/-- The records that revert the commit of one. -/
def undoing (reverts : List RevertRecord) (record : RevertRecord) : List RevertRecord :=
  reverts.filter (·.reverted = record.revertCommit)

theorem undoing_subset (record : RevertRecord) : undoing reverts record ⊆ reverts :=
  fun _ => List.mem_of_mem_filter

/-- A record names the commit of the next one. -/
def Reverts (reverts : List RevertRecord) (record next : RevertRecord) : Prop :=
  record ∈ reverts ∧ next ∈ reverts ∧ record.reverted = next.revertCommit

/-- In effect are exactly the records whose commit none in effect reverts. -/
def Alternates (reverts : List RevertRecord) (effective : RevertRecord → Bool) : Prop :=
  ∀ r ∈ reverts, effective r ↔ ¬∃ s ∈ reverts, s.reverted = r.revertCommit ∧ effective s

theorem alternates_iff {effective : RevertRecord → Bool} :
    Alternates reverts effective ↔ IsKernel reverts (undoing reverts) effective := by
  refine forall₂_congr fun r _ => ?_
  have hany : (undoing reverts r).any effective = true ↔
      ∃ s ∈ reverts, s.reverted = r.revertCommit ∧ effective s := by
    simp [undoing]
  rw [← hany]
  cases effective r <;> cases (undoing reverts r).any effective <;> simp

/-! ## What is known -/

/-- What is known of the commits is whether their records are in effect. -/
def Knows (reverts : List RevertRecord) (effective : RevertRecord → Bool)
    (known : SortedMap String Bool) : Prop :=
  ∀ r ∈ reverts, ∀ k, known.get? r.revertCommit = some k → k = effective r

theorem Knows.insert {effective : RevertRecord → Bool} (h : Knows reverts effective known)
    (hkernel : IsKernel reverts (undoing reverts) effective) (hrecord : record ∈ reverts) :
    Knows reverts effective (known.insert record.revertCommit (effective record)) := by
  intro r hr k hk
  rw [SortedMap.get?_insert] at hk
  split at hk
  · -- the answer is the same for every record of the commit
    rename_i hcommit
    have hsame : undoing reverts r = undoing reverts record := by rw [undoing, undoing, hcommit]
    rw [hkernel r hr, hsame, ← hkernel record hrecord]
    exact (Option.some.inj hk).symm
  · exact h r hr k hk

/-- The records that revert a commit are tried up to the first one in effect. -/
theorem foldl_inEffect {effective : RevertRecord → Bool} {tried : List RevertRecord}
    (hstep : ∀ r ∈ tried, ∀ known, Knows reverts effective known →
      (inEffect reverts depth r known).1 = effective r ∧
        Knows reverts effective (inEffect reverts depth r known).2)
    (hknown : Knows reverts effective known) (found : Bool) :
    let s := tried.foldl (fun s r => if s.1 then s else inEffect reverts depth r s.2) (found, known)
    s.1 = (found || tried.any effective) ∧ Knows reverts effective s.2 := by
  induction tried generalizing known found with
  | nil => exact ⟨(Bool.or_false found).symm, hknown⟩
  | cons r tried ih =>
    rw [List.forall_mem_cons] at hstep
    rw [List.foldl_cons]
    cases found with
    | true =>
      obtain ⟨hfound, hknows⟩ := ih hstep.2 hknown true
      exact ⟨hfound, hknows⟩
    | false =>
      obtain ⟨heffective, hnext⟩ := hstep.1 known hknown
      obtain ⟨hfound, hknows⟩ := ih hstep.2 hnext (inEffect reverts depth r known).1
      refine ⟨hfound.trans ?_, hknows⟩
      rw [heffective, List.any_cons, Bool.false_or]

theorem inEffect_eq {effective : RevertRecord → Bool}
    (hkernel : IsKernel reverts (undoing reverts) effective)
    (hacyclic : Acyclic fun x y => y ∈ undoing reverts x) (hrecord : record ∈ reverts)
    (hdepth : rank reverts (undoing reverts) record ≤ depth)
    (hknown : Knows reverts effective known) :
    (inEffect reverts depth record known).1 = effective record ∧
      Knows reverts effective (inEffect reverts depth record known).2 := by
  induction depth generalizing record known with
  | zero =>
    rw [inEffect]
    split
    · exact ⟨hknown record hrecord _ ‹_›, hknown⟩
    · -- nothing reverts it, so that the depth does not count
      have htrue : effective record = true := by
        rw [hkernel record hrecord, next_eq_nil hacyclic (undoing_subset record) hdepth]
        rfl
      have hinsert := hknown.insert hkernel hrecord
      rw [htrue] at hinsert
      exact ⟨htrue.symm, hinsert⟩
  | succ depth ih =>
    rw [inEffect]
    split
    · exact ⟨hknown record hrecord _ ‹_›, hknown⟩
    · have hstep : ∀ r ∈ undoing reverts record, ∀ known, Knows reverts effective known →
          (inEffect reverts depth r known).1 = effective r ∧
            Knows reverts effective (inEffect reverts depth r known).2 := by
        intro r hr known hknown
        have hlt := rank_lt hacyclic (undoing_subset record hr) hr
        exact ih (undoing_subset record hr) (by omega) hknown
      obtain ⟨hundone, hknows⟩ := foldl_inEffect hstep hknown false
      rw [Bool.false_or] at hundone
      have hinsert := hknows.insert hkernel hrecord
      rw [hkernel record hrecord, ← hundone] at hinsert
      refine ⟨?_, hinsert⟩
      rw [hkernel record hrecord, ← hundone]
      rfl

/-! ## The history -/

/-- A circle of records that undo each other is one of records that name each other. -/
theorem acyclic_undoing (h : Acyclic (Reverts reverts)) :
    Acyclic fun x y => y ∈ undoing reverts x := by
  have hback : ∀ a b, TransGen (fun x y => y ∈ undoing reverts x) a b →
      b ∈ reverts ∧ (a ∈ reverts → TransGen (Reverts reverts) b a) := by
    intro a b hab
    induction hab with
    | single hb =>
      have hreverts := List.mem_filter.1 hb
      exact ⟨hreverts.1, fun ha => .single ⟨hreverts.1, ha, by simpa using hreverts.2⟩⟩
    | tail _ hc ih =>
      have hreverts := List.mem_filter.1 hc
      refine ⟨hreverts.1, fun ha => .head ⟨hreverts.1, ih.1, ?_⟩ (ih.2 ha)⟩
      simpa using hreverts.2
  intro a ha
  exact h a ((hback a a ha).2 (hback a a ha).1)

/-- As `inEffectAmong`, to a depth of its own. -/
def inEffectWithin (depth : ℕ) (reverts : List RevertRecord) :
    List RevertRecord → SortedMap String Bool → List RevertRecord
  | [], _ => []
  | r :: rest, known =>
    let (effective, known) := inEffect reverts depth r known
    if effective then r :: inEffectWithin depth reverts rest known
    else inEffectWithin depth reverts rest known

/-- As `effectiveReverts`, to a depth of its own. -/
def effectiveRevertsWithin (depth : ℕ) (lines : List HistoryLine) : List RevertRecord :=
  let reverts := revertsOf lines
  let commits := reverts.map (·.revertCommit)
  inEffectWithin depth reverts (reverts.filter (·.reverted ∉ commits)) .empty

theorem inEffectAmong_eq (reverts some : List RevertRecord) (known : SortedMap String Bool) :
    inEffectAmong reverts some known = inEffectWithin reverts.length reverts some known := by
  induction some generalizing known with
  | nil => rfl
  | cons r rest ih =>
    simp only [inEffectAmong, inEffectWithin]
    rw [ih]

theorem effectiveReverts_eq (lines : List HistoryLine) :
    effectiveReverts lines = effectiveRevertsWithin (revertsOf lines).length lines :=
  inEffectAmong_eq _ _ _

theorem inEffectWithin_eq {effective : RevertRecord → Bool} {some : List RevertRecord}
    (hkernel : IsKernel reverts (undoing reverts) effective)
    (hacyclic : Acyclic fun x y => y ∈ undoing reverts x) (hdepth : reverts.length ≤ depth)
    (hsome : some ⊆ reverts) (hknown : Knows reverts effective known) :
    inEffectWithin depth reverts some known = some.filter effective := by
  induction some generalizing known with
  | nil => rfl
  | cons r rest ih =>
    rw [List.cons_subset] at hsome
    have hrank := rank_lt_length hacyclic hsome.1
    obtain ⟨hr, hknows⟩ := inEffect_eq hkernel hacyclic hsome.1 (hrank.le.trans hdepth) hknown
    have hrest := ih hsome.2 hknows
    rw [List.filter_cons, ← hr, ← hrest]
    rfl

/-- Records that name each other in no circle are in effect in one way, and those that revert a
    merge are returned, in the order of the history, whatever the depth from their number on. -/
theorem effectiveReverts_alternates (lines : List HistoryLine)
    (hacyclic : Acyclic (Reverts (revertsOf lines))) :
    ∃ effective : RevertRecord → Bool,
      Alternates (revertsOf lines) effective ∧
      (∀ other, Alternates (revertsOf lines) other → ∀ r ∈ revertsOf lines, other r = effective r) ∧
      effectiveReverts lines =
        (revertsOf lines).filter (fun r =>
          effective r ∧ r.reverted ∉ (revertsOf lines).map (·.revertCommit)) ∧
      ∀ depth, (revertsOf lines).length ≤ depth →
        effectiveRevertsWithin depth lines = effectiveReverts lines := by
  generalize hreverts : revertsOf lines = reverts at hacyclic ⊢
  have hattacks := acyclic_undoing hacyclic
  have hkernel := isKernel_solve hattacks undoing_subset le_rfl
  have hwithin : ∀ depth, reverts.length ≤ depth → effectiveRevertsWithin depth lines =
      (reverts.filter (·.reverted ∉ reverts.map (·.revertCommit))).filter
        (solve (undoing reverts) reverts.length) := by
    intro depth hdepth
    rw [effectiveRevertsWithin, hreverts]
    refine inEffectWithin_eq hkernel hattacks hdepth (fun _ => List.mem_of_mem_filter) ?_
    intro r _ k hk
    rw [SortedMap.get?_empty] at hk
    cases hk
  refine ⟨solve (undoing reverts) reverts.length, alternates_iff.2 hkernel, ?_, ?_, ?_⟩
  · intro other hother r hr
    exact (alternates_iff.1 hother).eq_solve hattacks undoing_subset hr
      (rank_lt_length hattacks hr).le
  · rw [effectiveReverts_eq, hreverts, hwithin _ le_rfl, List.filter_filter]
    simp
  · intro depth hdepth
    rw [effectiveReverts_eq, hreverts, hwithin _ le_rfl, hwithin depth hdepth]

/-- A merge reverted, the revert reverted, and that one too. -/
def chain : List HistoryLine :=
  [.revert ⟨"revert/a", 1, "run", none, "merge", "a"⟩,
    .revert ⟨"revert/b", 2, "run", none, "a", "b"⟩,
    .revert ⟨"revert/c", 3, "run", none, "b", "c"⟩]

theorem effectiveReverts_alternates_chain :
    ∃ effective : RevertRecord → Bool,
      Alternates (revertsOf chain) effective ∧
      (∀ other, Alternates (revertsOf chain) other → ∀ r ∈ revertsOf chain, other r = effective r) ∧
      effectiveReverts chain =
        (revertsOf chain).filter (fun r =>
          effective r ∧ r.reverted ∉ (revertsOf chain).map (·.revertCommit)) ∧
      ∀ depth, (revertsOf chain).length ≤ depth →
        effectiveRevertsWithin depth chain = effectiveReverts chain := by
  refine effectiveReverts_alternates chain (.of_rank RevertRecord.time ?_)
  intro a b hab
  obtain ⟨ha, hb, heq⟩ := hab
  simp only [revertsOf, chain, List.filterMap_cons, List.filterMap_nil, List.mem_cons,
    List.not_mem_nil, or_false] at ha hb
  rcases ha with rfl | rfl | rfl <;> rcases hb with rfl | rfl | rfl <;> first
    | exact absurd heq (by decide)
    | decide

end Anthrex.History
