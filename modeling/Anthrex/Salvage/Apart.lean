import Anthrex.Data.Lists
import Anthrex.Data.Text
import Anthrex.Plan.Held
import Anthrex.Salvage.Removals
import Mathlib.Logic.Relation
import Std.Data.String.ToNat

/-!
# Salvage refs stay apart

No two refs a run has recorded or in flight are the same. What keeps them apart is in `Books`:
every number recorded or sent is at most the highest one its task has handed out, and the
numbers of an accept or a discard in flight are above it, while nothing more is handed out. A
reject counts the refs a task recorded, which says nothing of the numbers that were handed out
and not recorded: so it stays apart where the count is what the task would hand out next.
-/

namespace Anthrex.Salvage

open Anthrex.Run (TaskState RunState)
open Anthrex.Plan Lists Relation

/-! ## What is to stay apart -/

/-- The refs an operation salvages under. -/
def OpKind.refs : OpKind → List String
  | .removeWorktree _ ref _ _ _ => [ref]
  | .accept worktrees | .discard worktrees => worktrees.map (·.2)
  | _ => []

def refsInFlight (ops : List PendingOp) : List String := ops.flatMap (·.kind.refs)

/-- The refs in flight are distinct, those inside one operation too, and none is recorded. -/
structure Apart (run : Run) : Prop where
  inFlight : (refsInFlight run.pendingOps).Nodup
  recorded : ∀ t ∈ run.tasks, ∀ ref ∈ t.salvageRefs, ref ∉ refsInFlight run.pendingOps

/-! ## Refs -/

/-- An id that a task can have. -/
def Named (id : String) : Prop := '/' ∉ id.toList ∧ id ≠ "integration" ∧ id ≠ "_full"

theorem toList_slash (a b : String) :
    (a ++ "/" ++ b).toList = a.toList ++ '/' :: b.toList := by
  rw [String.toList_append, String.toList_append, List.append_assoc]
  rfl

theorem toList_slashes (pre a b c : String) : (pre ++ a ++ "/" ++ b ++ "/" ++ c).toList =
    (pre ++ a).toList ++ '/' :: (b.toList ++ '/' :: c.toList) := by
  rw [toList_slash (pre ++ a ++ "/" ++ b) c, toList_slash (pre ++ a) b, List.append_assoc,
    List.cons_append]

theorem salvageRef_inj {runId a b : String} {m n : ℕ} (ha : '/' ∉ a.toList) (hb : '/' ∉ b.toList)
    (h : salvageRef runId a m = salvageRef runId b n) : a = b ∧ m = n := by
  have hlist := (toList_slashes _ _ a (toString m)).symm.trans
    ((congrArg String.toList h).trans (toList_slashes _ _ b (toString n)))
  rw [List.append_cancel_left_eq, List.cons.injEq] at hlist
  obtain ⟨hid, hnumber⟩ := Text.append_cons_inj ha hb hlist.2
  exact ⟨String.toList_inj.1 hid, Nat.repr_injective (String.toList_inj.1 hnumber)⟩

theorem salvageSeq_lt_nextSalvageSeq (t : Task) : t.salvageSeq < nextSalvageSeq t := by
  simp only [nextSalvageSeq]
  omega

/-! ## The books of a run -/

/-- What a task records of its salvages. -/
structure Entry where
  id : String
  refs : List String
  seq : ℕ
  deriving DecidableEq, Repr

def Task.entry (t : Task) : Entry := ⟨t.id, t.salvageRefs, t.salvageSeq⟩

def Run.book (run : Run) : List Entry := run.tasks.map Task.entry

structure Books (runId : String) (book : List Entry) (ops : List PendingOp) : Prop where
  ids : (book.map Entry.id).Nodup
  names : ∀ e ∈ book, Named e.id
  numbered : ∀ e ∈ book, ∀ ref ∈ e.refs, ∃ n, 1 ≤ n ∧ n ≤ e.seq ∧ ref = salvageRef runId e.id n
  sent : ∀ p ∈ ops, p.kind.isFinish = false → ∀ ref ∈ p.kind.refs, ∃ e ∈ book, ∃ n,
    p.taskId = some e.id ∧ 1 ≤ n ∧ n ≤ e.seq ∧ ref = salvageRef runId e.id n
  above : ∀ p ∈ ops, p.kind.isFinish → ∀ ref ∈ p.kind.refs, ∀ e ∈ book, ∀ n, 1 ≤ n → n ≤ e.seq →
    ref ≠ salvageRef runId e.id n
  inFlight : (refsInFlight ops).Nodup
  recorded : ∀ e ∈ book, ∀ ref ∈ e.refs, ref ∉ refsInFlight ops

variable {runId : String} {book book' : List Entry} {ops ops' : List PendingOp} {e e' : Entry}
  {p : PendingOp} {run run' : Run} {i : ℕ} {t : Task}

theorem mem_refsInFlight {ref : String} : ref ∈ refsInFlight ops ↔ ∃ p ∈ ops, ref ∈ p.kind.refs :=
  List.mem_flatMap

theorem refsInFlight_append : refsInFlight (ops ++ ops') = refsInFlight ops ++ refsInFlight ops' :=
  List.flatMap_append

theorem Books.eq_of_id (h : Books runId book ops) (he : e ∈ book) (he' : e' ∈ book)
    (hid : e.id = e'.id) : e = e' :=
  List.inj_on_of_nodup_map h.ids he he' hid

/-- A number above the highest one its task has handed out is no ref there is. -/
theorem Books.fresh (h : Books runId book ops) (hfinish : ∀ p ∈ ops, p.kind.isFinish = false)
    {id : String} {n : ℕ} (hid : '/' ∉ id.toList) (hn : ∀ e ∈ book, e.id = id → e.seq < n) :
    salvageRef runId id n ∉ refsInFlight ops ∧ ∀ e ∈ book, salvageRef runId id n ∉ e.refs := by
  -- a ref there is has a number its task has handed out
  have hnot : ∀ e ∈ book, ∀ m, m ≤ e.seq → salvageRef runId id n ≠ salvageRef runId e.id m := by
    intro e he m hm heq
    obtain ⟨hid', rfl⟩ := salvageRef_inj hid (h.names e he).1 heq
    exact absurd (hn e he hid'.symm) (by omega)
  refine ⟨fun hmem => ?_, fun e he hmem => ?_⟩
  · obtain ⟨p, hp, href⟩ := mem_refsInFlight.1 hmem
    obtain ⟨e, he, m, -, -, hm, heq⟩ := h.sent p hp (hfinish p hp) _ href
    exact hnot e he m hm heq
  · obtain ⟨m, -, hm, heq⟩ := h.numbered e he _ hmem
    exact hnot e he m hm heq

/-- The entry goes on: its id and its refs stay, and no number is taken back. -/
structure Advances (e e' : Entry) : Prop where
  id : e'.id = e.id
  refs : e'.refs = e.refs
  seq : e.seq ≤ e'.seq

/-- Numbers are handed out, and tasks added; while a finish is in flight no number is handed
    out. -/
theorem Books.rebook (h : Books runId book ops) (hids : (book'.map Entry.id).Nodup)
    (hfrom : ∀ e' ∈ book', (∃ e ∈ book, Advances e e') ∨ Named e'.id ∧ e'.refs = [] ∧ e'.seq = 0)
    (hto : ∀ e ∈ book, ∃ e' ∈ book', Advances e e')
    (hfinish : (∃ p ∈ ops, p.kind.isFinish) → ∀ e' ∈ book',
      e'.seq = 0 ∨ ∃ e ∈ book, e'.id = e.id ∧ e'.seq = e.seq) : Books runId book' ops where
  ids := hids
  names := by
    intro e' he'
    rcases hfrom e' he' with ⟨e, he, hadv⟩ | ⟨hname, -⟩
    · exact hadv.id ▸ h.names e he
    · exact hname
  numbered := by
    intro e' he' ref href
    rcases hfrom e' he' with ⟨e, he, hadv⟩ | ⟨-, hnil, -⟩
    · obtain ⟨n, hn, hle, heq⟩ := h.numbered e he ref (hadv.refs ▸ href)
      exact ⟨n, hn, hle.trans hadv.seq, hadv.id ▸ heq⟩
    · rw [hnil] at href
      cases href
  sent := by
    intro p hp hkind ref href
    obtain ⟨e, he, n, htask, hn, hle, heq⟩ := h.sent p hp hkind ref href
    obtain ⟨e', he', hadv⟩ := hto e he
    exact ⟨e', he', n, hadv.id ▸ htask, hn, hle.trans hadv.seq, hadv.id ▸ heq⟩
  above := by
    intro p hp hkind ref href e' he' n hn hle
    rcases hfinish ⟨p, hp, hkind⟩ e' he' with hzero | ⟨e, he, hid, hseq⟩
    · omega
    · rw [hid]
      exact h.above p hp hkind ref href e he n hn (hseq ▸ hle)
  inFlight := h.inFlight
  recorded := by
    intro e' he' ref href
    rcases hfrom e' he' with ⟨e, he, hadv⟩ | ⟨-, hnil, -⟩
    · exact h.recorded e he ref (hadv.refs ▸ href)
    · rw [hnil] at href
      cases href

/-- A number is reserved, above all that the task has handed out. -/
theorem Books.reserve (h : Books runId book ops) (hfinish : ∀ p ∈ ops, p.kind.isFinish = false)
    {n : ℕ} (he : book[i]? = some e) (hn : e.seq ≤ n) :
    Books runId (book.modify i ({ · with seq := n })) ops := by
  have hadv : List.Forall₂ Advances book (book.modify i ({ · with seq := n })) := by
    refine forall₂_modify (fun x _ => ⟨rfl, rfl, le_refl _⟩) fun x hx => ?_
    rw [← Option.some.inj (he.symm.trans hx)]
    exact ⟨rfl, rfl, hn⟩
  refine h.rebook ?_ (fun e' he' => .inl ?_) (fun e he => ?_) fun ⟨p, hp, hkind⟩ => ?_
  · rw [map_eq_of_forall₂ (hadv.imp fun x y hxy => hxy.id)]
    exact h.ids
  · exact exists_of_forall₂_mem hadv he'
  · exact exists_of_forall₂_mem hadv.flip he
  · rw [hfinish p hp] at hkind
    cases hkind

/-- A removal is sent under a number that is reserved and no ref yet. -/
theorem Books.send (h : Books runId book ops) (he : e ∈ book) {n : ℕ} (hn : 1 ≤ n)
    (hle : n ≤ e.seq) (htask : p.taskId = some e.id) (hkind : p.kind.isFinish = false)
    (hrefs : p.kind.refs = [salvageRef runId e.id n])
    (hfresh : salvageRef runId e.id n ∉ refsInFlight ops ∧
      ∀ e' ∈ book, salvageRef runId e.id n ∉ e'.refs) : Books runId book (ops ++ [p]) where
  ids := h.ids
  names := h.names
  numbered := h.numbered
  sent := by
    intro q hq hq' ref href
    rcases List.mem_append.1 hq with hq | hq
    · exact h.sent q hq hq' ref href
    · rw [List.mem_singleton.1 hq, hrefs, List.mem_singleton] at href
      exact ⟨e, he, n, List.mem_singleton.1 hq ▸ htask, hn, hle, href⟩
  above := by
    intro q hq hq' ref href e' he' m hm hle
    rcases List.mem_append.1 hq with hq | hq
    · exact h.above q hq hq' ref href e' he' m hm hle
    · rw [List.mem_singleton.1 hq, hkind] at hq'
      cases hq'
  inFlight := by
    rw [refsInFlight_append, List.nodup_append]
    refine ⟨h.inFlight, by simp [refsInFlight, hrefs], ?_⟩
    rintro a ha b hb rfl
    simp only [refsInFlight, List.flatMap_cons, List.flatMap_nil, hrefs, List.append_nil,
      List.mem_singleton] at hb
    exact hfresh.1 (hb ▸ ha)
  recorded := by
    intro e' he' ref href
    rw [refsInFlight_append, List.mem_append, not_or]
    refine ⟨h.recorded e' he' ref href, fun hmem => ?_⟩
    simp only [refsInFlight, List.flatMap_cons, List.flatMap_nil, hrefs, List.append_nil,
      List.mem_singleton] at hmem
    exact hfresh.2 e' he' (hmem ▸ href)

/-- A result is in, and its operation no longer in flight. -/
theorem Books.drop (h : Books runId book ops) (hsub : ops'.Sublist ops) :
    Books runId book ops' where
  ids := h.ids
  names := h.names
  numbered := h.numbered
  sent := fun p hp => h.sent p (hsub.subset hp)
  above := fun p hp => h.above p (hsub.subset hp)
  inFlight := h.inFlight.sublist (hsub.flatMap _)
  recorded := fun e he ref href hmem => by
    obtain ⟨p, hp, hin⟩ := mem_refsInFlight.1 hmem
    exact h.recorded e he ref href (mem_refsInFlight.2 ⟨p, hsub.subset hp, hin⟩)

/-- A number handed out is recorded, once nothing salvages under it. -/
theorem Books.record (h : Books runId book ops) (he : book[i]? = some e) {n : ℕ} (hn : 1 ≤ n)
    (hle : n ≤ e.seq) (hfree : salvageRef runId e.id n ∉ refsInFlight ops) :
    Books runId (book.modify i fun e => { e with refs := e.refs ++ [salvageRef runId e.id n] })
      ops := by
  have hsame : List.Forall₂ (fun x y : Entry => y.id = x.id ∧ y.seq = x.seq) book
      (book.modify i fun e => { e with refs := e.refs ++ [salvageRef runId e.id n] }) :=
    forall₂_modify (fun x _ => ⟨rfl, rfl⟩) fun x _ => ⟨rfl, rfl⟩
  refine ⟨?_, fun e' he' => ?_, fun e' he' ref href => ?_, fun p hp hkind ref href => ?_,
    fun p hp hkind ref href e' he' m hm hle => ?_, h.inFlight, fun e' he' ref href => ?_⟩
  · rw [map_eq_of_forall₂ (hsame.imp fun x y hxy => hxy.1)]
    exact h.ids
  · obtain ⟨x, hx, hid, -⟩ := exists_of_forall₂_mem hsame he'
    exact hid ▸ h.names x hx
  · rcases mem_modify he' with hmem | ⟨x, hx, rfl⟩
    · exact h.numbered e' hmem ref href
    · obtain rfl : e = x := Option.some.inj (he.symm.trans hx)
      rcases List.mem_append.1 href with hold | hnew
      · exact h.numbered e (List.mem_of_getElem? he) ref hold
      · exact ⟨n, hn, hle, List.mem_singleton.1 hnew⟩
  · obtain ⟨x, hx, m, htask, hm, hle, heq⟩ := h.sent p hp hkind ref href
    obtain ⟨y, hy, hid, hseq⟩ := exists_of_forall₂_mem hsame.flip hx
    exact ⟨y, hy, m, hid ▸ htask, hm, hseq ▸ hle, hid ▸ heq⟩
  · obtain ⟨x, hx, hid, hseq⟩ := exists_of_forall₂_mem hsame he'
    rw [hid]
    exact h.above p hp hkind ref href x hx m hm (hseq ▸ hle)
  · rcases mem_modify he' with hmem | ⟨x, hx, rfl⟩
    · exact h.recorded e' hmem ref href
    · obtain rfl : e = x := Option.some.inj (he.symm.trans hx)
      rcases List.mem_append.1 href with hold | hnew
      · exact h.recorded e (List.mem_of_getElem? he) ref hold
      · rw [List.mem_singleton.1 hnew]
        exact hfree

/-- An accept or a discard is sent, under numbers above all that the tasks have handed out. -/
theorem Books.finish (h : Books runId book ops) (hfinish : ∀ p ∈ ops, p.kind.isFinish = false)
    {pairs : List (String × ℕ)} (hkind : p.kind.isFinish)
    (hrefs : p.kind.refs = pairs.map fun q => salvageRef runId q.1 q.2) (hnodup : pairs.Nodup)
    (hslash : ∀ q ∈ pairs, '/' ∉ q.1.toList)
    (habove : ∀ q ∈ pairs, ∀ e ∈ book, e.id = q.1 → e.seq < q.2) :
    Books runId book (ops ++ [p]) := by
  have hfresh := fun q hq => h.fresh hfinish (hslash q hq) (habove q hq)
  have hlast : refsInFlight [p] = pairs.map fun q => salvageRef runId q.1 q.2 := by
    simp [refsInFlight, hrefs]
  refine ⟨h.ids, h.names, h.numbered, fun q hq hq' => ?_, fun q hq hq' ref href e he n hn hle => ?_,
    ?_, fun e he ref href => ?_⟩
  · rcases List.mem_append.1 hq with hq | hq
    · exact h.sent q hq hq'
    · rw [List.mem_singleton.1 hq, hkind] at hq'
      cases hq'
  · rcases List.mem_append.1 hq with hq | hq
    · exact h.above q hq hq' ref href e he n hn hle
    · rw [List.mem_singleton.1 hq, hrefs] at href
      obtain ⟨r, hr, rfl⟩ := List.mem_map.1 href
      intro heq
      obtain ⟨hid, rfl⟩ := salvageRef_inj (hslash r hr) (h.names e he).1 heq
      exact absurd (habove r hr e he hid.symm) (by omega)
  · rw [refsInFlight_append, hlast, List.nodup_append]
    refine ⟨h.inFlight, ?_, ?_⟩
    · refine hnodup.map_on fun q hq r hr heq => ?_
      obtain ⟨hid, hnum⟩ := salvageRef_inj (hslash q hq) (hslash r hr) heq
      exact Prod.ext hid hnum
    · rintro a ha b hb rfl
      obtain ⟨q, hq, rfl⟩ := List.mem_map.1 hb
      exact (hfresh q hq).1 ha
  · rw [refsInFlight_append, hlast, List.mem_append, not_or]
    refine ⟨h.recorded e he ref href, fun hmem => ?_⟩
    obtain ⟨q, hq, rfl⟩ := List.mem_map.1 hmem
    exact (hfresh q hq).2 e he href

/-! ## Runs -/

/-- A merge is only under way while the run goes on: a run that is complete or at the gate of its
    first plan has none, and neither has one that is being finished. -/
def Quiet (run : Run) : Prop :=
  run.finishing ∨ run.state = .complete ∨ run.atGate ∧ run.openRound = false →
    ∀ p ∈ run.pendingOps, p.kind ≠ .mergeCandidate

structure Inv (run : Run) : Prop where
  books : Books run.id run.book run.pendingOps
  quiet : Quiet run

/-- The invariant, while nothing finishes the run. -/
structure Free (run : Run) : Prop extends Inv run where
  notFinishing : run.finishing = false

theorem finishing_eq_false : run.finishing = false ↔ ∀ p ∈ run.pendingOps, p.kind.isFinish = false := by
  simp [Run.finishing]

theorem Inv.apart (h : Inv run) : Apart run := by
  refine ⟨h.books.inFlight, fun t ht ref href => ?_⟩
  exact h.books.recorded t.entry (List.mem_map_of_mem ht) ref href

theorem book_modifyTask {f : Task → Task} {g : Entry → Entry} (h : ∀ t, (f t).entry = g t.entry) :
    (run.modifyTask i f).book = run.book.modify i g := by
  refine List.ext_getElem? fun j => ?_
  simp only [Run.book, Run.modifyTask, List.getElem?_map, List.getElem?_modify]
  cases run.tasks[j]? with
  | none => rfl
  | some t =>
    by_cases hij : i = j
    · simp [hij, h]
    · simp [hij]

theorem book_modifyTask_same {f : Task → Task} (h : ∀ t, (f t).entry = t.entry) :
    (run.modifyTask i f).book = run.book := by
  rw [book_modifyTask (g := id) h, List.modify_id]

theorem getElem?_book (h : run.tasks[i]? = some t) : run.book[i]? = some t.entry := by
  rw [Run.book, List.getElem?_map, h]
  rfl

/-! ## Sending removals -/

/-- What a task has besides its salvages changes. -/
theorem Free.touch (h : Free run) {f : Task → Task} (hf : ∀ t, (f t).entry = t.entry) :
    Free (run.modifyTask i f) := by
  refine ⟨⟨?_, h.quiet⟩, h.notFinishing⟩
  rw [book_modifyTask_same hf]
  exact h.books

theorem Free.sendRemoval (h : Free run) (ht : run.book[i]? = some t.entry) {path : String}
    {keepHead clearLocks keepPath : Bool} {lane : Option Run.RaceLane} :
    Free (run.sendRemoval i t path keepHead clearLocks keepPath lane) := by
  have hfinish := finishing_eq_false.1 h.notFinishing
  have hlt := salvageSeq_lt_nextSalvageSeq t
  have hbook : (run.modifyTask i fun t' => { t' with salvageSeq := nextSalvageSeq t }).book =
      run.book.modify i ({ · with seq := nextSalvageSeq t }) := book_modifyTask fun _ => rfl
  have hid : ∀ e ∈ run.book, e.id = t.id → e.seq < nextSalvageSeq t := by
    intro e he hid
    rw [h.books.eq_of_id he (List.mem_of_getElem? ht) hid]
    exact hlt
  obtain ⟨hflight, hrecorded⟩ := h.books.fresh hfinish
    (h.books.names t.entry (List.mem_of_getElem? ht)).1 hid
  have hreserved := h.books.reserve hfinish (n := nextSalvageSeq t) ht hlt.le
  have hentry : (run.book.modify i ({ · with seq := nextSalvageSeq t }))[i]? =
      some { t.entry with seq := nextSalvageSeq t } := by
    rw [List.getElem?_modify, ht]
    simp
  refine ⟨⟨?_, fun hstate p hp => ?_⟩, ?_⟩
  · show Books run.id (run.modifyTask i _).book (run.pendingOps ++ [_])
    rw [hbook]
    refine hreserved.send (List.mem_of_getElem? hentry) (Nat.one_le_of_lt hlt) le_rfl rfl rfl rfl
      ⟨hflight, fun e' he' => ?_⟩
    rcases mem_modify he' with hmem | ⟨x, hx, rfl⟩
    · exact hrecorded e' hmem
    · exact hrecorded x (List.mem_of_getElem? hx)
  · rcases List.mem_append.1 hp with hp | hp
    · refine h.quiet (hstate.imp_left fun hfinishing => ?_) p hp
      rw [← hfinishing]
      simp [Run.finishing, Run.sendRemoval, Run.emitOp, Run.modifyTask, OpKind.isFinish]
    · rw [List.mem_singleton.1 hp]
      simp
  · rw [← h.notFinishing]
    simp [Run.finishing, Run.sendRemoval, Run.emitOp, Run.modifyTask, OpKind.isFinish]

theorem Free.foldl {α : Type*} {f : Run → α → Run} (hf : ∀ run x, Free run → Free (f run x))
    (l : List α) (h : Free run) : Free (l.foldl f run) := by
  induction l generalizing run with
  | nil => exact h
  | cons x l ih => exact ih (hf run x h)

theorem Free.removeMerged (h : Free run) : Free (run.removeMerged i) := by
  unfold Run.removeMerged
  split
  · exact h
  · refine h.foldl (fun run path hrun => ?_) _
    split
    · exact hrun
    · exact hrun.sendRemoval (getElem?_book ‹_›)

theorem Free.removeMergedWorktree (h : Free run) : Free (run.removeMergedWorktree i) := by
  unfold Run.removeMergedWorktree
  split
  · exact h
  split
  · exact h
  · have htouched := h.touch (i := i) (f := ({ · with removalDue := false })) fun _ => rfl
    exact htouched.removeMerged

theorem Free.removeCancelledWorktree (h : Free run) : Free (run.removeCancelledWorktree i) := by
  unfold Run.removeCancelledWorktree
  split
  · exact h
  split
  · exact h
  · exact h.sendRemoval (getElem?_book ‹_›)

theorem book_modifyLane {lane : Run.RaceLane} {f : Lane → Lane} :
    (run.modifyLane i lane f).book = run.book :=
  book_modifyTask_same fun _ => rfl

theorem Free.modifyLane (h : Free run) {lane : Run.RaceLane} {f : Lane → Lane} :
    Free (run.modifyLane i lane f) :=
  h.touch fun _ => rfl

theorem Free.salvage (h : Free run) {now : ℕ} {lane : Run.RaceLane} :
    Free (run.salvage now i lane) := by
  unfold Run.salvage
  split
  · exact h
  rename_i task htask
  split
  · exact h
  split
  · exact h
  · refine h.modifyLane.sendRemoval ?_
    rw [book_modifyLane]
    exact getElem?_book htask

theorem Free.salvageLanes (h : Free run) {now : ℕ} : Free (run.salvageLanes now i) := by
  unfold Run.salvageLanes
  split
  · exact h
  · exact h.foldl (fun run lane hrun => hrun.salvage) _

theorem Free.merged (h : Free run) : Free (run.merged i) := by
  have hmerged := h.touch (i := i) (f := fun t =>
    { t with
      state := .merged
      rounds := t.rounds.map fun r =>
        if t.writes r && !r.ended && !r.retiring then
          { r with retiring := true, ended := r.betweenTurns }
        else r }) fun _ => rfl
  unfold Run.merged
  dsimp only
  split
  · exact hmerged
  split
  · exact hmerged.touch fun _ => rfl
  · exact hmerged.removeMerged

theorem Inv.schedule (h : Inv run) (now : ℕ) : Inv (run.schedule now) := by
  unfold Run.schedule
  split
  · exact h
  · rename_i hgo
    simp only [Bool.or_eq_true, not_or, Bool.not_eq_true] at hgo
    have hfree : Free run := ⟨h, hgo.2⟩
    have hcancelled := hfree.foldl (f := Run.removeCancelledWorktree)
      (fun _ _ hrun => hrun.removeCancelledWorktree) (List.range run.tasks.length)
    have hmerged := fun l => hcancelled.foldl (f := Run.removeMergedWorktree)
      (fun _ _ hrun => hrun.removeMergedWorktree) l
    have hlanes := fun l l' => (hmerged l).foldl (f := (Run.salvageLanes · now ·))
      (fun _ _ hrun => hrun.salvageLanes) l'
    exact (hlanes _ _).toInv

/-! ## Results -/

theorem Quiet.eraseP (h : Quiet run) {q : PendingOp → Bool} :
    Quiet { run with pendingOps := run.pendingOps.eraseP q } := by
  intro hstate p hp
  refine h (hstate.imp_left fun hfinishing => ?_) p (List.mem_of_mem_eraseP hp)
  obtain ⟨p, hp, hkind⟩ := List.any_eq_true.1 hfinishing
  exact List.any_eq_true.2 ⟨p, List.mem_of_mem_eraseP hp, hkind⟩

theorem Inv.eraseP (h : Inv run) {q : PendingOp → Bool} :
    Inv { run with pendingOps := run.pendingOps.eraseP q } :=
  ⟨h.books.drop List.eraseP_sublist, h.quiet.eraseP⟩

theorem Inv.touch (h : Inv run) {f : Task → Task} (hf : ∀ t, (f t).entry = t.entry) :
    Inv (run.modifyTask i f) := by
  refine ⟨?_, h.quiet⟩
  rw [book_modifyTask_same hf]
  exact h.books

theorem book_checkoutRemoved {lane : Option Run.RaceLane} {path : String} {salvaged : Option String} :
    (run.checkoutRemoved i lane path salvaged).book = run.book := by
  cases lane with
  | some lane => exact book_modifyLane
  | none => exact book_modifyTask_same fun t => by split <;> rfl

theorem checkoutRemoved_pendingOps {lane : Option Run.RaceLane} {path : String}
    {salvaged : Option String} :
    (run.checkoutRemoved i lane path salvaged).pendingOps = run.pendingOps := by
  cases lane <;> rfl

theorem checkoutRemoved_id {lane : Option Run.RaceLane} {path : String} {salvaged : Option String} :
    (run.checkoutRemoved i lane path salvaged).id = run.id := by
  cases lane <;> rfl

theorem Inv.checkoutRemoved (h : Inv run) {lane : Option Run.RaceLane} {path : String}
    {salvaged : Option String} : Inv (run.checkoutRemoved i lane path salvaged) := by
  cases lane with
  | some lane => exact h.touch fun _ => rfl
  | none => exact h.touch fun t => by split <;> rfl

theorem Inv.checkoutKept (h : Inv run) {lane : Option Run.RaceLane} :
    Inv (run.checkoutKept i lane) := by
  cases lane with
  | some lane => exact h.touch fun _ => rfl
  | none => exact h

theorem Inv.recordSalvage (h : Inv run) (he : run.book[i]? = some e) {n : ℕ} (hn : 1 ≤ n)
    (hle : n ≤ e.seq) (hfree : salvageRef runId e.id n ∉ refsInFlight run.pendingOps)
    (hid : run.id = runId) : Inv (run.recordSalvage i (salvageRef runId e.id n)) := by
  subst hid
  have hbook : (run.recordSalvage i (salvageRef run.id e.id n)).book = run.book.modify i
      fun x => { x with refs := x.refs ++ [salvageRef run.id x.id n] } :=
    calc (run.recordSalvage i (salvageRef run.id e.id n)).book
      _ = run.book.modify i fun x => { x with refs := x.refs ++ [salvageRef run.id e.id n] } :=
        book_modifyTask fun _ => rfl
      _ = run.book.modify i fun x => { x with refs := x.refs ++ [salvageRef run.id x.id n] } :=
        modify_eq_of_getElem? he rfl
  refine ⟨?_, h.quiet⟩
  rw [hbook]
  exact h.books.record he hn hle hfree

/-- What an operation salvages under is no longer in flight once its result is in. -/
theorem Books.free_of_eraseP (h : Books runId book ops)
    (hp : ops.find? (·.op = p.op) = some p) {ref : String} (href : ref ∈ p.kind.refs) :
    ref ∉ refsInFlight (ops.eraseP (·.op = p.op)) := by
  obtain ⟨q, before, after, hbefore, hq, hops, herase⟩ :=
    List.exists_of_eraseP (List.mem_of_find?_eq_some hp) (List.find?_some hp)
  -- the operation found is the one erased: both are the first with its number
  obtain rfl : q = p := by
    have hfind : ops.find? (·.op = p.op) = some q := by
      rw [hops, List.find?_append, List.find?_eq_none.2 fun x hx => hbefore x hx,
        List.find?_cons_of_pos (by exact hq)]
      rfl
    exact Option.some.inj (hfind.symm.trans hp)
  have hnodup := h.inFlight
  rw [hops, refsInFlight_append, show q :: after = [q] ++ after from rfl, refsInFlight_append]
    at hnodup
  rw [herase, refsInFlight_append, List.mem_append, not_or]
  have hin : ref ∈ refsInFlight [q] := by simpa [refsInFlight] using href
  rw [List.nodup_append, List.nodup_append] at hnodup
  obtain ⟨-, ⟨-, -, hafter⟩, hapart⟩ := hnodup
  refine ⟨fun hmem => ?_, fun hmem => ?_⟩
  · exact hapart ref hmem ref (List.mem_append_left _ hin) rfl
  · exact hafter ref hin ref hmem rfl

theorem Inv.removed (h : Inv run) {path ref : String} {keepHead clearLocks keepPath : Bool}
    (hp : run.pendingOps.find? (·.op = p.op) = some p)
    (hkind : p.kind = .removeWorktree path ref keepHead clearLocks keepPath) {result : Run.Result} :
    Inv (run.removed p path ref result) := by
  have hrefs : ref ∈ p.kind.refs := by rw [hkind]; exact List.mem_singleton_self ref
  have hfree := h.books.free_of_eraseP hp hrefs
  obtain ⟨e, he, n, htask, hn, hle, href⟩ := h.books.sent p (List.mem_of_find?_eq_some hp)
    (by rw [hkind]; rfl) ref hrefs
  have herased := h.eraseP (q := (·.op = p.op))
  unfold Run.removed
  dsimp only
  split
  · exact herased
  rename_i i hi
  split
  · exact herased.checkoutKept
  · exact herased.checkoutRemoved
  · -- the ref is recorded with the task that sent the removal
    have hmarked : Inv (Run.checkoutRemoved _ i p.lane path (some ref)) := herased.checkoutRemoved
    obtain ⟨t, ht, hid⟩ : ∃ t, run.tasks[i]? = some t ∧ p.taskId = some t.id := by
      obtain ⟨hlt, hpred, -⟩ := List.findIdx?_eq_some_iff_getElem.1 hi
      exact ⟨run.tasks[i], List.getElem?_eq_getElem hlt, by simpa using hpred⟩
    have hentry : e = t.entry := by
      refine h.books.eq_of_id he (List.mem_of_getElem? (getElem?_book ht)) ?_
      exact Option.some.inj (htask.symm.trans hid)
    subst hentry
    rw [href] at hmarked hfree ⊢
    refine hmarked.recordSalvage ?_ hn hle ?_ checkoutRemoved_id
    · rw [book_checkoutRemoved]
      exact getElem?_book ht
    · rw [checkoutRemoved_pendingOps]
      exact hfree

theorem Inv.finished (h : Inv run) {done : Option RunState} (hp : p ∈ run.pendingOps)
    (hkind : p.kind.isFinish) : Inv (run.finished p done) := by
  refine ⟨h.books.drop List.eraseP_sublist, fun _ q hq => ?_⟩
  exact h.quiet (.inl (List.any_eq_true.2 ⟨p, hp, hkind⟩)) q (List.mem_of_mem_eraseP hq)

/-! ## Finishing and rejecting a run -/

theorem Inv.finish (h : Inv run) (hfree : run.finishing = false) {kind : OpKind}
    {pairs : List (String × ℕ)} (hkind : kind.isFinish)
    (hrefs : kind.refs = pairs.map fun q => salvageRef run.id q.1 q.2) (hnodup : pairs.Nodup)
    (hslash : ∀ q ∈ pairs, '/' ∉ q.1.toList)
    (habove : ∀ q ∈ pairs, ∀ e ∈ run.book, e.id = q.1 → e.seq < q.2)
    (hquiet : ∀ p ∈ run.pendingOps, p.kind ≠ .mergeCandidate) : Inv (run.emitOp none kind) := by
  refine ⟨?_, fun _ p hp => ?_⟩
  · exact h.books.finish (finishing_eq_false.1 hfree) hkind hrefs hnodup hslash habove
  · rcases List.mem_append.1 hp with hp | hp
    · exact hquiet p hp
    · rw [List.mem_singleton.1 hp]
      rintro (rfl : kind = _)
      cases hkind

/-- The tasks' numbers are apart, and so are those of the run's own checkouts. -/
theorem nodup_pairs {f : Task → List ℕ} {extra : List (String × ℕ)}
    (hids : (run.tasks.map Task.id).Nodup) (hf : ∀ t ∈ run.tasks, (f t).Nodup)
    (hextra : extra.Nodup) (hapart : ∀ t ∈ run.tasks, ∀ q ∈ extra, t.id ≠ q.1) :
    ((run.tasks.flatMap fun t => (f t).map fun n => (t.id, n)) ++ extra).Nodup := by
  rw [List.nodup_append]
  refine ⟨List.nodup_flatMap.2 ⟨fun t ht => ?_, ?_⟩, hextra, ?_⟩
  · exact (hf t ht).map fun m n heq => (Prod.ext_iff.1 heq).2
  · have hpairwise := List.pairwise_map.1 hids
    refine hpairwise.imp fun {t u} hne => ?_
    intro q hq hq'
    obtain ⟨m, -, rfl⟩ := List.mem_map.1 hq
    obtain ⟨n, -, heq⟩ := List.mem_map.1 hq'
    exact hne (Prod.ext_iff.1 heq).1.symm
  · rintro a ha b hb rfl
    obtain ⟨t, ht, hq⟩ := List.mem_flatMap.1 ha
    obtain ⟨m, -, rfl⟩ := List.mem_map.1 hq
    exact hapart t ht _ hb rfl

theorem Inv.ids_nodup (h : Inv run) : (run.tasks.map Task.id).Nodup := by
  have hids := h.books.ids
  rwa [Run.book, List.map_map] at hids

/-- A finish whose numbers are above what the tasks have handed out. -/
theorem Inv.finish_tasks (h : Inv run) (hfree : run.finishing = false) {kind : OpKind}
    {f : Task → List ℕ} {extra : List (String × ℕ)} (hkind : kind.isFinish)
    (hrefs : kind.refs = ((run.tasks.flatMap fun t => (f t).map fun n => (t.id, n)) ++ extra).map
      fun q => salvageRef run.id q.1 q.2)
    (hf : ∀ t ∈ run.tasks, (f t).Nodup ∧ ∀ n ∈ f t, t.salvageSeq < n)
    (hextra : extra.Nodup ∧ ∀ q ∈ extra, q.1 = "integration" ∨ q.1 = "_full")
    (hquiet : ∀ p ∈ run.pendingOps, p.kind ≠ .mergeCandidate) : Inv (run.emitOp none kind) := by
  have hnames : ∀ t ∈ run.tasks, Named t.id := fun t ht =>
    h.books.names t.entry (List.mem_map_of_mem ht)
  refine h.finish hfree hkind hrefs (nodup_pairs h.ids_nodup (fun t ht => (hf t ht).1) hextra.1
    fun t ht q hq => ?_) (fun q hq => ?_) (fun q hq e he hid => ?_) hquiet
  · rcases hextra.2 q hq with heq | heq <;> rw [heq]
    exacts [(hnames t ht).2.1, (hnames t ht).2.2]
  · rcases List.mem_append.1 hq with hq | hq
    · obtain ⟨t, ht, hq⟩ := List.mem_flatMap.1 hq
      obtain ⟨m, -, rfl⟩ := List.mem_map.1 hq
      exact (hnames t ht).1
    · rcases hextra.2 q hq with heq | heq <;> rw [heq] <;> decide
  · obtain ⟨u, hu, rfl⟩ := List.mem_map.1 he
    rcases List.mem_append.1 hq with hq | hq
    · obtain ⟨t, ht, hq⟩ := List.mem_flatMap.1 hq
      obtain ⟨m, hm, rfl⟩ := List.mem_map.1 hq
      obtain rfl : u = t := List.inj_on_of_nodup_map h.ids_nodup hu ht hid
      exact (hf u hu).2 m hm
    · -- no task is called as the run's own checkouts are
      have hname := hnames u hu
      rcases hextra.2 q hq with heq | heq
      · exact absurd (hid.trans heq) hname.2.1
      · exact absurd (hid.trans heq) hname.2.2

theorem refs_runWorktrees : run.runWorktrees.map (·.2) =
    ((run.tasks.flatMap fun t => ((List.range (run.taskCheckouts t).length).map
      (nextSalvageSeq t + ·)).map fun n => (t.id, n)) ++ [("integration", 1), ("_full", 1)]).map
      fun q : String × ℕ => salvageRef run.id q.1 q.2 := by
  rw [Run.runWorktrees, List.map_append, List.map_append, List.map_flatMap, List.map_flatMap]
  congr 1
  refine List.flatMap_congr fun t _ => ?_
  rw [List.map_map, List.map_map, List.map_map, List.range_eq_range',
    ← List.zipIdx_map_snd 0 (run.taskCheckouts t), List.map_map]
  rfl

theorem Inv.finish_step (h : Inv run) {action : FinishAction} (hok : run.mayFinish action) :
    Inv (run.finish action) := by
  simp only [Run.mayFinish, Bool.and_eq_true, Bool.not_eq_true', Bool.or_eq_true,
    decide_eq_true_eq] at hok
  obtain ⟨⟨⟨⟨hfree, -⟩, -⟩, hstate⟩, -⟩ := hok
  have hquiet : ∀ p ∈ run.pendingOps, p.kind ≠ .mergeCandidate := by
    rcases hstate with hcomplete | hdiscardable
    · exact h.quiet (.inr (.inl hcomplete))
    · simp only [Run.discardable, Bool.and_eq_true, List.isEmpty_iff] at hdiscardable
      rw [hdiscardable.1.2]
      exact fun p hp => absurd hp List.not_mem_nil
  have hnumbers : ∀ t ∈ run.tasks, ((List.range (run.taskCheckouts t).length).map
      (nextSalvageSeq t + ·)).Nodup ∧ ∀ n ∈ (List.range (run.taskCheckouts t).length).map
        (nextSalvageSeq t + ·), t.salvageSeq < n := by
    intro t _
    refine ⟨List.nodup_range.map fun m n heq => Nat.add_left_cancel heq, fun n hn => ?_⟩
    obtain ⟨k, -, rfl⟩ := List.mem_map.1 hn
    exact (salvageSeq_lt_nextSalvageSeq t).trans_le (Nat.le_add_right _ _)
  have hextra : [("integration", 1), ("_full", 1)].Nodup ∧
      ∀ q ∈ [("integration", 1), ("_full", 1)], q.1 = "integration" ∨ q.1 = "_full" := by decide
  cases action with
  | accept => exact h.finish_tasks hfree rfl refs_runWorktrees hnumbers hextra hquiet
  | discard => exact h.finish_tasks hfree rfl refs_runWorktrees hnumbers hextra hquiet

/-- Every task's next number is one above the count of its recorded refs. -/
def Counted (run : Run) : Prop :=
  ∀ t ∈ run.tasks, nextSalvageSeq t = t.salvageRefs.length + 1

instance (run : Run) : Decidable (Counted run) :=
  inferInstanceAs (Decidable (∀ t ∈ run.tasks, _))

theorem Inv.reject_step (h : Inv run) (hok : run.mayReject) (hround : run.openRound = false)
    (hcounted : Counted run) : Inv run.rejectRun := by
  simp only [Run.mayReject, Bool.and_eq_true, Bool.not_eq_true'] at hok
  have hextra : [("integration", 1)].Nodup ∧
      ∀ q ∈ [("integration", 1)], q.1 = "integration" ∨ q.1 = "_full" := by decide
  refine h.finish_tasks (f := fun t => [t.salvageRefs.length + 1]) hok.1 rfl ?_
    (fun t ht => ⟨by simp, fun n hn => ?_⟩) hextra (h.quiet (.inr (.inr ⟨hok.2, hround⟩)))
  · simp only [OpKind.refs, List.map_append, List.map_map, List.map_flatMap, List.map_cons,
      List.map_nil]
    rw [List.map_eq_flatMap]
    rfl
  · rw [List.mem_singleton.1 hn, ← hcounted t ht]
    exact salvageSeq_lt_nextSalvageSeq t

/-! ## Steps -/

/-- What the run's other events do: tasks go on or are added under ids of their own, which have
    salvaged nothing; removals and finishes in flight stay in flight, and none is sent; a merge
    is sent only where the run stays `Quiet`. -/
structure Works (run run' : Run) : Prop where
  id : run'.id = run.id
  ids : (run'.tasks.map Task.id).Nodup
  tasks : ∀ t' ∈ run'.tasks, (∃ t ∈ run.tasks, t'.entry = t.entry) ∨
    Named t'.id ∧ t'.salvageRefs = [] ∧ t'.salvageSeq = 0
  kept : ∀ t ∈ run.tasks, ∃ t' ∈ run'.tasks, t'.entry = t.entry
  removals : run'.pendingOps.filter (fun p => p.kind.isRemoval || p.kind.isFinish) =
    run.pendingOps.filter fun p => p.kind.isRemoval || p.kind.isFinish
  quiet : Quiet run'

/-- One event of a run, with `ok` of a run that is rejected. -/
inductive Step (ok : Run → Prop) : Run → Run → Prop
  | schedule {run : Run} (now : ℕ) : Step ok run (run.schedule now)
  | merged {run : Run} {p : PendingOp} {i : ℕ} {t : Task} (hp : p ∈ run.pendingOps)
      (hkind : p.kind = .mergeCandidate) (ht : run.tasks[i]? = some t)
      (htask : p.taskId = some t.id) :
      Step ok run (Run.merged { run with pendingOps := run.pendingOps.eraseP (·.op = p.op) } i)
  | removed {run : Run} {p : PendingOp} {path ref : String} {keepHead clearLocks keepPath : Bool}
      (hp : run.pendingOps.find? (·.op = p.op) = some p)
      (hkind : p.kind = .removeWorktree path ref keepHead clearLocks keepPath)
      (result : Run.Result) : Step ok run (run.removed p path ref result)
  | finish {run : Run} {action : FinishAction} (h : run.mayFinish action) :
      Step ok run (run.finish action)
  | finished {run : Run} {p : PendingOp} (hp : p ∈ run.pendingOps) (hkind : p.kind.isFinish)
      (done : Option RunState) : Step ok run (run.finished p done)
  | reject {run : Run} (h : run.mayReject) (hround : run.openRound = false) (hok : ok run) :
      Step ok run run.rejectRun
  | work {run run' : Run} (h : Works run run') : Step ok run run'

theorem refsInFlight_filter (ops : List PendingOp) :
    refsInFlight (ops.filter fun p => p.kind.isRemoval || p.kind.isFinish) = refsInFlight ops := by
  induction ops with
  | nil => rfl
  | cons p ops ih =>
    have hrefs : (p.kind.isRemoval || p.kind.isFinish) = false → p.kind.refs = [] := by
      intro hkind
      cases hp : p.kind <;> simp_all [OpKind.isRemoval, OpKind.isFinish, OpKind.refs]
    rw [List.filter_cons]
    split
    · rw [refsInFlight, List.flatMap_cons, refsInFlight, List.flatMap_cons]
      exact congrArg _ ih
    · rename_i hkind
      rw [ih, refsInFlight, refsInFlight, List.flatMap_cons, hrefs (by simpa using hkind),
        List.nil_append]

/-- The books rest on the removals and the finishes in flight. -/
theorem Books.of_filter (h : Books runId book ops)
    (hops : ops'.filter (fun p => p.kind.isRemoval || p.kind.isFinish) =
      ops.filter fun p => p.kind.isRemoval || p.kind.isFinish) : Books runId book ops' := by
  have hrefs : refsInFlight ops' = refsInFlight ops := by
    rw [← refsInFlight_filter ops', hops, refsInFlight_filter]
  have hmem : ∀ p ∈ ops', ∀ ref ∈ p.kind.refs, p ∈ ops := by
    intro p hp ref href
    have hkind : (p.kind.isRemoval || p.kind.isFinish) = true := by
      cases hk : p.kind <;> simp_all [OpKind.isRemoval, OpKind.isFinish, OpKind.refs]
    have hin : p ∈ ops'.filter fun p => p.kind.isRemoval || p.kind.isFinish :=
      List.mem_filter.2 ⟨hp, hkind⟩
    rw [hops] at hin
    exact (List.mem_filter.1 hin).1
  refine ⟨h.ids, h.names, h.numbered, fun p hp hkind ref href => ?_,
    fun p hp hkind ref href => ?_, hrefs ▸ h.inFlight, fun e he ref href => hrefs ▸ h.recorded e he ref href⟩
  · exact h.sent p (hmem p hp ref href) hkind ref href
  · exact h.above p (hmem p hp ref href) hkind ref href

theorem Inv.works (h : Inv run) (hworks : Works run run') : Inv run' := by
  refine ⟨?_, hworks.quiet⟩
  rw [hworks.id]
  refine Books.of_filter (h.books.rebook ?_ (fun e' he' => ?_) (fun e he => ?_)
    fun _ e' he' => ?_) hworks.removals
  · rw [Run.book, List.map_map]
    exact hworks.ids
  · obtain ⟨t', ht', rfl⟩ := List.mem_map.1 he'
    rcases hworks.tasks t' ht' with ⟨t, ht, heq⟩ | hnew
    · exact .inl ⟨t.entry, List.mem_map_of_mem ht, by rw [heq]; exact ⟨rfl, rfl, le_rfl⟩⟩
    · exact .inr hnew
  · obtain ⟨t, ht, rfl⟩ := List.mem_map.1 he
    obtain ⟨t', ht', heq⟩ := hworks.kept t ht
    exact ⟨t'.entry, List.mem_map_of_mem ht', by rw [heq]; exact ⟨rfl, rfl, le_rfl⟩⟩
  · obtain ⟨t', ht', rfl⟩ := List.mem_map.1 he'
    rcases hworks.tasks t' ht' with ⟨t, ht, heq⟩ | hnew
    · exact .inr ⟨t.entry, List.mem_map_of_mem ht, by rw [heq], by rw [heq]⟩
    · exact .inl hnew.2.2

theorem Inv.step (h : Inv run) (hstep : Step Counted run run') : Inv run' := by
  cases hstep with
  | schedule now => exact h.schedule now
  | merged hp hkind _ _ =>
    -- a merge in flight means that nothing finishes the run
    have hfree : run.finishing = false := by
      by_contra hfinishing
      rw [Bool.not_eq_false] at hfinishing
      exact h.quiet (.inl hfinishing) _ hp hkind
    refine (Free.merged ⟨h.eraseP, ?_⟩).toInv
    exact finishing_eq_false.2 fun q hq => finishing_eq_false.1 hfree q (List.mem_of_mem_eraseP hq)
  | removed hp hkind result => exact h.removed hp hkind
  | finish hok => exact h.finish_step hok
  | finished hp hkind done => exact h.finished hp hkind
  | reject hok hround hcounted => exact h.reject_step hok hround hcounted
  | work hworks => exact h.works hworks

/-! ## From an accepted plan on -/

/-- A task of a new run: none of its checkouts is there yet. -/
def startTask (wtDir runId : String) (t : Anthrex.Run.Task) : Task where
  id := t.id
  worktree := wtDir ++ "/runs/" ++ runId ++ "/" ++ t.id

def start (wtDir : String) (run : Anthrex.Run) : Run where
  id := run.id
  wtDir := wtDir
  tasks := run.tasks.map (startTask wtDir run.id)

theorem named_of_checkFields {L : Lib} {spec : Anthrex.Run.PlanTask} (h : checkFields L spec = []) :
    Named spec.id := by
  simp only [checkFields, List.append_eq_nil_iff] at h
  have hid := h.1.1.1.1.1.1.1.1.1
  split at hid
  · cases hid
  · rename_i hvalid
    split at hid
    · cases hid
    · rename_i hreserved
      simp only [isValidId, Bool.not_eq_true', Bool.not_eq_false, Bool.and_eq_true,
        List.all_eq_true] at hvalid
      have hchars := hvalid.2
      refine ⟨fun hmem => ?_, hreserved, ?_⟩
      · exact absurd (hchars _ hmem) (by decide)
      · intro heq
        rw [heq] at hchars
        exact absurd (hchars '_' (by decide)) (by decide)

theorem Inv.start {L : Lib} {planErrors : List Anthrex.Run.PlanError} {base run : Anthrex.Run}
    {specs : List Anthrex.Run.PlanTask} (h : buildRun L planErrors base specs = .ok run)
    (wtDir : String) : Inv (start wtDir run) := by
  obtain ⟨-, herrors, hvalid, -, rfl⟩ := buildRun_eq_ok.1 h
  generalize htasks : (specs.map fun spec => (buildTask L base spec).1) = tasks at hvalid
  have hbuilt : ∀ t ∈ tasks, Named t.id ∧ t.state.isFinished = false := by
    intro t ht
    rw [← htasks] at ht
    obtain ⟨spec, hspec, rfl⟩ := List.mem_map.1 ht
    have hnil := List.flatMap_eq_nil_iff.1 herrors spec hspec
    simp only [buildTask, resolveTaskLenient, List.append_eq_nil_iff] at hnil
    exact ⟨named_of_checkFields hnil.1.1.1.1, rfl⟩
  have hnodup : (tasks.map Anthrex.Run.Task.id).Nodup := by
    refine List.pairwise_map.2 ((unshadowed_of_validate hvalid).imp_of_mem ?_)
    exact fun _ ht hne => hne (hbuilt _ ht).2
  have hids : (Salvage.start wtDir { base with tasks := fillImplicit tasks }).book.map Entry.id =
      tasks.map Anthrex.Run.Task.id := by
    rw [← map_id_fillImplicit tasks, Run.book, Salvage.start, List.map_map, List.map_map]
    rfl
  have hblank : ∀ e ∈ (Salvage.start wtDir { base with tasks := fillImplicit tasks }).book,
      e.refs = [] := by
    intro e he
    obtain ⟨t, ht, rfl⟩ := List.mem_map.1 he
    obtain ⟨u, -, rfl⟩ := List.mem_map.1 ht
    rfl
  refine ⟨⟨hids ▸ hnodup, fun e he => ?_, fun e he ref href => ?_, fun p hp => ?_, fun p hp => ?_,
    List.nodup_nil, fun e he ref href => ?_⟩, fun _ p hp => ?_⟩
  · have hmem : e.id ∈ tasks.map Anthrex.Run.Task.id := hids ▸ List.mem_map_of_mem he
    obtain ⟨t, ht, heq⟩ := List.mem_map.1 hmem
    exact heq ▸ (hbuilt t ht).1
  · rw [hblank e he] at href
    cases href
  · cases hp
  · cases hp
  · rw [hblank e he] at href
    cases href
  · cases hp

/-- From every accepted plan on, and in every order of removals, finishes and their results with
    the run's other events: where every reject finds the tasks counted, all salvage refs in
    flight are distinct and none of them is recorded. -/
theorem apart_run {L : Lib} {planErrors : List Anthrex.Run.PlanError} {base run₀ : Anthrex.Run}
    {specs : List Anthrex.Run.PlanTask} (h : buildRun L planErrors base specs = .ok run₀)
    {wtDir : String} (hrun : ReflTransGen (Step Counted) (start wtDir run₀) run) : Apart run := by
  have hinv : Inv run := by
    induction hrun with
    | refl => exact .start h wtDir
    | tail _ hstep ih => exact ih.step hstep
  exact hinv.apart

/-! ## A task cancelled at the gate -/

def oneSpec : Anthrex.Run.PlanTask :=
  { id := "a", title := "t", brief := "b", acceptance := ["done"], owns := ["src/a.rs"] }

/-- The run of a plan of one task. -/
def planned : Anthrex.Run :=
  { sampleRun [] with
    tasks := fillImplicit [(buildTask sampleLib (sampleRun []) oneSpec).1] }

/-- Its worktree was made ahead of the approval, and then an edit cancelled it. -/
def cancelledAtGate : Run :=
  (start "/w" planned).modifyTask 0 ({ · with state := .cancelled, worktreeLive := true })

/-- The removal of its worktree is in flight. -/
def removing : Run := cancelledAtGate.schedule 0

def removal : PendingOp :=
  ⟨0, some "a", none,
    .removeWorktree "/w/runs/r/a" "refs/anthrex/salvage/r/a/1" false false false⟩

/-- The work in the worktree is salvaged. -/
def salvaged : Run :=
  removing.removed removal "/w/runs/r/a" "refs/anthrex/salvage/r/a/1" (.removed true)

theorem buildRun_oneSpec : buildRun sampleLib [] (sampleRun []) [oneSpec] = .ok planned :=
  buildRun_eq_ok.2 ⟨rfl, by decide, by decide, by decide, rfl⟩

theorem works_cancelledAtGate : Works (start "/w" planned) cancelledAtGate where
  id := rfl
  ids := by decide
  tasks := by
    have hsame : ∀ t' ∈ cancelledAtGate.tasks, ∃ t ∈ (start "/w" planned).tasks,
        t'.entry = t.entry := by decide
    exact fun t' ht' => .inl (hsame t' ht')
  kept := by decide
  removals := rfl
  quiet := fun _ p hp => absurd hp List.not_mem_nil

/-- A run rejected once the work was salvaged. -/
theorem apart_run_reject : Apart salvaged.rejectRun ∧
    refsInFlight salvaged.rejectRun.pendingOps =
      ["refs/anthrex/salvage/r/a/2", "refs/anthrex/salvage/r/integration/1"] ∧
    salvaged.rejectRun.tasks.map (·.salvageRefs) = [["refs/anthrex/salvage/r/a/1"]] := by
  have hrun : ReflTransGen (Step Counted) (start "/w" planned) salvaged.rejectRun :=
    (((ReflTransGen.single (.work works_cancelledAtGate)).tail (.schedule 0)).tail
      (.removed (p := removal) (by decide) rfl (.removed true))).tail
      (.reject (by decide) rfl (by decide))
  exact ⟨apart_run buildRun_oneSpec hrun, by decide, by decide⟩

/-- A run rejected while the removal is in flight: the discard and the removal salvage one
    worktree under one ref. -/
theorem rejected_beside_removal :
    buildRun sampleLib [] (sampleRun []) [oneSpec] = .ok planned ∧
    ReflTransGen (Step fun _ => True) (start "/w" planned) removing.rejectRun ∧
    refsInFlight removing.rejectRun.pendingOps = ["refs/anthrex/salvage/r/a/1",
      "refs/anthrex/salvage/r/a/1", "refs/anthrex/salvage/r/integration/1"] ∧
    ¬Apart removing.rejectRun := by
  have hrefs : refsInFlight removing.rejectRun.pendingOps = ["refs/anthrex/salvage/r/a/1",
      "refs/anthrex/salvage/r/a/1", "refs/anthrex/salvage/r/integration/1"] := by decide
  refine ⟨buildRun_oneSpec, ?_, hrefs, fun h => ?_⟩
  · exact ((ReflTransGen.single (.work works_cancelledAtGate)).tail (.schedule 0)).tail
      (.reject (by decide) rfl trivial)
  · have hnodup := h.inFlight
    rw [hrefs] at hnodup
    exact absurd hnodup (by decide)

end Anthrex.Salvage
