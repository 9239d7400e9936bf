import Anthrex.Engine.Failover
import Anthrex.Plan.Valid

/-!
# The actions on a run

What a client may do on a run, a stage or a task is listed with the reason it would be refused
for (`check` of `run/engine/actions/mod.rs`), composed of the rules in the order of the handler
(`actions/rules.rs`). The handler of a plan edit (`requests::edit`) goes another way: the batch is
applied to a copy of the run, and the rules of the whole plan are asked at its end. On a run whose
plan is valid the two say the same (`check_edit`).
-/

namespace Anthrex.Engine

open Anthrex.Run hiding id
open Anthrex.Plan Lists

/-- A node of a run's tree. -/
inductive ActionNode
  | run
  | stage (n : ℕ)
  | task (id : String)
  deriving DecidableEq, Repr

/-- The actions that are one plan edit. -/
inductive ActionKind
  | pause
  | unpause
  | messageStage (stage : ℕ)
  | answer
  | message
  | refresh
  | cancelTask
  deriving DecidableEq, Repr

/-! ## The rules -/

def oneEditRuleText : String :=
  "message, refresh and reply_comment must be the only edit in their call"

/-- A message, a refresh or a reply is alone in its call. -/
def oneEditRule (edits : List PlanEdit) (submit summary : Bool) : Option PlanError :=
  let special := edits.any fun
    | .message _ _ _ | .refresh _ | .replyComment _ _ _ => true
    | _ => false
  if special && (1 < edits.length || submit || summary) then
    some ⟨none, "", "42", oneEditRuleText⟩
  else none

def runIs (run : Run) : String := "run " ++ run.id ++ " is " ++ run.state.label

def adds : PlanEdit → Bool
  | .addTask _ _ | .splitTask _ _ => true
  | _ => false

/-- What refuses any edit of the run. -/
def editRun (run : Run) (edits : List PlanEdit) (submit : Bool) : Option String :=
  match oneEditRule edits submit false with
  | some error => some error.text
  | none =>
    if run.state.isTerminal || run.state = .complete then some (runIs run)
    else if run.path = some .fast && edits.any adds then
      some ("run " ++ run.id ++
        " is on the fast path: it runs one task; start a planned run instead")
    else if run.cancelled && (submit || edits.any adds) then
      some ("run " ++ run.id ++ " was cancelled")
    else none

def pauseIn (id : String) (state : RunState) : Option String :=
  if state ≠ .running then
    some ("run " ++ id ++ " is " ++ state.label ++ "; only a running run can be paused")
  else none

def unpauseIn (id : String) (state : RunState) : Option String :=
  if state ≠ .paused then
    some ("run " ++ id ++ " is " ++ state.label ++ "; only a paused run can be resumed")
  else none

def noSuchTask (id : String) : String :=
  PlanError.text ⟨some id, "task_id", "13", "no such task"⟩

namespace Rule

variable (run : Run)

def pause : Option String := pauseIn run.id run.state

def unpause : Option String := unpauseIn run.id run.state

def messageTo (to' : MessageTarget) : Option String :=
  match planMessage run to' .info run.limits.messageMaxPerTurn with
  | .error e => some e.text
  | .ok _ => none

def message (id : String) : Option String := messageTo run (.tasks [id])

def messageStage (stage : ℕ) : Option String := messageTo run (.stage stage)

def answer (id : String) : Option String :=
  match run.task? id with
  | none => some (noSuchTask id)
  | some task =>
    if !(task.state = .blocked && task.blockedFor .question) && task.state ≠ .working then
      some ("task " ++ id ++ " is " ++ task.stateLabel ++
        "; only blocked(question) or working tasks can be answered")
    else none

def refresh (id : String) : Option String := (refreshRefusal run id).map PlanError.text

def cancelTask (id : String) : Option String :=
  match run.task? id with
  | none => some (noSuchTask id)
  | some task =>
    if task.state.isFinished then
      some ("task " ++ id ++ " is " ++ task.stateLabel ++
        "; only unfinished tasks can be cancelled")
    else none

end Rule

/-! ## The check -/

/-- The task of a node; the other nodes have none. -/
def ActionNode.taskId : ActionNode → String
  | .task id => id
  | _ => ""

/-- The edit an action is. -/
def editOf (node : ActionNode) (kind : ActionKind) (text : String) : PlanEdit :=
  match kind with
  | .pause => .pause
  | .unpause => .resume
  | .messageStage stage => .message (.stage stage) text .info
  | .answer => .answer node.taskId text
  | .message => .message (.tasks [node.taskId]) text .info
  | .refresh => .refresh node.taskId
  | .cancelTask => .cancelTask node.taskId

/-- The rule of an action's own. -/
def ruleOf (run : Run) (node : ActionNode) (kind : ActionKind) : Option String :=
  match kind with
  | .pause => Rule.pause run
  | .unpause => Rule.unpause run
  | .messageStage stage => Rule.messageStage run stage
  | .answer => Rule.answer run node.taskId
  | .message => Rule.message run node.taskId
  | .refresh => Rule.refresh run node.taskId
  | .cancelTask => Rule.cancelTask run node.taskId

/-- Whether the action is refused, and why: the checks of any edit, the rule on earlier rounds,
    and the action's own. -/
def check (run : Run) (node : ActionNode) (kind : ActionKind) : Except String Unit :=
  let edits := [editOf node kind ""]
  match (editRun run edits false).or (((earlierRound run edits).map (·.message)).or
      (ruleOf run node kind)) with
  | some refusal => .error refusal
  | none => .ok ()

/-! ## The handler -/

inductive Refused
  | plan (errors : List PlanError)
  | text (text : String)
  deriving DecidableEq, Repr

/-- A pause or a resume that does not fit the state the edits before it leave. -/
def pauseOrResumeFits (id : String) : RunState → List PlanEdit → Option String
  | _, [] => none
  | state, .pause :: edits => (pauseIn id state).or (pauseOrResumeFits id .paused edits)
  | state, .resume :: edits => (unpauseIn id state).or (pauseOrResumeFits id .running edits)
  | state, _ :: edits => pauseOrResumeFits id state edits

section Handler

variable (L : Lib) (agents : Run → List Runtime)

/-- The batch applied: the edited run, and what the engine has to do with it. -/
def applyBatch (run : Run) (edits : List PlanEdit) (scope : EditScope)
    (refusals : List (Runtime × String)) (source : EditSource) (now : ℕ) :
    Except Refused (Run × List EditConsequence) :=
  match pauseOrResumeFits run.id run.state edits with
  | some text => .error (.text text)
  | none =>
    match applyEdits L run edits scope source now with
    | .error errors => .error (.plan errors)
    | .ok (edited, consequences) =>
      let before := reachableRuntimes L agents run
      let widened := (reachableRuntimes L agents edited).filter (· ∉ before)
      match widened.findSome? fun runtime => (refusals.find? (·.1 = runtime)).map (·.2) with
      | some text => .error (.text text)
      | none => .ok (edited, consequences)

/-- The user's edit of a run, without a submit. -/
def edit (run : Run) (edits : List PlanEdit) (scope : EditScope)
    (refusals : List (Runtime × String)) (now : ℕ) :
    Except String (Run × List EditConsequence) :=
  match editRun run edits false with
  | some text => .error text
  | none =>
    match applyBatch L agents run edits scope refusals .user now with
    | .ok applied => .ok applied
    | .error (.text text) => .error text
    | .error (.plan errors) => .error ("\n".intercalate (errors.map PlanError.text))

end Handler

/-! ## Each edit on its own -/

variable {L : Lib} {agents : Run → List Runtime} {run run' : Run} {b : Batch} {now i : ℕ} {id : String}
  {t : Task}

/-- What an edit comes to: it goes through, or is refused with the line the rule gives. -/
def Agrees (rule : Option String) (errors : List PlanError) : Prop :=
  rule = none ∧ errors = [] ∨ ∃ e : PlanError, rule = some e.text ∧ errors = [e]

/-- A batch before its only edit. -/
def start (run : Run) (now : ℕ) : Batch := { source := .user, run := run, now := now }

theorem start_mild : Mild run (start run now) := ⟨rfl, rfl, rfl, .refl run⟩

/-- Naming a task in the only edit of a batch: its rule is asked of the first with the id. -/
theorem withTask_agrees {k : ℕ → Task → Batch} {rule : Task → Option String}
    (hfound : ∀ i t, run.tasks[i]? = some t → t.id = id →
      Mild run (k i t) ∧ Agrees (rule t) (k i t).errors) :
    Mild run ((start run now).withTask id k) ∧
      Agrees ((run.task? id).elim (some (noSuchTask id)) rule) ((start run now).withTask id k).errors := by
  unfold Batch.withTask
  split
  · rename_i t i hfind
    have htask : run.task? id = some t := find?_of_zipIdx (p := fun u : Task => decide (u.id = id)) hfind
    rw [htask]
    exact hfound i t (List.mem_zipIdx_iff_getElem?.1 (List.mem_of_find?_eq_some hfind))
      (by simpa using List.find?_some hfind)
  · next hnone =>
    have htask : run.task? id = none := by
      refine List.find?_eq_none.2 fun t ht => ?_
      obtain ⟨i, hi⟩ := List.mem_iff_getElem?.1 ht
      exact List.find?_eq_none.1 hnone (t, i) (List.mem_zipIdx_iff_getElem?.2 hi)
    rw [htask]
    exact ⟨⟨rfl, rfl, rfl, .refl run⟩, .inr ⟨_, rfl, rfl⟩⟩

/-- The edit is refused, in the words of its rule. -/
theorem refused_agrees {e : PlanError} {rule : String} (htext : e.text = rule) :
    Mild run ((start run now).fail [e]) ∧ Agrees (some rule) ((start run now).fail [e]).errors :=
  ⟨⟨rfl, rfl, rfl, .refl run⟩, .inr ⟨e, congrArg some htext.symm, rfl⟩⟩

theorem answer_agrees (id text : String) :
    Mild run ((start run now).answer id text) ∧
      Agrees (Rule.answer run id) ((start run now).answer id text).errors := by
  have hrule : Rule.answer run id = (run.task? id).elim (some (noSuchTask id)) fun task =>
      if !(task.state = .blocked && task.blockedFor .question) && task.state ≠ .working then
        some ("task " ++ id ++ " is " ++ task.stateLabel ++
          "; only blocked(question) or working tasks can be answered")
      else none := by
    unfold Rule.answer
    cases run.task? id with
    | none => rfl
    | some task => rfl
  rw [hrule]
  refine withTask_agrees fun i t ht _ => ?_
  by_cases hrefused : (!(t.state = .blocked && t.blockedFor .question) && t.state ≠ .working) = true
  · rw [if_pos hrefused, if_pos hrefused]
    exact refused_agrees rfl
  · rw [if_neg hrefused, if_neg hrefused]
    refine ⟨⟨rfl, rfl, rfl, alike_modifyTask fun u hu => ?_⟩, .inl ⟨rfl, rfl⟩⟩
    rw [← Option.some.inj (ht.symm.trans hu)]
    refine thins_of_active rfl rfl ?_
    by_cases hworking : t.state = .working
    · simp [Task.isActive, hworking, TaskState.isFinished]
    · have hblocked : t.state = .blocked := by
        simp only [hworking, ne_eq, not_false_eq_true, decide_true, Bool.and_true, Bool.not_eq_true',
          Bool.not_eq_false, Bool.and_eq_true, decide_eq_true_eq] at hrefused
        exact hrefused.1
      simp [Task.isActive, hblocked, TaskState.isFinished]

theorem cancelIn_thins {tasks : List Task} (ht : tasks[i]? = some t) (hactive : t.isActive) :
    List.Forall₂ Thins tasks (cancelIn tasks i t.id) := by
  refine (forall₂_cancelIn ht).imp fun u u' hu => ?_
  rcases hu with ⟨rfl, rfl⟩ | rfl
  · exact thins_of_active rfl rfl hactive
  · unfold Batch.blockDependent
    split
    · exact .refl u
    · next hopen =>
      simp only [Bool.or_eq_true, not_or] at hopen
      exact thins_of_active rfl rfl (by simpa [Task.isActive] using hopen.1)

theorem cancelAt_mild (hb : Mild run b) (ht : b.run.tasks[i]? = some t) (hactive : t.isActive) :
    Mild run (b.cancelAt i t) ∧ (b.cancelAt i t).errors = b.errors := by
  unfold Batch.cancelAt
  split
  · have hmarked : Alike b.run (b.run.modifyTask i fun t => { t with cancelDeferred := true }) :=
      alike_modifyTask fun u _ => ⟨rfl, rfl, fun h => h, fun h => h⟩
    exact ⟨⟨hb.source, hb.touched, hb.addedDeps, hb.alike.trans hmarked⟩, rfl⟩
  · have hthins := cancelIn_thins ht hactive
    dsimp only
    split
    · exact ⟨⟨hb.source, hb.touched, hb.addedDeps, hb.alike.trans ⟨rfl, rfl, rfl, rfl, hthins⟩⟩, rfl⟩
    · exact ⟨⟨hb.source, hb.touched, hb.addedDeps, hb.alike.trans ⟨rfl, rfl, rfl, rfl, hthins⟩⟩, rfl⟩

theorem cancelTask_agrees (id : String) :
    Mild run ((start run now).cancel id) ∧
      Agrees (Rule.cancelTask run id) ((start run now).cancel id).errors := by
  have hrule : Rule.cancelTask run id = (run.task? id).elim (some (noSuchTask id)) fun task =>
      if task.state.isFinished then
        some ("task " ++ id ++ " is " ++ task.stateLabel ++ "; only unfinished tasks can be cancelled")
      else none := by
    unfold Rule.cancelTask
    cases run.task? id with
    | none => rfl
    | some task => rfl
  rw [hrule]
  refine withTask_agrees fun i t ht _ => ?_
  by_cases hfinished : t.state.isFinished
  · rw [if_pos hfinished, if_pos hfinished]
    exact refused_agrees rfl
  · rw [if_neg hfinished, if_neg hfinished]
    have huser : (start run now).userOnlyRefusal t id = none := by
      simp [Batch.userOnlyRefusal, start]
    rw [huser]
    have hstart : Mild run (start run now) := start_mild
    obtain ⟨hmild, herrors⟩ := cancelAt_mild hstart ht (by simpa [Task.isActive] using hfinished)
    exact ⟨hmild, .inl ⟨rfl, herrors⟩⟩

theorem isSome_position (h : refreshRefusal run id = none) : (run.position id).isSome := by
  by_contra hnone
  have htask : run.task? id = none := by
    rw [Option.not_isSome_iff_eq_none, Run.position, List.findIdx?_eq_none_iff] at hnone
    exact List.find?_eq_none.2 fun t ht => by simpa using hnone t ht
  simp [refreshRefusal, htask] at h

theorem refresh_agrees (id : String) :
    Mild run ((start run now).refresh id) ∧
      Agrees (Rule.refresh run id) ((start run now).refresh id).errors := by
  unfold Rule.refresh Batch.refresh
  cases hrefusal : refreshRefusal run id with
  | some e =>
    have happly : applyRefresh run id .user = .error e := by simp only [applyRefresh, hrefusal]
    rw [show (start run now).run = run from rfl, show (start run now).source = .user from rfl, happly]
    exact refused_agrees rfl
  | none =>
    obtain ⟨i, hi⟩ := Option.isSome_iff_exists.1 (isSome_position hrefusal)
    have happly : applyRefresh run id .user =
        .ok (run.modifyTask i fun t => { t with refresh := some .due }) := by
      simp only [applyRefresh, hrefusal, hi]
    rw [show (start run now).run = run from rfl, show (start run now).source = .user from rfl, happly]
    refine ⟨⟨rfl, rfl, rfl, alike_modifyTask fun u _ => ?_⟩, .inl ⟨rfl, rfl⟩⟩
    exact ⟨rfl, rfl, fun h => h, fun h => h⟩

theorem takeMessage_thins {message : TaskMessage} (hkind : message.kind ≠ .stopAndWait) (how : Takes)
    (t : Task) : Thins t (takeMessage message how t) := by
  have htold : Thins t { t with messages := t.messages ++ [message] } :=
    ⟨rfl, rfl, fun h => h, fun h => h⟩
  simp only [takeMessage, hkind, if_false]
  split
  · refine htold.trans ?_
    unfold release
    split
    · next hpaused =>
      simp only [Task.isPaused, Bool.and_eq_true, decide_eq_true_eq] at hpaused
      exact thins_of_active rfl rfl (by simp [Task.isActive, hpaused.1, TaskState.isFinished])
    · exact .refl _
  · exact htold

theorem recordMessage_alike {m : TaskMessage} {s : Run × MessageOutcome} (takers : List (ℕ × Takes))
    (hkind : m.kind ≠ .stopAndWait) : Alike s.1 (takers.foldl (recordMessage m) s).1 := by
  induction takers generalizing s with
  | nil => exact .refl s.1
  | cons taker takers ih =>
    have htaken : Alike s.1 (recordMessage m s taker).1 :=
      alike_modifyTask fun u _ => takeMessage_thins hkind taker.2 u
    exact htaken.trans ih

theorem message_agrees {text : String} (to' : MessageTarget) (hblank : isBlank text = false)
    (hlength : text.length ≤ messageTextMax) :
    Mild run ((start run now).message to' text .info) ∧
      Agrees (Rule.messageTo run to') ((start run now).message to' text .info).errors := by
  have hline : (1 ≤ (oneLine text.toList).length && (oneLine text.toList).length ≤ messageTextMax) =
      true := by
    have hne : text.toList ≠ [] := by
      intro hnil
      simp [isBlank, hnil] at hblank
    have hpos := List.length_pos_iff.2 hne
    simp only [oneLine, List.length_map, String.length_toList] at hpos ⊢
    rw [Bool.and_eq_true, decide_eq_true_eq, decide_eq_true_eq]
    exact ⟨hpos, hlength⟩
  unfold Rule.messageTo Batch.message
  rw [show (start run now).run = run from rfl, show (start run now).source = .user from rfl]
  cases hplan : planMessage run to' .info run.limits.messageMaxPerTurn with
  | error e =>
    have happly : applyMessage run to' text .info .user (start run now).now = .error e := by
      simp only [applyMessage, hline, Bool.not_true, Bool.false_eq_true, if_false, hplan]
    rw [happly]
    exact refused_agrees rfl
  | ok plan =>
    obtain ⟨takers, refused⟩ := plan
    have happly : applyMessage run to' text .info .user (start run now).now =
        .ok (takers.foldl (recordMessage ⟨(start run now).now, .user, .info,
          String.ofList (oneLine text.toList), false, none⟩)
          (run, { text := String.ofList (oneLine text.toList), refused := refused })) := by
      simp only [applyMessage, hline, Bool.not_true, Bool.false_eq_true, if_false, hplan]
    have halike : Alike run (takers.foldl (recordMessage ⟨(start run now).now, .user, .info,
        String.ofList (oneLine text.toList), false, none⟩)
        (run, { text := String.ofList (oneLine text.toList), refused := refused })).1 := by
      refine recordMessage_alike (s := (run, _)) takers ?_
      simp
    rw [happly]
    generalize takers.foldl _ _ = recorded at halike ⊢
    obtain ⟨run', outcome⟩ := recorded
    exact ⟨⟨rfl, rfl, rfl, halike⟩, .inl ⟨rfl, rfl⟩⟩

/-! ## The check and the handler -/

/-- The refusal of an edit into an earlier round is a whole sentence. -/
theorem field_of_earlierRound {node : ActionNode} {kind : ActionKind} {text : String} {e : PlanError}
    (h : earlierRound run [editOf node kind text] = some e) : e.field = "" := by
  unfold earlierRound at h
  dsimp only at h
  split at h
  · cases h
  · have htask : ∀ {o : Option Task} {refuse : Task → PlanError},
        (∀ t, (refuse t).field = "") → o.map refuse = some e → e.field = "" := by
      intro o refuse hfield hmap
      obtain ⟨t, -, rfl⟩ := Option.map_eq_some_iff.1 hmap
      exact hfield t
    cases kind with
    | pause => cases h
    | unpause => cases h
    | messageStage stage => cases h
    | answer => exact htask (fun _ => rfl) (List.findSome?_singleton.symm.trans h)
    | message =>
      exact htask (fun _ => rfl) (List.findSome?_singleton.symm.trans (List.findSome?_singleton.symm.trans h))
    | refresh => exact htask (fun _ => rfl) (List.findSome?_singleton.symm.trans h)
    | cancelTask => exact htask (fun _ => rfl) (List.findSome?_singleton.symm.trans h)

/-- A pause or a resume that does not fit is refused in the words of its rule; no other edit is. -/
theorem ruleOf_of_pauseOrResumeFits {node : ActionNode} {kind : ActionKind} {text refusal : String}
    (h : pauseOrResumeFits run.id run.state [editOf node kind text] = some refusal) :
    ruleOf run node kind = some refusal ∧ earlierRound run [editOf node kind text] = none := by
  have hnone : ∀ edit : PlanEdit, edit = .pause ∨ edit = .resume → earlierRound run [edit] = none := by
    rintro edit (rfl | rfl) <;> simp [earlierRound]
  cases kind with
  | pause => exact ⟨by simpa [pauseOrResumeFits, editOf, ruleOf, Rule.pause] using h, hnone _ (.inl rfl)⟩
  | unpause => exact ⟨by simpa [pauseOrResumeFits, editOf, ruleOf, Rule.unpause] using h, hnone _ (.inr rfl)⟩
  | messageStage stage => cases h
  | answer => cases h
  | message => cases h
  | refresh => cases h
  | cancelTask => cases h

/-- The edit of an action says what its rule does, apart from a pause or a resume, which the rule
    refuses before. -/
theorem apply_agrees {text : String} (node : ActionNode) (kind : ActionKind)
    (hblank : isBlank text = false) (hlength : text.length ≤ messageTextMax)
    (hfits : pauseOrResumeFits run.id run.state [editOf node kind text] = none) :
    Mild run (runBatch L run [editOf node kind text] .user now) ∧
      Agrees (ruleOf run node kind) (runBatch L run [editOf node kind text] .user now).errors := by
  cases kind with
  | pause =>
    refine ⟨⟨rfl, rfl, rfl, .refl run⟩, .inl ⟨?_, rfl⟩⟩
    simpa [pauseOrResumeFits, editOf, ruleOf, Rule.pause] using hfits
  | unpause =>
    refine ⟨⟨rfl, rfl, rfl, .refl run⟩, .inl ⟨?_, rfl⟩⟩
    simpa [pauseOrResumeFits, editOf, ruleOf, Rule.unpause] using hfits
  | messageStage stage => exact message_agrees (.stage stage) hblank hlength
  | answer => exact answer_agrees node.taskId text
  | message => exact message_agrees (.tasks [node.taskId]) hblank hlength
  | refresh => exact refresh_agrees node.taskId
  | cancelTask => exact cancelTask_agrees node.taskId

/-- No check of any edit reads the text of a message or an answer. -/
theorem editOf_text (node : ActionNode) (kind : ActionKind) (text : String) :
    editRun run [editOf node kind ""] false = editRun run [editOf node kind text] false ∧
      earlierRound run [editOf node kind ""] = earlierRound run [editOf node kind text] := by
  cases kind <;> exact ⟨rfl, rfl⟩

/-- On a run whose plan is valid, an action is listed as refused exactly when the user's edit is,
    and in the same words. -/
theorem check_edit {text : String} (hvalid : ValidRun run) (hblank : isBlank text = false)
    (hlength : text.length ≤ messageTextMax) (node : ActionNode) (kind : ActionKind) :
    (check run node kind = .ok () ↔
      ∃ applied, edit L agents run [editOf node kind text] .run [] now = .ok applied) ∧
    ∀ refusal, check run node kind = .error refusal →
      edit L agents run [editOf node kind text] .run [] now = .error refusal := by
  -- both refuse in the same words, or neither refuses
  suffices h : (∃ refusal, check run node kind = .error refusal ∧
      edit L agents run [editOf node kind text] .run [] now = .error refusal) ∨
      check run node kind = .ok () ∧
        ∃ applied, edit L agents run [editOf node kind text] .run [] now = .ok applied by
    rcases h with ⟨refusal, hcheck, hedit⟩ | ⟨hcheck, applied, hedit⟩
    · simp [hcheck, hedit]
    · simp [hcheck, hedit]
  unfold check edit applyBatch
  simp only [editOf_text node kind text]
  cases hrun : editRun run [editOf node kind text] false with
  | some refusal => exact .inl ⟨refusal, rfl, rfl⟩
  | none =>
    cases hfits : pauseOrResumeFits run.id run.state [editOf node kind text] with
    | some refusal =>
      obtain ⟨hrule, hround⟩ := ruleOf_of_pauseOrResumeFits hfits
      exact .inl ⟨refusal, by simp [hround, hrule], rfl⟩
    | none =>
      cases hround : earlierRound run [editOf node kind text] with
      | some e =>
        have happly : applyEdits L run [editOf node kind text] .run .user now = .error [e] := by
          simp only [applyEdits, hround]
        refine .inl ⟨e.message, rfl, ?_⟩
        simp [happly, PlanError.text, field_of_earlierRound hround]
      | none =>
        obtain ⟨hmild, hagrees⟩ : Mild run (runBatch L run [editOf node kind text] .user now) ∧
            Agrees (ruleOf run node kind) (runBatch L run [editOf node kind text] .user now).errors :=
          apply_agrees node kind hblank hlength hfits
        have happly := hmild.applyEdits hvalid hround
        rcases hagrees with ⟨hrule, herrors⟩ | ⟨e, hrule, herrors⟩
        · rw [if_pos herrors] at happly
          have hnone : ∀ l : List Runtime, l.findSome? (fun _ => (none : Option String)) = none :=
            fun l => List.findSome?_eq_none_iff.2 fun _ _ => rfl
          exact .inr ⟨by simp [hrule], by simp [happly, hnone]⟩
        · rw [if_neg (by simp [herrors]), herrors] at happly
          exact .inl ⟨e.text, by simp [hrule], by simp [happly]⟩

theorem validRun_waitingRun : ValidRun waitingRun := ⟨by decide, by decide⟩

/-- A working task is answered, and the one that waits for it is not, in the words of the list. -/
theorem check_edit_waitingRun :
    (check waitingRun (.task "a") .answer = .ok () ∧
      ∃ applied, edit sampleLib (fun _ => []) waitingRun [editOf (.task "a") .answer "yes"] .run [] 0 =
        .ok applied) ∧
    edit sampleLib (fun _ => []) waitingRun [editOf (.task "b") .answer "yes"] .run [] 0 =
      .error "task b is queued; only blocked(question) or working tasks can be answered" := by
  have hlisted : check waitingRun (.task "a") .answer = .ok () := by decide
  refine ⟨⟨hlisted, (check_edit validRun_waitingRun (by decide) (by decide) _ _).1.1 hlisted⟩, ?_⟩
  exact (check_edit validRun_waitingRun (by decide) (by decide) _ _).2 _ (by decide)

end Anthrex.Engine
