import Anthrex.Data.Text
import Anthrex.Run.Model
import Anthrex.Run.SafeText

/-!
# Review threads

A task that addresses review threads of a stage's pull request is their fix
(`run/delivery/validate.rs`), and a thread may be answered instead (`reply_comment`,
`run/delivery/reply_edit.rs`). Both change the threads' states and nothing else of the run.
-/

namespace Anthrex.Plan

open Anthrex.Run

/-- A number as the code parses one of 64 bits. -/
def parseNumber (text : List Char) : Option ℕ :=
  let ds := match text with
    | '+' :: rest => rest
    | _ => text
  if !ds.isEmpty && ds.all (·.isDigit) && digits ds < 2 ^ 64 then some (digits ds) else none

/-- A reference's pull request and key. -/
def parseRef (reference : String) : Option (ℕ × String) :=
  match Text.cut ':' reference.toList with
  | some (pr, key) => (parseNumber pr).map fun n => (n, String.ofList key)
  | none => none

def threadError (id text : String) : PlanError := ⟨some id, "", "31", text⟩

def unknownRefs (id : String) (n : ℕ) (refs : List String) : List PlanError :=
  refs.map fun r => threadError id
    ("task " ++ id ++ ": addresses " ++ r ++ ", which is not a new thread of stage " ++
      toString n ++ "'s PR")

/-- The thread is new and counts, or the task has it already. -/
def addressable (d : RunDelivery) (task : Task) (before : List String) (reference key : String) :
    Bool :=
  (d.stage task.spec.stage).any fun s => s.threads.any fun t =>
    t.key = key && ((t.state = .tasked task.id && reference ∈ before) ||
      (t.state = .new && t.counted))

/-- The keys of the references, and the errors of those that are none. -/
def addressedKeys (d : RunDelivery) (task : Task) (pr : ℕ) (before : List String) :
    List String × List PlanError :=
  task.spec.addresses.foldl (fun acc reference =>
    match parseRef reference with
    | some (p, key) =>
      if p = pr && addressable d task before reference key && key ∉ acc.1 then
        (acc.1 ++ [key], acc.2)
      else (acc.1, acc.2 ++ unknownRefs task.id task.spec.stage [reference])
    | none => (acc.1, acc.2 ++ unknownRefs task.id task.spec.stage [reference])) ([], [])

/-- The threads become the task's; the first task of a batch starts a review round. -/
def takeThreads (s : StageDelivery) (id : String) (keys : List String) : StageDelivery :=
  let batch : ℕ := ((s.threads.filter (·.key ∈ keys)).map (·.batch)).foldl max 0
  let s := { s with threads := s.threads.map fun t =>
      if t.key ∈ keys then { t with state := .tasked id } else t }
  if s.roundBatch < batch then
    { s with roundBatch := batch, reviewRounds := s.reviewRounds + 1 }
  else s

def addresses (d : RunDelivery) (task : Task) (source : EditSource) (before : List String) :
    RunDelivery × Task × List PlanError :=
  let id := task.id
  let n := task.spec.stage
  if task.spec.addresses.isEmpty then (d, task, [])
  else
    match source, d.pr n with
    | .planner _, _ => (d, task,
        [threadError id ("task " ++ id ++ ": a sub-planner cannot address review threads")])
    | _, none => (d, task, unknownRefs id n task.spec.addresses)
    | _, some pr =>
      let found := addressedKeys d task pr.number before
      if !found.2.isEmpty then (d, task, found.2)
      else
        ({ d with stages := d.stages.modify (n - 1) (takeThreads · id found.1) },
          { task with
            origin := .review
            fixes := some ⟨n, pr.number,
              found.1.map fun k => toString pr.number ++ ":" ++ k⟩ }, [])

/-- An amend is refused once the stage has landed, and checks the threads only where they
    changed. -/
def amendedThreads (d : RunDelivery) (task : Task) (source : EditSource) (before : List String) :
    RunDelivery × Task × List PlanError :=
  let id := task.id
  let n := task.spec.stage
  if d.mode = .pr && (d.pr n).any (·.state = .merged) then
    (d, task, [threadError id ("task " ++ id ++ " is in stage " ++ toString n ++
      ", whose PR is merged; a landed stage's tasks cannot be amended")])
  else if task.spec.addresses = before then (d, task, [])
  else if d.mode ≠ .pr then (d, task, unknownRefs id n task.spec.addresses)
  else if task.spec.addresses.isEmpty then
    (d, { task with fixes := task.fixes.map fun f => { f with threads := [] } }, [])
  else addresses d task source before

/-- The threads of a task as it is resolved: `before` is what an amended one addressed. -/
def applyThreads (d : RunDelivery) (task : Task) (source : EditSource)
    (before : Option (List String)) : RunDelivery × Task × List PlanError :=
  match before with
  | some before => amendedThreads d task source before
  | none =>
    let n := task.spec.stage
    if d.mode ≠ .pr then (d, task, unknownRefs task.id n task.spec.addresses)
    else
      match (d.pr n).filter (·.state ≠ .open) with
      | some pr =>
        let state := if pr.state = .merged then "merged" else "closed"
        (d, task, [threadError task.id ("stage " ++ toString n ++ "'s PR is " ++ state ++
          "; add the task to a later stage")])
      | none => addresses d task source []

/-! ## Replies -/

def replyBodyMax : ℕ := 4000

def repliesPerThread : ℕ := 3

/-- The thread is answered. -/
def replied (threads : List ThreadRecord) (key : String) : List ThreadRecord :=
  match threads.findIdx? (·.key = key) with
  | none => threads
  | some i => threads.modify i fun t => { t with state := .replied 0, replies := t.replies + 1 }

def replyComment (run : Run) (pr : ℕ) (thread body : String) (source : EditSource) :
    Except PlanError RunDelivery :=
  let error := fun text => (Except.error ⟨none, "", "30", text⟩ : Except PlanError RunDelivery)
  let d := run.delivery
  let isOpen := fun n => (d.pr n).any fun p => p.number = pr && p.state = .open
  match source, (if d.mode = .pr then (List.range' 1 d.stages.length).find? isOpen else none) with
  | .planner _, _ => error "a sub-planner cannot reply to a comment"
  | _, none => error ("pr #" ++ toString pr ++ " is not an open stage PR of run " ++ run.id)
  | _, some n =>
    let key := match Text.cut ':' thread.toList with
      | some (p, key) => if String.ofList p = toString pr then String.ofList key else thread
      | none => thread
    let ref := toString pr ++ ":" ++ key
    match (d.stage n).bind fun s => s.threads.find? (·.key = key) with
    | none => error ("unknown thread " ++ ref)
    | some record =>
      if !record.counted then
        error ("thread " ++ ref ++ " never counted: anthrex replies only on a thread a writer " ++
          "or a listed reviewer wrote in")
      else if isBlank body || replyBodyMax < body.toList.length then
        error ("reply_comment: body must be 1 to " ++ toString replyBodyMax ++ " characters")
      else if !d.replyToComments then
        error "replies are turned off ([delivery] reply_to_comments = false)"
      else if repliesPerThread ≤ record.replies then
        error ("thread " ++ ref ++ " already has " ++ toString repliesPerThread ++
          " replies; it gets more once its reviewer comments again")
      else .ok { d with stages := d.stages.modify (n - 1) fun s =>
          { s with threads := replied s.threads key } }

end Anthrex.Plan
