import Anthrex.Data.Lines
import Anthrex.Data.SortedMap

/-!
# The intent journal

Before an operation runs, the daemon writes its intent to the run's journal, and when it has
returned, its result (`run/journal.rs`). A write may be cut by a crash after any of its bytes: an
append then leaves a torn line at the end of the file, which the next append cuts off before it
writes its own. A compaction writes another file and renames it over the journal, so that a crash
leaves the one or the other.

`logged` says what a journal is to hold after its calls, whatever stopped them, and
`readJournal_play` that a reader finds just that. After a restart an operation is answered from
the journal (`run/reconcile`): one whose result was written to the end is replayed, and not run a
second time (`reconcile_replays`).
-/

namespace Anthrex.Journal

variable {K R : Type*}

/-- A line of the journal: an operation's kind before it runs, or its result. -/
inductive JournalLine (K R : Type*)
  | intent (op : ℕ) (kind : K)
  | done (op : ℕ) (result : R)
  deriving DecidableEq, Repr

/-- How a line is written, without its newline, and read: the code takes both from a library. -/
structure Serde (K R : Type*) where
  toVec : JournalLine K R → List UInt8
  fromSlice : List UInt8 → Except String (JournalLine K R)

def newline : UInt8 := 10

def isAsciiWhitespace (b : UInt8) : Bool := b ∈ [32, 9, 10, 12, 13]

/-- A line is read back as it was written, it has no newline in it, and no line is blank. -/
structure Serde.Lawful (S : Serde K R) : Prop where
  fromSlice_toVec : ∀ line, S.fromSlice (S.toVec line) = .ok line
  newline_not_mem : ∀ line, newline ∉ S.toVec line
  not_blank : ∀ bytes line, bytes.all isAsciiWhitespace → S.fromSlice bytes ≠ .ok line

/-- The directory of a run: its journal, and the file that a compaction writes first. -/
structure Disk where
  journal : Option (List UInt8) := none
  tmp : Option (List UInt8) := none
  deriving DecidableEq, Repr

/-! ## Reading -/

section

variable (S : Serde K R)

/-- The lines that parse, and a problem for each of the others, from line `number` on. -/
def readLines (path : String) : ℕ → ℕ → List UInt8 → List (JournalLine K R) × List String
  | 0, _, _ => ([], [])
  | fuel + 1, number, rest =>
    if rest.isEmpty then ([], [])
    else
      match Text.cut newline rest with
      | none =>
        ([], [path ++ ": line " ++ toString number ++
          " is torn (no newline; a crash mid-append) and was dropped"])
      | some (line, rest) =>
        let (lines, problems) := readLines path fuel (number + 1) rest
        if line.all isAsciiWhitespace then (lines, problems)
        else
          match S.fromSlice line with
          | .ok parsed => (parsed :: lines, problems)
          | .error err =>
            (lines, (path ++ ": line " ++ toString number ++
              " does not parse and was dropped: " ++ err) :: problems)

/-- The journal's lines and the problems; a missing file is an empty journal. -/
def readJournal (path : String) (disk : Disk) : List (JournalLine K R) × List String :=
  let bytes := disk.journal.getD []
  readLines S path (bytes.length + 1) 1 bytes

/-! ## Writing -/

/-- Cuts a torn line off. -/
def healTornTail (bytes : List UInt8) : List UInt8 :=
  if bytes.getLast? = some newline then bytes else bytes.rdropWhile (· ≠ newline)

def pushLine (bytes : List UInt8) (line : JournalLine K R) : List UInt8 :=
  bytes ++ (S.toVec line ++ [newline])

/-- How far an append came. -/
inductive Reached
  | nothing
  | opened
  | healed
  /-- So many bytes of the line were written. -/
  | wrote (n : ℕ)
  deriving DecidableEq, Repr

/-- An append that was stopped there; the file is created when it is opened. -/
def append (disk : Disk) (line : JournalLine K R) (reached : Reached) : Disk :=
  let bytes := disk.journal.getD []
  match reached with
  | .nothing => disk
  | .opened => { disk with journal := some bytes }
  | .healed => { disk with journal := some (healTornTail bytes) }
  | .wrote n =>
    { disk with journal := some (healTornTail bytes ++ (S.toVec line ++ [newline]).take n) }

/-- The lines that a compaction keeps of a journal: the intents of the pending operations, and
    the results of these. -/
def compacted (lines : List (JournalLine K R)) (pending : SortedMap ℕ K) :
    List (JournalLine K R) :=
  pending.entries.map (fun p => .intent p.1 p.2) ++ lines.filter fun
    | .done op _ => (pending.get? op).isSome
    | .intent _ _ => false

/-- How far a compaction came. -/
inductive Rewritten
  | nothing
  /-- So many bytes of the new file were written. -/
  | wrote (n : ℕ)
  | renamed
  deriving DecidableEq, Repr

/-- A compaction that was stopped there. -/
def compact (path : String) (disk : Disk) (pending : SortedMap ℕ K) (rewritten : Rewritten) : Disk :=
  let bytes := (compacted (readJournal S path disk).1 pending).foldl (pushLine S) []
  match rewritten with
  | .nothing => disk
  | .wrote n => { disk with tmp := some (bytes.take n) }
  | .renamed => { journal := some bytes, tmp := none }

/-- A call on the journal, and how far it came. -/
inductive Call (K R : Type*)
  | append (line : JournalLine K R) (reached : Reached)
  | compact (pending : SortedMap ℕ K) (rewritten : Rewritten)

def call (path : String) (disk : Disk) : Call K R → Disk
  | .append line reached => append S disk line reached
  | .compact pending rewritten => compact S path disk pending rewritten

def play (path : String) (disk : Disk) (calls : List (Call K R)) : Disk :=
  calls.foldl (call S path) disk

/-! ## What is logged -/

/-- The append wrote its line to the end, the newline included. -/
def writesAll (line : JournalLine K R) : Reached → Bool
  | .wrote n => (S.toVec line).length < n
  | _ => false

/-- What a journal is to hold after a call. -/
def log (lines : List (JournalLine K R)) : Call K R → List (JournalLine K R)
  | .append line reached => if writesAll S line reached then lines ++ [line] else lines
  | .compact pending rewritten => if rewritten = .renamed then compacted lines pending else lines

def logged (lines : List (JournalLine K R)) (calls : List (Call K R)) : List (JournalLine K R) :=
  calls.foldl (log S) lines

end

variable {S : Serde K R} {path : String} {disk : Disk} {lines : List (JournalLine K R)}
  {pending : SortedMap ℕ K}

/-! ## What a reader finds -/

/-- What a line without its newline is read as. -/
def parse (S : Serde K R) (line : List UInt8) : Option (JournalLine K R) :=
  if line.all isAsciiWhitespace then none else (S.fromSlice line).toOption

theorem readLines_joined {texts : List (List UInt8)} {t : List UInt8} {fuel number : ℕ}
    (htexts : ∀ text ∈ texts, newline ∉ text) (ht : newline ∉ t) (hfuel : texts.length < fuel) :
    (readLines S path fuel number (Lines.joined newline texts ++ t)).1 =
      texts.filterMap (parse S) := by
  induction texts generalizing fuel number with
  | nil =>
    obtain ⟨fuel, rfl⟩ := Nat.exists_eq_succ_of_ne_zero hfuel.ne'
    rw [readLines, Lines.joined_nil, List.nil_append, Text.cut_of_not_mem ht]
    split_ifs <;> rfl
  | cons text texts ih =>
    obtain ⟨fuel, rfl⟩ := Nat.exists_eq_succ_of_ne_zero (by omega : fuel ≠ 0)
    have hrest : (readLines S path fuel (number + 1) (Lines.joined newline texts ++ t)).1 =
        texts.filterMap (parse S) :=
      ih (fun text' h => htexts text' (List.mem_cons_of_mem _ h)) (Nat.lt_of_succ_lt_succ hfuel)
    rw [readLines, if_neg (by simp), Lines.joined_cons, List.append_assoc, List.cons_append,
      Text.cut_append_cons (htexts text List.mem_cons_self)]
    dsimp only
    rw [List.filterMap_cons, parse]
    split_ifs with hblank
    · exact hrest
    · cases hparse : S.fromSlice text with
      | ok line =>
        exact congrArg (line :: ·) hrest
      | error err => exact hrest

/-- A reader finds what the ended lines say. -/
theorem readJournal_fst : (readJournal S path disk).1 =
    (Lines.ended newline (disk.journal.getD [])).filterMap (parse S) := by
  unfold readJournal
  generalize disk.journal.getD [] = bytes
  induction bytes using Lines.rec_lines newline with
  | h texts t ht htexts =>
    have hlength : texts.length < (Lines.joined newline texts ++ t).length + 1 := by
      have hle : texts.length ≤ (Lines.joined newline texts).length := Lines.length_le_joined texts
      rw [List.length_append]
      omega
    rw [readLines_joined htexts ht hlength, Lines.ended_joined_append htexts,
      Lines.ended_of_not_mem ht, List.append_nil]

/-! ## Appends -/

theorem healTornTail_eq (bytes : List UInt8) :
    healTornTail bytes = Lines.joined newline (Lines.ended newline bytes) := by
  induction bytes using Lines.rec_lines newline with
  | h texts t ht htexts =>
    rw [Lines.ended_joined_append htexts, Lines.ended_of_not_mem ht, List.append_nil]
    have hdrop : (Lines.joined newline texts ++ t).rdropWhile (· ≠ newline) =
        Lines.joined newline texts := by
      induction t using List.reverseRecOn with
      | nil =>
        rw [List.append_nil]
        induction texts using List.reverseRecOn with
        | nil => rfl
        | append_singleton texts text _ =>
          rw [Lines.joined_append, Lines.joined_cons, Lines.joined_nil, ← List.append_assoc,
            List.rdropWhile_concat_neg _ _ _ (by simp)]
      | append_singleton t x ih =>
        rw [List.mem_append, List.mem_singleton, not_or] at ht
        rw [← List.append_assoc, List.rdropWhile_concat_pos _ _ _ (by simpa using Ne.symm ht.2),
          ih ht.1]
    rw [healTornTail]
    split_ifs with hlast
    · -- The last byte is a newline, so that there is no torn line.
      cases t using List.reverseRecOn with
      | nil => rw [List.append_nil]
      | append_singleton t x =>
        rw [← List.append_assoc, List.getLast?_concat] at hlast
        rw [List.mem_append, List.mem_singleton, not_or] at ht
        exact absurd (Option.some.inj hlast).symm ht.2
    · exact hdrop

theorem ended_healTornTail_append {bytes t : List UInt8} :
    Lines.ended newline (healTornTail bytes ++ t) =
      Lines.ended newline bytes ++ Lines.ended newline t := by
  rw [healTornTail_eq, Lines.ended_joined_append fun _ => Lines.not_mem_of_mem_ended]

theorem parse_toVec (hS : S.Lawful) (line : JournalLine K R) : parse S (S.toVec line) = some line := by
  rw [parse, if_neg, hS.fromSlice_toVec]
  · rfl
  · exact fun hblank => hS.not_blank _ line hblank (hS.fromSlice_toVec line)

/-- The lines that so many bytes of a line and its newline end. -/
theorem ended_take (hS : S.Lawful) (line : JournalLine K R) (n : ℕ) :
    Lines.ended newline ((S.toVec line ++ [newline]).take n) =
      if writesAll S line (.wrote n) then [S.toVec line] else [] := by
  have hline := hS.newline_not_mem line
  by_cases hn : (S.toVec line).length < n
  · have hall : S.toVec line ++ [newline] = Lines.joined newline [S.toVec line] ++ [] := by simp
    rw [if_pos (by simpa [writesAll] using hn), List.take_of_length_le (by simp; omega), hall,
      Lines.ended_joined_append (by simpa using hline)]
    rfl
  · rw [if_neg (by simpa [writesAll] using hn), List.take_append_of_le_length (not_lt.1 hn)]
    exact Lines.ended_of_not_mem fun h => hline (List.mem_of_mem_take h)

theorem readJournal_append (hS : S.Lawful) (line : JournalLine K R) (reached : Reached) :
    (readJournal S path (append S disk line reached)).1 =
      log S (readJournal S path disk).1 (.append line reached) := by
  rw [readJournal_fst, readJournal_fst]
  cases reached with
  | nothing => rfl
  | opened => rfl
  | healed =>
    have hended : Lines.ended newline (healTornTail (disk.journal.getD []) ++ []) =
        Lines.ended newline (disk.journal.getD []) ++ Lines.ended newline [] :=
      ended_healTornTail_append
    rw [Lines.ended_of_not_mem List.not_mem_nil, List.append_nil, List.append_nil] at hended
    simp [append, log, writesAll, hended]
  | wrote n =>
    rw [append, Option.getD_some, ended_healTornTail_append, ended_take hS, List.filterMap_append, log]
    split_ifs with hall
    · rw [List.filterMap_cons, parse_toVec hS]
      rfl
    · rw [List.filterMap_nil, List.append_nil]

/-! ## Compactions -/

theorem foldl_pushLine (bytes : List UInt8) :
    lines.foldl (pushLine S) bytes = bytes ++ Lines.joined newline (lines.map S.toVec) := by
  induction lines generalizing bytes with
  | nil => simp
  | cons line lines ih => rw [List.foldl_cons, ih, pushLine, List.map_cons, Lines.joined_cons]; simp

theorem filterMap_parse_toVec (hS : S.Lawful) : (lines.map S.toVec).filterMap (parse S) = lines := by
  rw [List.filterMap_map]
  exact (List.filterMap_congr fun line _ => parse_toVec hS line).trans List.filterMap_some

theorem readJournal_compact (hS : S.Lawful) (rewritten : Rewritten) :
    (readJournal S path (compact S path disk pending rewritten)).1 =
      log S (readJournal S path disk).1 (.compact pending rewritten) := by
  cases rewritten with
  | nothing => rfl
  | wrote n =>
    -- The journal itself is not touched before the rename.
    rfl
  | renamed =>
    rw [log, if_pos rfl, readJournal_fst, compact]
    dsimp only
    rw [foldl_pushLine, List.nil_append, Option.getD_some]
    generalize compacted (readJournal S path disk).1 pending = kept
    have hkept : ∀ text ∈ kept.map S.toVec, newline ∉ text := by
      simpa using fun line _ => hS.newline_not_mem line
    rw [← List.append_nil (Lines.joined newline (kept.map S.toVec)), Lines.ended_joined_append hkept,
      Lines.ended_of_not_mem List.not_mem_nil, List.append_nil, filterMap_parse_toVec hS]

theorem readJournal_call (hS : S.Lawful) (c : Call K R) :
    (readJournal S path (call S path disk c)).1 = log S (readJournal S path disk).1 c := by
  cases c with
  | append line reached => exact readJournal_append hS line reached
  | compact pending rewritten => exact readJournal_compact hS rewritten

/-- Whatever stopped the calls, a reader finds the lines that were written to their end since the
    last compaction, after those that it kept. -/
theorem readJournal_play (hS : S.Lawful) (disk : Disk) (calls : List (Call K R)) :
    (readJournal S path (play S path disk calls)).1 = logged S (readJournal S path disk).1 calls := by
  induction calls generalizing disk with
  | nil => rfl
  | cons c calls ih =>
    rw [play, List.foldl_cons, ← play, ih, readJournal_call hS]
    rfl

/-! ## Reconciling -/

/-- What became of an operation that was pending when the daemon stopped. -/
inductive Reconciled (R : Type*)
  | replay (result : R)
  | notStarted
  deriving DecidableEq, Repr

/-- The result of the operation that the journal has last. -/
def lastDone (lines : List (JournalLine K R)) (op : ℕ) : Option R :=
  lines.foldl (fun found line =>
    match line with
    | .done op' result => if op' = op then some result else found
    | .intent _ _ => found) none

def hasIntent (lines : List (JournalLine K R)) (op : ℕ) : Bool :=
  lines.any fun
    | .intent op' _ => op' = op
    | .done _ _ => false

/-- The answer for each pending operation: its result, or what `check` finds of one that was to
    run. -/
def reconcile (check : ℕ → K → Reconciled R) (pendingOps : SortedMap ℕ K)
    (lines : List (JournalLine K R)) : SortedMap ℕ (Reconciled R) :=
  pendingOps.mapVal fun op kind =>
    match lastDone lines op with
    | some result => .replay result
    | none => if hasIntent lines op then check op kind else .notStarted

theorem isSome_lastDone {op : ℕ} {result : R} (h : .done op result ∈ lines) :
    (lastDone lines op).isSome := by
  obtain ⟨before, after, rfl⟩ := List.append_of_mem h
  rw [lastDone, List.foldl_append, List.foldl_cons]
  dsimp only
  rw [if_pos rfl]
  -- A result that is found is replaced by another one at most.
  refine List.foldlRecOn (motive := fun found : Option R => found.isSome) _ _ rfl ?_
  rintro found hfound (⟨op', kind⟩ | ⟨op', result'⟩) -
  · exact hfound
  · dsimp only
    split_ifs
    · rfl
    · exact hfound

/-- A call that keeps the result of the operation, if it is in the journal. -/
def Keeps (op : ℕ) : Call K R → Prop
  | .append _ _ => True
  | .compact pending _ => (pending.get? op).isSome

theorem mem_log {op : ℕ} {result : R} {c : Call K R} (hc : Keeps op c) (h : .done op result ∈ lines) :
    .done op result ∈ log S lines c := by
  cases c with
  | append line reached =>
    rw [log]
    split_ifs
    · exact List.mem_append_left _ h
    · exact h
  | compact pending rewritten =>
    rw [log]
    split_ifs
    · exact List.mem_append_right _ (List.mem_filter.2 ⟨h, hc⟩)
    · exact h

theorem mem_logged {op : ℕ} {result : R} {calls : List (Call K R)} (hcalls : ∀ c ∈ calls, Keeps op c)
    (h : .done op result ∈ lines) : .done op result ∈ logged S lines calls :=
  List.foldlRecOn (motive := fun lines : List (JournalLine K R) => .done op result ∈ lines) _ _ h
    fun _ h c hc => mem_log (hcalls c hc) h

theorem reconcile_replays {check : ℕ → K → Reconciled R} {pendingOps : SortedMap ℕ K} {op : ℕ} {kind : K}
    {result : R} (hop : pendingOps.get? op = some kind) (h : .done op result ∈ lines) :
    ∃ result', (reconcile check pendingOps lines).get? op = some (.replay result') := by
  obtain ⟨result', hresult'⟩ := Option.isSome_iff_exists.1 (isSome_lastDone h)
  exact ⟨result', by rw [reconcile, SortedMap.get?_mapVal, hop, Option.map_some, hresult']⟩

def ascii (text : String) : List UInt8 := text.toList.map fun c => c.toNat.toUInt8

/-- The start of a line; the number of the operation is counted in ones. -/
def opText (op : ℕ) : List UInt8 := ascii "\x7b\"op\":" ++ List.replicate op 49

def plainText : JournalLine Unit Unit → List UInt8
  | .intent op _ => opText op ++ 44 :: ascii "\"intent\":null\x7d"
  | .done op _ => opText op ++ 44 :: ascii "\"done\":null\x7d"

theorem mem_opText {op : ℕ} {b : UInt8} (h : b ∈ opText op) : b ∈ 49 :: ascii "\x7b\"op\":" := by
  rcases List.mem_append.1 h with h | h
  · exact List.mem_cons_of_mem _ h
  · rw [List.eq_of_mem_replicate h]
    exact List.mem_cons_self

theorem plainText_injective : Function.Injective plainText := by
  have hcomma : ∀ op, (44 : UInt8) ∉ opText op := fun op h => absurd (mem_opText h) (by decide)
  have hop : ∀ op op', opText op = opText op' → op = op' := fun op op' h => by
    simpa [opText] using congrArg List.length h
  rintro (⟨op, ⟨⟩⟩ | ⟨op, ⟨⟩⟩) (⟨op', ⟨⟩⟩ | ⟨op', ⟨⟩⟩) h
  · rw [hop op op' (Text.append_cons_inj (hcomma op) (hcomma op') h).1]
  · exact absurd (Text.append_cons_inj (hcomma op) (hcomma op') h).2 (by decide)
  · exact absurd (Text.append_cons_inj (hcomma op) (hcomma op') h).2 (by decide)
  · rw [hop op op' (Text.append_cons_inj (hcomma op) (hcomma op') h).1]

open scoped Classical in
/-- A text is read as the line that is written so. -/
noncomputable def plainSerde : Serde Unit Unit where
  toVec := plainText
  fromSlice bytes :=
    if h : ∃ line, plainText line = bytes then .ok h.choose
    else .error "data did not match any variant of untagged enum JournalLine"

theorem plainSerde_lawful : plainSerde.Lawful where
  fromSlice_toVec line := by
    have h : ∃ line', plainText line' = plainText line := ⟨line, rfl⟩
    exact (dif_pos h).trans (congrArg _ (plainText_injective h.choose_spec))
  newline_not_mem line h := by
    cases line with
    | intent op kind =>
      rcases List.mem_append.1 h with h | h
      · exact absurd (mem_opText h) (by decide)
      · exact absurd h (by decide)
    | done op result =>
      rcases List.mem_append.1 h with h | h
      · exact absurd (mem_opText h) (by decide)
      · exact absurd h (by decide)
  not_blank bytes line hblank hline := by
    by_cases h : ∃ line, plainText line = bytes
    · -- A line starts with a brace.
      obtain ⟨line', rfl⟩ := h
      cases line' <;> exact absurd hblank (by simp [plainText, opText, ascii, isAsciiWhitespace])
    · cases (dif_neg h).symm.trans hline

def pendingOne : SortedMap ℕ Unit := SortedMap.empty.insert 1 ()

/-- An intent is written, a result is torn, and it is written again; then a compaction does not come
    to its rename, and another one does. -/
def tornCalls : List (Call Unit Unit) :=
  [.append (.intent 1 ()) (.wrote 100), .append (.done 1 ()) (.wrote 5),
    .append (.done 1 ()) (.wrote 100), .compact pendingOne (.wrote 3), .compact pendingOne .renamed]

end Anthrex.Journal
