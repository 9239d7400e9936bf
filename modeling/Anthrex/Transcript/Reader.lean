import Anthrex.Conversation.Turns
import Anthrex.Data.Lines
import Anthrex.Run.SafeText

/-!
# Reading a transcript as it grows

The tail of a transcript file (`transcript/reader.rs`, `transcript/mod.rs`): it is read pass by pass
and chunk by chunk while a runtime appends to it, a line is parsed when its newline has come, the
first lines are held until one of them shows the format, and a file that shrank or was replaced is
read again from its start.

A parser is any one of the runtimes'. What the tail hands back is what parsing the whole file at
once gives: `transcript_read`, whatever the chunks were.
-/

namespace Anthrex.Transcript

open List Lines
open Anthrex.Conversation (Record)

/-! ## Parsers -/

abbrev Version := ℕ

structure Cursor where
  prompts : ℕ := 0
  sessionId : Option String := none
  deriving DecidableEq, Repr

def Cursor.forgetPrompts (c : Cursor) : Cursor := { c with prompts := 0 }

structure TranscriptParser where
  detect : String → Option Version
  record : Version → String → Cursor → List Record × Cursor
  malformed : Version → String → Bool

def detectLines : ℕ := 16

/-- The version that the first line to show one has, of the lines at the head. -/
def detectHead (p : TranscriptParser) (lines : List String) : Option Version :=
  (lines.take detectLines).findSome? p.detect

/-! ## The tail -/

inductive Format
  /-- The lines seen so far, each with whether it was there before. -/
  | detecting (held : List (String × Bool))
  | known (version : Version)
  | unknown
  deriving DecidableEq, Repr

def newline : UInt8 := 10

def transcriptReadBudget : ℕ := 1024 * 1024

def transcriptMaxBytes : ℕ := 64 * 1024 * 1024

def transcriptLineMax : ℕ := 4 * 1024 * 1024

def chunkMax : ℕ := 64 * 1024

structure Tail where
  offset : ℕ := 0
  /-- The bytes of a line whose newline has not come. -/
  partialLine : List UInt8 := []
  /-- The rest of a line that is too long is left out. -/
  skipping : Bool := false
  format : Format := .detecting []
  cursor : Cursor := {}
  badRecord : Bool := false
  /-- The device and the inode of the file. -/
  identity : Option (ℕ × ℕ) := none
  /-- Opened on a resumed session. -/
  atEnd : Bool := false
  skipUntil : Option ℕ := none
  lineStart : ℕ := 0
  deriving DecidableEq, Repr

/-- The text of a line, without the white space around it. -/
def lineText (bytes : List UInt8) : Option String :=
  (String.fromUTF8? ⟨bytes.toArray⟩).map fun s => String.ofList (Run.trim s.toList)

namespace Tail

/-- Whether the line that began there was in the file before. -/
def isOld (t : Tail) (start : ℕ) : Bool := t.skipUntil.any (start < ·)

def parse (p : TranscriptParser) (t : Tail) (version : Version) (line : String) (old : Bool) :
    Tail × List Record :=
  if old then
    -- Read for what the cursor carries.
    ({ t with cursor := (p.record version line t.cursor).2.forgetPrompts }, [])
  else if p.malformed version line then ({ t with badRecord := true }, [])
  else
    let (records, cursor) := p.record version line t.cursor
    ({ t with cursor }, records)

/-- Parses the lines that were held. -/
def parseHeld (p : TranscriptParser) (version : Version) :
    Tail → List (String × Bool) → Tail × List Record
  | t, [] => (t, [])
  | t, held :: more =>
    let (t, records) := t.parse p version held.1 held.2
    let (t, rest) := parseHeld p version t more
    (t, records ++ rest)

def line (p : TranscriptParser) (t : Tail) (bytes : List UInt8) (old : Bool) : Tail × List Record :=
  match lineText bytes with
  | none => ({ t with badRecord := t.badRecord || !old }, [])
  | some text =>
    if text = "" then (t, [])
    else
      match t.format with
      | .known version => t.parse p version text old
      | .detecting held =>
        let head := held ++ [(text, old)]
        match detectHead p (head.map (·.1)) with
        | some version => parseHeld p version { t with format := .known version } head
        | none =>
          ({ t with format := if detectLines ≤ head.length then .unknown else .detecting head }, [])
      | .unknown => (t, [])

/-- A piece of a line, with its newline or without: `pos` is where the next one starts. -/
def segment (p : TranscriptParser) (t : Tail) (pos : ℕ) (bytes : List UInt8) (ends : Bool) :
    Tail × List Record :=
  let began := t.lineStart
  let t := if ends then { t with lineStart := pos } else t
  if t.skipping then ({ t with skipping := !ends }, [])
  else
    let bytes := t.partialLine ++ bytes
    if transcriptLineMax < bytes.length then
      ({ t with
        partialLine := []
        badRecord := t.badRecord || !t.isOld began
        skipping := !ends }, [])
    else if ends then { t with partialLine := [] }.line p bytes (t.isOld began)
    else ({ t with partialLine := bytes }, [])

/-- The lines of a chunk and what comes after them, from `pos` on. -/
def feedFrom (p : TranscriptParser) (pos : ℕ) (rest : List UInt8) :
    List (List UInt8) → Tail → Tail × List Record
  | [], t => if rest = [] then (t, []) else t.segment p (pos + rest.length) rest false
  | bytes :: lines, t =>
    let (t, records) := t.segment p (pos + (bytes.length + 1)) bytes true
    if t.format = .unknown then (t, records)
    else
      let (t, more) := feedFrom p (pos + (bytes.length + 1)) rest lines t
      (t, records ++ more)

/-- Splits the bytes that begin at the offset `start` into lines. -/
def feed (p : TranscriptParser) (t : Tail) (start : ℕ) (bytes : List UInt8) : Tail × List Record :=
  feedFrom p start (torn newline bytes) (ended newline bytes) t

def restart (t : Tail) : Tail := { atEnd := t.atEnd }

end Tail

/-! ## The file and the passes -/

structure File where
  content : List UInt8
  identity : ℕ × ℕ

/-- The reader, the file and what was made of it. -/
structure Watch where
  tail : Tail
  file : File
  /-- The bytes this pass may still read; `none` between passes. -/
  left : Option ℕ := none
  /-- The bytes read since the tail started or restarted. -/
  consumed : List UInt8 := []
  /-- The records that the caller has, which it drops when the tail restarts. -/
  records : List Record := []

namespace Watch

/-- The tail starts again when the file shrank or is another one. -/
def Restarts (w : Watch) : Prop :=
  w.file.content.length < w.tail.offset ∨ ∃ known ∈ w.tail.identity, known ≠ w.file.identity

instance (w : Watch) : Decidable w.Restarts := inferInstanceAs (Decidable (_ ∨ _))

/-- The start of a pass over a file that can be read. -/
def begin_ (w : Watch) : Watch :=
  let tail := if w.Restarts then w.tail.restart else w.tail
  { w with
    tail := { tail with
      identity := some w.file.identity
      skipUntil :=
        if tail.atEnd ∧ tail.skipUntil = none then some w.file.content.length else tail.skipUntil }
    left := some transcriptReadBudget
    consumed := if w.Restarts then [] else w.consumed
    records := if w.Restarts then [] else w.records }

/-- A chunk of a pass that may still read `left` bytes. -/
def read (p : TranscriptParser) (w : Watch) (left : ℕ) (chunk : List UInt8) : Watch :=
  let (tail, records) := { w.tail with offset := w.tail.offset + chunk.length }.feed p w.tail.offset chunk
  { w with
    tail
    left := some (left - chunk.length)
    consumed := w.consumed ++ chunk
    records := w.records ++ records }

/-- A file that a pass tells from the one it read, unless the bytes it read are still its first. -/
def Told (w : Watch) (file : File) : Prop :=
  w.consumed <+: file.content ∨ file.content.length < w.tail.offset ∨
    ∃ known ∈ w.tail.identity, known ≠ file.identity

/-- What happens to the file and what the reader does. A pass reads the file that it opened, to
    which bytes may still come. -/
inductive Step (p : TranscriptParser) : Watch → Watch → Prop
  | append {w : Watch} (bytes : List UInt8) (hleft : w.left.isSome) :
      Step p w { w with file := { w.file with content := w.file.content ++ bytes } }
  /-- Between passes, to one that is longer as well as to another. -/
  | change {w : Watch} (file : File) (hleft : w.left = none) (htold : w.Told file) :
      Step p w { w with file }
  | start {w : Watch} (hleft : w.left = none) (hlen : w.file.content.length ≤ transcriptMaxBytes) :
      Step p w w.begin_
  | read {w : Watch} {left : ℕ} {chunk : List UInt8} (hleft : w.left = some left)
      (hformat : w.tail.format ≠ .unknown) (hchunk : chunk <+: w.file.content.drop w.tail.offset)
      (hlen : chunk.length ≤ min chunkMax left) : Step p w (w.read p left chunk)
  | stop {w : Watch} (hleft : w.left.isSome) : Step p w { w with left := none }

/-- A tail that was opened on the file, after any steps. -/
inductive Reach (p : TranscriptParser) (atEnd : Bool) : Watch → Prop
  | start (file : File) : Reach p atEnd { tail := { atEnd }, file }
  | step {w w' : Watch} (hreach : Reach p atEnd w) (hstep : Step p w w') : Reach p atEnd w'

end Watch

/-! ## What a file holds -/

/-- The lines, each with where it starts. -/
def starts : ℕ → List (List UInt8) → List (ℕ × List UInt8)
  | _, [] => []
  | pos, bytes :: lines => (pos, bytes) :: starts (pos + (bytes.length + 1)) lines

/-- Whether the line that starts there is older than the tail. -/
def old (skipUntil : Option ℕ) (start : ℕ) : Bool := skipUntil.any (start < ·)

/-- The text of a line, unless it cannot be read or is blank. -/
def readable (bytes : List UInt8) (old : Bool) : List (String × Bool) :=
  ((lineText bytes).filter (· ≠ "")).toList.map (·, old)

/-- A line that cannot be read, and is not older than the tail. -/
def Broken (skipUntil : Option ℕ) (line : ℕ × List UInt8) : Bool :=
  (transcriptLineMax < line.2.length || (lineText line.2).isNone) && !old skipUntil line.1

/-- The texts of the lines of a file. -/
def texts (skipUntil : Option ℕ) (content : List UInt8) : List (String × Bool) :=
  (starts 0 (ended newline content)).flatMap fun line =>
    if transcriptLineMax < line.2.length then [] else readable line.2 (old skipUntil line.1)

/-- What parsing came to: the records, what the parser knows, and whether a line was malformed. -/
structure Parsed where
  records : List Record := []
  cursor : Cursor := {}
  malformed : Bool := false
  deriving DecidableEq, Repr

def Parsed.next (p : TranscriptParser) (version : Version) (out : Parsed) (text : String × Bool) :
    Parsed :=
  if text.2 then { out with cursor := (p.record version text.1 out.cursor).2.forgetPrompts }
  else if p.malformed version text.1 then { out with malformed := true }
  else
    { out with
      records := out.records ++ (p.record version text.1 out.cursor).1
      cursor := (p.record version text.1 out.cursor).2 }

/-- Parses the texts in one go. -/
def parseAll (p : TranscriptParser) (version : Version) (texts : List (String × Bool)) : Parsed :=
  texts.foldl (Parsed.next p version) {}

/-- What a file comes to: nothing, until a text at its head shows the version. -/
def transcript (p : TranscriptParser) (texts : List (String × Bool)) : Parsed :=
  (detectHead p (texts.map (·.1))).elim {} (parseAll p · texts)

/-- What the tail knows of the format of such a file. -/
def formatOf (p : TranscriptParser) (texts : List (String × Bool)) : Format :=
  match detectHead p (texts.map (·.1)) with
  | some version => .known version
  | none => if detectLines ≤ texts.length then .unknown else .detecting texts

/-- A tail that has read `content`, and its records. -/
structure Reads (p : TranscriptParser) (content : List UInt8) (t : Tail) (records : List Record) :
    Prop where
  format : t.format = formatOf p (texts t.skipUntil content)
  records : records = (transcript p (texts t.skipUntil content)).records
  cursor : t.cursor = (transcript p (texts t.skipUntil content)).cursor
  lineStart : t.format ≠ .unknown → t.lineStart = (joined newline (ended newline content)).length
  skipping : t.format ≠ .unknown →
    t.skipping = decide (transcriptLineMax < (torn newline content).length)
  partialLine : t.format ≠ .unknown →
    t.partialLine = if t.skipping then [] else torn newline content
  badRecord : t.format ≠ .unknown → t.badRecord =
    ((starts 0 (ended newline content)).any (Broken t.skipUntil) ||
      (t.skipping && !old t.skipUntil t.lineStart) ||
      (transcript p (texts t.skipUntil content)).malformed)

section

variable {p : TranscriptParser} {t : Tail} {content bytes : List UInt8} {records : List Record}
  {l more : List (String × Bool)} {lines : List (List UInt8)} {pos : ℕ}

/-! ## The version -/

theorem detectHead_append_of_some {v : Version} {l more : List String} (h : detectHead p l = some v) :
    detectHead p (l ++ more) = some v := by
  rw [detectHead, take_append, findSome?_append, ← detectHead, h]
  rfl

theorem detectHead_append_of_length {l more : List String} (h : detectLines ≤ l.length) :
    detectHead p (l ++ more) = detectHead p l := by
  rw [detectHead, take_append_of_le_length h, detectHead]

/-- Once the format is unknown it stays so, and the file comes to nothing. -/
theorem formatOf_append_of_unknown (h : formatOf p l = .unknown) (more : List (String × Bool)) :
    formatOf p (l ++ more) = .unknown ∧ transcript p (l ++ more) = transcript p l := by
  rw [formatOf] at h
  split at h
  · cases h
  · next hnone =>
    split_ifs at h with hlen
    have hstays : detectHead p ((l ++ more).map (·.1)) = none := by
      rw [map_append, detectHead_append_of_length (by simpa using hlen), hnone]
    refine ⟨?_, ?_⟩
    · rw [formatOf, hstays]
      exact if_pos (hlen.trans (by simp))
    · rw [transcript, transcript, hstays, hnone]
      rfl

theorem parseAll_concat (version : Version) (l : List (String × Bool)) (text : String × Bool) :
    parseAll p version (l ++ [text]) = (parseAll p version l).next p version text := by
  rw [parseAll, foldl_append]
  rfl

/-! ## The lines -/

theorem starts_append (pos : ℕ) (lines lines' : List (List UInt8)) : starts pos (lines ++ lines') =
    starts pos lines ++ starts (pos + (joined newline lines).length) lines' := by
  induction lines generalizing pos with
  | nil => simp [starts]
  | cons bytes lines ih =>
    have hpos : pos + (bytes.length + 1) + (joined newline lines).length =
        pos + (joined newline (bytes :: lines)).length := by
      rw [joined_cons, length_append, length_cons]
      omega
    rw [cons_append, starts, ih, hpos, starts, cons_append]

theorem texts_concat (skipUntil : Option ℕ) (content : List UInt8) :
    texts skipUntil (content ++ [newline]) = texts skipUntil content ++
      if transcriptLineMax < (torn newline content).length then []
      else readable (torn newline content)
        (old skipUntil (joined newline (ended newline content)).length) := by
  rw [texts, ended, cut_append_sep, starts_append, flatMap_append, texts, Nat.zero_add]
  simp only [starts, flatMap_cons, flatMap_nil, append_nil]

/-! ## A line -/

/-- The tail after it parsed some more: its cursor, and whether a line was malformed. -/
structure Follows (t : Tail) (before after : Parsed) (out : Tail × List Record) : Prop where
  records : after.records = before.records ++ out.2
  tail : ∃ bad, after.malformed = (before.malformed || bad) ∧
    out.1 = { t with cursor := after.cursor, badRecord := t.badRecord || bad }

theorem follows_parse (version : Version) {before : Parsed} (hcursor : t.cursor = before.cursor)
    (text : String × Bool) :
    Follows t before (before.next p version text) (t.parse p version text.1 text.2) := by
  rw [Tail.parse, Parsed.next]
  split_ifs with hold hmalformed
  · exact ⟨by simp, false, by simp, by simp [hcursor]⟩
  · exact ⟨by simp, true, by simp, by simp [hcursor]⟩
  · exact ⟨by simp [hcursor], false, by simp, by simp [hcursor]⟩

theorem follows_parseHeld (version : Version) {before : Parsed} (hcursor : t.cursor = before.cursor)
    (held : List (String × Bool)) :
    Follows t before (held.foldl (Parsed.next p version) before)
      (t.parseHeld p version held) := by
  induction held generalizing t before with
  | nil => exact ⟨by simp [Tail.parseHeld], false, by simp, by simp [Tail.parseHeld, ← hcursor]⟩
  | cons text held ih =>
    obtain ⟨hrecords, bad, hbad, htail⟩ := follows_parse (p := p) version hcursor text
    rcases hparse : t.parse p version text.1 text.2 with ⟨t', records⟩
    simp only [hparse] at hrecords htail
    have hcursor' : t'.cursor = (before.next p version text).cursor := by rw [htail]
    obtain ⟨hrecords', bad', hbad', htail'⟩ := ih hcursor'
    simp only [Tail.parseHeld, hparse, foldl_cons]
    refine ⟨by rw [hrecords', hrecords, append_assoc], bad || bad', ?_, ?_⟩
    · rw [hbad', hbad, Bool.or_assoc]
    · rw [htail', htail]
      simp [Bool.or_assoc]

/-- The tail after another text of the file. -/
structure Grows (p : TranscriptParser) (t : Tail) (l more : List (String × Bool))
    (out : Tail × List Record) : Prop where
  records : (transcript p (l ++ more)).records = (transcript p l).records ++ out.2
  tail : ∃ bad, (transcript p (l ++ more)).malformed = ((transcript p l).malformed || bad) ∧
    out.1 = { t with
      format := formatOf p (l ++ more)
      cursor := (transcript p (l ++ more)).cursor
      badRecord := t.badRecord || bad }

theorem grows_nil (hformat : t.format = formatOf p l) (hcursor : t.cursor = (transcript p l).cursor) :
    Grows p t l [] (t, []) :=
  ⟨by simp, false, by simp, by simp [← hformat, ← hcursor]⟩

/-- A line that shows no version is held, or is one too many. -/
theorem grows_held (hhead : detectHead p (l.map (·.1)) = none) (hcursor : t.cursor = {})
    {text : String × Bool} (hnow : detectHead p ((l ++ [text]).map (·.1)) = none) :
    Grows p t l [text] ({ t with
      format := if detectLines ≤ (l ++ [text]).length then .unknown
        else .detecting (l ++ [text]) }, []) := by
  have hbefore : transcript p l = {} := by rw [transcript, hhead]; rfl
  have hafter : transcript p (l ++ [text]) = {} := by rw [transcript, hnow]; rfl
  refine ⟨by rw [hbefore, hafter]; rfl, false, by rw [hbefore, hafter]; rfl, ?_⟩
  rw [hafter, formatOf, hnow]
  simp [hcursor]

/-- With the line that shows the version, those that were held are parsed. -/
theorem grows_detected {version : Version} (hhead : detectHead p (l.map (·.1)) = none)
    (hcursor : t.cursor = {}) {text : String × Bool}
    (hnow : detectHead p ((l ++ [text]).map (·.1)) = some version) :
    Grows p t l [text]
      (Tail.parseHeld p version { t with format := .known version } (l ++ [text])) := by
  have hbefore : transcript p l = {} := by rw [transcript, hhead]; rfl
  have hafter : transcript p (l ++ [text]) = parseAll p version (l ++ [text]) := by
    rw [transcript, hnow]
    rfl
  have hcleared : { t with format := .known version }.cursor = ({} : Parsed).cursor := hcursor
  obtain ⟨hrecords, bad, hbad, htail⟩ := follows_parseHeld (p := p) version hcleared (l ++ [text])
  refine ⟨by rw [hafter, hbefore]; exact hrecords, bad, by rw [hafter, hbefore]; exact hbad, ?_⟩
  rw [hafter, formatOf, hnow]
  exact htail

theorem grows_known {version : Version} (hhead : detectHead p (l.map (·.1)) = some version)
    (hformat : t.format = .known version) (hcursor : t.cursor = (transcript p l).cursor)
    (text : String × Bool) : Grows p t l [text] (t.parse p version text.1 text.2) := by
  have hnow : detectHead p ((l ++ [text]).map (·.1)) = some version := by
    rw [map_append, detectHead_append_of_some hhead]
  have hbefore : transcript p l = parseAll p version l := by rw [transcript, hhead]; rfl
  have hafter : transcript p (l ++ [text]) = (parseAll p version l).next p version text := by
    rw [transcript, hnow, ← parseAll_concat]
    rfl
  obtain ⟨hrecords, bad, hbad, htail⟩ :=
    follows_parse (p := p) version (hcursor.trans (by rw [hbefore])) text
  refine ⟨by rw [hafter, hbefore, hrecords], bad, by rw [hafter, hbefore, hbad], ?_⟩
  rw [hafter, formatOf, hnow, htail]
  simp [← hformat]

/-- A line that is not too long goes to the texts, if it can be read and is not blank. -/
theorem grows_line (hformat : t.format = formatOf p l) (hcursor : t.cursor = (transcript p l).cursor)
    (hknown : t.format ≠ .unknown) (bytes : List UInt8) (old : Bool) :
    Grows p { t with badRecord := t.badRecord || ((lineText bytes).isNone && !old) } l
      (readable bytes old) (t.line p bytes old) := by
  rw [Tail.line]
  rcases htext : lineText bytes with _ | text
  · rw [readable, htext]
    simpa using grows_nil (p := p) (t := { t with badRecord := t.badRecord || !old }) hformat hcursor
  simp only [Option.isNone_some, Bool.false_and, Bool.or_false]
  change Grows p t l _ _
  by_cases hblank : text = ""
  · have hnone : readable bytes old = [] := by simp [readable, htext, hblank, Option.filter]
    rw [hnone, if_pos hblank]
    exact grows_nil hformat hcursor
  have hadds : readable bytes old = [(text, old)] := by simp [readable, htext, hblank]
  rw [hadds, if_neg hblank]
  rcases hhead : detectHead p (l.map (·.1)) with _ | version
  · rw [formatOf, hhead] at hformat
    by_cases hlen : detectLines ≤ l.length
    · exact absurd (hformat.trans (if_pos hlen)) hknown
    · rw [if_neg hlen] at hformat
      have hempty : t.cursor = {} := by rw [hcursor, transcript, hhead]; rfl
      simp only [hformat]
      split
      · next hnow => exact grows_detected hhead hempty hnow
      · next hnow => exact grows_held hhead hempty hnow
  · have hversion : t.format = .known version := by rw [hformat, formatOf, hhead]
    simp only [hversion]
    exact grows_known hhead hversion hcursor (text, old)

/-! ## A piece of a line -/

theorem broken_concat (skipUntil : Option ℕ) (content : List UInt8) :
    (starts 0 (ended newline (content ++ [newline]))).any (Broken skipUntil) =
      ((starts 0 (ended newline content)).any (Broken skipUntil) ||
        Broken skipUntil ((joined newline (ended newline content)).length, torn newline content)) := by
  rw [ended, cut_append_sep, starts_append, any_append, Nat.zero_add]
  simp only [starts, any_cons, any_nil, Bool.or_false]

/-- A piece without a newline makes the line that is not ended longer. -/
theorem Reads.piece (hreads : Reads p content t records) (hknown : t.format ≠ .unknown)
    (hbytes : newline ∉ bytes) (pos : ℕ) :
    Reads p (content ++ bytes) (t.segment p pos bytes false).1
      (records ++ (t.segment p pos bytes false).2) := by
  have hcut := cut_append_of_not_mem content hbytes
  have hended : ended newline (content ++ bytes) = ended newline content := by rw [ended, hcut]
  have htorn : torn newline (content ++ bytes) = torn newline content ++ bytes := by rw [torn, hcut]
  have htexts : ∀ skipUntil, texts skipUntil (content ++ bytes) = texts skipUntil content := fun _ => by
    rw [texts, texts, hended]
  have hcut := hreads.partialLine hknown
  have hbad := hreads.badRecord hknown
  have hskipping := hreads.skipping hknown
  simp only [Tail.segment, Bool.false_eq_true, if_false, Bool.not_false]
  by_cases hskip : t.skipping = true
  · rw [if_pos hskip, append_nil]
    rw [hskip, eq_comm, decide_eq_true_eq] at hskipping
    have hlonger : transcriptLineMax < (torn newline (content ++ bytes)).length := by
      rw [htorn, length_append]
      omega
    exact {
      format := by rw [htexts]; exact hreads.format
      records := by rw [htexts]; exact hreads.records
      cursor := by rw [htexts]; exact hreads.cursor
      lineStart := fun _ => by rw [hended]; exact hreads.lineStart hknown
      skipping := fun _ => (decide_eq_true hlonger).symm
      partialLine := fun _ => by simp [hcut, hskip]
      badRecord := fun _ => by
        rw [hended, htexts]
        simpa [hskip] using hbad }
  · rw [if_neg hskip]
    rw [Bool.not_eq_true] at hskip
    have hline : t.partialLine ++ bytes = torn newline (content ++ bytes) := by
      rw [hcut, hskip, htorn]
      rfl
    rw [hline]
    split_ifs with hlong
    · rw [append_nil]
      exact {
        format := by rw [htexts]; exact hreads.format
        records := by rw [htexts]; exact hreads.records
        cursor := by rw [htexts]; exact hreads.cursor
        lineStart := fun _ => by rw [hended]; exact hreads.lineStart hknown
        skipping := fun _ => (decide_eq_true hlong).symm
        partialLine := fun _ => rfl
        badRecord := fun _ => by
          rw [hended, htexts]
          simp only [hbad, hskip, Bool.false_and, Bool.or_false, Bool.true_and]
          rw [Bool.or_right_comm]
          rfl }
    · rw [append_nil]
      exact {
        format := by rw [htexts]; exact hreads.format
        records := by rw [htexts]; exact hreads.records
        cursor := by rw [htexts]; exact hreads.cursor
        lineStart := fun _ => by rw [hended]; exact hreads.lineStart hknown
        skipping := fun _ => by simp [hskip, hlong]
        partialLine := fun _ => by simp [hskip]
        badRecord := fun _ => by
          rw [hended, htexts]
          exact hbad }

/-- A piece with its newline is the piece, and then the newline alone. -/
theorem segment_ends (p : TranscriptParser) (t : Tail) (pos : ℕ) (bytes : List UInt8) :
    t.segment p pos bytes true = (t.segment p pos bytes false).1.segment p pos [] true ∧
      (t.segment p pos bytes false).2 = [] := by
  simp only [Tail.segment]
  by_cases hskip : t.skipping = true
  · simp [hskip]
  · by_cases hlong : transcriptLineMax < t.partialLine.length + bytes.length <;>
      simp [hskip, hlong, Tail.isOld]

theorem format_piece : (t.segment p pos bytes false).1.format = t.format := by
  simp only [Tail.segment, Bool.false_eq_true, if_false]
  split_ifs <;> rfl

theorem isOld_eq (t : Tail) (start : ℕ) : t.isOld start = old t.skipUntil start := rfl

theorem length_joined_concat (content : List UInt8) :
    (joined newline (ended newline (content ++ [newline]))).length = content.length + 1 := by
  have hwhole : joined newline (ended newline (content ++ [newline])) ++
      torn newline (content ++ [newline]) = content ++ [newline] := joined_ended _
  have hjoined := congrArg length hwhole
  have htorn : torn newline (content ++ [newline]) = [] := by rw [torn, cut_append_sep]
  rw [htorn, append_nil] at hjoined
  simpa using hjoined

/-- The newline ends the line, which is parsed unless it is too long. -/
theorem Reads.line_break (hreads : Reads p content t records) (hknown : t.format ≠ .unknown) :
    Reads p (content ++ [newline]) (t.segment p (content.length + 1) [] true).1
      (records ++ (t.segment p (content.length + 1) [] true).2) := by
  have htorn : torn newline (content ++ [newline]) = [] := by
    rw [torn, cut_append_sep]
  have hstart := hreads.lineStart hknown
  have hcut := hreads.partialLine hknown
  have hbad := hreads.badRecord hknown
  have hskipping := hreads.skipping hknown
  have hlength := length_joined_concat content
  simp only [Tail.segment, if_true, append_nil, Bool.not_true]
  by_cases hskip : t.skipping = true
  · rw [hskip, eq_comm, decide_eq_true_eq] at hskipping
    have htexts : texts t.skipUntil (content ++ [newline]) = texts t.skipUntil content := by
      rw [texts_concat, if_pos hskipping, append_nil]
    rw [if_pos hskip]
    exact {
      format := by rw [htexts]; exact hreads.format
      records := by rw [htexts, append_nil]; exact hreads.records
      cursor := by rw [htexts]; exact hreads.cursor
      lineStart := fun _ => hlength.symm
      skipping := fun _ => by simp [htorn]
      partialLine := fun _ => by simp [htorn, hcut, hskip]
      badRecord := fun _ => by
        rw [htexts, broken_concat, Broken, ← hstart]
        simp [hbad, hskip, hskipping] }
  · rw [if_neg hskip]
    rw [Bool.not_eq_true] at hskip
    have hline : t.partialLine = torn newline content := by rw [hcut, hskip]; rfl
    rw [hskip, eq_comm, decide_eq_false_iff_not] at hskipping
    have htexts : texts t.skipUntil (content ++ [newline]) =
        texts t.skipUntil content ++ readable (torn newline content)
          (old t.skipUntil t.lineStart) := by
      rw [texts_concat, if_neg hskipping, hstart]
    have hbroken : Broken t.skipUntil (t.lineStart, torn newline content) =
        ((lineText (torn newline content)).isNone && !old t.skipUntil t.lineStart) := by
      simp [Broken, hskipping]
    rw [hline, if_neg hskipping, isOld_eq]
    obtain ⟨hrecords, bad, hmalformed, htail⟩ := grows_line (p := p)
      (t := { t with lineStart := content.length + 1, partialLine := [] }) hreads.format
      hreads.cursor hknown (torn newline content) (old t.skipUntil t.lineStart)
    generalize Tail.line p { t with lineStart := content.length + 1, partialLine := [] }
      (torn newline content) (old t.skipUntil t.lineStart) = out at hrecords htail ⊢
    rw [← htexts] at hrecords hmalformed htail
    have hskip' : out.1.skipping = false := by rw [htail]; exact hskip
    have huntil : out.1.skipUntil = t.skipUntil := by rw [htail]
    exact {
      format := by rw [huntil, htail]
      records := by rw [huntil, hrecords, hreads.records]
      cursor := by rw [huntil, htail]
      lineStart := fun _ => by rw [htail]; exact hlength.symm
      skipping := fun _ => by simp [htorn, hskip']
      partialLine := fun _ => by simp [htorn, htail]
      badRecord := fun _ => by
        rw [hskip', huntil, hmalformed, broken_concat, ← hstart, hbroken, htail]
        simp only [hbad, hskip, Bool.false_and, Bool.or_false]
        generalize (transcript p (texts t.skipUntil content)).malformed = malformed
        generalize any _ _ = broken
        generalize (_ && _ : Bool) = new
        cases malformed <;> cases broken <;> cases new <;> cases bad <;> rfl }

/-! ## A chunk -/

theorem texts_append (skipUntil : Option ℕ) (content bytes : List UInt8) :
    ∃ more, texts skipUntil (content ++ bytes) = texts skipUntil content ++ more := by
  obtain ⟨lines, rest, rfl, hrest, hlines⟩ := exists_lines newline content
  have hended : ended newline (joined newline lines ++ rest ++ bytes) =
      ended newline (joined newline lines ++ rest) ++ ended newline (rest ++ bytes) := by
    rw [append_assoc, ended_joined_append hlines, ended_joined_append hlines, ended_of_not_mem hrest,
      append_nil]
  rw [texts, hended, starts_append, flatMap_append]
  exact ⟨_, rfl⟩

/-- After the format was not recognised, the rest of the file does not matter. -/
theorem Reads.rest (hreads : Reads p content t records) (hunknown : t.format = .unknown)
    (bytes : List UInt8) : Reads p (content ++ bytes) t records := by
  obtain ⟨more, hmore⟩ := texts_append t.skipUntil content bytes
  obtain ⟨hformat, htranscript⟩ :=
    formatOf_append_of_unknown (hreads.format.symm.trans hunknown) more
  exact {
    format := by rw [hmore, hformat, hunknown]
    records := by rw [hmore, htranscript]; exact hreads.records
    cursor := by rw [hmore, htranscript]; exact hreads.cursor
    lineStart := fun h => absurd hunknown h
    skipping := fun h => absurd hunknown h
    partialLine := fun h => absurd hunknown h
    badRecord := fun h => absurd hunknown h }

theorem Reads.line_end (hreads : Reads p content t records) (hknown : t.format ≠ .unknown)
    (hbytes : newline ∉ bytes) :
    Reads p (content ++ (bytes ++ [newline]))
      (t.segment p (content.length + (bytes.length + 1)) bytes true).1
      (records ++ (t.segment p (content.length + (bytes.length + 1)) bytes true).2) := by
  obtain ⟨hsplit, hnone⟩ := segment_ends p t (content.length + (bytes.length + 1)) bytes
  have hpiece := hreads.piece hknown hbytes (content.length + (bytes.length + 1))
  rw [hnone, append_nil] at hpiece
  have hlast := hpiece.line_break (format_piece.trans_ne hknown)
  rwa [length_append, append_assoc, Nat.add_assoc, ← hsplit] at hlast

theorem Reads.feedFrom {rest : List UInt8} (hreads : Reads p content t records)
    (hknown : t.format ≠ .unknown) (hrest : newline ∉ rest) (hlines : ∀ bytes ∈ lines, newline ∉ bytes) :
    Reads p (content ++ (joined newline lines ++ rest)) (t.feedFrom p content.length rest lines).1
      (records ++ (t.feedFrom p content.length rest lines).2) := by
  induction lines generalizing t content records with
  | nil =>
    rw [Tail.feedFrom, joined_nil, nil_append]
    split_ifs with hempty
    · subst hempty
      rw [append_nil, append_nil]
      exact hreads
    · exact hreads.piece hknown hrest _
  | cons bytes lines ih =>
    have hfirst := hreads.line_end hknown (hlines bytes mem_cons_self)
    have hsplit : content ++ (joined newline (bytes :: lines) ++ rest) =
        content ++ (bytes ++ [newline]) ++ (joined newline lines ++ rest) := by simp
    rw [Tail.feedFrom, hsplit]
    rcases hout : t.segment p (content.length + (bytes.length + 1)) bytes true with ⟨t', records'⟩
    simp only [hout] at hfirst ⊢
    split_ifs with hunknown
    · exact hfirst.rest hunknown _
    · have hmore := ih hfirst hunknown fun bytes' h => hlines bytes' (mem_cons_of_mem _ h)
      simp only [length_append, length_singleton] at hmore
      rw [← append_assoc records]
      exact hmore

/-- However a file is cut into chunks, the tail has read what it would have read at once. -/
theorem Reads.feed (hreads : Reads p content t records) (hknown : t.format ≠ .unknown)
    (bytes : List UInt8) :
    Reads p (content ++ bytes) (t.feed p content.length bytes).1
      (records ++ (t.feed p content.length bytes).2) := by
  have hlines : ∀ line ∈ ended newline bytes, newline ∉ line := fun _ h => not_mem_of_mem_ended h
  have hfed := hreads.feedFrom hknown (not_mem_torn bytes) hlines
  rwa [joined_ended] at hfed

/-! ## A run -/

/-- What feeding leaves alone. -/
structure Kept (t t' : Tail) : Prop where
  offset : t'.offset = t.offset
  identity : t'.identity = t.identity
  atEnd : t'.atEnd = t.atEnd
  skipUntil : t'.skipUntil = t.skipUntil

namespace Kept

theorem trans {t t' t'' : Tail} (h : Kept t t') (h' : Kept t' t'') : Kept t t'' :=
  ⟨h'.offset.trans h.offset, h'.identity.trans h.identity, h'.atEnd.trans h.atEnd,
    h'.skipUntil.trans h.skipUntil⟩

theorem parse (version : Version) (text : String) (old : Bool) :
    Kept t (t.parse p version text old).1 := by
  rw [Tail.parse]
  split_ifs <;> exact ⟨rfl, rfl, rfl, rfl⟩

theorem parseHeld (version : Version) (held : List (String × Bool)) :
    Kept t (t.parseHeld p version held).1 := by
  induction held generalizing t with
  | nil => exact ⟨rfl, rfl, rfl, rfl⟩
  | cons text held ih => exact (parse version text.1 text.2).trans ih

theorem line (bytes : List UInt8) (old : Bool) : Kept t (t.line p bytes old).1 := by
  rw [Tail.line]
  split
  · exact ⟨rfl, rfl, rfl, rfl⟩
  · split_ifs
    · exact ⟨rfl, rfl, rfl, rfl⟩
    · split
      · exact parse _ _ _
      · dsimp only
        split
        · exact (show Kept t { t with format := .known _ } from ⟨rfl, rfl, rfl, rfl⟩).trans (parseHeld _ _)
        · exact ⟨rfl, rfl, rfl, rfl⟩
      · exact ⟨rfl, rfl, rfl, rfl⟩

theorem segment (pos : ℕ) (bytes : List UInt8) (ends : Bool) :
    Kept t (t.segment p pos bytes ends).1 := by
  cases ends with
  | false =>
    simp only [Tail.segment, Bool.false_eq_true, if_false]
    split_ifs <;> exact ⟨rfl, rfl, rfl, rfl⟩
  | true =>
    simp only [Tail.segment, if_true]
    split_ifs
    · exact ⟨rfl, rfl, rfl, rfl⟩
    · exact ⟨rfl, rfl, rfl, rfl⟩
    · exact (show Kept t { t with lineStart := pos, partialLine := [] } from
        ⟨rfl, rfl, rfl, rfl⟩).trans (line _ _)

theorem feedFrom (pos : ℕ) (rest : List UInt8) (lines : List (List UInt8)) :
    Kept t (t.feedFrom p pos rest lines).1 := by
  induction lines generalizing t pos with
  | nil =>
    rw [Tail.feedFrom]
    split_ifs
    · exact ⟨rfl, rfl, rfl, rfl⟩
    · exact segment _ _ _
  | cons bytes lines ih =>
    have hfirst := segment (p := p) (t := t) (pos + (bytes.length + 1)) bytes true
    rw [Tail.feedFrom]
    rcases hout : t.segment p (pos + (bytes.length + 1)) bytes true with ⟨t', records'⟩
    simp only [hout] at hfirst ⊢
    split_ifs
    · exact hfirst
    · exact hfirst.trans (ih _)

end Kept

/-- A tail that has read nothing, wherever it is told to begin. -/
theorem reads_nil (hformat : t.format = .detecting []) (hcursor : t.cursor = {})
    (hlineStart : t.lineStart = 0) (hskipping : t.skipping = false) (hcut : t.partialLine = [])
    (hbad : t.badRecord = false) : Reads p [] t [] where
  format := hformat
  records := rfl
  cursor := hcursor
  lineStart _ := hlineStart
  skipping _ := hskipping
  partialLine _ := by rw [hcut, hskipping]; rfl
  badRecord _ := by rw [hbad, hskipping]; rfl

/-- What a tail has read of nothing does not depend on where it was told to begin. -/
theorem Reads.remeasured (hreads : Reads p [] t records) (identity : Option (ℕ × ℕ))
    (skipUntil : Option ℕ) : Reads p [] { t with identity, skipUntil } records where
  format := hreads.format
  records := hreads.records
  cursor := hreads.cursor
  lineStart := hreads.lineStart
  skipping := hreads.skipping
  partialLine := hreads.partialLine
  badRecord hknown := by
    have hskip : t.skipping = false := hreads.skipping hknown
    have hbad := hreads.badRecord hknown
    rw [hskip] at hbad
    rw [show t.badRecord = false from hbad, hskip]
    rfl

variable {w w' : Watch} {atEnd : Bool}

namespace Watch

/-- A tail between two steps of a run. -/
structure Sound (p : TranscriptParser) (atEnd : Bool) (w : Watch) : Prop where
  reads : Reads p w.consumed w.tail w.records
  offset : w.tail.offset = w.consumed.length
  reading : w.left.isSome → w.consumed <+: w.file.content
  told : w.Told w.file
  kind : w.tail.atEnd = atEnd
  /-- A resumed session's tail is measured before it reads. -/
  measured : atEnd = true → w.tail.skipUntil = none → w.left = none ∧ w.consumed = []
  plain : atEnd = false → w.tail.skipUntil = none

/-- The start of a pass: a restart, or the file still begins with what was read. -/
theorem Sound.begin_ (hsound : Sound p atEnd w) : Sound p atEnd w.begin_ := by
  by_cases hrestarts : w.Restarts
  · have hnew : w.begin_.tail = { (w.tail.restart) with
        identity := some w.file.identity
        skipUntil := if w.tail.atEnd then some w.file.content.length else none } := by
      simp [Watch.begin_, hrestarts, Tail.restart]
    have hconsumed : w.begin_.consumed = [] := if_pos hrestarts
    have hrecords : w.begin_.records = [] := if_pos hrestarts
    refine ⟨?_, ?_, ?_, .inl ?_, ?_, fun h hnone => ?_, fun h => ?_⟩
    · rw [hconsumed, hrecords, hnew]
      exact reads_nil rfl rfl rfl rfl rfl rfl
    · rw [hconsumed, hnew]
      rfl
    · rw [hconsumed]
      exact fun _ => ⟨_, rfl⟩
    · rw [hconsumed]
      exact ⟨_, rfl⟩
    · rw [hnew]
      exact hsound.kind
    · rw [hnew, hsound.kind, h] at hnone
      cases hnone
    · rw [hnew, hsound.kind, h]
      rfl
  · have hprefix : w.consumed <+: w.file.content := by
      rcases hsound.told with h | h
      · exact h
      · exact absurd h hrestarts
    have hnew : w.begin_.tail = { w.tail with
        identity := some w.file.identity
        skipUntil := if w.tail.atEnd ∧ w.tail.skipUntil = none then some w.file.content.length
          else w.tail.skipUntil } := by
      simp [Watch.begin_, hrestarts]
    have hconsumed : w.begin_.consumed = w.consumed := if_neg hrestarts
    have hrecords : w.begin_.records = w.records := if_neg hrestarts
    refine ⟨?_, ?_, ?_, .inl ?_, ?_, fun h hnone => ?_, fun h => ?_⟩
    · rw [hconsumed, hrecords, hnew]
      split_ifs with hmeasure
      · -- A tail that is measured now has read nothing.
        have hnil := (hsound.measured (hsound.kind.symm.trans hmeasure.1) hmeasure.2).2
        have hreads := hsound.reads
        rw [hnil] at hreads ⊢
        exact hreads.remeasured _ _
      · exact ⟨hsound.reads.format, hsound.reads.records, hsound.reads.cursor,
          hsound.reads.lineStart, hsound.reads.skipping, hsound.reads.partialLine,
          hsound.reads.badRecord⟩
    · rw [hconsumed, hnew]
      exact hsound.offset
    · rw [hconsumed]
      exact fun _ => hprefix
    · rw [hconsumed]
      exact hprefix
    · rw [hnew]
      exact hsound.kind
    · rw [hnew] at hnone
      split_ifs at hnone with hmeasure
      exact absurd ⟨hsound.kind.trans h, hnone⟩ hmeasure
    · rw [hnew, if_neg fun hmeasure => by simp [hsound.kind, h] at hmeasure]
      exact hsound.plain h

theorem Sound.read {left : ℕ} {chunk : List UInt8} (hsound : Sound p atEnd w)
    (hleft : w.left = some left) (hformat : w.tail.format ≠ .unknown)
    (hchunk : chunk <+: w.file.content.drop w.tail.offset) : Sound p atEnd (w.read p left chunk) := by
  have hreads : Reads p w.consumed { w.tail with offset := w.tail.offset + chunk.length } w.records :=
    ⟨hsound.reads.format, hsound.reads.records, hsound.reads.cursor, hsound.reads.lineStart,
      hsound.reads.skipping, hsound.reads.partialLine, hsound.reads.badRecord⟩
  have hfed := hreads.feed hformat chunk
  have hkept : Kept { w.tail with offset := w.tail.offset + chunk.length } (w.read p left chunk).tail :=
    Kept.feedFrom _ _ _
  have hprefix : w.consumed ++ chunk <+: w.file.content := by
    obtain ⟨rest, hrest⟩ := hsound.reading (by simp [hleft])
    rw [← hrest, hsound.offset, drop_left] at hchunk
    rw [← hrest]
    exact (prefix_append_right_inj _).2 hchunk
  rw [← hsound.offset] at hfed
  exact {
    reads := hfed
    offset := by
      rw [hkept.offset]
      simp [Watch.read, hsound.offset]
    reading := fun _ => hprefix
    told := .inl hprefix
    kind := hkept.atEnd.trans hsound.kind
    measured := fun h hnone => by
      have hmeasured := hsound.measured h (hkept.skipUntil.symm.trans hnone)
      simp [hleft] at hmeasured
    plain := fun h => hkept.skipUntil.trans (hsound.plain h) }

theorem Sound.step (hsound : Sound p atEnd w) (hstep : Step p w w') : Sound p atEnd w' := by
  cases hstep with
  | append bytes hleft =>
    have hprefix := (hsound.reading hleft).trans (prefix_append _ bytes)
    exact ⟨hsound.reads, hsound.offset, fun _ => hprefix, .inl hprefix, hsound.kind,
      hsound.measured, hsound.plain⟩
  | change file hleft htold =>
    exact ⟨hsound.reads, hsound.offset, fun h => by simp [hleft] at h, htold, hsound.kind,
      hsound.measured, hsound.plain⟩
  | stop hleft =>
    exact ⟨hsound.reads, hsound.offset, by simp, hsound.told, hsound.kind,
      fun h h' => ⟨rfl, (hsound.measured h h').2⟩, hsound.plain⟩
  | start hleft hlen => exact hsound.begin_
  | read hleft hformat hchunk hlen => exact hsound.read hleft hformat hchunk

theorem Reach.sound (hreach : Reach p atEnd w) : Sound p atEnd w := by
  induction hreach with
  | start file =>
    exact ⟨reads_nil rfl rfl rfl rfl rfl rfl, rfl, by simp, .inl ⟨_, rfl⟩, rfl,
      fun _ _ => ⟨rfl, rfl⟩, fun _ => rfl⟩
  | step _ hstep ih => exact ih.step hstep

end Watch

/-- A runtime that says every line. -/
def echo : TranscriptParser where
  detect _ := some 0
  record _ text cursor := ([.assistantText none 0 text], cursor)
  malformed _ _ := false

/-- A line that is read in two chunks, its newline in the second. -/
def echoed : Watch :=
  ((Watch.begin_ { tail := {}, file := ⟨[97, newline], (1, 1)⟩ }).read echo transcriptReadBudget [97]).read
    echo (transcriptReadBudget - 1) [newline]

end

end Anthrex.Transcript
