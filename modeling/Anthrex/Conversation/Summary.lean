import Anthrex.Conversation.Turns
import Anthrex.Lessons.Fold
import Anthrex.Run.SafeText

/-!
# Summaries

The one line a tool call and its result are shown as (`conversation/summary.rs`), and the
prompts of a transcript against those of the hooks (`conversation/align.rs`).
-/

namespace Anthrex.Conversation

open Anthrex.Globs (isWhitespace)
open Anthrex.Lessons (strLines)

/-- What comes from other crates: the grapheme clusters of a text, and the compact text of a
    document. -/
structure Library where
  graphemes : String → List String
  encode : Json → String

variable (lib : Library)

def summaryMaxGraphemes : ℕ := 80

def truncateGraphemes (s : String) : String :=
  let graphemes := (lib.graphemes s).take (summaryMaxGraphemes + 1)
  if graphemes.length ≤ summaryMaxGraphemes then s
  else String.join (graphemes.take summaryMaxGraphemes) ++ "…"

/-! ## Calls -/

/-- The fields of an object. -/
abbrev Fields := List (String × Json)

def strField (obj : Fields) (key : String) : String := ((obj.lookup key).bind Json.asStr).getD ""

def basename (path : String) : String :=
  String.ofList (path.toList.reverse.takeWhile (· ≠ '/')).reverse

def firstLine (s : String) : String := String.ofList ((strLines s.toList).head?.getD [])

def arrayLen (obj : Fields) (key : String) : ℕ :=
  (((obj.lookup key).bind Json.asArray).map List.length).getD 0

def summarizeEdit (obj : Fields) : String := basename (strField obj "file_path") ++ " — 1 hunk"

def summarizeMultiEdit (obj : Fields) : String :=
  let n := arrayLen obj "edits"
  let noun := if n = 1 then "hunk" else "hunks"
  basename (strField obj "file_path") ++ " — " ++ toString n ++ " " ++ noun

def summarizeWrite (obj : Fields) : String :=
  let n := (strLines (strField obj "content").toList).length
  basename (strField obj "file_path") ++ " — " ++ toString n ++ " lines"

def summarizeRead (obj : Fields) : String :=
  let base := basename (strField obj "file_path")
  match obj.lookup "offset" with
  | some (.number (.int n)) => base ++ ":" ++ toString n
  | _ => base

def summarizeGrep (obj : Fields) : String :=
  let out := "\"" ++ strField obj "pattern" ++ "\""
  match (obj.lookup "path").bind Json.asStr with
  | some path => out ++ " in " ++ basename path
  | none => out

def summarizeTaskOrAgent (obj : Fields) : String :=
  match (obj.lookup "subagent_type").bind Json.asStr, (obj.lookup "description").bind Json.asStr with
  | some t, some d => t ++ " · " ++ d
  | some t, none => t
  | none, some d => d
  | none, none => ""

/-- What follows the first `pat` of a text. -/
def afterFirst (pat : List Char) : List Char → Option (List Char)
  | [] => none
  | c :: l => if pat.isPrefixOf (c :: l) then some ((c :: l).drop pat.length) else afterFirst pat l

def webHost (url : String) : String :=
  match afterFirst "://".toList url.toList with
  | some after => String.ofList (after.takeWhile (· ≠ '/'))
  | none => url

def fallbackKeys : List String :=
  ["file_path", "path", "command", "pattern", "url", "query", "description", "prompt"]

def fallback (obj : Fields) : String :=
  (fallbackKeys.findSome? fun key => (obj.lookup key).bind Json.asStr).getD ""

/-- The line a call is shown as. -/
def forTool (name : String) (input : Option Json) : String :=
  match input.bind Json.asObject with
  | none => ""
  | some obj =>
    truncateGraphemes lib (match name with
      | "Edit" => summarizeEdit obj
      | "MultiEdit" => summarizeMultiEdit obj
      | "Write" => summarizeWrite obj
      | "NotebookEdit" => basename (strField obj "notebook_path")
      | "Read" => summarizeRead obj
      | "Bash" => firstLine (strField obj "command")
      | "Grep" => summarizeGrep obj
      | "Glob" => strField obj "pattern"
      | "Task" | "Agent" => summarizeTaskOrAgent obj
      | "WebFetch" => webHost (strField obj "url")
      | "TodoWrite" => toString (arrayLen obj "todos") ++ " items"
      | _ => fallback obj)

/-! ## Results -/

def responseTextKeys : List String := ["output", "error", "stdout"]

/-- What the fields `keys` of a response hold beside `found`: none where two hold a text, or one
    something else. -/
def responseTextOf (obj : Fields) : (keys : List String) → (found : Option String) → Option String
  | [], found => found
  | key :: keys, found =>
    match obj.lookup key with
    | none | some .null => responseTextOf obj keys found
    | some (.string s) =>
      if s = "" then responseTextOf obj keys found
      else if found = none then responseTextOf obj keys (some s)
      else none
    | some _ => none

def responseText (value : Json) : Option String :=
  value.asObject.bind fun obj => responseTextOf obj responseTextKeys none

/-- A result is a failure where it says so: an error, or no success. -/
def responseIsOk : Option Json → Bool
  | some (.object fields) =>
    let errorIsReal := match fields.lookup "error" with
      | none | some .null => false
      | some _ => true
    !(errorIsReal || fields.lookup "success" = some (.bool false))
  | _ => true

def renderResponse : Option Json → String
  | none => ""
  | some (.string s) => s
  | some other => lib.encode other

/-- The characters that fit in `n` bytes. -/
def takeBytes : (n : ℕ) → List Char → List Char
  | _, [] => []
  | n, c :: l => if c.utf8Size ≤ n then c :: takeBytes (n - c.utf8Size) l else []

/-- A text cut to `max` bytes, and whether that shortened it. -/
def capBytes (s : String) (max : ℕ) : String × Bool :=
  if s.utf8ByteSize ≤ max then (s, false) else (String.ofList (takeBytes max s.toList), true)

/-- An input is kept whole, or not at all. -/
def capInput (input : Option Json) (max : ℕ) : Option Json :=
  input.filter fun value => value.byteSize ≤ max

/-! ## Prompts -/

/-- How a prompt of a transcript lines up with one of the hooks. -/
inductive Alignment
  | exact
  | contained
  | misaligned
  deriving DecidableEq, Repr

/-- A prompt that a person typed has to be the hook's, up to the white space around it. An
    injected one may hold it. -/
def alignment (hook text : String) (human : Bool) : Alignment :=
  let hook := Run.trim hook.toList
  if hook = Run.trim text.toList then .exact
  else if !human && !hook.isEmpty && decide (hook <:+: text.toList) then .contained
  else .misaligned

end Anthrex.Conversation
