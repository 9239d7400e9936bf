import Anthrex.Globs

/-!
# Text of outside origin

What is made of names and messages before the run keeps or shows them
(`proto/src/safe_text.rs`, `run/messages.rs`, `run/orch/plan_frame.rs`), and which names a
model or an effort may have (`proto/src/models.rs`).
-/

namespace Anthrex.Run

open Anthrex.Globs (isWhitespace)

def within (ranges : List (ℕ × ℕ)) (c : Char) : Bool :=
  ranges.any fun r => r.1 ≤ c.toNat && c.toNat ≤ r.2

def isControl (c : Char) : Bool := within [(0, 0x1f), (0x7f, 0x9f)] c

/-- Characters a reader does not see. -/
def isHiddenFormat (c : Char) : Bool :=
  within [(0xad, 0xad), (0x34f, 0x34f), (0x61c, 0x61c), (0x115f, 0x1160), (0x17b4, 0x17b5),
    (0x180b, 0x180f), (0x200b, 0x200f), (0x202a, 0x202e), (0x2060, 0x2064), (0x2066, 0x206f),
    (0x3164, 0x3164), (0xfe00, 0xfe0f), (0xfeff, 0xfeff), (0xffa0, 0xffa0), (0xfff9, 0xfffb),
    (0x1d173, 0x1d17a), (0xe0000, 0xe007f), (0xe0100, 0xe01ef)] c

/-- With the format characters of Unicode. -/
def isFormat (c : Char) : Bool :=
  isHiddenFormat c || within [(0x600, 0x605), (0x6dd, 0x6dd), (0x70f, 0x70f), (0x890, 0x891),
    (0x8e2, 0x8e2), (0x110bd, 0x110bd), (0x110cd, 0x110cd), (0x13430, 0x1343f),
    (0x1bca0, 0x1bca3)] c

def trim (s : List Char) : List Char := (s.dropWhile isWhitespace).rdropWhile isWhitespace

/-- Nothing but white space. -/
def isBlank (s : String) : Bool := s.toList.all isWhitespace

/-- Every control character and line separator a space. -/
def oneLine (s : List Char) : List Char :=
  s.map fun c => if isControl c || c.toNat = 0x2028 || c.toNat = 0x2029 then ' ' else c

/-- A text of one line, as a frame keeps it. -/
def clean (text : String) : String :=
  String.ofList (trim (oneLine (text.toList.filter fun c =>
    !(isControl c && !isWhitespace c) && !isFormat c)))

/-- The first line, without its line ending. -/
def firstLine (text : List Char) : List Char :=
  let line := text.takeWhile (· ≠ '\n')
  if '\n' ∈ text && line.getLast? = some '\r' then line.dropLast else line

def modelIdMaxChars : ℕ := 100

/-- Why a text is no model name; `debug` quotes it. -/
def modelIdProblem (debug : String → String) (id : String) : Option String :=
  let chars := id.toList
  if chars.isEmpty || modelIdMaxChars < chars.length ||
      chars.any fun c => isWhitespace c || isControl c || isHiddenFormat c then
    some (debug id ++ " is not a model name (1 to " ++ toString modelIdMaxChars ++
      " visible characters, no spaces)")
  else if chars.head? = some '-' then
    some (debug id ++ " is not a model name (it may not start with -)")
  else none

def effortMaxChars : ℕ := 16

def validEffort (name : String) : Bool :=
  let chars := name.toList
  1 ≤ chars.length && chars.length ≤ effortMaxChars &&
    chars.all fun c => c.isLower || c.isDigit || c = '_' || c = '-'

end Anthrex.Run
