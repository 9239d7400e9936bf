import Anthrex.Lessons.Fold

/-!
# Escaping for the report

What is made of text of outside origin before the report holds it (`run/report_escape.rs`): a
table cell, a free-text line and the text of a list item. A cell escapes its column separators,
and only these: where a text escapes one itself, the two escapes cancel out, so a cell stays in
its place exactly for the texts that do not (`escapeCell_stays`).
-/

namespace Anthrex.Report

open Anthrex.Lessons (strLines)

/-! ## Texts -/

/-- Line breaks are spaces. -/
def flatten (c : Char) : Char := if c = '\n' ∨ c = '\r' then ' ' else c

/-- A table cell. -/
def escapeCell (s : List Char) : List Char :=
  (s.map flatten).flatMap fun c => if c = '|' then ['\\', '|'] else [c]

def replaceCrLf : List Char → List Char
  | '\r' :: '\n' :: l => '\n' :: replaceCrLf l
  | c :: l => c :: replaceCrLf l
  | [] => []

/-- Every line ends as the parser reads it. -/
def normalizeLineEndings (s : List Char) : List Char :=
  (replaceCrLf s).map fun c => if c = '\r' then '\n' else c

def isAsciiDigit (c : Char) : Bool := '0' ≤ c && c ≤ '9'

def isAsciiPunctuation (c : Char) : Bool :=
  ('!' ≤ c && c ≤ '/') || (':' ≤ c && c ≤ '@') || ('[' ≤ c && c ≤ '`') || ('\x7b' ≤ c && c ≤ '~')

def expandTabs (line : List Char) : List Char :=
  line.flatMap fun c => if c = '\t' then [' ', ' ', ' ', ' '] else [c]

/-- The digits that an ordered list marker can have. -/
def markerDigits (line : List Char) : List Char := (line.take 9).takeWhile isAsciiDigit

/-- A line with its first character escaped where it is punctuation, and its delimiter where it
    is an ordered list's. -/
def escapeStart (line : List Char) : List Char :=
  match line with
  | [] => []
  | c :: _ =>
    if isAsciiPunctuation c then '\\' :: line
    else if isAsciiDigit c then
      let digits := markerDigits line
      match line.drop digits.length with
      | d :: rest => if d = '.' ∨ d = ')' then digits ++ '\\' :: d :: rest else line
      | [] => line
    else line

def normalizeLine (line : List Char) : List Char :=
  escapeStart ((expandTabs line).dropWhile (· = ' '))

/-- The text so far, and whether a blank line came last. -/
structure Prose where
  out : List Char
  afterBlank : Bool := false

/-- One more line: after a blank one a paragraph starts. -/
def Prose.push (p : Prose) (line : List Char) : Prose :=
  let line := normalizeLine line
  if line.isEmpty then { p with afterBlank := true }
  else ⟨p.out ++ (if p.afterBlank then ['\n', '\n'] else ['\n', ' ', ' ', ' ', ' ']) ++ line, false⟩

/-- A free-text line. -/
def plainTextLine (s : List Char) : List Char :=
  let lines := strLines (normalizeLineEndings s)
  (lines.tail.foldl Prose.push { out := normalizeLine (lines.head?.getD []) }).out

/-- The text of a list item. -/
def listItemText (pre text : List Char) : List Char :=
  let lines := strLines (normalizeLineEndings text)
  lines.tail.foldl (fun out line => out ++ ['\n', ' ', ' '] ++ normalizeLine line)
    (normalizeLine (pre ++ lines.head?.getD []))

/-! ## Cells of a row -/

/-- The backslashes right before a place; what is before it is in reverse. -/
def slashes (before : List Char) : ℕ := (before.takeWhile (· = '\\')).length

/-- The `|` with an odd, or an even, number of backslashes before them. -/
def pipes (odd : Bool) : (before : List Char) → List Char → ℕ
  | _, [] => 0
  | before, c :: l =>
    (if c = '|' ∧ decide (slashes before % 2 = 1) = odd then 1 else 0) + pipes odd (c :: before) l

/-- The column separators of a row: the `|` that no backslash escapes. -/
def separators (row : List Char) : ℕ := pipes false [] row

/-- The cells of a row: what its separators part. -/
def cellsFrom : (before : List Char) → List Char → List (List Char)
  | _, [] => [[]]
  | before, c :: l =>
    if c = '|' ∧ slashes before % 2 = 0 then [] :: cellsFrom (c :: before) l
    else (cellsFrom (c :: before) l).modifyHead (c :: ·)

def cells (row : List Char) : List (List Char) := cellsFrom [] row

/-- A row of texts. -/
def joinRow (texts : List (List Char)) : List Char := [' ', '|', ' '].intercalate (texts.map escapeCell)

/-- No `|` of the text is escaped already. -/
def NothingEscaped (s : List Char) : Prop := pipes true [] s = 0

instance (s : List Char) : Decidable (NothingEscaped s) := inferInstanceAs (Decidable (_ = 0))

variable {s before before' l : List Char} {c : Char} {odd : Bool}

theorem pipes_cons : pipes odd before (c :: l) =
    (if c = '|' ∧ decide (slashes before % 2 = 1) = odd then 1 else 0) +
      pipes odd (c :: before) l := rfl

theorem slashes_cons : slashes (c :: before) = if c = '\\' then slashes before + 1 else 0 := by
  rw [slashes, List.takeWhile_cons]
  split <;> rename_i h
  · rw [if_pos (by simpa using h)]
    rfl
  · rw [if_neg (by simpa using h)]
    rfl

/-- Only the backslashes right before a text matter. -/
theorem pipes_congr (h : slashes before = slashes before') : pipes odd before l = pipes odd before' l := by
  induction l generalizing before before' with
  | nil => rfl
  | cons c l ih =>
    have hnext : slashes (c :: before) = slashes (c :: before') := by
      rw [slashes_cons, slashes_cons, h]
    rw [pipes_cons, pipes_cons, h, ih hnext]

theorem pipes_append {l' : List Char} :
    pipes odd before (l ++ l') = pipes odd before l + pipes odd (l.reverse ++ before) l' := by
  induction l generalizing before with
  | nil => exact (Nat.zero_add _).symm
  | cons c l ih =>
    rw [List.cons_append, pipes_cons, pipes_cons, ih, List.reverse_cons, List.append_assoc,
      Nat.add_assoc]
    rfl

theorem length_cellsFrom (before l : List Char) :
    (cellsFrom before l).length = pipes false before l + 1 := by
  induction l generalizing before with
  | nil => rfl
  | cons c l ih =>
    have heven : (c = '|' ∧ decide (slashes before % 2 = 1) = false) ↔
        (c = '|' ∧ slashes before % 2 = 0) := by
      rw [decide_eq_false_iff_not, Nat.mod_two_not_eq_one]
    rw [cellsFrom, pipes_cons]
    simp only [heven]
    split
    · rw [List.length_cons, ih]
      omega
    · rw [List.length_modifyHead, ih]
      omega

/-- Escaping turns the `|` with an odd number of backslashes before them into separators, and
    those alone. -/
theorem separators_escapeCell (s before : List Char) :
    pipes false before (escapeCell s) = pipes true before s := by
  induction s generalizing before with
  | nil => rfl
  | cons c s ih =>
    have hcons : escapeCell (c :: s) =
        (if flatten c = '|' then ['\\', '|'] else [flatten c]) ++ escapeCell s := rfl
    rw [hcons]
    by_cases hc : c = '|'
    · subst hc
      have hparity : (decide ((slashes before + 1) % 2 = 1) = false) ↔
          (decide (slashes before % 2 = 1) = true) := by
        rw [decide_eq_false_iff_not, decide_eq_true_iff]
        omega
      rw [if_pos (by decide), List.cons_append, List.singleton_append, pipes_cons, pipes_cons,
        pipes_cons, slashes_cons, if_pos rfl]
      have hbar : slashes ('|' :: '\\' :: before) = slashes ('|' :: before) := by
        rw [slashes_cons, slashes_cons]
        rfl
      simp only [hparity]
      rw [pipes_congr hbar, ih]
      simp
    · have hflat : flatten c ≠ '|' := by
        rw [flatten]
        split
        · decide
        · exact hc
      have hslash : slashes (flatten c :: before) = slashes (c :: before) := by
        rw [slashes_cons, slashes_cons, flatten]
        split
        · rename_i hbreak
          rcases hbreak with rfl | rfl <;> rfl
        · rfl
      rw [if_neg hflat, List.singleton_append, pipes_cons, pipes_cons, pipes_congr hslash, ih]
      simp [hc, hflat]

theorem not_mem_escapeCell (hc : c = '\n' ∨ c = '\r') : c ∉ escapeCell s := by
  rw [escapeCell, List.mem_flatMap]
  rintro ⟨x, hx, hmem⟩
  obtain ⟨y, -, rfl⟩ := List.mem_map.1 hx
  have hne : flatten y ≠ c := by
    rw [flatten]
    split
    · rcases hc with rfl | rfl <;> decide
    · rename_i hy
      rintro rfl
      exact hy hc
  split at hmem
  · rcases hc with rfl | rfl <;> simp at hmem
  · exact hne (List.mem_singleton.1 hmem).symm

/-- The `|` of several texts that are escaped already. -/
def escapedPipes (texts : List (List Char)) : ℕ := texts.foldr (fun t n => pipes true [] t + n) 0

/-- A row has the separators of its cells, and those between them. -/
theorem separators_joinRow (text : List Char) (texts : List (List Char)) :
    separators (joinRow (text :: texts)) = escapedPipes (text :: texts) + texts.length := by
  induction texts generalizing text with
  | nil => simp [separators, joinRow, escapedPipes, separators_escapeCell]
  | cons next texts ih =>
    have hjoin : joinRow (text :: next :: texts) =
        escapeCell text ++ ' ' :: '|' :: ' ' :: joinRow (next :: texts) := by
      simp [joinRow, List.intercalate_cons_of_ne_nil]
    have hspace : ∀ l' : List Char, slashes (' ' :: l') = 0 := fun l' => by
      rw [slashes_cons]
      rfl
    have hnext : pipes false (' ' :: '|' :: ' ' :: ((escapeCell text).reverse ++ []))
        (joinRow (next :: texts)) = separators (joinRow (next :: texts)) := pipes_congr (hspace _)
    rw [hjoin, separators, pipes_append, pipes, pipes, pipes, hspace, hnext, ih,
      separators_escapeCell]
    show _ = pipes true [] text + escapedPipes (next :: texts) + (texts.length + 1)
    simp
    omega

theorem escapedPipes_eq_zero {texts : List (List Char)} :
    escapedPipes texts = 0 ↔ ∀ t ∈ texts, NothingEscaped t := by
  induction texts with
  | nil => simp [escapedPipes]
  | cons t texts ih =>
    rw [List.forall_mem_cons, ← ih]
    exact Nat.add_eq_zero_iff

/-- A cell holds no line break and no separator, and a row parts into the texts it was joined
    from, exactly where no text escapes a `|` itself. -/
theorem escapeCell_stays (s text : List Char) (texts : List (List Char)) :
    (('\n' ∉ escapeCell s ∧ '\r' ∉ escapeCell s ∧ separators (escapeCell s) = 0) ↔
      NothingEscaped s) ∧
    ((cells (joinRow (text :: texts))).length = (text :: texts).length ↔
      ∀ t ∈ text :: texts, NothingEscaped t) := by
  constructor
  · rw [separators, separators_escapeCell]
    exact ⟨fun h => h.2.2, fun h => ⟨not_mem_escapeCell (.inl rfl), not_mem_escapeCell (.inr rfl), h⟩⟩
  · have hlength : (cells (joinRow (text :: texts))).length =
        escapedPipes (text :: texts) + (text :: texts).length := by
      rw [cells, length_cellsFrom, List.length_cons]
      exact congrArg (· + 1) (separators_joinRow text texts)
    rw [hlength, ← escapedPipes_eq_zero]
    omega

/-- A backslash before a `|` cancels its escape. -/
theorem escapeCell_backslash :
    ¬∀ s, '\n' ∉ escapeCell s ∧ '\r' ∉ escapeCell s ∧ separators (escapeCell s) = 0 := by
  intro h
  exact absurd (h ['\\', '|']).2.2 (by decide)

end Anthrex.Report
