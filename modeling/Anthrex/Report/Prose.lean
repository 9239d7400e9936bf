import Anthrex.Data.Text
import Anthrex.Report.Escape

/-!
# Prose opens no block

What of the report's free text a Markdown parser reads as the start of a block (CommonMark, and
the tables of GFM), and that none of it is there: a normalized line begins with what no marker
begins with (`not_beginsBlock_normalizeLine`). The one exception is an indented code block, after
a first line that is blank (`plainTextLine_prose`).
-/

namespace Anthrex.Report

open Anthrex.Lessons (strLines)

variable {l line : List Char}

/-! ## Blocks -/

def isBlankChar (c : Char) : Bool := c = ' ' || c = '\t'

def Blank (line : List Char) : Prop := ∀ c ∈ line, isBlankChar c

instance : DecidablePred Blank := fun line => inferInstanceAs (Decidable (∀ c ∈ line, _))

/-- The column after the indentation of a line, from column `col` on. A tab stops every four. -/
def indentFrom (col : ℕ) : List Char → ℕ
  | ' ' :: l => indentFrom (col + 1) l
  | '\t' :: l => indentFrom (col + 4 - col % 4) l
  | _ => col

def indent (line : List Char) : ℕ := indentFrom 0 line

/-- A line without its indentation. -/
def content (line : List Char) : List Char := line.dropWhile isBlankChar

/-- A marker ends with the line, or with white space. -/
def EndsMarker (rest : List Char) : Prop := ∀ c ∈ rest.head?, isBlankChar c

/-- One to six `#`. -/
def AtxHeading (l : List Char) : Prop :=
  ∃ n rest, 1 ≤ n ∧ n ≤ 6 ∧ l = List.replicate n '#' ++ rest ∧ EndsMarker rest

/-- A run of `=` or of `-`. -/
def SetextUnderline (l : List Char) : Prop :=
  ∃ c n rest, (c = '=' ∨ c = '-') ∧ 1 ≤ n ∧ l = List.replicate n c ++ rest ∧ Blank rest

/-- Three or more of `*`, `-` or `_`, with white space among them. -/
def ThematicBreak (l : List Char) : Prop :=
  ∃ c, (c = '*' ∨ c = '-' ∨ c = '_') ∧ l.head? = some c ∧ 3 ≤ l.count c ∧
    ∀ x ∈ l, x = c ∨ isBlankChar x

/-- Three or more backticks or tildes. -/
def Fence (l : List Char) : Prop :=
  ∃ c rest, (c = '`' ∨ c = '~') ∧ l = c :: c :: c :: rest

def BlockQuote (l : List Char) : Prop := l.head? = some '>'

def BulletMarker (l : List Char) : Prop :=
  ∃ c rest, (c = '-' ∨ c = '+' ∨ c = '*') ∧ l = c :: rest ∧ EndsMarker rest

/-- One to nine digits, and a delimiter. -/
def OrderedMarker (l : List Char) : Prop :=
  ∃ digits d rest, 1 ≤ digits.length ∧ digits.length ≤ 9 ∧ (∀ c ∈ digits, isAsciiDigit c) ∧
    (d = '.' ∨ d = ')') ∧ l = digits ++ d :: rest ∧ EndsMarker rest

/-- What every start condition of an HTML block asks for, at least. -/
def HtmlBlock (l : List Char) : Prop := l.head? = some '<'

/-- Cells of dashes, with colons at their ends. -/
def DelimiterRow (l : List Char) : Prop :=
  l ≠ [] ∧ '-' ∈ l ∧ ∀ c ∈ l, c = '|' ∨ c = '-' ∨ c = ':' ∨ isBlankChar c

/-- What a link reference definition begins with, at least. -/
def LinkDefinition (l : List Char) : Prop := l.head? = some '['

/-- A line that begins a block other than a paragraph. With four columns of indentation it
    begins none of these. -/
def BeginsBlock (line : List Char) : Prop :=
  indent line < 4 ∧ (AtxHeading (content line) ∨ SetextUnderline (content line) ∨
    ThematicBreak (content line) ∨ Fence (content line) ∨ BlockQuote (content line) ∨
    BulletMarker (content line) ∨ OrderedMarker (content line) ∨ HtmlBlock (content line) ∨
    DelimiterRow (content line) ∨ LinkDefinition (content line))

/-- Lines after a blank line, none of which begins a block: an indented one follows a line of
    its paragraph. -/
structure OpensNoBlock (lines : List (List Char)) : Prop where
  begins : ∀ line ∈ lines, ¬BeginsBlock line
  indented : ∀ i line, lines[i]? = some line → 4 ≤ indent line →
    ∃ j above, i = j + 1 ∧ lines[j]? = some above ∧ ¬Blank above

/-- The lines that a parser reads. -/
def markdownLines (out : List Char) : List (List Char) := (normalizeLineEndings out).splitOn '\n'

/-! ## Normalized lines -/

/-- What a marker, other than an ordered one, begins with. -/
def markerChars : List Char := ['#', '=', '-', '*', '_', '`', '~', '>', '+', '<', '|', ':', '[']

theorem isAsciiPunctuation_of_mem {c : Char} (h : c ∈ markerChars) : isAsciiPunctuation c := by
  simp only [markerChars, List.mem_cons, List.not_mem_nil, or_false] at h
  rcases h with rfl | rfl | rfl | rfl | rfl | rfl | rfl | rfl | rfl | rfl | rfl | rfl | rfl <;> decide

theorem not_isAsciiPunctuation_of_isAsciiDigit {c : Char} (h : isAsciiDigit c) :
    isAsciiPunctuation c = false := by
  simp only [isAsciiDigit, Bool.and_eq_true, decide_eq_true_eq, Char.le_def] at h
  simp only [isAsciiPunctuation, Bool.or_eq_false_iff, Bool.and_eq_false_iff, decide_eq_false_iff_not,
    Char.le_def]
  obtain ⟨hlo, hhi⟩ := h
  have hlo' : 48 ≤ c.val.toNat := hlo
  have hhi' : c.val.toNat ≤ 57 := hhi
  refine ⟨⟨⟨.inr fun h => ?_, .inl fun h => ?_⟩, .inl fun h => ?_⟩, .inl fun h => ?_⟩
  · have : c.val.toNat ≤ 47 := h
    omega
  · have : 58 ≤ c.val.toNat := h
    omega
  · have : 91 ≤ c.val.toNat := h
    omega
  · have : 123 ≤ c.val.toNat := h
    omega

/-- The first character of a line with a marker. -/
theorem head_of_marker (h : AtxHeading l ∨ SetextUnderline l ∨ ThematicBreak l ∨ Fence l ∨
    BlockQuote l ∨ BulletMarker l ∨ HtmlBlock l ∨ DelimiterRow l ∨ LinkDefinition l) :
    ∃ c, l.head? = some c ∧ (c ∈ markerChars ∨ isBlankChar c) := by
  have hreplicate : ∀ n (c : Char) rest, 1 ≤ n → (List.replicate n c ++ rest).head? = some c := by
    intro n c rest hn
    obtain ⟨k, rfl⟩ := Nat.exists_eq_add_of_le' hn
    rfl
  rcases h with h | h | h | h | h | h | h | h | h
  · obtain ⟨n, rest, hn, -, rfl, -⟩ := h
    exact ⟨'#', hreplicate n '#' rest hn, .inl (by decide)⟩
  · obtain ⟨c, n, rest, hc, hn, rfl, -⟩ := h
    exact ⟨c, hreplicate n c rest hn, .inl (by rcases hc with rfl | rfl <;> decide)⟩
  · obtain ⟨c, hc, hhead, -⟩ := h
    exact ⟨c, hhead, .inl (by rcases hc with rfl | rfl | rfl <;> decide)⟩
  · obtain ⟨c, rest, hc, rfl⟩ := h
    exact ⟨c, rfl, .inl (by rcases hc with rfl | rfl <;> decide)⟩
  · exact ⟨'>', h, .inl (by decide)⟩
  · obtain ⟨c, rest, hc, rfl, -⟩ := h
    exact ⟨c, rfl, .inl (by rcases hc with rfl | rfl | rfl <;> decide)⟩
  · exact ⟨'<', h, .inl (by decide)⟩
  · obtain ⟨hne, -, hall⟩ := h
    obtain ⟨c, l, rfl⟩ := List.exists_cons_of_ne_nil hne
    refine ⟨c, rfl, ?_⟩
    rcases hall c List.mem_cons_self with rfl | rfl | rfl | hblank
    · exact .inl (by decide)
    · exact .inl (by decide)
    · exact .inl (by decide)
    · exact .inr hblank
  · exact ⟨'[', h, .inl (by decide)⟩

/-- A line that no marker is at the start of. -/
structure Unmarked (l : List Char) : Prop where
  head : ∀ c ∈ l.head?, c ∉ markerChars ∧ isBlankChar c = false
  ordered : ¬OrderedMarker l

theorem takeWhile_digits {digits rest : List Char} {d : Char} (hdigits : ∀ c ∈ digits, isAsciiDigit c)
    (hd : isAsciiDigit d = false) : (digits ++ d :: rest).takeWhile isAsciiDigit = digits := by
  rw [List.takeWhile_append_of_pos hdigits, List.takeWhile_cons_of_neg (by simp [hd]), List.append_nil]

/-- The digits of an ordered marker are those that are looked at. -/
theorem markerDigits_of_ordered {digits rest : List Char} {d : Char} (hlength : digits.length ≤ 9)
    (hdigits : ∀ c ∈ digits, isAsciiDigit c) (hd : isAsciiDigit d = false) :
    markerDigits (digits ++ d :: rest) = digits := by
  rw [markerDigits, List.take_append, List.take_of_length_le hlength]
  cases hk : 9 - digits.length with
  | zero => simpa using hdigits
  | succ k => rw [List.take_succ_cons, takeWhile_digits hdigits hd]

theorem isAsciiDigit_of_delimiter {d : Char} (hd : d = '.' ∨ d = ')') : isAsciiDigit d = false := by
  rcases hd with rfl | rfl <;> decide

theorem unmarked_of_head {c : Char} (hpunct : isAsciiPunctuation c = false)
    (hblank : isBlankChar c = false) (hordered : ¬OrderedMarker (c :: l)) : Unmarked (c :: l) where
  head x hx := by
    cases hx
    exact ⟨fun hmem => by simp [isAsciiPunctuation_of_mem hmem] at hpunct, hblank⟩
  ordered := hordered

/-- An ordered marker begins with a digit. -/
theorem not_ordered_of_head {c : Char} (hc : isAsciiDigit c = false) : ¬OrderedMarker (c :: l) := by
  rintro ⟨digits, d, rest, hpos, -, hdigits, -, heq, -⟩
  obtain ⟨x, digits, rfl⟩ := List.exists_cons_of_length_pos hpos
  cases heq
  simp [hdigits c List.mem_cons_self] at hc

theorem escapeStart_unmarked (hblank : ∀ c ∈ l.head?, isBlankChar c = false) :
    Unmarked (escapeStart l) := by
  cases l with
  | nil =>
    refine ⟨nofun, ?_⟩
    rintro ⟨digits, d, rest, -, -, -, -, heq, -⟩
    simp [escapeStart] at heq
  | cons c l =>
    rw [escapeStart]
    split
    · exact ⟨fun x hx => by cases hx; decide, not_ordered_of_head (by decide)⟩
    rename_i hpunct
    rw [Bool.not_eq_true] at hpunct
    split
    · rename_i hdigit
      have hmark : ∀ x ∈ markerDigits (c :: l), isAsciiDigit x := fun x hx =>
        List.mem_takeWhile_imp hx
      have hcons : ∃ more, markerDigits (c :: l) = c :: more := by
        rw [markerDigits, List.take_succ_cons, List.takeWhile_cons_of_pos hdigit]
        exact ⟨_, rfl⟩
      -- an ordered marker of the line would be seen
      have hseen : OrderedMarker (c :: l) → ∃ d rest,
          (c :: l).drop (markerDigits (c :: l)).length = d :: rest ∧ (d = '.' ∨ d = ')') := by
        rintro ⟨digits, d, rest, -, hlength, hdigits, hd, heq, -⟩
        refine ⟨d, rest, ?_, hd⟩
        rw [heq, markerDigits_of_ordered hlength hdigits (isAsciiDigit_of_delimiter hd),
          List.drop_left]
      dsimp only
      split
      · rename_i d rest hdrop
        split
        · -- the first character that is no digit is the backslash
          obtain ⟨more, hmore⟩ := hcons
          rw [hmore, List.cons_append]
          refine unmarked_of_head hpunct (hblank c rfl) ?_
          rintro ⟨digits, d', rest', -, -, hdigits, hd', heq, -⟩
          rw [← List.cons_append, ← hmore] at heq
          have htake := congrArg (List.takeWhile isAsciiDigit) heq
          rw [takeWhile_digits hmark (by decide),
            takeWhile_digits hdigits (isAsciiDigit_of_delimiter hd')] at htake
          rw [htake, List.append_cancel_left_eq] at heq
          cases heq
          simp at hd'
        · rename_i hd
          refine unmarked_of_head hpunct (hblank c rfl) fun hordered => ?_
          obtain ⟨d', rest', hdrop', hd'⟩ := hseen hordered
          rw [hdrop] at hdrop'
          cases hdrop'
          exact hd hd'
      · rename_i hdrop
        refine unmarked_of_head hpunct (hblank c rfl) fun hordered => ?_
        obtain ⟨d', rest', hdrop', -⟩ := hseen hordered
        rw [hdrop] at hdrop'
        cases hdrop'
    · rename_i hdigit
      exact unmarked_of_head hpunct (hblank c rfl) (not_ordered_of_head (by simpa using hdigit))

theorem tab_not_mem_expandTabs (line : List Char) : '\t' ∉ expandTabs line := by
  rw [expandTabs, List.mem_flatMap]
  rintro ⟨c, -, hc⟩
  split at hc
  · simp at hc
  · rename_i hne
    exact hne (List.mem_singleton.1 hc).symm

theorem unmarked_normalizeLine (line : List Char) : Unmarked (normalizeLine line) := by
  refine escapeStart_unmarked fun c hc => ?_
  have hne : c ≠ ' ' := by
    have := List.head?_dropWhile_not (fun x => decide (x = ' ')) (expandTabs line)
    rw [Option.mem_def.1 hc] at this
    simpa using this
  have htab : c ≠ '\t' := by
    rintro rfl
    exact tab_not_mem_expandTabs line
      ((List.dropWhile_sublist _).subset (List.mem_of_mem_head? hc))
  simp [isBlankChar, hne, htab]

theorem mem_escapeStart {c : Char} (h : c ∈ escapeStart l) : c = '\\' ∨ c ∈ l := by
  cases l with
  | nil => exact .inr h
  | cons x l =>
    rw [escapeStart] at h
    split at h
    · exact List.mem_cons.1 h
    split at h
    · have hdigits : ∀ y ∈ markerDigits (x :: l), y ∈ x :: l := fun y hy =>
        List.take_subset _ _ (List.takeWhile_subset _ hy)
      dsimp only at h
      split at h
      · rename_i d rest hdrop
        have hdropped : ∀ y ∈ d :: rest, y ∈ x :: l := fun y hy =>
          List.drop_subset _ _ (hdrop ▸ hy)
        split at h
        · rcases List.mem_append.1 h with h | h
          · exact .inr (hdigits c h)
          · exact (List.mem_cons.1 h).imp id (hdropped c)
        · exact .inr h
      · exact .inr h
    · exact .inr h

theorem mem_normalizeLine {c : Char} (h : c ∈ normalizeLine line) :
    c = '\\' ∨ c = ' ' ∨ c ∈ line := by
  refine (mem_escapeStart h).imp id fun hc => ?_
  have hexpanded := (List.dropWhile_sublist _).subset hc
  rw [expandTabs, List.mem_flatMap] at hexpanded
  obtain ⟨x, hx, hmem⟩ := hexpanded
  split at hmem
  · exact .inl (by simpa using hmem)
  · exact .inr (List.mem_singleton.1 hmem ▸ hx)

theorem escapeStart_eq_nil : escapeStart l = [] ↔ l = [] := by
  cases l with
  | nil => exact Iff.rfl
  | cons c l =>
    rw [escapeStart]
    split
    · simp
    split
    · dsimp only
      split
      · split <;> simp
      · simp
    · simp

/-- Nothing is left of a blank line, and of no other. -/
theorem normalizeLine_eq_nil : normalizeLine line = [] ↔ Blank line := by
  rw [normalizeLine, escapeStart_eq_nil, List.dropWhile_eq_nil_iff]
  constructor
  · intro h c hc
    by_cases htab : c = '\t'
    · simp [isBlankChar, htab]
    · have hmem : c ∈ expandTabs line := List.mem_flatMap.2 ⟨c, hc, by simp [htab]⟩
      have := h c hmem
      simp only [decide_eq_true_eq] at this
      simp [isBlankChar, this]
  · intro h c hc
    rw [expandTabs, List.mem_flatMap] at hc
    obtain ⟨x, hx, hmem⟩ := hc
    have hblank := h x hx
    split at hmem
    · simpa using hmem
    · rename_i htab
      rw [List.mem_singleton.1 hmem]
      simpa [isBlankChar, htab] using hblank

/-! ## Indentation -/

theorem Unmarked.content_eq (h : Unmarked l) (n : ℕ) : content (List.replicate n ' ' ++ l) = l := by
  rw [content, List.dropWhile_append_of_pos (by simp [isBlankChar])]
  cases l with
  | nil => rfl
  | cons c l => exact List.dropWhile_cons_of_neg (by simp [(h.head c rfl).2])

theorem Unmarked.not_beginsBlock (h : Unmarked l) (n : ℕ) :
    ¬BeginsBlock (List.replicate n ' ' ++ l) := by
  rintro ⟨-, hmarked⟩
  rw [h.content_eq] at hmarked
  have hmarker : AtxHeading l ∨ SetextUnderline l ∨ ThematicBreak l ∨ Fence l ∨ BlockQuote l ∨
      BulletMarker l ∨ HtmlBlock l ∨ DelimiterRow l ∨ LinkDefinition l := by
    have := h.ordered
    tauto
  obtain ⟨c, hc, hmem | hblank⟩ := head_of_marker hmarker
  · exact (h.head c hc).1 hmem
  · simp [(h.head c hc).2] at hblank

theorem indentFrom_replicate (col n : ℕ) (l : List Char) :
    indentFrom col (List.replicate n ' ' ++ l) = indentFrom (col + n) l := by
  induction n generalizing col with
  | zero => rfl
  | succ n ih =>
    rw [List.replicate_succ, List.cons_append, indentFrom, ih]
    congr 1
    omega

theorem Unmarked.indent_eq (h : Unmarked l) (n : ℕ) : indent (List.replicate n ' ' ++ l) = n := by
  rw [indent, indentFrom_replicate, Nat.zero_add]
  cases l with
  | nil => rfl
  | cons c l =>
    have hblank := (h.head c rfl).2
    simp only [isBlankChar, Bool.or_eq_false_iff, decide_eq_false_iff_not] at hblank
    rw [indentFrom]
    · rintro l' ⟨⟩
      exact hblank.1 rfl
    · rintro l' ⟨⟩
      exact hblank.2 rfl

theorem Unmarked.blank_iff (h : Unmarked l) (n : ℕ) : Blank (List.replicate n ' ' ++ l) ↔ l = [] := by
  constructor
  · intro hblank
    cases l with
    | nil => rfl
    | cons c l =>
      have := hblank c (by simp)
      simp [(h.head c rfl).2] at this
  · rintro rfl c hc
    simp only [List.append_nil, List.mem_replicate] at hc
    simp [hc.2, isBlankChar]

/-! ## Lines -/

/-- The lines of a text of outside origin. -/
def sourceLines (s : List Char) : List (List Char) := strLines (normalizeLineEndings s)

/-- A line without a break in it. -/
def Unbroken (line : List Char) : Prop := '\n' ∉ line ∧ '\r' ∉ line

theorem cr_not_mem_normalizeLineEndings (s : List Char) : '\r' ∉ normalizeLineEndings s := by
  rw [normalizeLineEndings, List.mem_map]
  rintro ⟨c, -, hc⟩
  split at hc
  · simp at hc
  · rename_i hne
    exact hne hc

theorem replaceCrLf_of_not_mem (h : '\r' ∉ l) : replaceCrLf l = l := by
  induction l with
  | nil => rfl
  | cons c l ih =>
    rw [List.mem_cons, not_or] at h
    rw [replaceCrLf.eq_2 _ _ (fun l' hc _ => h.1 hc.symm), ih h.2]

theorem normalizeLineEndings_eq (h : '\r' ∉ l) : normalizeLineEndings l = l := by
  rw [normalizeLineEndings, replaceCrLf_of_not_mem h]
  refine (List.map_congr_left fun c hc => if_neg ?_).trans (List.map_id' l)
  rintro rfl
  exact h hc

/-- A text without a carriage return is read as it is. -/
theorem markdownLines_eq (h : '\r' ∉ l) : markdownLines l = l.splitOn '\n' := by
  rw [markdownLines, normalizeLineEndings_eq h]

theorem unbroken_of_mem_sourceLines {s : List Char} (h : line ∈ sourceLines s) : Unbroken line := by
  have hcr := cr_not_mem_normalizeLineEndings s
  rw [sourceLines, strLines, List.mem_append] at h
  generalize normalizeLineEndings s = text at h hcr
  have htext : ∀ c, c ∈ Lines.joined '\n' (Lines.ended '\n' text) ∨ c ∈ Lines.torn '\n' text →
      c ∈ text := by
    intro c hc
    have hparts : Lines.joined '\n' (Lines.ended '\n' text) ++ Lines.torn '\n' text = text :=
      Lines.joined_ended text
    rw [← hparts]
    exact List.mem_append.2 hc
  rcases h with h | h
  · obtain ⟨raw, hraw, rfl⟩ := List.mem_map.1 h
    have hsub : ∀ c ∈ Lessons.stripCr raw, c ∈ raw := by
      intro c hc
      rw [Lessons.stripCr] at hc
      split at hc
      · exact List.dropLast_subset _ hc
      · exact hc
    refine ⟨fun hn => Lines.not_mem_of_mem_ended hraw (hsub _ hn), fun hr => hcr ?_⟩
    refine htext _ (.inl ?_)
    rw [Lines.joined, List.mem_flatMap]
    exact ⟨raw, hraw, List.mem_append_left _ (hsub _ hr)⟩
  · split at h
    · simp at h
    · rw [List.mem_singleton.1 h]
      exact ⟨Lines.not_mem_torn text, fun hr => hcr (htext _ (.inr hr))⟩

theorem unbroken_normalizeLine (h : Unbroken line) : Unbroken (normalizeLine line) := by
  constructor <;> intro hmem <;> rcases mem_normalizeLine hmem with hc | hc | hc
  · simp at hc
  · simp at hc
  · exact h.1 hc
  · simp at hc
  · simp at hc
  · exact h.2 hc

theorem splitOn_of_unbroken (h : Unbroken line) : line.splitOn '\n' = [line] :=
  List.splitOn_eq_singleton h.1

theorem splitOn_append_of_unbroken (out : List Char) (h : Unbroken line) :
    (out ++ '\n' :: line).splitOn '\n' = out.splitOn '\n' ++ [line] := by
  rw [List.splitOn_append_cons_self, splitOn_of_unbroken h]

theorem Unbroken.indented (h : Unbroken line) (n : ℕ) : Unbroken (List.replicate n ' ' ++ line) := by
  constructor <;> rw [List.mem_append, List.mem_replicate] <;> rintro (hc | hc)
  · simp at hc
  · exact h.1 hc
  · simp at hc
  · exact h.2 hc

/-! ## Prose -/

/-- The lines so far. -/
def Prose.lines (p : Prose) : List (List Char) := p.out.splitOn '\n'

theorem Prose.push_blank (p : Prose) (h : Blank line) : p.push line = { p with afterBlank := true } := by
  simp [Prose.push, normalizeLine_eq_nil.2 h]

theorem Prose.lines_push (p : Prose) (hline : Unbroken line) (h : ¬Blank line) :
    (p.push line).afterBlank = false ∧ (p.push line).lines = p.lines ++
      if p.afterBlank then [[], normalizeLine line]
      else [List.replicate 4 ' ' ++ normalizeLine line] := by
  have hne : normalizeLine line ≠ [] := fun hnil => h (normalizeLine_eq_nil.1 hnil)
  have hunbroken := unbroken_normalizeLine hline
  have hpush : p.push line =
      ⟨p.out ++ (if p.afterBlank then ['\n', '\n'] else ['\n', ' ', ' ', ' ', ' ']) ++
        normalizeLine line, false⟩ := by
    rw [Prose.push]
    simp [hne]
  rw [hpush]
  refine ⟨rfl, ?_⟩
  rw [Prose.lines, Prose.lines]
  cases p.afterBlank with
  | true =>
    have hout : p.out ++ ['\n', '\n'] ++ normalizeLine line =
        (p.out ++ '\n' :: []) ++ '\n' :: normalizeLine line := by simp
    rw [if_pos rfl, if_pos rfl, hout, splitOn_append_of_unbroken _ hunbroken,
      splitOn_append_of_unbroken _ ⟨by simp, by simp⟩, List.append_assoc]
    rfl
  | false =>
    have hout : p.out ++ ['\n', ' ', ' ', ' ', ' '] ++ normalizeLine line =
        p.out ++ '\n' :: (List.replicate 4 ' ' ++ normalizeLine line) := by simp
    rw [if_neg Bool.false_ne_true, if_neg Bool.false_ne_true, hout,
      splitOn_append_of_unbroken _ (hunbroken.indented 4)]

/-- Lines that open no block, and one more that does not: not indented, or below a line. -/
theorem OpensNoBlock.concat {lines : List (List Char)} (h : OpensNoBlock lines)
    (hbegins : ¬BeginsBlock line)
    (hindent : 4 ≤ indent line → ∃ above, lines.getLast? = some above ∧ ¬Blank above) :
    OpensNoBlock (lines ++ [line]) where
  begins l hl := by
    rcases List.mem_append.1 hl with hl | hl
    · exact h.begins l hl
    · exact List.mem_singleton.1 hl ▸ hbegins
  indented i l hl hi := by
    rcases Nat.lt_or_ge i lines.length with hlt | hge
    · rw [List.getElem?_append_left hlt] at hl
      obtain ⟨j, above, rfl, habove, hblank⟩ := h.indented i l hl hi
      exact ⟨j, above, rfl, by rwa [List.getElem?_append_left (by omega)], hblank⟩
    · rw [List.getElem?_append_right hge, List.getElem?_singleton] at hl
      split at hl
      · cases hl
        obtain ⟨above, habove, hblank⟩ := hindent hi
        rw [List.getLast?_eq_getElem?] at habove
        have hlt := (List.getElem?_eq_some_iff.1 habove).1
        exact ⟨lines.length - 1, above, by omega, by rwa [List.getElem?_append_left hlt], hblank⟩
      · simp at hl

/-- The prose so far opens no block, and the next line will not either: the last line is not
    blank, or the next one starts a paragraph. -/
structure Prose.Closed (p : Prose) : Prop where
  opens : OpensNoBlock p.lines
  last : p.afterBlank ∨ ∃ above, p.lines.getLast? = some above ∧ ¬Blank above

theorem Prose.Closed.push {p : Prose} (h : p.Closed) (hline : Unbroken line) : (p.push line).Closed := by
  by_cases hblank : Blank line
  · rw [p.push_blank hblank]
    exact ⟨h.opens, .inl rfl⟩
  · obtain ⟨hafter, hlines⟩ := p.lines_push hline hblank
    have hmarked := unmarked_normalizeLine line
    have hlast : ∀ n, ¬Blank (List.replicate n ' ' ++ normalizeLine line) := fun n hb =>
      hblank (normalizeLine_eq_nil.1 ((hmarked.blank_iff n).1 hb))
    have hempty : Unmarked [] := ⟨nofun, by rintro ⟨_, _, _, -, -, -, -, heq, -⟩; simp at heq⟩
    cases hb : p.afterBlank with
    | true =>
      rw [hb, if_pos rfl] at hlines
      refine ⟨?_, .inr ⟨normalizeLine line, by simp [hlines], hlast 0⟩⟩
      have hgap : OpensNoBlock (p.lines ++ [[]]) :=
        h.opens.concat (hempty.not_beginsBlock 0) (by simp [indent, indentFrom])
      have hparagraph : OpensNoBlock (p.lines ++ [[]] ++ [normalizeLine line]) := by
        refine hgap.concat (hmarked.not_beginsBlock 0) fun hindent => ?_
        have hzero := hmarked.indent_eq 0
        rw [List.replicate_zero, List.nil_append] at hzero
        omega
      rwa [hlines, ← List.singleton_append, ← List.append_assoc]
    | false =>
      rw [hb, if_neg Bool.false_ne_true] at hlines
      refine ⟨?_, .inr ⟨_, by simp [hlines], hlast 4⟩⟩
      rw [hlines]
      refine h.opens.concat (hmarked.not_beginsBlock 4) fun _ => ?_
      exact h.last.resolve_left (by simp [hb])

theorem Prose.Closed.foldl {p : Prose} (h : p.Closed) {lines : List (List Char)}
    (hlines : ∀ line ∈ lines, Unbroken line) : (lines.foldl Prose.push p).Closed := by
  induction lines generalizing p with
  | nil => exact h
  | cons line lines ih =>
    rw [List.forall_mem_cons] at hlines
    exact ih (h.push hlines.1) hlines.2

theorem Prose.lines_prefix (p : Prose) {lines : List (List Char)}
    (hlines : ∀ line ∈ lines, Unbroken line) : p.lines <+: (lines.foldl Prose.push p).lines := by
  induction lines generalizing p with
  | nil => exact List.prefix_rfl
  | cons line lines ih =>
    rw [List.forall_mem_cons] at hlines
    refine List.IsPrefix.trans ?_ (ih (p.push line) hlines.2)
    by_cases hblank : Blank line
    · rw [p.push_blank hblank]
      exact List.prefix_rfl
    · rw [(p.lines_push hlines.1 hblank).2]
      exact List.prefix_append _ _

theorem cr_not_mem_foldl_push {lines : List (List Char)} (hlines : ∀ line ∈ lines, Unbroken line)
    {p : Prose} (hp : '\r' ∉ p.out) : '\r' ∉ (lines.foldl Prose.push p).out := by
  induction lines generalizing p with
  | nil => exact hp
  | cons line lines ih =>
    rw [List.forall_mem_cons] at hlines
    refine ih hlines.2 ?_
    rw [Prose.push]
    split
    · exact hp
    · have hline := (unbroken_normalizeLine hlines.1).2
      simp only [List.mem_append, not_or]
      refine ⟨⟨hp, ?_⟩, hline⟩
      split <;> simp

/-! ## Items -/

/-- The lines of an item, from its first one. -/
theorem splitOn_foldl_item {lines : List (List Char)} (hlines : ∀ line ∈ lines, Unbroken line)
    (out : List Char) :
    (lines.foldl (fun out line => out ++ ['\n', ' ', ' '] ++ normalizeLine line) out).splitOn '\n' =
      out.splitOn '\n' ++ lines.map (List.replicate 2 ' ' ++ normalizeLine ·) := by
  induction lines generalizing out with
  | nil => simp
  | cons line lines ih =>
    rw [List.forall_mem_cons] at hlines
    have hout : out ++ ['\n', ' ', ' '] ++ normalizeLine line =
        out ++ '\n' :: (List.replicate 2 ' ' ++ normalizeLine line) := by simp
    rw [List.foldl_cons, ih hlines.2, hout,
      splitOn_append_of_unbroken _ ((unbroken_normalizeLine hlines.1).indented 2), List.map_cons,
      List.append_assoc, List.singleton_append]

theorem cr_not_mem_foldl_item {lines : List (List Char)} (hlines : ∀ line ∈ lines, Unbroken line)
    {out : List Char} (hout : '\r' ∉ out) :
    '\r' ∉ lines.foldl (fun out line => out ++ ['\n', ' ', ' '] ++ normalizeLine line) out := by
  induction lines generalizing out with
  | nil => exact hout
  | cons line lines ih =>
    rw [List.forall_mem_cons] at hlines
    refine ih hlines.2 ?_
    simp [hout, (unbroken_normalizeLine hlines.1).2]

/-- A line of an item after its first: in the item's column, and no block there. -/
def Continues (line : List Char) : Prop :=
  ∃ rest, line = [' ', ' '] ++ rest ∧ ¬BeginsBlock rest ∧ indent rest = 0

theorem unbroken_head?_getD {s : List Char} : Unbroken ((sourceLines s).head?.getD []) := by
  cases h : sourceLines s with
  | nil => exact ⟨by simp, by simp⟩
  | cons line lines => exact unbroken_of_mem_sourceLines (h ▸ List.mem_cons_self)

theorem unbroken_tail {s : List Char} : ∀ line ∈ (sourceLines s).tail, Unbroken line := fun _ hline =>
  unbroken_of_mem_sourceLines (List.mem_of_mem_tail hline)

theorem listItemText_continues {pre : List Char} (hpre : Unbroken pre) (s : List Char) :
    ∀ line ∈ (markdownLines (listItemText pre s)).tail, Continues line := by
  have hfirst : Unbroken (normalizeLine (pre ++ (sourceLines s).head?.getD [])) := by
    refine unbroken_normalizeLine ⟨?_, ?_⟩ <;> rw [List.mem_append, not_or]
    · exact ⟨hpre.1, unbroken_head?_getD.1⟩
    · exact ⟨hpre.2, unbroken_head?_getD.2⟩
  have hlines : markdownLines (listItemText pre s) =
      normalizeLine (pre ++ (sourceLines s).head?.getD []) ::
        (sourceLines s).tail.map (List.replicate 2 ' ' ++ normalizeLine ·) := by
    have hcr : '\r' ∉ listItemText pre s := cr_not_mem_foldl_item unbroken_tail hfirst.2
    rw [markdownLines_eq hcr]
    show List.splitOn _ ((sourceLines s).tail.foldl _ _) = _
    rw [splitOn_foldl_item unbroken_tail]
    exact congrArg (· ++ _) (splitOn_of_unbroken hfirst)
  rw [hlines, List.tail_cons]
  intro line hline
  obtain ⟨raw, -, rfl⟩ := List.mem_map.1 hline
  have hmarked := unmarked_normalizeLine raw
  exact ⟨normalizeLine raw, rfl, hmarked.not_beginsBlock 0, hmarked.indent_eq 0⟩

/-! ## The report's text -/

/-- A blank first line, right above one that is not. -/
def BlankStart (s : List Char) : Prop :=
  ∃ first second rest, sourceLines s = first :: second :: rest ∧ Blank first ∧ ¬Blank second

theorem plainTextLine_opensNoBlock (s : List Char) :
    OpensNoBlock (markdownLines (plainTextLine s)) ↔ ¬BlankStart s := by
  have hcr : '\r' ∉ plainTextLine s := by
    refine cr_not_mem_foldl_push unbroken_tail ?_
    exact (unbroken_normalizeLine unbroken_head?_getD).2
  have hempty : Unmarked [] := ⟨nofun, by rintro ⟨_, _, _, -, -, -, -, heq, -⟩; simp at heq⟩
  have hnone : OpensNoBlock [] := ⟨nofun, fun i l hl => by simp at hl⟩
  have hstart : ∀ line, OpensNoBlock [normalizeLine line] := fun line =>
    hnone.concat ((unmarked_normalizeLine line).not_beginsBlock 0) fun hindent => by
        have hzero := (unmarked_normalizeLine line).indent_eq 0
        rw [List.replicate_zero, List.nil_append] at hzero
        omega
  have hprose : plainTextLine s = ((sourceLines s).tail.foldl Prose.push
      { out := normalizeLine ((sourceLines s).head?.getD []) }).out := rfl
  rw [markdownLines_eq hcr, hprose]
  cases hsource : sourceLines s with
  | nil =>
    refine iff_of_true (hstart []) ?_
    rintro ⟨first, second, rest, h, -⟩
    rw [hsource] at h
    cases h
  | cons first lines =>
    have hall : ∀ line ∈ first :: lines, Unbroken line := fun line hline =>
      unbroken_of_mem_sourceLines (hsource ▸ hline)
    rw [List.forall_mem_cons] at hall
    have hfirst : (Prose.mk (normalizeLine first) false).lines = [normalizeLine first] :=
      splitOn_of_unbroken (unbroken_normalizeLine hall.1)
    show OpensNoBlock (lines.foldl Prose.push ⟨normalizeLine first, false⟩).lines ↔ _
    by_cases hblank : Blank first
    · cases lines with
      | nil =>
        refine iff_of_true (hfirst ▸ hstart first) ?_
        rintro ⟨_, second, rest, h, -⟩
        rw [hsource] at h
        cases h
      | cons second rest =>
        rw [List.forall_mem_cons] at hall
        by_cases hsecond : Blank second
        · -- the blank line is seen, and what follows it is a paragraph
          refine iff_of_true ?_ ?_
          · rw [List.foldl_cons, Prose.push_blank _ hsecond]
            exact (Prose.Closed.foldl ⟨hfirst ▸ hstart first, .inl rfl⟩ hall.2.2).opens
          · rintro ⟨_, second', rest', h, -, hnot⟩
            rw [hsource] at h
            cases h
            exact hnot hsecond
        · -- the second line is indented right below a blank one
          refine iff_of_false (fun hopens => ?_) (not_not.2 ⟨first, second, rest, hsource, hblank, hsecond⟩)
          have hlines := (Prose.lines_push (Prose.mk (normalizeLine first) false) hall.2.1 hsecond).2
          rw [if_neg Bool.false_ne_true, hfirst] at hlines
          have hprefix := Prose.lines_prefix ((Prose.mk (normalizeLine first) false).push second)
            hall.2.2
          rw [hlines] at hprefix
          obtain ⟨more, hmore⟩ := hprefix
          rw [List.foldl_cons, ← hmore, normalizeLine_eq_nil.2 hblank] at hopens
          have hindent := (unmarked_normalizeLine second).indent_eq 4
          obtain ⟨j, above, hj, habove, hnot⟩ := hopens.indented 1 _ rfl hindent.ge
          obtain rfl : j = 0 := by omega
          cases habove
          exact hnot nofun
    · refine iff_of_true ?_ ?_
      · have hlast : ¬Blank (normalizeLine first) := fun hb => by
          have hnil := ((unmarked_normalizeLine first).blank_iff 0).1 hb
          exact hblank (normalizeLine_eq_nil.1 hnil)
        refine (Prose.Closed.foldl ⟨hfirst ▸ hstart first, .inr ⟨_, ?_, hlast⟩⟩ hall.2).opens
        rw [hfirst]
        rfl
      · rintro ⟨_, second, rest, h, hb, -⟩
        rw [hsource] at h
        cases h
        exact hblank hb

/-- Free text opens no block, in its lines or in those of an item, exactly where it does not
    start with a single blank line. -/
theorem plainTextLine_prose (s : List Char) :
    (OpensNoBlock (markdownLines (plainTextLine s)) ∧
      ∀ pre, Unbroken pre → ∀ line ∈ (markdownLines (listItemText pre s)).tail, Continues line) ↔
    ¬BlankStart s :=
  ⟨fun h => (plainTextLine_opensNoBlock s).1 h.1, fun h =>
    ⟨(plainTextLine_opensNoBlock s).2 h, fun _ hpre => listItemText_continues hpre s⟩⟩

/-- A line below a blank first one is indented code. -/
theorem plainTextLine_blankStart :
    ¬∀ s, OpensNoBlock (markdownLines (plainTextLine s)) ∧
      ∀ pre, Unbroken pre → ∀ line ∈ (markdownLines (listItemText pre s)).tail, Continues line := by
  intro h
  have hopens := (h ['\n', 'a']).1
  have hlines : markdownLines (plainTextLine ['\n', 'a']) = [[], [' ', ' ', ' ', ' ', 'a']] := by
    decide
  rw [hlines] at hopens
  obtain ⟨j, above, hj, habove, hblank⟩ := hopens.indented 1 _ rfl (by decide)
  obtain rfl : j = 0 := by omega
  cases habove
  exact hblank nofun

end Anthrex.Report
