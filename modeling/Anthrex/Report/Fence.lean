import Anthrex.Data.Lines
import Anthrex.Data.Runs
import Anthrex.Report.Prose

/-!
# Fenced blocks

A check's raw tail is shown in a fenced block (`run/report_escape.rs`), and so is every text
that is quoted. A `Block` is one that its own text cannot close: its fence is longer than any
run of backticks in it (`fenced_eq`).
-/

namespace Anthrex.Report

/-- A fence one backtick longer than the longest run of backticks, three at least. -/
def fenceFor (content : List Char) : List Char :=
  List.replicate (max (Runs.longest '`' content + 1) 3) '`'

/-- The text with a newline at its end. -/
def ensureNewline (s : List Char) : List Char :=
  if s.getLast? = some '\n' then s else s ++ ['\n']

def fenced (tail : List Char) : List Char :=
  let tail := normalizeLineEndings tail
  let fence := fenceFor tail
  fence ++ '\n' :: (ensureNewline tail ++ (fence ++ ['\n']))

/-- A line that closes a fence of `n` backticks (CommonMark): at most three spaces, as many
    backticks at least, and only white space after them. -/
def closes (n : ℕ) (line : List Char) : Bool :=
  let text := line.dropWhile (· = ' ')
  line.length - text.length ≤ 3 && n ≤ (text.takeWhile (· = '`')).length &&
    (text.dropWhile (· = '`')).all isBlankChar

/-- A fenced block that none of its lines closes. -/
structure Block where
  ticks : ℕ
  lines : List (List Char)
  three_le : 3 ≤ ticks
  unbroken : ∀ line ∈ lines, Unbroken line
  inside : ∀ line ∈ lines, closes ticks line = false

namespace Block

def fence (b : Block) : List Char := List.replicate b.ticks '`'

def text (b : Block) : List Char := Lines.joined '\n' (b.fence :: (b.lines ++ [b.fence]))

end Block

/-! ## Texts are fenced -/

variable {n : ℕ} {s line : List Char}

theorem infix_of_closes (h : closes n line) : List.replicate n '`' <:+: line := by
  simp only [closes, Bool.and_eq_true, decide_eq_true_eq] at h
  have hticks : ((line.dropWhile (· = ' ')).takeWhile (· = '`')) =
      List.replicate ((line.dropWhile (· = ' ')).takeWhile (· = '`')).length '`' :=
    List.eq_replicate_iff.2 ⟨rfl, fun c hc => by simpa using List.mem_takeWhile_imp hc⟩
  have hrun : List.replicate n '`' <:+: (line.dropWhile (· = ' ')).takeWhile (· = '`') := by
    rw [hticks, List.infix_replicate_iff]
    simpa using h.1.2
  exact hrun.trans ((List.takeWhile_prefix _).isInfix.trans (List.dropWhile_suffix _).isInfix)

theorem ensureNewline_eq (s : List Char) : ∃ t, ensureNewline s = t ++ ['\n'] ∧ t <+: s := by
  rw [ensureNewline]
  split <;> rename_i h
  · have hne : s ≠ [] := by
      rintro rfl
      cases h
    rw [List.getLast?_eq_some_getLast hne] at h
    refine ⟨s.dropLast, ?_, List.dropLast_prefix s⟩
    rw [← Option.some.inj h, List.dropLast_append_getLast hne]
  · exact ⟨s, rfl, List.prefix_rfl⟩

/-- Every part of a text with a newline at its end is in a line. -/
theorem joined_ended_ensureNewline (s : List Char) :
    Lines.joined '\n' (Lines.ended '\n' (ensureNewline s)) = ensureNewline s := by
  obtain ⟨t, hs, -⟩ := ensureNewline_eq s
  rw [hs]
  clear hs
  induction t using Lines.rec_lines '\n' with
  | h lines t ht hlines =>
    have hlines' : ∀ line ∈ lines ++ [t], '\n' ∉ line := by
      intro line hline
      rcases List.mem_append.1 hline with h | h
      · exact hlines line h
      · exact List.mem_singleton.1 h ▸ ht
    have hjoined : Lines.joined '\n' lines ++ t ++ ['\n'] = Lines.joined '\n' (lines ++ [t]) ++ [] := by
      simp
    rw [hjoined, Lines.ended_joined_append hlines', Lines.ended_of_not_mem List.not_mem_nil]
    simp

theorem length_ensureNewline_le (s : List Char) : (ensureNewline s).length ≤ s.length + 1 := by
  obtain ⟨t, ht, hpre⟩ := ensureNewline_eq s
  rw [ht, List.length_append, List.length_singleton]
  exact Nat.succ_le_succ hpre.length_le

theorem mem_ended_ensureNewline (h : line ∈ Lines.ended '\n' (ensureNewline s)) :
    line <:+: s := by
  obtain ⟨t, hs, ht⟩ := ensureNewline_eq s
  have hn : '\n' ∉ line := Lines.not_mem_of_mem_ended h
  have hmem : line ++ ['\n'] <:+: ensureNewline s := by
    rw [← joined_ended_ensureNewline s, Lines.joined, List.flatMap]
    exact List.infix_of_mem_flatten (List.mem_map_of_mem h)
  rw [hs] at hmem
  rcases List.infix_concat_iff.1 ((List.prefix_append line ['\n']).isInfix.trans hmem) with h | h
  · rcases List.suffix_concat_iff.1 h with rfl | ⟨u, rfl, -⟩
    · exact List.nil_infix
    · exact absurd (List.mem_append_right _ (List.mem_singleton_self _)) hn
  · exact h.trans ht.isInfix

theorem cr_not_mem_of_mem_ended (h : line ∈ Lines.ended '\n' (ensureNewline (normalizeLineEndings s))) :
    Unbroken line := by
  refine ⟨Lines.not_mem_of_mem_ended h, fun hr => ?_⟩
  exact cr_not_mem_normalizeLineEndings s ((mem_ended_ensureNewline h).subset hr)

/-- The block of a text. -/
def block (tail : List Char) : Block where
  ticks := max (Runs.longest '`' (normalizeLineEndings tail) + 1) 3
  lines := Lines.ended '\n' (ensureNewline (normalizeLineEndings tail))
  three_le := le_max_right _ _
  unbroken _ h := cr_not_mem_of_mem_ended h
  inside line h := by
    rw [Bool.eq_false_iff]
    intro hclose
    -- a line that closes it holds a longer run than the longest
    have hrun := Runs.replicate_infix_iff.1 ((infix_of_closes hclose).trans (mem_ended_ensureNewline h))
    omega

/-- What is fenced is a block. -/
theorem fenced_eq (tail : List Char) : fenced tail = (block tail).text := by
  rw [fenced, Block.text, Lines.joined_cons, Lines.joined_append]
  have h := joined_ended_ensureNewline (normalizeLineEndings tail)
  simp only [block, Block.fence] at h ⊢
  rw [h]
  simp [fenceFor]

/-- What a block takes: its two fences, and a line's end that the text may not have. -/
theorem length_fenced_le (h : '\r' ∉ s) :
    (fenced s).length ≤ 2 * ((fenceFor s).length + 1) + s.length + 1 := by
  have hlength := length_ensureNewline_le s
  rw [fenced, normalizeLineEndings_eq h]
  simp only [List.length_append, List.length_cons, List.length_nil]
  omega

/-- A part of a text needs no longer fence. -/
theorem length_fenceFor_mono {s' : List Char} (h : s <:+: s') :
    (fenceFor s).length ≤ (fenceFor s').length := by
  have := Runs.longest_mono (c := '`') h
  rw [fenceFor, fenceFor, List.length_replicate, List.length_replicate]
  omega

end Anthrex.Report
