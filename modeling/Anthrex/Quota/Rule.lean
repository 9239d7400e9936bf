import Anthrex.Quota.Book

/-!
# The quota brake's rule

The book caches trips, which `record`, `reconfigure` and `verdict` update one by one.
Here they are compared with a rule that reads only the recorded readings: a runtime is
braked when the newest reading of one of its windows is at or over its threshold and
has not ended (`Holding`). `verdict_run` says that the two agree after any calls.

A reading ends at its window's length after it was read, as the code adds it: the sum
stops at the largest second of 64 bits. At that second the code brakes nothing, where
the true sum would (`verdict_last_second`).
-/

namespace Anthrex.Quota

open Anthrex.Run (Runtime)

/-! ## Calls and readings -/

/-- A call of the book; a record is made under the configuration in force. -/
inductive Op
  | record (runtime : Runtime) (sample : QuotaSample) (now : ℕ)
  | reconfigure (cfg : BrakeConfig)
  | verdict (runtime : Runtime) (now : ℕ) (cfg : BrakeConfig)

def Op.time : Op → Option ℕ
  | record _ _ now | verdict _ now _ => some now
  | reconfigure _ => none

/-- The readings of `runtime` a call records. -/
def Op.readings (runtime : Runtime) : Op → List (QuotaWindow × Reading)
  | record runtime' sample now => if runtime' = runtime then sample.readings now else []
  | reconfigure _ | verdict .. => []

/-- The readings of `runtime`, in the order they were recorded. -/
def history (ops : List Op) (runtime : Runtime) : List (QuotaWindow × Reading) :=
  ops.flatMap (Op.readings runtime)

/-- The book and the configuration in force. -/
structure Session where
  book : QuotaBook
  cfg : BrakeConfig

namespace Session

def new (cfg : BrakeConfig) : Session := ⟨.empty, cfg⟩

def step (s : Session) : Op → Session
  | .record runtime sample now => { s with book := s.book.record runtime sample now s.cfg }
  | .reconfigure cfg => ⟨s.book.reconfigure cfg, cfg⟩
  | .verdict runtime now cfg => { s with book := (s.book.verdict runtime now cfg).1 }

def run (s : Session) (ops : List Op) : Session := ops.foldl step s

end Session

/-! ## The rule -/

/-- A reading's age and usage: the newest reading is the latest and, in one second, the
    fullest; of equal ones the first. -/
def Reading.key (r : Reading) : ℕ ×ₗ ℕ := toLex (r.readAt, r.used)

theorem Reading.key_lt_key {a b : Reading} :
    a.key < b.key ↔ a.readAt < b.readAt ∨ a.readAt = b.readAt ∧ a.used < b.used :=
  Prod.Lex.toLex_lt_toLex

/-- The newest of the readings of a window. -/
def newest (h : List (QuotaWindow × Reading)) (window : QuotaWindow) : Option Reading :=
  ((h.filter (·.1 = window)).map (·.2)).argmax Reading.key

/-- When a reading stops holding the brake: at its reset, and at the latest its window's
    length, added by `add`, after it was read. -/
def Reading.ends (add : ℕ → ℕ → ℕ) (r : Reading) (window : QuotaWindow) : ℕ :=
  let longest := add r.readAt window.secs
  min (r.resetsAt.getD longest) longest

/-- The newest reading of `window` is at or over its threshold, and `now` is before its
    end. -/
def Holding (add : ℕ → ℕ → ℕ) (h : List (QuotaWindow × Reading)) (cfg : BrakeConfig) (now : ℕ)
    (window : QuotaWindow) (r : Reading) : Prop :=
  newest h window = some r ∧ r.used.atLeast (cfg.threshold window) ∧ now < r.ends add window

/-- The trip a reading makes. -/
def Reading.trip (r : Reading) (cfg : BrakeConfig) (window : QuotaWindow) : Trip :=
  ⟨window, r.used, cfg.threshold window, r.ends saturatingAdd window, r.readAt⟩

/-- The rule's verdict is braked. -/
def Braked (add : ℕ → ℕ → ℕ) (h : List (QuotaWindow × Reading)) (cfg : BrakeConfig)
    (runtime : Runtime) (now : ℕ) : Prop :=
  cfg.quotaBrake ∧ (runtime = .claude ∨ runtime = .codex) ∧
    ∃ window r, Holding add h cfg now window r

theorem trip_eq_some_iff {window : QuotaWindow} {r : Reading} {cfg : BrakeConfig} {t : Trip} :
    trip window r cfg = some t ↔ r.used.atLeast (cfg.threshold window) ∧ t = r.trip cfg window := by
  simp only [trip, Option.ite_none_right_eq_some, Option.some.injEq, Reading.trip, Reading.ends,
    eq_comm (b := t)]

theorem trip_eq_none_iff {window : QuotaWindow} {r : Reading} {cfg : BrakeConfig} :
    trip window r cfg = none ↔ ¬r.used.atLeast (cfg.threshold window) := by
  simp [trip]

theorem newest_mem {h : List (QuotaWindow × Reading)} {window : QuotaWindow} {r : Reading}
    (hr : newest h window = some r) : (window, r) ∈ h := by
  obtain ⟨e, he, rfl⟩ := List.mem_map.1 (List.argmax_mem hr)
  rw [List.mem_filter, decide_eq_true_eq] at he
  rw [← he.2]
  exact he.1

/-- A further reading is the newest unless the newest so far stands. -/
theorem newest_concat (h : List (QuotaWindow × Reading)) (window w : QuotaWindow) (r : Reading) :
    newest (h ++ [(window, r)]) w =
      if w = window ∧ ∀ old, newest h w = some old → old.key < r.key then some r
      else newest h w := by
  by_cases hw : w = window
  · subst hw
    simp only [newest, List.filter_append, List.map_append, List.filter_cons, decide_true, if_true,
      List.filter_nil, List.map_cons, List.map_nil]
    rw [List.argmax_concat]
    generalize List.argmax Reading.key _ = old
    cases old <;> simp
  · have hne : ¬window = w := fun h => hw h.symm
    simp [newest, hw, hne]

/-! ## The book follows the rule -/

/-- The book of a runtime whose readings so far are `h`, at a time `clock`: its newest
    readings are those of `h`, and it has every trip of them that has not expired. -/
structure Book.Tracks (b : Book) (h : List (QuotaWindow × Reading)) (cfg : BrakeConfig)
    (clock : ℕ) : Prop where
  readings : ∀ w, b.readings.get? w = newest h w
  trips : ∀ w t, b.trips.get? w = some t → ∃ r, newest h w = some r ∧ trip w r cfg = some t
  kept : ∀ w r t, newest h w = some r → trip w r cfg = some t → clock < t.until →
    b.trips.get? w = some t
  past : ∀ e ∈ h, e.2.readAt ≤ clock
  readAt : b.readAt = h.getLast?.map (·.2.readAt)
  last : ∀ e ∈ h, ∃ at_, b.readAt = some at_ ∧ e.2.readAt ≤ at_

namespace Book.Tracks

variable {b : Book} {h : List (QuotaWindow × Reading)} {cfg : BrakeConfig} {clock now : ℕ}

theorem empty (cfg : BrakeConfig) (clock : ℕ) : Book.empty.Tracks [] cfg clock :=
  ⟨fun _ => rfl, fun _ _ h => (nomatch h), fun _ _ _ h => (nomatch h), by simp, rfl, by simp⟩

theorem mono (hb : b.Tracks h cfg clock) (hle : clock ≤ now) : b.Tracks h cfg now where
  readings := hb.readings
  trips := hb.trips
  kept w r t hr ht hu := hb.kept w r t hr ht (hle.trans_lt hu)
  past e he := (hb.past e he).trans hle
  readAt := hb.readAt
  last := hb.last

theorem readAt_le (hb : b.Tracks h cfg clock) {at_ : ℕ} (ha : b.readAt = some at_) :
    at_ ≤ clock := by
  rw [hb.readAt, Option.map_eq_some_iff] at ha
  obtain ⟨e, he, rfl⟩ := ha
  exact hb.past e (List.mem_of_getLast? he)

/-- The newest reading that stands is one as new: read at `clock`, and as full. -/
theorem stands_iff (hb : b.Tracks h cfg clock) {w : QuotaWindow} {r : Reading}
    (hr : r.readAt = clock) :
    ((b.readings.get? w).any fun old =>
        r.readAt < old.readAt ∨ old.readAt = r.readAt ∧ r.used ≤ old.used) ↔
      ¬∀ old, newest h w = some old → old.key < r.key := by
  rw [hb.readings]
  cases hn : newest h w with
  | none => simp
  | some old =>
    have hpast : old.readAt ≤ r.readAt := hr ▸ hb.past _ (newest_mem hn)
    simp only [Option.any_some, decide_eq_true_eq, Option.some.injEq, forall_eq',
      Reading.key_lt_key]
    grind

/-- The trips once a reading is the newest of its window: its own, if it makes one, and
    those of the other windows. -/
theorem get?_tripsWith (hb : b.Tracks h cfg clock) {w : QuotaWindow} {r : Reading}
    (hnew : ∀ old, newest h w = some old → old.key < r.key) (w' : QuotaWindow) :
    (b.tripsWith w r cfg).get? w' = if w' = w then trip w r cfg else b.trips.get? w' := by
  rw [Book.tripsWith]
  cases ht : trip w r cfg with
  | some t => exact SortedMap.get?_insert
  | none =>
    cases hold : b.trips.get? w with
    | none =>
      simp only [Option.any_none, Bool.false_eq_true, if_false]
      split_ifs with hw
      · rw [hw, hold]
      · rfl
    | some t =>
      obtain ⟨old, hn, ht'⟩ := hb.trips w t hold
      obtain ⟨hat, rfl⟩ := trip_eq_some_iff.1 ht'
      have hkey := Reading.key_lt_key.1 (hnew old hn)
      -- In the same second `r` is fuller, so it trips the window when `old` does.
      have hlt : old.readAt < r.readAt := by
        refine hkey.resolve_right fun ⟨_, hlt⟩ => trip_eq_none_iff.1 ht ?_
        simp only [Permille.atLeast, decide_eq_true_eq] at hat ⊢
        exact hat.trans hlt.le
      have hany : (some (old.trip cfg w)).any fun t => t.readAt < r.readAt := decide_eq_true hlt
      simp only [hany, if_true]
      exact SortedMap.get?_erase

/-- A reading of `clock` is recorded. -/
theorem record (hb : b.Tracks h cfg clock) {w : QuotaWindow} {r : Reading} (hr : r.readAt = clock) :
    (b.record w r cfg).Tracks (h ++ [(w, r)]) cfg clock := by
  have hpast : ∀ e ∈ h ++ [(w, r)], e.2.readAt ≤ clock := by
    simpa [or_imp, forall_and, hr.le] using hb.past
  have hlast : ∀ b' : Book, b'.readAt = some r.readAt →
      ∀ e ∈ h ++ [(w, r)], ∃ at_, b'.readAt = some at_ ∧ e.2.readAt ≤ at_ :=
    fun b' hb' e he => ⟨_, hb', hr ▸ hpast e he⟩
  rw [Book.record]
  split_ifs with hs
  · -- The newest reading stands: it was read at `clock` too.
    have hnew := hb.stands_iff hr |>.1 hs
    have hget : ∀ w', newest (h ++ [(w, r)]) w' = newest h w' := fun w' => by
      rw [newest_concat, if_neg]
      rintro ⟨rfl, hall⟩
      exact hnew hall
    have hread : b.readAt = some r.readAt := by
      simp only [not_forall] at hnew
      obtain ⟨old, hold, hkey⟩ := hnew
      obtain ⟨at_, hat, hle⟩ := hb.last _ (newest_mem hold)
      have hle' := hb.readAt_le hat
      have hpast' := hb.past _ (newest_mem hold)
      rw [Reading.key_lt_key] at hkey
      rw [hat, Option.some.injEq]
      simp only at hle
      omega
    exact ⟨fun w' => (hb.readings w').trans (hget w').symm, by simpa only [hget] using hb.trips,
      by simpa only [hget] using hb.kept, hpast, by simp [hread], hlast b hread⟩
  · have hnew := not_not.1 (mt (hb.stands_iff hr).2 hs)
    have hget : ∀ w', newest (h ++ [(w, r)]) w' = if w' = w then some r else newest h w' := by
      intro w'
      rw [newest_concat]
      by_cases hw : w' = w
      · rw [if_pos ⟨hw, hw ▸ hnew⟩, if_pos hw]
      · rw [if_neg fun h => hw h.1, if_neg hw]
    have hread : some (b.readAt.elim r.readAt fun at_ => max at_ r.readAt) = some r.readAt := by
      cases hat : b.readAt with
      | none => rfl
      | some at_ => rw [Option.elim_some, max_eq_right (hr ▸ hb.readAt_le hat)]
    have htrips := hb.get?_tripsWith hnew
    refine ⟨fun w' => ?_, fun w' t ht => ?_, fun w' r' t hn ht hu => ?_, hpast, by simp [hread],
      hlast _ hread⟩
    · rw [hget, SortedMap.get?_insert, hb.readings]
    · simp only [htrips] at ht
      rw [hget]
      split_ifs at ht ⊢ with hw
      · exact ⟨r, rfl, hw ▸ ht⟩
      · exact hb.trips w' t ht
    · simp only [htrips]
      rw [hget] at hn
      split_ifs at hn ⊢ with hw
      · cases hn
        exact hw ▸ ht
      · exact hb.kept w' r' t hn ht hu

/-- The readings of a sample are recorded, in turn. -/
theorem foldl_record {l : List (QuotaWindow × Reading)} (hb : b.Tracks h cfg clock)
    (hl : ∀ e ∈ l, e.2.readAt = clock) :
    (l.foldl (fun b (w, r) => b.record w r cfg) b).Tracks (h ++ l) cfg clock := by
  induction l generalizing b h with
  | nil => simpa using hb
  | cons e l ih =>
    rw [List.forall_mem_cons] at hl
    simpa using ih (hb.record hl.1) hl.2

/-- Trips that have expired are dropped. -/
theorem retain (hb : b.Tracks h cfg clock) :
    { b with trips := b.trips.filter fun _ t => clock < t.until }.Tracks h cfg clock := by
  refine ⟨hb.readings, fun w t ht => ?_, fun w r t hn ht hu => ?_, hb.past, hb.readAt, hb.last⟩
  · rw [SortedMap.get?_filter, Option.filter_eq_some_iff] at ht
    exact hb.trips w t ht.1
  · rw [SortedMap.get?_filter, Option.filter_eq_some_iff, decide_eq_true_eq]
    exact ⟨hb.kept w r t hn ht hu, hu⟩

/-- The trips are derived anew. -/
theorem reconfigure (hb : b.Tracks h cfg clock) (cfg' : BrakeConfig) :
    { b with trips := b.readings.filterMapVal fun w r => trip w r cfg' }.Tracks h cfg' clock := by
  have hget : ∀ w, (b.readings.filterMapVal fun w r => trip w r cfg').get? w =
      (newest h w).bind fun r => trip w r cfg' := fun w => by
    rw [SortedMap.get?_filterMapVal, hb.readings]
  refine ⟨hb.readings, fun w t ht => ?_, fun w r t hn ht _ => ?_, hb.past, hb.readAt, hb.last⟩
  · rw [hget] at ht
    exact Option.bind_eq_some_iff.1 ht
  · rw [hget, hn]
    exact ht

/-- The unexpired trips are those of the readings that hold the brake. -/
theorem mem_unexpired (hb : b.Tracks h cfg clock) (hle : clock ≤ now) {t : Trip} :
    t ∈ (b.trips.values.filter fun t => now < t.until) ↔
      ∃ w r, Holding saturatingAdd h cfg now w r ∧ t = r.trip cfg w := by
  simp only [SortedMap.values, List.mem_filter, List.mem_map, decide_eq_true_eq]
  constructor
  · rintro ⟨⟨e, he, rfl⟩, hu⟩
    obtain ⟨r, hn, ht⟩ := hb.trips e.1 e.2 (SortedMap.get?_eq_some_iff.2 he)
    obtain ⟨hat, heq⟩ := trip_eq_some_iff.1 ht
    rw [heq] at hu
    exact ⟨e.1, r, ⟨hn, hat, hu⟩, heq⟩
  · rintro ⟨w, r, ⟨hn, hat, hu⟩, rfl⟩
    have hkept := hb.kept w r _ hn (trip_eq_some_iff.2 ⟨hat, rfl⟩) (hle.trans_lt hu)
    exact ⟨⟨_, SortedMap.get?_eq_some_iff.1 hkept, rfl⟩, hu⟩

/-- The trip that holds longest, by the rule. -/
theorem longest_eq_some_iff (hb : b.Tracks h cfg clock) (hle : clock ≤ now) {t : Trip} :
    longest b now = some t ↔
      (∃ w r, Holding saturatingAdd h cfg now w r ∧ t = r.trip cfg w) ∧
        ∀ w r, Holding saturatingAdd h cfg now w r →
          toLex (r.ends saturatingAdd w, w) ≤ toLex (t.until, t.window) := by
  rw [longest, List.argmax_eq_some_iff, hb.mem_unexpired hle]
  have hall : (∀ t' ∈ (b.trips.values.filter fun t => now < t.until),
      toLex (t'.until, t'.window) ≤ toLex (t.until, t.window)) ↔
        ∀ w r, Holding saturatingAdd h cfg now w r →
          toLex (r.ends saturatingAdd w, w) ≤ toLex (t.until, t.window) := by
    refine ⟨fun h w r hr => h _ ((hb.mem_unexpired hle).2 ⟨w, r, hr, rfl⟩), fun h t' ht' => ?_⟩
    obtain ⟨w, r, hr, rfl⟩ := (hb.mem_unexpired hle).1 ht'
    exact h w r hr
  rw [hall]
  refine ⟨fun ⟨h₁, h₂, _⟩ => ⟨h₁, h₂⟩, fun ⟨h₁, h₂⟩ => ⟨h₁, h₂, fun t' ht' hle' => ?_⟩⟩
  -- Two trips of one window are the same one.
  obtain ⟨w, r, hr, rfl⟩ := h₁
  obtain ⟨w', r', hr', rfl⟩ := (hb.mem_unexpired hle).1 ht'
  have heq := toLex.injective (le_antisymm hle' (h₂ w' r' hr'))
  obtain ⟨-, hw : w = w'⟩ := Prod.mk.inj heq
  subst hw
  rw [Option.some.inj (hr.1.symm.trans hr'.1)]

theorem exists_longest (hb : b.Tracks h cfg clock) (hle : clock ≤ now) :
    (∃ t, longest b now = some t) ↔ ∃ w r, Holding saturatingAdd h cfg now w r := by
  constructor
  · rintro ⟨t, ht⟩
    obtain ⟨⟨w, r, hr, -⟩, -⟩ := (hb.longest_eq_some_iff hle).1 ht
    exact ⟨w, r, hr⟩
  · rintro ⟨w, r, hr⟩
    have hmem := (hb.mem_unexpired hle).2 ⟨w, r, hr, rfl⟩
    rw [← Option.isSome_iff_exists, ← Option.ne_none_iff_isSome, longest, Ne, List.argmax_eq_none]
    exact List.ne_nil_of_mem hmem

/-- The trip that holds longest does so until its end. -/
theorem longest_until {b' : Book} {clock' now' : ℕ} {t : Trip} (hb : b.Tracks h cfg clock)
    (hle : clock ≤ now) (ht : longest b now = some t) (hb' : b'.Tracks h cfg clock')
    (hle' : clock' ≤ now') (hu : now' < t.until) : longest b' now' = some t := by
  obtain ⟨⟨w, r, hr, rfl⟩, hmax⟩ := (hb.longest_eq_some_iff hle).1 ht
  refine (hb'.longest_eq_some_iff hle').2 ⟨⟨w, r, ⟨hr.1, hr.2.1, hu⟩, rfl⟩, fun w' r' hr' => ?_⟩
  -- A reading that had ended by `now` ends before the trip.
  by_cases hend : now < r'.ends saturatingAdd w'
  · exact hmax w' r' ⟨hr'.1, hr'.2.1, hend⟩
  · exact (Prod.Lex.toLex_lt_toLex.2 (.inl ((not_lt.1 hend).trans_lt hr.2.2))).le

/-- Two books of the same readings have the same trip and are as fresh. -/
theorem longest_congr {b' : Book} {clock' : ℕ} (hb : b.Tracks h cfg clock)
    (hb' : b'.Tracks h cfg clock') (hle : clock ≤ now) (hle' : clock' ≤ now) :
    longest b now = longest b' now ∧ fresh b now cfg = fresh b' now cfg := by
  refine ⟨Option.ext fun t => ?_, ?_⟩
  · exact (hb.longest_eq_some_iff hle).trans (hb'.longest_eq_some_iff hle').symm
  · rw [fresh, fresh, hb.readAt, hb'.readAt]

end Book.Tracks

namespace QuotaBook

variable {q : QuotaBook} {runtime : Runtime} {now : ℕ} {cfg : BrakeConfig}

/-- The book of a runtime; one of no records is empty. -/
def bookOf (q : QuotaBook) (runtime : Runtime) : Book := (q.books.get? runtime).getD .empty

theorem longest_retain (book : Book) (now : ℕ) :
    longest { book with trips := book.trips.filter fun _ t => now < t.until } now =
      longest book now := by
  have hvalues : (book.trips.filter fun _ t => now < t.until).values =
      book.trips.values.filter fun t => now < t.until :=
    (List.filter_map (f := Prod.snd) (p := fun t : Trip => now < t.until)).symm
  simp only [longest, hvalues, List.filter_filter, Bool.and_self]

/-- The verdict is one of the runtime's book. -/
theorem verdict_eq (q : QuotaBook) (runtime : Runtime) (now : ℕ) (cfg : BrakeConfig) :
    (q.verdict runtime now cfg).2 =
      if ¬cfg.quotaBrake ∨ runtime ∉ runtimes then .allowed
      else match longest (q.bookOf runtime) now with
        | some t => .braked t
        | none => if fresh (q.bookOf runtime) now cfg then .allowed else .blind := by
  rw [verdict, bookOf]
  by_cases h : ¬cfg.quotaBrake ∨ runtime ∉ runtimes
  · rw [if_pos h, if_pos h]
  rw [if_neg h, if_neg h]
  cases q.books.get? runtime with
  | none => rfl
  | some book =>
    simp only [longest_retain, Option.getD_some]
    cases longest book now <;> rfl

/-- What a verdict changes: at most, expired trips of its runtime's book are dropped. -/
theorem verdict_fst (q : QuotaBook) (runtime : Runtime) (now : ℕ) (cfg : BrakeConfig) :
    (q.verdict runtime now cfg).1 = q ∨ ∃ b, q.books.get? runtime = some b ∧
      (q.verdict runtime now cfg).1 = ⟨q.books.insert runtime
        { b with trips := b.trips.filter fun _ t => now < t.until }⟩ := by
  rw [verdict]
  by_cases h : ¬cfg.quotaBrake ∨ runtime ∉ runtimes
  · exact .inl (by rw [if_pos h])
  rw [if_neg h]
  cases q.books.get? runtime with
  | none => exact .inl rfl
  | some b =>
    refine .inr ⟨b, rfl, ?_⟩
    simp only
    cases longest { b with trips := b.trips.filter fun _ t => now < t.until } now <;> rfl

theorem verdict_eq_braked_iff {t : Trip} :
    (q.verdict runtime now cfg).2 = .braked t ↔
      cfg.quotaBrake ∧ runtime ∈ runtimes ∧ longest (q.bookOf runtime) now = some t := by
  rw [verdict_eq]
  by_cases h : ¬cfg.quotaBrake ∨ runtime ∉ runtimes
  · rw [if_pos h]
    simp only [reduceCtorEq, false_iff]
    tauto
  · rw [if_neg h]
    rw [not_or, not_not, not_not] at h
    simp only [h.1, h.2, true_and]
    cases longest (q.bookOf runtime) now with
    | none => split_ifs <;> simp
    | some t' => simp

theorem infoOf_spec (q : QuotaBook) (runtime : Runtime) (now : ℕ) (cfg : BrakeConfig) :
    (q.infoOf runtime now cfg).runtime = runtime ∧ (q.infoOf runtime now cfg).trip =
      if cfg.quotaBrake then (longest (q.bookOf runtime) now).map Trip.info else none := by
  rw [infoOf, bookOf]
  cases q.books.get? runtime with
  | none => exact ⟨rfl, by split_ifs <;> rfl⟩
  | some book => exact ⟨rfl, rfl⟩

/-- A runtime's trip in `info` is that of its verdict. -/
theorem mem_info_iff {i : BrakeTripInfo} :
    (∃ quota ∈ q.info now cfg, quota.runtime = runtime ∧ quota.trip = some i) ↔
      ∃ t, (q.verdict runtime now cfg).2 = .braked t ∧ i = t.info := by
  have hmem : (∃ quota ∈ q.info now cfg, quota.runtime = runtime ∧ quota.trip = some i) ↔
      runtime ∈ runtimes ∧ (q.infoOf runtime now cfg).trip = some i := by
    simp only [info, List.mem_map]
    constructor
    · rintro ⟨_, ⟨r, hr, rfl⟩, rfl, hi⟩
      rw [(infoOf_spec q r now cfg).1]
      exact ⟨hr, hi⟩
    · rintro ⟨hr, hi⟩
      exact ⟨_, ⟨runtime, hr, rfl⟩, (infoOf_spec q runtime now cfg).1, hi⟩
  rw [hmem, (infoOf_spec q runtime now cfg).2]
  simp only [verdict_eq_braked_iff, Option.ite_none_right_eq_some, Option.map_eq_some_iff]
  constructor
  · rintro ⟨hr, hb, t, ht, rfl⟩
    exact ⟨t, ⟨hb, hr, ht⟩, rfl⟩
  · rintro ⟨t, ⟨hb, hr, ht⟩, rfl⟩
    exact ⟨hr, hb, t, ht, rfl⟩

end QuotaBook

namespace Session

variable {s : Session} {h : Runtime → List (QuotaWindow × Reading)} {clock now : ℕ}

/-- Every runtime's book tracks its readings. -/
def Tracks (s : Session) (h : Runtime → List (QuotaWindow × Reading)) (clock : ℕ) : Prop :=
  ∀ runtime, (s.book.bookOf runtime).Tracks (h runtime) s.cfg clock

theorem Tracks.step (hs : s.Tracks h clock) (op : Op) (hle : ∀ t ∈ op.time, clock ≤ t) :
    (s.step op).Tracks (fun r => h r ++ op.readings r) (op.time.getD clock) := by
  cases op with
  | record runtime sample now =>
    intro r
    have hle : clock ≤ now := hle now rfl
    have hat : ∀ e ∈ sample.readings now, e.2.readAt = now := by
      intro e he
      obtain ⟨w, -, rfl⟩ := List.mem_map.1 he
      rfl
    simp only [Session.step, Op.readings, QuotaBook.bookOf, QuotaBook.record, Op.time,
      Option.getD_some]
    rw [SortedMap.get?_insert]
    by_cases hr : r = runtime
    · rw [if_pos hr, if_pos hr.symm, hr]
      -- the readings of a sample are recorded at its own time
      exact ((hs runtime).mono hle).foldl_record hat
    · rw [if_neg hr, if_neg fun h => hr h.symm, List.append_nil]
      exact (hs r).mono hle
  | reconfigure cfg =>
    intro r
    simp only [Session.step, Op.readings, QuotaBook.bookOf, QuotaBook.reconfigure, Op.time,
      List.append_nil, Option.getD_none]
    have hr := (hs r).reconfigure cfg
    rw [QuotaBook.bookOf] at hr
    rw [SortedMap.get?_mapVal]
    cases hb : s.book.books.get? r with
    | none =>
      rw [hb] at hr
      exact hr
    | some b =>
      rw [hb] at hr
      exact hr
  | verdict runtime now cfg =>
    intro r
    have hr := (hs r).mono (hle now rfl)
    simp only [Session.step, Op.readings, Op.time, List.append_nil, Option.getD_some]
    -- a verdict only drops trips that have ended
    rcases s.book.verdict_fst runtime now cfg with hq | ⟨b, hb, hq⟩
    · rw [hq]
      exact hr
    · rw [hq, QuotaBook.bookOf, SortedMap.get?_insert]
      rw [QuotaBook.bookOf] at hr
      split_ifs with h'
      · rw [h', hb] at hr
        exact h' ▸ hr.retain
      · exact hr

/-- After calls in the order of time, every book tracks the readings recorded. -/
theorem Tracks.run {ops : List Op} (hs : s.Tracks h clock)
    (htimes : (clock :: (ops.filterMap Op.time ++ [now])).Pairwise (· ≤ ·)) :
    (s.run ops).Tracks (fun r => h r ++ history ops r) now := by
  induction ops generalizing s h clock with
  | nil =>
    have hle : clock ≤ now := by simpa using htimes
    intro r
    simp only [history, List.flatMap_nil, List.append_nil]
    exact (hs r).mono hle
  | cons op ops ih =>
    have hhist : ∀ r, h r ++ history (op :: ops) r = (h r ++ op.readings r) ++ history ops r := by
      simp [history]
    simp only [hhist]
    cases ht : op.time with
    | none =>
      have hstep := hs.step op (by simp [ht])
      rw [ht] at hstep
      rw [List.filterMap_cons_none ht] at htimes
      exact ih hstep htimes
    | some t =>
      rw [List.filterMap_cons_some ht, List.cons_append, List.pairwise_cons] at htimes
      have hstep := hs.step op (by simpa [ht] using htimes.1 t List.mem_cons_self)
      rw [ht] at hstep
      exact ih hstep htimes.2

theorem Tracks.new_run (cfg : BrakeConfig) {ops : List Op}
    (htimes : (ops.filterMap Op.time ++ [now]).Pairwise (· ≤ ·)) :
    ((Session.new cfg).run ops).Tracks (history ops) now := by
  have hnew : (Session.new cfg).Tracks (fun _ => []) 0 := fun _ => .empty cfg 0
  simpa using hnew.run (List.pairwise_cons.2 ⟨fun _ _ => Nat.zero_le _, htimes⟩)

theorem run_append (s : Session) (ops later : List Op) : s.run (ops ++ later) = (s.run ops).run later :=
  List.foldl_append

/-- The configuration in force is the last one, whatever the book. -/
theorem run_cfg_congr {s' : Session} (ops : List Op) (hcfg : s'.cfg = s.cfg) :
    (s'.run ops).cfg = (s.run ops).cfg := by
  induction ops generalizing s s' with
  | nil => exact hcfg
  | cons op ops ih => exact ih (by cases op <;> simp [step, hcfg])

theorem run_cfg {ops : List Op} (hops : ∀ cfg, .reconfigure cfg ∉ ops) :
    (s.run ops).cfg = s.cfg := by
  induction ops generalizing s with
  | nil => rfl
  | cons op ops ih =>
    simp only [List.mem_cons, not_or] at hops
    refine (ih fun cfg => (hops cfg).2).trans ?_
    cases op with
    | reconfigure cfg => exact absurd rfl (hops cfg).1
    | record | verdict => rfl

/-- Two sessions of the same readings and configuration have the same verdicts. -/
theorem Tracks.verdict_congr {s' : Session} (hs : s.Tracks h now) (hs' : s'.Tracks h now)
    (hcfg : s'.cfg = s.cfg) (runtime : Runtime) :
    (s'.book.verdict runtime now s'.cfg).2 = (s.book.verdict runtime now s.cfg).2 := by
  have hr := hs' runtime
  rw [hcfg] at hr ⊢
  obtain ⟨hlong, hfresh⟩ := (hs runtime).longest_congr hr le_rfl le_rfl
  rw [QuotaBook.verdict_eq, QuotaBook.verdict_eq, hlong, hfresh]

end Session

/-- After any calls in the order of time: a runtime is braked exactly when the brake is
    on, it is one with a quota, and the newest reading of some window of it is at or
    over its threshold and has not ended; the trip is the one of these that ends last;
    `info` reports the trips of the verdicts; a trip holds until its end while no
    reading of its runtime is recorded, stale or not; and a reconfiguration with the
    configuration in force changes no later verdict. -/
theorem verdict_run (cfg : BrakeConfig) (ops : List Op) (now : ℕ)
    (htimes : (ops.filterMap Op.time ++ [now]).Pairwise (· ≤ ·)) :
    let s := (Session.new cfg).run ops
    (∀ runtime, (∃ t, (s.book.verdict runtime now s.cfg).2 = .braked t) ↔
      Braked saturatingAdd (history ops runtime) s.cfg runtime now) ∧
    (∀ runtime t, (s.book.verdict runtime now s.cfg).2 = .braked t →
      (∃ r, Holding saturatingAdd (history ops runtime) s.cfg now t.window r ∧
        t = r.trip s.cfg t.window) ∧
      ∀ window r, Holding saturatingAdd (history ops runtime) s.cfg now window r →
        r.ends saturatingAdd window ≤ t.until) ∧
    (∀ runtime i, (∃ quota ∈ s.book.info now s.cfg, quota.runtime = runtime ∧ quota.trip = some i) ↔
      ∃ t, (s.book.verdict runtime now s.cfg).2 = .braked t ∧ i = t.info) ∧
    (∀ runtime t later now', (s.book.verdict runtime now s.cfg).2 = .braked t →
      history later runtime = [] → (∀ cfg', .reconfigure cfg' ∉ later) →
      ((ops ++ later).filterMap Op.time ++ [now']).Pairwise (· ≤ ·) → now' < t.until →
      ((s.run later).book.verdict runtime now' s.cfg).2 = .braked t) ∧
    ∀ runtime later now', ((ops ++ later).filterMap Op.time ++ [now']).Pairwise (· ≤ ·) →
      let s₁ := s.run later
      let s₂ := (s.step (.reconfigure s.cfg)).run later
      (s₂.book.verdict runtime now' s₂.cfg).2 = (s₁.book.verdict runtime now' s₁.cfg).2 := by
  intro s
  have hs : s.Tracks (history ops) now := .new_run cfg htimes
  refine ⟨fun runtime => ?_, fun runtime t ht => ?_, fun runtime i => QuotaBook.mem_info_iff,
    fun runtime t later now' ht hlater hcfg htimes' hu => ?_, fun runtime later now' htimes' => ?_⟩
  · -- a trip is reported exactly while a reading holds
    have hex := (hs runtime).exists_longest le_rfl
    simp only [QuotaBook.verdict_eq_braked_iff, exists_and_left, hex, Braked]
    simp [runtimes]
  · -- the trip reported is the one that ends last
    obtain ⟨-, -, hlong⟩ := QuotaBook.verdict_eq_braked_iff.1 ht
    obtain ⟨⟨w, r, hr, rfl⟩, hmax⟩ := ((hs runtime).longest_eq_some_iff le_rfl).1 hlong
    exact ⟨⟨r, hr, rfl⟩, fun w' r' hr' => Prod.Lex.monotone_fst _ _ (hmax w' r' hr')⟩
  · -- without a new reading of the runtime, its longest trip stays the longest
    obtain ⟨hb, hr, hlong⟩ := QuotaBook.verdict_eq_braked_iff.1 ht
    have hs' : (s.run later).Tracks (history (ops ++ later)) now' := by
      rw [← Session.run_append]
      exact .new_run cfg htimes'
    have hr' := hs' runtime
    rw [history, List.flatMap_append, show later.flatMap (Op.readings runtime) = [] from hlater,
      List.append_nil, Session.run_cfg hcfg] at hr'
    exact QuotaBook.verdict_eq_braked_iff.2
      ⟨hb, hr, (hs runtime).longest_until le_rfl hlong hr' le_rfl hu⟩
  · -- the same thresholds once more: both books track the same readings
    have hs₁ : (s.run later).Tracks (history (ops ++ later)) now' := by
      rw [← Session.run_append]
      exact .new_run cfg htimes'
    have hs₂ : ((s.step (.reconfigure s.cfg)).run later).Tracks (history (ops ++ later)) now' := by
      have hrun : (s.step (.reconfigure s.cfg)).run later =
          (Session.new cfg).run (ops ++ .reconfigure s.cfg :: later) := by
        rw [Session.run_append]
        rfl
      have hhist : history (ops ++ .reconfigure s.cfg :: later) = history (ops ++ later) := by
        funext r
        simp [history, Op.readings]
      rw [hrun, ← hhist]
      refine .new_run cfg ?_
      simpa [List.filterMap_append, List.filterMap_cons, Op.time] using htimes'
    exact hs₁.verdict_congr hs₂ (Session.run_cfg_congr later rfl) runtime

/-- A run in the order of time in which the seven-day window trips and outlives the
    five-hour one: its reset is in milliseconds, so its window's length ends it. -/
def twoTrips : List Op :=
  [.reconfigure ⟨true, 90, 95, 600⟩,
    .record .claude ⟨[(.fiveHour, 950, some 5000), (.sevenDay, 400, none)], some .sevenDay⟩ 1000,
    .verdict .claude 2000 ⟨true, 90, 95, 600⟩,
    .record .codex ⟨[(.fiveHour, 899, none)], none⟩ 3000]

theorem verdict_run_twoTrips :
    let s := (Session.new .default).run twoTrips
    ((∃ t, (s.book.verdict .claude 6000 s.cfg).2 = .braked t) ↔
        Braked saturatingAdd (history twoTrips .claude) s.cfg .claude 6000) ∧
      (s.book.verdict .claude 6000 s.cfg).2 = .braked ⟨.sevenDay, 1000, 95, 605800, 1000⟩ ∧
      (s.book.verdict .codex 6000 s.cfg).2 = .blind := by
  refine ⟨(verdict_run .default twoTrips 6000 (by decide)).1 .claude, by decide, by decide⟩

/-- A full reading in the last second of 64 bits. -/
def fullAtLastSecond : List Op :=
  [.record .claude ⟨[(.fiveHour, Permille.full, none)], none⟩ (2 ^ 64 - 1)]

/-- In that second the reading brakes nothing, though its window's length after it is
    later. -/
theorem verdict_last_second :
    ¬∀ cfg ops now, (ops.filterMap Op.time ++ [now]).Pairwise (· ≤ ·) → now < 2 ^ 64 →
      ∀ runtime, let s := (Session.new cfg).run ops
        (∃ t, (s.book.verdict runtime now s.cfg).2 = .braked t) ↔
          Braked (· + ·) (history ops runtime) s.cfg runtime now := by
  intro h
  let cfg : BrakeConfig := ⟨true, 90, 95, 600⟩
  have hverdict : (((Session.new cfg).run fullAtLastSecond).book.verdict .claude (2 ^ 64 - 1) cfg).2 =
      .allowed := by decide
  obtain ⟨t, ht⟩ := (h cfg fullAtLastSecond (2 ^ 64 - 1) (by decide) (by decide) .claude).2
    ⟨rfl, .inl rfl, .fiveHour, ⟨Permille.full, none, 2 ^ 64 - 1⟩, by decide, by decide, by decide⟩
  exact absurd (hverdict.symm.trans ht) (by simp)

end Anthrex.Quota
