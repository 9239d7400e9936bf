import Anthrex.Data.SortedMap

/-!
# The test scheduler's slot book

The accounting of the daemon's test slots (`run/slots/book.rs`). A request waits
until it is granted some of the slots, and holds them until it is released:

* `SlotBook.ask` queues a request and hands out its ticket;
* `SlotBook.grant` grants, in order, every waiting request that may start now;
* `SlotBook.release` gives the slots of a ticket back, or its place in the queue.

The waiting requests are ordered by class, the critical ones first in a class, then
by the order of their asks. Only the first may be granted: it gets what it wants out
of the free slots as soon as one is free or, when it is exclusive, every slot once
none is held.

The slot counts are `u32`: a sum or a difference that does not fit is a panic, here
`none`. The ticket counter, a `u64` that counts the asks, is unbounded.
-/

namespace Anthrex.Slots

/-- A request's class, highest first. -/
inductive Priority
  | candidate
  | gate
  | fullStage
  | fullIdle
  | verify
  | agent
  deriving DecidableEq, Repr

/-- The place of a class in the order of the declaration. -/
def Priority.rank : Priority → ℕ
  | candidate => 0
  | gate => 1
  | fullStage => 2
  | fullIdle => 3
  | verify => 4
  | agent => 5

theorem Priority.rank_injective : Function.Injective Priority.rank := by
  intro a b h
  cases a <;> cases b <;> first | rfl | simp [rank] at h

instance : LinearOrder Priority := LinearOrder.lift' Priority.rank Priority.rank_injective

/-- How many slots a step asks for. -/
inductive Want
  | one
  | half
  | all
  | count (n : ℕ)
  deriving DecidableEq, Repr

/-- The slots `w` asks for out of `slots`: one; half, rounded up and at least one;
    all of them; or `n`, clamped to `1..=slots`. -/
def Want.of (w : Want) (slots : ℕ) : ℕ :=
  match w with
  | one => 1
  | half => max ((slots + 1) / 2) 1
  | all => max slots 1
  | count n => min (max n 1) (max slots 1)

theorem Want.one_le_of (w : Want) (slots : ℕ) : 1 ≤ w.of slots := by
  cases w <;> simp only [of] <;> omega

structure SlotRequest where
  priority : Priority
  /-- On the run's critical path: first among equal classes. -/
  critical : Bool
  want : Want
  /-- Granted only when no slot is held, and then gets every slot. -/
  exclusive : Bool
  /-- What asked, for logs. -/
  label : String
  deriving DecidableEq, Repr

/-- One request's place in the book, from ask to release. -/
abbrev Ticket := ℕ

/-- The order of the waiting requests: class, not critical, ask order. -/
abbrev Key := Priority ×ₗ Bool ×ₗ ℕ

/-- The key of the request `r` asked as the ticket `t`. -/
def SlotRequest.key (r : SlotRequest) (t : Ticket) : Key :=
  toLex (r.priority, toLex (!r.critical, t))

/-- The ticket of a key. -/
def Key.ticket (k : Key) : Ticket := (ofLex (ofLex k).2).2

@[simp] theorem Key.ticket_key (r : SlotRequest) (t : Ticket) : Key.ticket (r.key t) = t := rfl

structure SlotBook where
  slots : ℕ
  /-- Granted tickets and their slots. -/
  held : SortedMap Ticket ℕ
  /-- Waiting requests, in their order. -/
  waiting : SortedMap Key SlotRequest
  next : Ticket

/-- The sum of `u32`s, `none` when it overflows. -/
def sumU32 (l : List ℕ) : Option ℕ :=
  l.foldlM (fun a n => if a + n < 2 ^ 32 then some (a + n) else none) 0

/-- The difference of `u32`s, `none` when it underflows. -/
def subU32 (a b : ℕ) : Option ℕ := if b ≤ a then some (a - b) else none

namespace SlotBook

/-- A book of `slots` slots (at least one). -/
def new (slots : ℕ) : SlotBook := ⟨max slots 1, .empty, .empty, 0⟩

/-- The slots granted and not yet released. -/
def heldSlots (b : SlotBook) : Option ℕ := sumU32 b.held.values

/-- Queues `req`; `grant` says when it may start. -/
def ask (b : SlotBook) (req : SlotRequest) : SlotBook × Ticket :=
  ({ b with waiting := b.waiting.insert (req.key b.next) req, next := b.next + 1 }, b.next)

/-- The slots `req` would be granted when `free` of the `slots` slots are free;
    `none` when it may not start. -/
def grantable (slots free : ℕ) (req : SlotRequest) : Option ℕ :=
  if req.exclusive then
    if free = slots then some slots else none
  else
    if 1 ≤ free then some (min (req.want.of slots) free) else none

/-- The loop of `grant` over the waiting requests `w`: the requests left waiting,
    the held tickets and the grants made, in order. -/
def grantLoop (slots : ℕ) : (w : List (Key × SlotRequest)) → (w.Pairwise fun a b => a.1 < b.1) →
    SortedMap Ticket ℕ → Option (SortedMap Key SlotRequest × SortedMap Ticket ℕ × List (Ticket × ℕ))
  | w, hw, held => do
    let free ← subU32 slots (← sumU32 held.values)
    match w, hw with
    | [], _ => return (.empty, held, [])
    | (key, req) :: l, h =>
      match grantable slots free req with
      | none => return (⟨(key, req) :: l, h⟩, held, [])
      | some n =>
        let (w', held', granted) ← grantLoop slots l h.of_cons (held.insert (Key.ticket key) n)
        return (w', held', (Key.ticket key, n) :: granted)

/-- Grants every waiting ticket that may start now, in order, with its slots; each
    is held from here until `release`. -/
def grant (b : SlotBook) : Option (SlotBook × List (Ticket × ℕ)) := do
  let (waiting, held, granted) ← grantLoop b.slots b.waiting.entries b.waiting.sorted b.held
  return ({ b with waiting, held }, granted)

/-- Gives back the slots of `t`, or its place when it was still waiting. Unknown
    tickets are ignored. -/
def release (b : SlotBook) (t : Ticket) : SlotBook :=
  match b.held.get? t with
  | some _ => { b with held := b.held.erase t }
  | none => { b with waiting := b.waiting.filter fun key _ => Key.ticket key ≠ t }

end SlotBook

/-! ## Checked arithmetic -/

theorem foldlM_sumU32 {l : List ℕ} {a : ℕ} (h : a + l.sum < 2 ^ 32) :
    l.foldlM (fun a n => if a + n < 2 ^ 32 then some (a + n) else none) a = some (a + l.sum) := by
  induction l generalizing a with
  | nil => rfl
  | cons n l ih =>
    rw [List.sum_cons] at h
    rw [List.foldlM_cons, if_pos (by omega), Option.bind_eq_bind, Option.bind_some,
      ih (by omega), List.sum_cons, Nat.add_assoc]

theorem sumU32_eq {l : List ℕ} (h : l.sum < 2 ^ 32) : sumU32 l = some l.sum := by
  rw [sumU32, foldlM_sumU32 (by omega), Nat.zero_add]

theorem subU32_eq {a b : ℕ} (h : b ≤ a) : subU32 a b = some (a - b) := if_pos h

namespace SlotBook

/-! ## Grants -/

variable {slots : ℕ}

/-- The held tickets fit in the slots, each with at least one. -/
structure Fits (slots : ℕ) (held : SortedMap Ticket ℕ) : Prop where
  sum_le : held.values.sum ≤ slots
  pos : ∀ e ∈ held.entries, 1 ≤ e.2

theorem grantable_bounds {free n : ℕ} {req : SlotRequest} (hs : 1 ≤ slots)
    (h : grantable slots free req = some n) : 1 ≤ n ∧ n ≤ free := by
  simp only [grantable] at h
  split_ifs at h with hx hfree hfree <;> cases h
  · omega
  · have := req.want.one_le_of slots
    omega

/-- An exclusive request is granted every slot. -/
theorem eq_slots_of_grantable {free n : ℕ} {req : SlotRequest} (hx : req.exclusive)
    (h : grantable slots free req = some n) : n = slots := by
  simp only [grantable, hx, if_true] at h
  split_ifs at h
  exact (Option.some.inj h).symm

/-- What `grant` does to the waiting requests `w` and the held tickets `held`: it
    grants the requests `pre` that come first, as `granted`, and stops at the first
    one that may not start. -/
structure Granted (slots : ℕ) (w : List (Key × SlotRequest)) (held : SortedMap Ticket ℕ)
    (w' : SortedMap Key SlotRequest) (held' : SortedMap Ticket ℕ) (granted : List (Ticket × ℕ))
    (pre : List (Key × SlotRequest)) : Prop where
  split : w = pre ++ w'.entries
  tickets : granted.map (·.1) = pre.map fun e => Key.ticket e.1
  mem_held : ∀ e, e ∈ held'.entries ↔ e ∈ held.entries ∨ e ∈ granted
  fits : Fits slots held'
  exclusive : ∀ e ∈ pre, e.2.exclusive → (Key.ticket e.1, slots) ∈ granted
  stops : ∀ e ∈ w'.entries.head?, grantable slots (slots - held'.values.sum) e.2 = none

/-- A grant of `n` free slots to a ticket that holds none keeps the book in size. -/
theorem Fits.insert {held : SortedMap Ticket ℕ} (hf : Fits slots held) {t : Ticket} {n : ℕ}
    (ht : held.get? t = none) (hn : 1 ≤ n ∧ n ≤ slots - held.values.sum) :
    Fits slots (held.insert t n) where
  sum_le := by
    have := hf.sum_le
    rw [SortedMap.sum_values_insert ht]
    omega
  pos e he := by
    rcases SortedMap.mem_insert.1 he with rfl | ⟨_, he⟩
    · exact hn.1
    · exact hf.pos e he

section Loop

variable {w l : List (Key × SlotRequest)} {held : SortedMap Ticket ℕ}

/-- The free slots, computed without overflow or underflow. -/
theorem Fits.free_eq (hf : Fits slots held) (hs' : slots < 2 ^ 32) :
    (sumU32 held.values).bind (subU32 slots) = some (slots - held.values.sum) := by
  have hsum := hf.sum_le
  rw [sumU32_eq (by omega), Option.bind_some, subU32_eq hsum]

theorem grantLoop_nil (hf : Fits slots held) (hs' : slots < 2 ^ 32) (hw) :
    grantLoop slots [] hw held = some (.empty, held, []) := by
  rw [grantLoop]
  simp only [Option.bind_eq_bind]
  rw [← Option.bind_assoc, hf.free_eq hs']
  rfl

theorem grantLoop_cons {key : Key} {req : SlotRequest} (hf : Fits slots held)
    (hs' : slots < 2 ^ 32) (hw) :
    grantLoop slots ((key, req) :: l) hw held =
      match grantable slots (slots - held.values.sum) req with
      | none => some (⟨(key, req) :: l, hw⟩, held, [])
      | some n => (grantLoop slots l hw.of_cons (held.insert (Key.ticket key) n)).map
          fun (w', held', granted) => (w', held', (Key.ticket key, n) :: granted) := by
  rw [grantLoop]
  simp only [Option.bind_eq_bind]
  rw [← Option.bind_assoc, hf.free_eq hs', Option.bind_some]
  cases grantable slots (slots - held.values.sum) req with
  | none => rfl
  | some n => exact Option.map_eq_bind.symm

theorem grantLoop_eq (hs : 1 ≤ slots) (hs' : slots < 2 ^ 32) (hw) (hf : Fits slots held)
    (hfresh : ∀ e ∈ w, held.get? (Key.ticket e.1) = none)
    (hnodup : (w.map fun e => Key.ticket e.1).Nodup) :
    ∃ w' held' granted pre, grantLoop slots w hw held = some (w', held', granted) ∧
      Granted slots w held w' held' granted pre := by
  induction w generalizing held with
  | nil => exact ⟨.empty, held, [], [], grantLoop_nil hf hs' hw, rfl, rfl, by simp, hf, by simp,
      by simp [SortedMap.empty]⟩
  | cons e w ih =>
    obtain ⟨key, req⟩ := e
    rw [grantLoop_cons hf hs' hw]
    cases hg : grantable slots (slots - held.values.sum) req with
    | none =>
      refine ⟨_, held, [], [], rfl, rfl, rfl, by simp, hf, by simp, fun e he => ?_⟩
      rw [List.head?_cons, Option.mem_some_iff] at he
      exact he ▸ hg
    | some n =>
      -- The first request is granted `n` slots; the rest is by induction, from
      -- the book that holds them.
      rw [List.map_cons, List.nodup_cons] at hnodup
      have ht : held.get? (Key.ticket key) = none := hfresh _ List.mem_cons_self
      have hfresh' : ∀ e ∈ w, (held.insert (Key.ticket key) n).get? (Key.ticket e.1) = none := by
        intro e he
        have hne : Key.ticket e.1 ≠ Key.ticket key := fun heq =>
          hnodup.1 (List.mem_map.2 ⟨e, he, heq⟩)
        rw [SortedMap.get?_insert_of_ne hne]
        exact hfresh e (List.mem_cons_of_mem _ he)
      obtain ⟨w', held', granted, pre, heq, h⟩ := ih hw.of_cons
        (hf.insert ht (grantable_bounds hs hg)) hfresh' hnodup.2
      refine ⟨w', held', (Key.ticket key, n) :: granted, (key, req) :: pre, by simp [heq], ?_⟩
      refine ⟨by rw [h.split]; rfl, by rw [List.map_cons, h.tickets]; rfl, fun e => ?_, h.fits,
        fun e he hx => ?_, h.stops⟩
      · rw [h.mem_held, SortedMap.mem_insert, List.mem_cons]
        have hne : e ∈ held.entries → e.1 ≠ Key.ticket key := fun he heq =>
          SortedMap.get?_eq_none_iff.1 ht e.2 (heq ▸ he)
        tauto
      · rcases List.mem_cons.1 he with rfl | he
        · rw [eq_slots_of_grantable hx hg]
          exact List.mem_cons_self
        · exact List.mem_cons_of_mem _ (h.exclusive e he hx)

end Loop

end SlotBook

/-! ## Runs -/

/-- A call of the book. -/
inductive Call
  | ask (req : SlotRequest)
  | grant
  | release (t : Ticket)
  deriving DecidableEq, Repr

/-- A book with its history: the tickets handed out, with their requests, and those
    given back since. -/
structure Session where
  book : SlotBook
  asked : List (Ticket × SlotRequest)
  released : List Ticket

namespace Session

def new (slots : ℕ) : Session := ⟨.new slots, [], []⟩

/-- One call; `none` when it panics. -/
def step (s : Session) : Call → Option Session
  | .ask req =>
    let (book, t) := s.book.ask req
    some { s with book, asked := (t, req) :: s.asked }
  | .grant => s.book.grant.map fun (book, _) => { s with book }
  | .release t =>
    some { s with
      book := s.book.release t
      released := if t < s.book.next then t :: s.released else s.released }

/-- The calls of `calls`, one after the other. -/
def run (s : Session) (calls : List Call) : Option Session := calls.foldlM step s

/-- The invariant of the book: its tickets are known, each request waits or holds
    at most once, and an exclusive one holds every slot. -/
structure Inv (s : Session) : Prop where
  slots_pos : 1 ≤ s.book.slots
  slots_lt : s.book.slots < 2 ^ 32
  fits : SlotBook.Fits s.book.slots s.book.held
  asked_lt : ∀ e ∈ s.asked, e.1 < s.book.next
  asked_inj : ∀ e ∈ s.asked, ∀ e' ∈ s.asked, e.1 = e'.1 → e = e'
  waiting_asked : ∀ e ∈ s.book.waiting.entries,
    (Key.ticket e.1, e.2) ∈ s.asked ∧ e.1 = e.2.key (Key.ticket e.1)
  held_asked : ∀ e ∈ s.book.held.entries, ∃ req, (e.1, req) ∈ s.asked ∧
    (req.exclusive → e.2 = s.book.slots)
  disjoint : ∀ e ∈ s.book.waiting.entries, s.book.held.get? (Key.ticket e.1) = none
  live : ∀ e ∈ s.asked, e.1 ∉ s.released →
    (∃ n, (e.1, n) ∈ s.book.held.entries) ∨ (e.2.key e.1, e.2) ∈ s.book.waiting.entries
  released_lt : ∀ t ∈ s.released, t < s.book.next

theorem Inv.new {slots : ℕ} (h : slots < 2 ^ 32) : (Session.new slots).Inv where
  slots_pos := Nat.le_max_right _ _
  slots_lt := by simp only [Session.new, SlotBook.new]; omega
  fits := ⟨by simp [Session.new, SlotBook.new, SortedMap.values, SortedMap.empty],
    fun _ he => absurd he SortedMap.not_mem_empty⟩
  asked_lt _ he := absurd he List.not_mem_nil
  asked_inj _ he := absurd he List.not_mem_nil
  waiting_asked _ he := absurd he SortedMap.not_mem_empty
  held_asked _ he := absurd he SortedMap.not_mem_empty
  disjoint _ he := absurd he SortedMap.not_mem_empty
  live _ he := absurd he List.not_mem_nil
  released_lt _ ht := absurd ht List.not_mem_nil

variable {s s' : Session}

/-- A ticket waits at most once. -/
theorem Inv.eq_of_ticket_eq (hs : s.Inv) {e e' : Key × SlotRequest}
    (he : e ∈ s.book.waiting.entries) (he' : e' ∈ s.book.waiting.entries)
    (h : Key.ticket e.1 = Key.ticket e'.1) : e = e' := by
  obtain ⟨ha, hk⟩ := hs.waiting_asked e he
  obtain ⟨ha', hk'⟩ := hs.waiting_asked e' he'
  have hr : e.2 = e'.2 := (Prod.mk.inj (hs.asked_inj _ ha _ ha' h)).2
  exact Prod.ext (by rw [hk, hk', hr, h]) hr

theorem Inv.nodup_tickets (hs : s.Inv) :
    (s.book.waiting.entries.map fun e => Key.ticket e.1).Nodup := by
  have hn : s.book.waiting.entries.Nodup :=
    s.book.waiting.sorted.imp fun h e => h.ne (congrArg Prod.fst e)
  exact List.Nodup.map_on (fun e he e' he' => hs.eq_of_ticket_eq he he') hn

/-- `grant` never panics: what it does is a `Granted`. -/
theorem Inv.grant_eq (hs : s.Inv) : ∃ book granted pre, s.book.grant = some (book, granted) ∧
    book.slots = s.book.slots ∧ book.next = s.book.next ∧
    SlotBook.Granted s.book.slots s.book.waiting.entries s.book.held book.waiting book.held
      granted pre := by
  obtain ⟨w', held', granted, pre, heq, h⟩ := SlotBook.grantLoop_eq hs.slots_pos hs.slots_lt
    s.book.waiting.sorted hs.fits hs.disjoint hs.nodup_tickets
  exact ⟨{ s.book with waiting := w', held := held' }, granted, pre, by simp [SlotBook.grant, heq],
    rfl, rfl, h⟩

theorem Inv.ask (hs : s.Inv) (req : SlotRequest) : ∃ s', s.step (.ask req) = some s' ∧ s'.Inv := by
  -- The new ticket is the counter: no known ticket is it.
  refine ⟨_, rfl, ?_⟩
  have hlt := hs.asked_lt
  refine ⟨hs.slots_pos, hs.slots_lt, hs.fits, ?_, ?_, ?_, ?_, ?_, ?_, ?_⟩ <;>
    simp only [SortedMap.mem_insert]
  · intro e he
    rcases List.mem_cons.1 he with rfl | he
    · exact Nat.lt_succ_self _
    · exact (hlt e he).trans (Nat.lt_succ_self _)
  · intro e he e' he' heq
    rcases List.mem_cons.1 he with rfl | he <;> rcases List.mem_cons.1 he' with rfl | he'
    · rfl
    · exact absurd heq (hlt e' he').ne'
    · exact absurd heq (hlt e he).ne
    · exact hs.asked_inj e he e' he' heq
  · rintro e (rfl | ⟨_, he⟩)
    · exact ⟨List.mem_cons_self, rfl⟩
    · exact (hs.waiting_asked e he).imp_left (List.mem_cons_of_mem _)
  · intro e he
    obtain ⟨r, hr, hx⟩ := hs.held_asked e he
    exact ⟨r, List.mem_cons_of_mem _ hr, hx⟩
  · rintro e (rfl | ⟨_, he⟩)
    · rw [SortedMap.get?_eq_none_iff]
      intro n hn
      obtain ⟨r, hr, _⟩ := hs.held_asked _ hn
      exact lt_irrefl _ (hlt _ hr)
    · exact hs.disjoint e he
  · intro e he hne
    rcases List.mem_cons.1 he with rfl | he
    · exact .inr (.inl rfl)
    · refine (hs.live e he hne).imp_right fun h => .inr ⟨fun heq => ?_, h⟩
      exact (hlt e he).ne (congrArg Key.ticket heq)
  · exact fun t ht => (hs.released_lt t ht).trans (Nat.lt_succ_self _)

theorem Inv.grant (hs : s.Inv) : ∃ s', s.step .grant = some s' ∧ s'.Inv := by
  obtain ⟨book, granted, pre, heq, hslots, hnext, h⟩ := hs.grant_eq
  have hsub : ∀ e ∈ book.waiting.entries, e ∈ s.book.waiting.entries := fun e he => by
    rw [h.split]; exact List.mem_append_right _ he
  have hpre : ∀ e ∈ pre, e ∈ s.book.waiting.entries := fun e he => by
    rw [h.split]; exact List.mem_append_left _ he
  -- A grant is that of a request of `pre`.
  have hgranted : ∀ g ∈ granted, ∃ e ∈ pre, Key.ticket e.1 = g.1 := fun g hg => by
    have : g.1 ∈ pre.map fun e => Key.ticket e.1 := h.tickets ▸ List.mem_map_of_mem hg
    exact List.mem_map.1 this
  refine ⟨{ s with book }, by simp [step, heq], ?_⟩
  refine ⟨hslots ▸ hs.slots_pos, hslots ▸ hs.slots_lt, hslots ▸ h.fits,
    fun e he => hnext ▸ hs.asked_lt e he, hs.asked_inj,
    fun e he => hs.waiting_asked e (hsub e he), ?_, ?_, ?_,
    fun t ht => hnext ▸ hs.released_lt t ht⟩
  · intro e he
    rcases (h.mem_held e).1 he with hold | hnew
    · obtain ⟨r, hr, hx⟩ := hs.held_asked e hold
      exact ⟨r, hr, fun h => hslots ▸ hx h⟩
    · obtain ⟨p, hp, ht⟩ := hgranted e hnew
      refine ⟨p.2, ht ▸ (hs.waiting_asked p (hpre p hp)).1, fun hx => ?_⟩
      have hmem := (h.mem_held _).2 (.inr (h.exclusive p hp hx))
      rw [ht] at hmem
      rw [hslots]
      exact SortedMap.eq_of_mem he hmem
  · intro e he
    rw [SortedMap.get?_eq_none_iff]
    intro n hn
    rcases (h.mem_held _).1 hn with hn | hn
    · exact SortedMap.get?_eq_none_iff.1 (hs.disjoint e (hsub e he)) n hn
    · -- A ticket granted is in `pre`; one that still waits comes after.
      obtain ⟨p, hp, ht⟩ := hgranted _ hn
      have hnodup := hs.nodup_tickets
      rw [h.split, List.map_append, List.nodup_append] at hnodup
      exact hnodup.2.2 _ (List.mem_map.2 ⟨p, hp, rfl⟩) _ (List.mem_map.2 ⟨e, he, rfl⟩) ht
  · intro e he hne
    rcases hs.live e he hne with ⟨n, hn⟩ | hw
    · exact .inl ⟨n, (h.mem_held _).2 (.inl hn)⟩
    · rw [h.split, List.mem_append] at hw
      refine hw.imp_left fun hp => ?_
      have : e.1 ∈ granted.map (·.1) := h.tickets ▸ List.mem_map.2 ⟨_, hp, rfl⟩
      obtain ⟨g, hg, hge⟩ := List.mem_map.1 this
      exact ⟨g.2, (h.mem_held _).2 (.inr (hge ▸ hg))⟩

theorem Inv.release (hs : s.Inv) (t : Ticket) :
    ∃ s', s.step (.release t) = some s' ∧ s'.Inv := by
  refine ⟨_, rfl, ?_⟩
  -- Every ticket but `t` stays where it is, and `t` is given back once it is known.
  have hrel : ∀ t' ∈ (if t < s.book.next then t :: s.released else s.released),
      t' < s.book.next := by
    intro t' ht'
    split_ifs at ht' with hlt
    · rcases List.mem_cons.1 ht' with rfl | ht'
      exacts [hlt, hs.released_lt t' ht']
    · exact hs.released_lt t' ht'
  have hlive : ∀ e ∈ s.asked, e.1 ∉ (if t < s.book.next then t :: s.released else s.released) →
      e.1 ≠ t ∧ ((∃ n, (e.1, n) ∈ s.book.held.entries) ∨
        (e.2.key e.1, e.2) ∈ s.book.waiting.entries) := by
    intro e he hne
    have hne' : e.1 ≠ t ∧ e.1 ∉ s.released := by
      split_ifs at hne with hlt
      · exact ⟨fun h => hne (h ▸ List.mem_cons_self), fun h => hne (List.mem_cons_of_mem _ h)⟩
      · exact ⟨fun h => hlt (h ▸ hs.asked_lt e he), hne⟩
    exact ⟨hne'.1, hs.live e he hne'.2⟩
  simp only [SlotBook.release]
  cases hh : s.book.held.get? t with
  | some n =>
    have hsum := SortedMap.sum_values_erase hh
    refine ⟨hs.slots_pos, hs.slots_lt, ⟨?_, ?_⟩, hs.asked_lt, hs.asked_inj, hs.waiting_asked,
      ?_, ?_, ?_, hrel⟩ <;> simp only [SortedMap.mem_erase]
    · have := hs.fits.sum_le
      omega
    · exact fun e he => hs.fits.pos e he.1
    · exact fun e he => hs.held_asked e he.1
    · intro e he
      rw [SortedMap.get?_erase, hs.disjoint e he, ite_self]
    · intro e he hne
      obtain ⟨ht, h⟩ := hlive e he hne
      rcases h with ⟨n, hn⟩ | h
      · exact .inl ⟨n, hn, ht⟩
      · exact .inr h
  | none =>
    refine ⟨hs.slots_pos, hs.slots_lt, hs.fits, hs.asked_lt, hs.asked_inj, ?_, hs.held_asked, ?_,
      ?_, hrel⟩ <;> simp only [SortedMap.mem_filter]
    · exact fun e he => hs.waiting_asked e he.1
    · exact fun e he => hs.disjoint e he.1
    · intro e he hne
      obtain ⟨ht, h⟩ := hlive e he hne
      exact h.imp_right fun h => ⟨h, decide_eq_true ht⟩

theorem Inv.step (hs : s.Inv) (c : Call) : ∃ s', s.step c = some s' ∧ s'.Inv := by
  cases c with
  | ask req => exact hs.ask req
  | grant => exact hs.grant
  | release t => exact hs.release t

/-- No call of a run panics, and the invariant holds after it. -/
theorem Inv.run (hs : s.Inv) (calls : List Call) : ∃ s', s.run calls = some s' ∧ s'.Inv := by
  induction calls generalizing s with
  | nil => exact ⟨s, rfl, hs⟩
  | cons c calls ih =>
    obtain ⟨s₁, h₁, hs₁⟩ := hs.step c
    obtain ⟨s', h', hs'⟩ := ih hs₁
    exact ⟨s', by rw [Session.run, List.foldlM_cons, h₁]; exact h', hs'⟩

/-- The slots held, computed without overflow. -/
theorem Inv.heldSlots_eq (hs : s.Inv) : s.book.heldSlots = some s.book.held.values.sum :=
  sumU32_eq (hs.fits.sum_le.trans_lt hs.slots_lt)

/-- Beside a ticket that holds every slot, no other ticket is held. -/
theorem Inv.eq_of_exclusive (hs : s.Inv) {t t' : Ticket} {req : SlotRequest} {n n' : ℕ}
    (ha : (t, req) ∈ s.asked) (hx : req.exclusive) (ht : (t, n) ∈ s.book.held.entries)
    (ht' : (t', n') ∈ s.book.held.entries) : t' = t := by
  obtain ⟨r, hr, hn⟩ := hs.held_asked _ ht
  obtain rfl : req = r := (Prod.mk.inj (hs.asked_inj _ ha _ hr rfl)).2
  by_contra hne
  have hsum := SortedMap.sum_values_erase (SortedMap.get?_eq_some_iff.2 ht)
  have hle : n' ≤ (s.book.held.erase t).values.sum :=
    SortedMap.le_sum_values (SortedMap.mem_erase.2 ⟨ht', hne⟩)
  have hpos : 1 ≤ n' := hs.fits.pos _ ht'
  have hall : n = s.book.slots := hn hx
  have hfit := hs.fits.sum_le
  omega

end Session

end Anthrex.Slots
