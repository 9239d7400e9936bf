import Mathlib.Data.List.Destutter
import Mathlib.Data.List.Forall2

/-!
# Lists changed in place

What a list changed at one place, or place by place, still holds; what is left of one without
repetitions.
-/

namespace Lists

open List

variable {α β : Type*} {l : List α} {i j : ℕ} {f : α → α} {x : α}

theorem mem_modify (h : x ∈ l.modify i f) : x ∈ l ∨ ∃ y, l[i]? = some y ∧ x = f y := by
  obtain ⟨j, hj⟩ := mem_iff_getElem?.1 h
  rw [getElem?_modify] at hj
  by_cases hij : i = j
  · subst hij
    obtain ⟨y, hy, rfl⟩ := Option.map_eq_some_iff.1 hj
    exact .inr ⟨y, hy, by simp⟩
  · refine .inl (mem_of_getElem? (i := j) ?_)
    simpa [hij] using hj

theorem modify_eq_of_getElem? {g : α → α} (h : l[i]? = some x) (hfg : f x = g x) :
    l.modify i f = l.modify i g := by
  refine ext_getElem? fun j => ?_
  rw [getElem?_modify, getElem?_modify]
  by_cases hij : i = j
  · subst hij
    simp [h, hfg]
  · simp [hij]

theorem exists_of_forall₂_mem {R : α → β → Prop} {l' : List β} {y : β} (h : Forall₂ R l l')
    (hy : y ∈ l') : ∃ x ∈ l, R x y := by
  induction h with
  | nil => cases hy
  | cons hxy _ ih =>
    rcases mem_cons.1 hy with rfl | hy
    · exact ⟨_, mem_cons_self .., hxy⟩
    · obtain ⟨x, hx, hxy⟩ := ih hy
      exact ⟨x, mem_cons_of_mem _ hx, hxy⟩

theorem getElem?_of_forall₂ {R : α → β → Prop} {l' : List β} (h : Forall₂ R l l')
    (hi : l[i]? = some x) : ∃ y, l'[i]? = some y ∧ R x y := by
  induction h generalizing i with
  | nil => simp at hi
  | cons hxy _ ih =>
    cases i with
    | zero =>
      cases hi
      exact ⟨_, rfl, hxy⟩
    | succ i => exact ih hi

theorem forall₂_trans {γ : Type*} {R : α → β → Prop} {S : β → γ → Prop} {T : α → γ → Prop}
    {l' : List β} {l₂ : List γ} (hT : ∀ x y z, R x y → S y z → T x z) (h : Forall₂ R l l')
    (h' : Forall₂ S l' l₂) : Forall₂ T l l₂ := by
  induction h generalizing l₂ with
  | nil =>
    cases h'
    exact .nil
  | cons hxy _ ih =>
    cases h' with
    | cons hyz h' => exact .cons (hT _ _ _ hxy hyz) (ih h')

theorem map_eq_of_forall₂ {γ : Type*} {f : α → γ} {g : β → γ} {l' : List β}
    (h : Forall₂ (fun x y => g y = f x) l l') : l'.map g = l.map f := by
  induction h with
  | nil => rfl
  | cons hxy _ ih => rw [map_cons, map_cons, hxy, ih]

theorem forall₂_modify {R : α → α → Prop} (hrefl : ∀ x ∈ l, R x x)
    (hf : ∀ x, l[i]? = some x → R x (f x)) : Forall₂ R l (l.modify i f) := by
  induction l generalizing i with
  | nil => simp
  | cons y l ih =>
    have hl : ∀ x ∈ l, R x x := fun x hx => hrefl x (mem_cons_of_mem _ hx)
    cases i with
    | zero => exact .cons (hf y rfl) (forall₂_same.2 hl)
    | succ i => exact .cons (hrefl y (mem_cons_self ..)) (ih hl hf)

theorem forall₂_of_getElem? {R : α → β → Prop} {l' : List β} (hlength : l'.length = l.length)
    (h : ∀ (i : ℕ) x y, l[i]? = some x → l'[i]? = some y → R x y) : Forall₂ R l l' := by
  refine forall₂_iff_get.2 ⟨hlength.symm, fun i hi hi' => ?_⟩
  exact h i _ _ (getElem?_eq_getElem hi) (getElem?_eq_getElem hi')

theorem forall₂_map {R : α → β → Prop} {f : α → β} (h : ∀ x ∈ l, R x (f x)) :
    Forall₂ R l (l.map f) :=
  forall₂_map_right_iff.2 (forall₂_same.2 h)

/-- What is found in the list changed place by place was found at its place before. -/
theorem find?_of_forall₂ {R : α → β → Prop} {p : α → Bool} {q : β → Bool} {l' : List β} {y : β}
    (h : Forall₂ R l l') (hpq : ∀ x y, R x y → q y = p x) (hy : l'.find? q = some y) :
    ∃ x, l.find? p = some x ∧ R x y := by
  induction h with
  | nil => cases hy
  | @cons x y' l l' hxy _ ih =>
    rw [find?_cons] at hy
    rw [find?_cons, ← hpq x y' hxy]
    cases hq : q y' with
    | true =>
      simp only [hq, Option.some.injEq] at hy
      exact ⟨x, rfl, hy ▸ hxy⟩
    | false =>
      simp only [hq] at hy
      exact ih hy

/-- A member is found by its key, where the keys are distinct. -/
theorem find?_key_of_nodup {κ : Type*} [DecidableEq κ] {key : α → κ} (h : (l.map key).Nodup)
    (hx : x ∈ l) : l.find? (fun y => key y = key x) = some x := by
  cases hy : l.find? fun y => key y = key x with
  | none => simpa using find?_eq_none.1 hy x hx
  | some y =>
    have hkey : key y = key x := by
      have hfound := find?_some hy
      exact of_decide_eq_true hfound
    rw [inj_on_of_nodup_map h (mem_of_find?_eq_some hy) hx hkey]

/-- What holds of every two, in order, held before where each place keeps it. -/
theorem pairwise_of_forall₂ {R : α → β → Prop} {S : α → α → Prop} {T : β → β → Prop} {l' : List β}
    (h : Forall₂ R l l') (hST : ∀ x y x' y', R x x' → R y y' → T x' y' → S x y)
    (hpair : l'.Pairwise T) : l.Pairwise S := by
  induction h with
  | nil => exact .nil
  | cons hxy hrest ih =>
    obtain ⟨hfirst, hpair⟩ := pairwise_cons.1 hpair
    refine pairwise_cons.2 ⟨fun z hz => ?_, ih hpair⟩
    obtain ⟨z', hz', hzz'⟩ := exists_of_forall₂_mem hrest.flip hz
    exact hST _ _ _ _ hxy hzz' (hfirst z' hz')

theorem pairwise_iff_getElem? {S : α → α → Prop} : l.Pairwise S ↔
    ∀ (j k : ℕ) (x y : α), j < k → l[j]? = some x → l[k]? = some y → S x y := by
  rw [pairwise_iff_getElem]
  constructor
  · intro h j k x y hlt hx hy
    obtain ⟨hj, rfl⟩ := List.getElem?_eq_some_iff.1 hx
    obtain ⟨hk, rfl⟩ := List.getElem?_eq_some_iff.1 hy
    exact h j k hj hk hlt
  · intro h j k hj hk hlt
    exact h j k _ _ hlt (getElem?_eq_getElem hj) (getElem?_eq_getElem hk)

theorem mem_take_of_lt {k : ℕ} (hlt : j < k) (hx : l[j]? = some x) : x ∈ l.take k :=
  mem_of_getElem? (i := j) (by rw [getElem?_take_of_lt hlt, hx])

theorem lt_of_mem_take {k : ℕ} (hx : x ∈ l.take k) : ∃ j < k, l[j]? = some x := by
  obtain ⟨j, hj⟩ := mem_iff_getElem?.1 hx
  rw [getElem?_take] at hj
  split at hj
  · next hlt => exact ⟨j, hlt, hj⟩
  · cases hj

theorem length_filter_le_of_forall₂ {R : α → β → Prop} {p : α → Bool} {q : β → Bool} {l' : List β}
    (h : Forall₂ R l l') (hpq : ∀ x y, R x y → q y → p x) : (l'.filter q).length ≤ (l.filter p).length := by
  induction h with
  | nil => simp
  | @cons x y l l' hxy _ ih =>
    rw [filter_cons, filter_cons]
    by_cases hq : q y
    · rw [if_pos hq, if_pos (hpq x y hxy hq)]
      exact Nat.succ_le_succ ih
    · rw [if_neg hq]
      split
      exacts [Nat.le_succ_of_le ih, ih]

theorem find?_of_zipIdx {p : α → Bool} {k : ℕ} (h : (l.zipIdx k).find? (fun y => p y.1) = some (x, i)) :
    l.find? p = some x := by
  have hmap : (l.zipIdx k).map (·.1) = l := by simp
  rw [← hmap, find?_map]
  exact Option.map_eq_some_iff.2 ⟨_, h, rfl⟩

/-- What is found is the first: there is none before it. -/
theorem not_of_mem_take {p : α → Bool} {k : ℕ}
    (h : (l.zipIdx k).find? (fun y => p y.1) = some (x, k + i)) : ∀ y ∈ l.take i, p y = false := by
  induction l generalizing i k with
  | nil => cases h
  | cons z l ih =>
    cases i with
    | zero => simp
    | succ i =>
      rw [zipIdx_cons, find?_cons] at h
      split at h
      · have hplace := (Prod.mk.injEq .. ▸ Option.some.inj h).2
        omega
      · next hz =>
        intro y hy
        rcases mem_cons.1 hy with rfl | hy
        · simpa using hz
        · exact ih (k := k + 1) (by rw [h]; congr 2; omega) y hy

/-- What is changed is the first that `p` finds. -/
theorem find?_modify {p : α → Bool} {k : ℕ} (h : (l.zipIdx k).find? (fun y => p y.1) = some (x, k + i))
    (hp : p (f x)) : (l.modify i f).find? p = some (f x) := by
  induction l generalizing i k with
  | nil => cases h
  | cons y l ih =>
    rw [zipIdx_cons, find?_cons] at h
    split at h
    · obtain ⟨rfl, hi⟩ := Prod.mk.injEq .. ▸ Option.some.inj h
      obtain rfl : i = 0 := by omega
      simp [hp]
    · next hy =>
      cases i with
      | zero =>
        -- the places after the first are later than it
        have hlt := le_snd_of_mem_zipIdx (mem_of_find?_eq_some h)
        simp only [Nat.add_zero] at hlt
        omega
      | succ i =>
        rw [modify_succ_cons, find?_cons_of_neg (by simpa using hy)]
        exact ih (k := k + 1) (by rw [h]; congr 2; omega)

theorem find?_modify_of_not {p : α → Bool} (hp : ∀ y, l[i]? = some y → p y = false ∧ p (f y) = false) :
    (l.modify i f).find? p = l.find? p := by
  induction l generalizing i with
  | nil => simp
  | cons y l ih =>
    cases i with
    | zero =>
      obtain ⟨hy, hf⟩ := hp y rfl
      simp [hy, hf]
    | succ i =>
      rw [modify_succ_cons, find?_cons, find?_cons, ih hp]

/-- A change that keeps what is looked for and what is read keeps what is found. -/
theorem map_find?_modify {p : α → Bool} {g : α → β} (hp : ∀ x, p (f x) = p x)
    (hg : ∀ x, g (f x) = g x) : ((l.modify i f).find? p).map g = (l.find? p).map g := by
  induction l generalizing i with
  | nil => simp
  | cons y l ih =>
    cases i with
    | zero =>
      rw [modify_zero_cons, find?_cons, find?_cons, hp]
      cases p y with
      | true => exact congrArg some (hg y)
      | false => rfl
    | succ i =>
      rw [modify_succ_cons, find?_cons, find?_cons]
      cases p y with
      | true => rfl
      | false => exact ih

theorem any_modify {p : α → Bool} (hp : ∀ x, p (f x) = p x) : (l.modify i f).any p = l.any p := by
  rw [Bool.eq_iff_iff, any_eq_true, any_eq_true, ← find?_isSome, ← find?_isSome]
  have h := map_find?_modify (l := l) (i := i) hp (g := fun _ => ()) fun _ => rfl
  rw [← Option.isSome_map, h, Option.isSome_map]

/-- The place of the last element that `p` holds of. -/
def lastIdx? (p : α → Bool) : List α → Option ℕ
  | [] => none
  | x :: l => ((lastIdx? p l).map (· + 1)).or (if p x then some 0 else none)

/-- A fold, with what it has gone over. -/
theorem foldl_done {motive : List α → β → Prop} {g : β → α → β} {b : β} (l : List α)
    (hstart : motive [] b)
    (hstep : ∀ done x, x ∈ l → ∀ b, motive done b → motive (done ++ [x]) (g b x)) :
    motive l (l.foldl g b) := by
  have key : ∀ done rest b, (∀ x ∈ rest, x ∈ l) → motive done b →
      motive (done ++ rest) (rest.foldl g b) := by
    intro done rest
    induction rest generalizing done with
    | nil =>
      intro b _ hb
      rwa [append_nil]
    | cons x rest ih =>
      intro b hrest hb
      rw [append_cons]
      exact ih (done ++ [x]) (g b x) (fun y hy => hrest y (mem_cons_of_mem _ hy))
        (hstep done x (hrest x (mem_cons_self ..)) b hb)
  exact key [] l b (fun _ hx => hx) hstart

/-! ## The last of each key -/

section

variable {κ : Type*} [DecidableEq κ] {key : α → κ}

/-- The elements that no later one of the same key follows. -/
def lastBy (key : α → κ) : List α → List α
  | [] => []
  | x :: l => if ∃ y ∈ l, key y = key x then lastBy key l else x :: lastBy key l

theorem lastBy_cons (x : α) (l : List α) : lastBy key (x :: l) =
    if ∃ y ∈ l, key y = key x then lastBy key l else x :: lastBy key l := rfl

theorem lastBy_concat (l : List α) (x : α) :
    lastBy key (l ++ [x]) = (lastBy key l).filter (key · ≠ key x) ++ [x] := by
  induction l with
  | nil => rfl
  | cons y l ih =>
    rw [cons_append, lastBy_cons, lastBy_cons, ih]
    by_cases hl : ∃ z ∈ l, key z = key y
    · have hlx : ∃ z ∈ l ++ [x], key z = key y := by
        obtain ⟨z, hz, hzy⟩ := hl
        exact ⟨z, mem_append_left _ hz, hzy⟩
      rw [if_pos hl, if_pos hlx]
    · by_cases hx : key x = key y
      · rw [if_neg hl, if_pos ⟨x, by simp, hx⟩, filter_cons_of_neg (by simpa using hx.symm)]
      · have hlx : ¬∃ z ∈ l ++ [x], key z = key y := by
          rintro ⟨z, hz, hzy⟩
          rcases mem_append.1 hz with hz | hz
          · exact hl ⟨z, hz, hzy⟩
          · exact hx (mem_singleton.1 hz ▸ hzy)
        rw [if_neg hl, if_neg hlx, filter_cons_of_pos (by simpa using Ne.symm hx), cons_append]

theorem lastBy_sublist (key : α → κ) (l : List α) : lastBy key l <+ l := by
  induction l with
  | nil => exact .slnil
  | cons x l ih =>
    rw [lastBy_cons]
    split
    · exact ih.cons x
    · exact ih.cons_cons x

theorem pairwise_lastBy (key : α → κ) (l : List α) :
    (lastBy key l).Pairwise fun x y => key x ≠ key y := by
  induction l with
  | nil => exact .nil
  | cons x l ih =>
    rw [lastBy_cons]
    split
    · exact ih
    · rename_i hx
      exact pairwise_cons.2
        ⟨fun y hy hxy => hx ⟨y, (lastBy_sublist key l).subset hy, hxy.symm⟩, ih⟩

theorem lastBy_eq_self (h : l.Pairwise fun x y => key x ≠ key y) : lastBy key l = l := by
  induction l with
  | nil => rfl
  | cons x l ih =>
    obtain ⟨hx, hl⟩ := pairwise_cons.1 h
    rw [lastBy_cons, if_neg fun ⟨y, hy, hyx⟩ => hx y hy hyx.symm, ih hl]

end

/-! ## What stutters -/

section

variable [DecidableEq α]

theorem getLast?_destutter' (l : List α) (x : α) :
    (l.destutter' (· ≠ ·) x).getLast? = (x :: l).getLast? := by
  induction l generalizing x with
  | nil => rfl
  | cons y l ih =>
    rw [destutter'_cons]
    split_ifs with hne
    · rw [getLast?_cons, ih, getLast?_cons_cons, getLast?_cons]
      rfl
    · obtain rfl : x = y := not_not.1 hne
      rw [ih, getLast?_cons_cons]

theorem getLast?_destutter (l : List α) : (l.destutter (· ≠ ·)).getLast? = l.getLast? := by
  cases l with
  | nil => rfl
  | cons x l => exact getLast?_destutter' l x

/-- A further element is kept unless it repeats the last one. -/
theorem destutter_concat (l : List α) (y : α) : (l ++ [y]).destutter (· ≠ ·) =
    l.destutter (· ≠ ·) ++ if l.getLast? = some y then [] else [y] := by
  cases l with
  | nil => rfl
  | cons x l =>
    show (l ++ [y]).destutter' (· ≠ ·) x = l.destutter' (· ≠ ·) x ++ _
    induction l generalizing x with
    | nil =>
      rw [nil_append, destutter'_singleton]
      by_cases hxy : x = y <;> simp [hxy]
    | cons z l ih =>
      rw [cons_append, destutter'_cons, destutter'_cons, getLast?_cons_cons]
      split_ifs with hne hlast hlast
      · rw [ih z, if_pos hlast, cons_append]
      · rw [ih z, if_neg hlast, cons_append]
      · obtain rfl : x = z := not_not.1 hne
        rw [ih x, if_pos hlast]
      · obtain rfl : x = z := not_not.1 hne
        rw [ih x, if_neg hlast]

end

end Lists
