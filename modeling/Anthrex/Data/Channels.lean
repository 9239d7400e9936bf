import Mathlib.Data.List.Basic

/-!
# Messages on their way

Messages that are sent in order and taken in order. What the sender has told so far is what the
receiver will hold once it has taken them all; each of them fits what those before it leave
(`Fits`), so that taking one (`Fits.tail`) and sending one (`fits_concat`) both keep the line in
order.
-/

namespace Channels

variable {σ μ : Type*} {fits fits' : σ → μ → Prop} {step : σ → μ → σ} {s : σ} {m : μ} {ms : List μ}

/-- Each message fits what those before it leave. -/
def Fits (fits : σ → μ → Prop) (step : σ → μ → σ) : σ → List μ → Prop
  | _, [] => True
  | s, m :: ms => fits s m ∧ Fits fits step (step s m) ms

theorem Fits.head (h : Fits fits step s (m :: ms)) : fits s m := h.1

theorem Fits.tail (h : Fits fits step s (m :: ms)) : Fits fits step (step s m) ms := h.2

theorem fits_concat :
    Fits fits step s (ms ++ [m]) ↔ Fits fits step s ms ∧ fits (ms.foldl step s) m := by
  induction ms generalizing s with
  | nil => simp [Fits]
  | cons m' ms ih => simp only [List.cons_append, Fits, ih, List.foldl_cons, and_assoc]

theorem Fits.mono (h : Fits fits step s ms) (himp : ∀ s m, fits s m → fits' s m) :
    Fits fits' step s ms := by
  induction ms generalizing s with
  | nil => trivial
  | cons m ms ih => exact ⟨himp s m h.head, ih h.tail⟩

/-- What holds at the start, and after each message that fits, holds in the end. -/
theorem Fits.foldl {P : σ → Prop} (h : Fits fits step s ms) (hs : P s)
    (hstep : ∀ s m, fits s m → P s → P (step s m)) : P (ms.foldl step s) := by
  induction ms generalizing s with
  | nil => exact hs
  | cons m ms ih => exact ih h.tail (hstep s m h.head hs)

end Channels
