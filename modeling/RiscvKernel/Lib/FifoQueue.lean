import Mathlib

namespace RiscvKernel.Lib.FifoQueue

variable {α : Type} {q new : List α} {t : α} {n : Nat}

/-- What can happen to a queue: its head may be served, then others may join at the end. -/
def advance (serve : Bool) (new q : List α) : List α := (if serve then q.tail else q) ++ new

/-- t is in the queue, with n others ahead of it. -/
def Ahead (q : List α) (t : α) (n : Nat) : Prop := ∃ ahead behind, q = ahead ++ t :: behind ∧ ahead.length = n

theorem Ahead.mem (h : Ahead q t n) : t ∈ q := by
  obtain ⟨ahead, behind, rfl, -⟩ := h
  simp

theorem Ahead.join (h : Ahead q t n) (new : List α) : Ahead (advance false new q) t n := by
  obtain ⟨ahead, behind, rfl, hn⟩ := h
  exact ⟨ahead, behind ++ new, by simp [advance], hn⟩

theorem Ahead.serve (h : Ahead q t (n + 1)) (new : List α) : Ahead (advance true new q) t n := by
  obtain ⟨ahead, behind, rfl, hn⟩ := h
  cases ahead with
  | nil => cases hn
  | cons a ahead => exact ⟨ahead, behind ++ new, by simp [advance], Nat.succ_injective hn⟩

theorem Ahead.eq_cons (h : Ahead q t 0) : q = t :: q.tail := by
  obtain ⟨ahead, behind, rfl, hn⟩ := h
  obtain rfl := List.eq_nil_of_length_eq_zero hn
  rfl

/-- Only being served brings t nearer to the head. -/
theorem Ahead.advance (h : Ahead q t n) {serve : Bool} (hn : serve = true → 0 < n) (new : List α) :
    Ahead (FifoQueue.advance serve new q) t (n - serve.toNat) := by
  cases serve with
  | false => exact h.join new
  | true =>
      obtain ⟨m, rfl⟩ := Nat.exists_eq_succ_of_ne_zero (Nat.ne_of_gt (hn rfl))
      exact h.serve new

end RiscvKernel.Lib.FifoQueue
