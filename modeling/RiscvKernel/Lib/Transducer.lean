import Mathlib

namespace RiscvKernel.Lib.Transducer

variable {S α β X : Type}

/-- A letter-to-word transducer: one letter changes the state and emits a word. -/
abbrev Machine (S α β : Type) := S → α → S × List β

def state (t : Machine S α β) : S → List α → S
  | s, [] => s
  | s, a :: as => state t (t s a).1 as

def output (t : Machine S α β) : S → List α → List β
  | _, [] => []
  | s, a :: as => (t s a).2 ++ output t (t s a).1 as

theorem state_append (t : Machine S α β) (s : S) (as bs : List α) :
    state t s (as ++ bs) = state t (state t s as) bs := by
  induction as generalizing s with
  | nil => rfl
  | cons a as ih => exact ih (t s a).1

theorem output_append (t : Machine S α β) (s : S) (as bs : List α) :
    output t s (as ++ bs) = output t s as ++ output t (state t s as) bs := by
  induction as generalizing s with
  | nil => rfl
  | cons a as ih =>
      have h := ih (t s a).1
      simp only [List.cons_append, output, state, h, List.append_assoc]

/-- A processor of chunks that follows the transducer on every single chunk
follows it on their concatenation, so the cut into chunks is not observable. -/
theorem foldl_follows (t : Machine S α β) (process : X → List α → X) (st : X → S)
    (out : X → List β)
    (h : ∀ x chunk, st (process x chunk) = state t (st x) chunk ∧
      out (process x chunk) = out x ++ output t (st x) chunk)
    (chunks : List (List α)) (x : X) :
    st (chunks.foldl process x) = state t (st x) chunks.flatten ∧
      out (chunks.foldl process x) = out x ++ output t (st x) chunks.flatten := by
  induction chunks generalizing x with
  | nil => simp [state, output]
  | cons chunk chunks ih =>
      obtain ⟨hs, ho⟩ := h x chunk
      obtain ⟨hs', ho'⟩ := ih (process x chunk)
      rw [List.foldl_cons, List.flatten_cons, state_append, output_append]
      refine ⟨by rw [hs', hs], ?_⟩
      rw [ho', hs, ho, List.append_assoc]

end RiscvKernel.Lib.Transducer
