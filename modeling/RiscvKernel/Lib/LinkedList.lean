import Mathlib

/-! Singly linked lists: words that are null or point to a node. -/

namespace RiscvKernel.Lib.LinkedList

variable {W A : Type}

/-- The nodes from the word w on, up to a null word. -/
def Linked (deref : W → Option A) (next : A → W) : W → List A → Prop
  | w, [] => deref w = none
  | w, a :: l => deref w = some a ∧ Linked deref next (next a) l

variable {deref : W → Option A} {next next' : A → W} {w w' : W} {a t : A} {l l' : List A}

/-- A list is where its nodes are. -/
theorem Linked.congr (h : Linked deref next w l) (hn : ∀ a ∈ l, next' a = next a) : Linked deref next' w l := by
  induction l generalizing w with
  | nil => exact h
  | cons a l ih =>
      refine ⟨h.1, ?_⟩
      rw [hn a (by simp)]
      exact ih h.2 fun b hb => hn b (by simp [hb])

theorem Linked.unique (h : Linked deref next w l) (h' : Linked deref next w l') : l = l' := by
  induction l generalizing w l' with
  | nil =>
      cases l' with
      | nil => rfl
      | cons b l' => exact absurd (h.symm.trans h'.1) (by simp)
  | cons a l ih =>
      cases l' with
      | nil => exact absurd (h'.symm.trans h.1) (by simp)
      | cons b l' =>
          obtain rfl := Option.some.inj (h.1.symm.trans h'.1)
          rw [ih h.2 h'.2]

section Update

variable [DecidableEq A]

theorem Linked.update (h : Linked deref next w l) (ha : a ∉ l) : Linked deref (Function.update next a w') w l :=
  h.congr fun _ hb => Function.update_of_ne (ne_of_mem_of_not_mem hb ha) _ _

/-- Pointing the last node of a list at a second list joins the two. -/
theorem Linked.join (h : Linked deref next w (l ++ [t])) (h' : Linked deref next w' l') (ht : t ∉ l) (ht' : t ∉ l') :
    Linked deref (Function.update next t w') w (l ++ t :: l') := by
  induction l generalizing w with
  | nil =>
      refine ⟨h.1, ?_⟩
      rw [Function.update_self]
      exact h'.update ht'
  | cons a l ih =>
      rw [List.mem_cons, not_or] at ht
      refine ⟨h.1, ?_⟩
      rw [Function.update_of_ne (Ne.symm ht.1)]
      exact ih h.2 ht.2

end Update

end RiscvKernel.Lib.LinkedList
