import Mathlib

/-! Ring buffers of capacity N with two positions that count on and wrap around at M, a
multiple of N. -/

namespace RiscvKernel.Lib.RingBuffer

variable {α : Type} {N M : Nat}

structure Ringbuf (α : Type) where
  hpos : Nat
  tpos : Nat
  data : Nat → α

/-- The ring holds the list l: its first element at hpos, the next free slot at tpos. -/
structure Holds (N M : Nat) (r : Ringbuf α) (l : List α) : Prop where
  hpos_lt : r.hpos < M
  tpos : r.tpos = (r.hpos + l.length) % M
  length_le : l.length ≤ N
  data : ∀ i x, l[i]? = some x → r.data ((r.hpos + i) % N) = x

variable {r : Ringbuf α} {l : List α} {x : α}

theorem add_mod_inj {N a i j : Nat} (h : (a + i) % N = (a + j) % N) (hi : i < N) (hj : j < N) : i = j := by
  have : i ≡ j [MOD N] := Nat.ModEq.add_left_cancel' a h
  rwa [Nat.ModEq, Nat.mod_eq_of_lt hi, Nat.mod_eq_of_lt hj] at this

theorem holds_nil (data : Nat → α) (hM : 0 < M) : Holds N M ⟨0, 0, data⟩ [] :=
  ⟨hM, by simp, Nat.zero_le _, by simp⟩

theorem Holds.tpos_mod (h : Holds N M r l) (hM : N ∣ M) : r.tpos % N = (r.hpos + l.length) % N := by
  rw [h.tpos, Nat.mod_mod_of_dvd _ hM]

/-- The slot at tpos of a ring that is not full is free. -/
theorem Holds.write (h : Holds N M r l) (hM : N ∣ M) (hl : l.length < N) (x : α) :
    Holds N M { r with data := Function.update r.data (r.tpos % N) x } l := by
  refine ⟨h.hpos_lt, h.tpos, h.length_le, fun i y hy => ?_⟩
  have hi : i < l.length := (List.getElem?_eq_some_iff.mp hy).1
  have hne : (r.hpos + i) % N ≠ r.tpos % N := fun he => by
    rw [h.tpos_mod hM] at he
    have := add_mod_inj he (Nat.lt_trans hi hl) hl
    omega
  show Function.update r.data (r.tpos % N) x ((r.hpos + i) % N) = y
  rw [Function.update_of_ne hne]
  exact h.data i y hy

theorem Holds.advance_tail (h : Holds N M r l) (hM : N ∣ M) (hl : l.length < N) (hx : r.data (r.tpos % N) = x) :
    Holds N M { r with tpos := (r.tpos + 1) % M } (l ++ [x]) := by
  refine ⟨h.hpos_lt, ?_, by simpa using Nat.succ_le_of_lt hl, fun i y hy => ?_⟩
  · show (r.tpos + 1) % M = _
    rw [h.tpos, Nat.mod_add_mod, List.length_append, List.length_singleton, Nat.add_assoc]
  · rcases Nat.lt_trichotomy i l.length with hi | rfl | hi
    · rw [List.getElem?_append_left hi] at hy
      exact h.data i y hy
    · rw [List.getElem?_concat_length] at hy
      rw [← Option.some.inj hy, ← hx, h.tpos_mod hM]
    · rw [List.getElem?_eq_none (by simpa using Nat.succ_le_of_lt hi)] at hy
      cases hy

theorem Holds.head (h : Holds N M r (x :: l)) : r.data (r.hpos % N) = x := h.data 0 x rfl

theorem Holds.advance_head (h : Holds N M r (x :: l)) (hM : N ∣ M) : Holds N M { r with hpos := (r.hpos + 1) % M } l := by
  have hlen := h.length_le
  rw [List.length_cons] at hlen
  refine ⟨Nat.mod_lt _ (Nat.lt_of_le_of_lt (Nat.zero_le _) h.hpos_lt), ?_, by omega, fun i y hy => ?_⟩
  · show r.tpos = ((r.hpos + 1) % M + l.length) % M
    rw [h.tpos, Nat.mod_add_mod, List.length_cons, Nat.add_assoc, Nat.add_comm 1]
  · show r.data (((r.hpos + 1) % M + i) % N) = y
    have hmod : ((r.hpos + 1) % M + i) % N = (r.hpos + (i + 1)) % N := by
      rw [← Nat.mod_add_mod, Nat.mod_mod_of_dvd _ hM, Nat.mod_add_mod, Nat.add_assoc, Nat.add_comm 1]
    rw [hmod]
    exact h.data (i + 1) y hy

/-- The distance of the positions is the number of elements. -/
theorem Holds.distance (h : Holds N M r l) (hlt : N < M) : (r.tpos + M - r.hpos) % M = l.length := by
  have hh := h.hpos_lt
  have hl := h.length_le
  rw [h.tpos]
  by_cases hw : r.hpos + l.length < M
  · rw [Nat.mod_eq_of_lt hw, show r.hpos + l.length + M - r.hpos = l.length + M by omega, Nat.add_mod_right,
      Nat.mod_eq_of_lt (by omega)]
  · have hm : (r.hpos + l.length) % M = r.hpos + l.length - M := by
      rw [Nat.mod_eq_sub_mod (Nat.le_of_not_lt hw), Nat.mod_eq_of_lt (by omega)]
    rw [hm, show r.hpos + l.length - M + M - r.hpos = l.length by omega, Nat.mod_eq_of_lt (by omega)]

theorem Holds.eq_nil_iff (h : Holds N M r l) (hlt : N < M) : r.hpos = r.tpos ↔ l = [] := by
  have hd := h.distance hlt
  have hh := h.hpos_lt
  constructor
  · intro he
    rw [← he, show r.hpos + M - r.hpos = M by omega, Nat.mod_self] at hd
    exact List.length_eq_zero_iff.mp hd.symm
  · rintro rfl
    rw [h.tpos, List.length_nil, Nat.add_zero, Nat.mod_eq_of_lt hh]

end RiscvKernel.Lib.RingBuffer
