import Mathlib

/-! Byte arrays as functions of an address, and the little-endian numbers in them. -/

namespace RiscvKernel.Lib.Bytes

/-- The n bytes from address a on. -/
def readAt (d : Nat → UInt8) (a n : Nat) : List UInt8 := (List.range n).map (fun i => d (a + i))

/-- Store bs from address a on. -/
def writeAt (d : Nat → UInt8) (a : Nat) (bs : List UInt8) : Nat → UInt8 :=
  fun x => if a ≤ x ∧ x < a + bs.length then bs.getD (x - a) 0 else d x

/-- Overwrite part of a buffer. -/
def splice (buf : List UInt8) (off : Nat) (bs : List UInt8) : List UInt8 :=
  buf.take off ++ bs ++ buf.drop (off + bs.length)

/-- The number that bytes denote, least significant first. -/
def leNat : List UInt8 → Nat
  | [] => 0
  | b :: bs => b.toNat + 256 * leNat bs

variable {d d' : Nat → UInt8} {a b m n : Nat} {bs cs buf : List UInt8}

@[simp] theorem readAt_length (d : Nat → UInt8) (a n : Nat) : (readAt d a n).length = n := by simp [readAt]

@[simp] theorem readAt_zero (d : Nat → UInt8) (a : Nat) : readAt d a 0 = [] := rfl

theorem readAt_add (d : Nat → UInt8) (a m n : Nat) :
    readAt d a (m + n) = readAt d a m ++ readAt d (a + m) n := by
  simp [readAt, List.range_add, Nat.add_assoc]

theorem readAt_succ (d : Nat → UInt8) (a n : Nat) : readAt d a (n + 1) = d a :: readAt d (a + 1) n := by
  rw [Nat.add_comm, readAt_add]
  rfl

theorem readAt_eq_append (h : readAt d a n = bs ++ cs) :
    readAt d a bs.length = bs ∧ readAt d (a + bs.length) cs.length = cs := by
  have hn : n = bs.length + cs.length := by
    rw [← readAt_length d a n, h, List.length_append]
  rw [hn, readAt_add] at h
  exact List.append_inj h (readAt_length _ _ _)

theorem readAt_getElem (i : Nat) (h : i < (readAt d a n).length) : (readAt d a n)[i] = d (a + i) := by
  simp [readAt]

theorem readAt_congr (h : ∀ x, a ≤ x → x < a + n → d x = d' x) : readAt d a n = readAt d' a n := by
  refine List.map_congr_left fun i hi => h _ (Nat.le_add_right _ _) ?_
  have := List.mem_range.mp hi
  omega

/-- A part of what is read is read at its own address. -/
theorem readAt_drop_take (off : Nat) (h : off + m ≤ n) :
    ((readAt d a n).drop off).take m = readAt d (a + off) m := by
  have hn : n = off + (m + (n - off - m)) := by omega
  rw [hn, readAt_add, readAt_add, List.drop_left' (readAt_length _ _ _), List.take_left' (readAt_length _ _ _)]

@[simp] theorem writeAt_nil (d : Nat → UInt8) (a : Nat) : writeAt d a [] = d := by
  funext x
  simp only [writeAt, List.length_nil, Nat.add_zero]
  exact if_neg (by omega)

theorem writeAt_outside {x : Nat} (h : x < a ∨ a + bs.length ≤ x) : writeAt d a bs x = d x :=
  if_neg (by omega)

theorem writeAt_inside {i : Nat} (h : i < bs.length) : writeAt d a bs (a + i) = bs[i] := by
  rw [writeAt, if_pos (by omega), Nat.add_sub_cancel_left]
  simp [h]

theorem readAt_writeAt (d : Nat → UInt8) (a : Nat) (bs : List UInt8) :
    readAt (writeAt d a bs) a bs.length = bs := by
  refine List.ext_getElem (by simp) fun i h h' => ?_
  rw [readAt_getElem, writeAt_inside h']

theorem readAt_writeAt_of_disjoint (h : b + n ≤ a ∨ a + bs.length ≤ b) :
    readAt (writeAt d a bs) b n = readAt d b n :=
  readAt_congr fun _ _ _ => writeAt_outside (by omega)

theorem writeAt_singleton (d : Nat → UInt8) (a : Nat) (c : UInt8) : writeAt d a [c] = Function.update d a c := by
  funext x
  by_cases hx : x = a
  · rw [hx, Function.update_self, writeAt, if_pos (by simp)]
    simp
  · rw [Function.update_of_ne hx, writeAt_outside (by simp; omega)]

theorem writeAt_append (d : Nat → UInt8) (a : Nat) (bs cs : List UInt8) :
    writeAt (writeAt d a bs) (a + bs.length) cs = writeAt d a (bs ++ cs) := by
  funext x
  by_cases h1 : a ≤ x ∧ x < a + bs.length
  · obtain ⟨i, rfl⟩ := Nat.exists_eq_add_of_le h1.1
    have hi : i < bs.length := by omega
    rw [writeAt_outside (by omega), writeAt_inside hi, writeAt_inside (by simp; omega), List.getElem_append_left hi]
  · by_cases h2 : a + bs.length ≤ x ∧ x < a + bs.length + cs.length
    · obtain ⟨i, rfl⟩ := Nat.exists_eq_add_of_le h2.1
      have hi : i < cs.length := by omega
      rw [writeAt_inside hi, Nat.add_assoc, writeAt_inside (by simp; omega)]
      simp
    · rw [writeAt_outside (by omega), writeAt_outside (by omega), writeAt_outside (by simp; omega)]

/-- Writing back what was read changes nothing. -/
theorem writeAt_readAt (d : Nat → UInt8) (a n : Nat) : writeAt d a (readAt d a n) = d := by
  funext x
  by_cases h : a ≤ x ∧ x < a + n
  · obtain ⟨i, rfl⟩ := Nat.exists_eq_add_of_le h.1
    rw [writeAt_inside (by simp; omega), readAt_getElem]
  · exact writeAt_outside (by simp; omega)

@[simp] theorem splice_length (h : a + bs.length ≤ buf.length) : (splice buf a bs).length = buf.length := by
  simp [splice]; omega

/-- A read-modify-write of a larger range stores exactly the modified part. -/
theorem writeAt_splice (d : Nat → UInt8) (a off : Nat) (bs : List UInt8) (h : off + bs.length ≤ n) :
    writeAt d a (splice (readAt d a n) off bs) = writeAt d (a + off) bs := by
  have hn : n = off + (bs.length + (n - off - bs.length)) := by omega
  have htake : (readAt d a n).take off = readAt d a off := by
    rw [hn, readAt_add, List.take_left' (readAt_length _ _ _)]
  have hdrop : (readAt d a n).drop (off + bs.length) =
      readAt d (a + off + bs.length) (n - off - bs.length) := by
    rw [hn, ← Nat.add_assoc, readAt_add, List.drop_left' (readAt_length _ _ _)]
    congr 1
    · omega
    · omega
  rw [splice, htake, hdrop, ← writeAt_append, ← writeAt_append, writeAt_readAt]
  simp only [readAt_length, List.length_append]
  funext x
  by_cases h1 : a + off + bs.length ≤ x ∧ x < a + off + bs.length + (n - off - bs.length)
  · obtain ⟨i, rfl⟩ := Nat.exists_eq_add_of_le h1.1
    rw [← Nat.add_assoc, writeAt_inside (by simp; omega), readAt_getElem, writeAt_outside (by omega)]
  · rw [writeAt_outside (by simp; omega)]

/-- Overwriting part of what is read is reading what is overwritten. -/
theorem splice_readAt (d : Nat → UInt8) (off : Nat) (bs : List UInt8) (h : off + bs.length ≤ n) :
    splice (readAt d a n) off bs = readAt (writeAt d (a + off) bs) a n := by
  have hlen : (splice (readAt d a n) off bs).length = n := by
    rw [splice_length (by simpa using h), readAt_length]
  have hread := readAt_writeAt d a (splice (readAt d a n) off bs)
  rw [hlen, writeAt_splice d a off bs h] at hread
  exact hread.symm

theorem leNat_lt (bs : List UInt8) : leNat bs < 256 ^ bs.length := by
  induction bs with
  | nil => simp [leNat]
  | cons b bs ih =>
      have := b.toNat_lt
      rw [leNat, List.length_cons, Nat.pow_succ]
      omega

/-- The four bytes of a 32-bit number. -/
def leBytes (n : Nat) : List UInt8 :=
  [UInt8.ofNat n, UInt8.ofNat (n / 256), UInt8.ofNat (n / 65536), UInt8.ofNat (n / 16777216)]

theorem leNat_leBytes (h : n < 2 ^ 32) : leNat (leBytes n) = n := by
  simp only [leBytes, leNat, UInt8.toNat_ofNat']
  omega

/-- The bytes of a file. -/
def ofList (l : List UInt8) : Nat → UInt8 := fun a => l.getD a 0

theorem readAt_ofList {l : List UInt8} (h : a + n ≤ l.length) : readAt (ofList l) a n = (l.drop a).take n := by
  refine List.ext_getElem (by simp; omega) fun i hi hi' => ?_
  have hlt : a + i < l.length := by
    rw [readAt_length] at hi
    omega
  rw [readAt_getElem, List.getElem_take, List.getElem_drop, ofList]
  simp [hlt]

section Blocks

variable {sz : Nat} {bss : List (List UInt8)}

theorem drop_flatten (h : ∀ bs ∈ bss, bs.length = sz) (b : Nat) : bss.flatten.drop (sz * b) = (bss.drop b).flatten := by
  induction b generalizing bss with
  | zero => simp
  | succ b ih =>
      cases bss with
      | nil => simp
      | cons bs bss =>
          have hlen : bs.length = sz := h bs (by simp)
          rw [List.flatten_cons, List.drop_succ_cons, ← ih (fun bs hbs => h bs (by simp [hbs])), Nat.mul_succ,
            Nat.add_comm, ← List.drop_drop, List.drop_left' hlen]

theorem length_flatten_uniform (h : ∀ bs ∈ bss, bs.length = sz) : bss.flatten.length = sz * bss.length := by
  rw [List.length_flatten, List.map_congr_left h, List.map_const', List.sum_replicate_nat, Nat.mul_comm]

/-- In a file written in blocks of one size, a part of a block is found at its place. -/
theorem readAt_flatten (h : ∀ bs ∈ bss, bs.length = sz) {b off : Nat} (hb : b < bss.length) (hn : off + n ≤ sz) :
    readAt (ofList bss.flatten) (sz * b + off) n = (bss[b].drop off).take n := by
  have hlen : bss[b].length = sz := h _ (List.getElem_mem hb)
  have htot : sz * b + sz ≤ sz * bss.length := by
    rw [← Nat.mul_succ]
    exact Nat.mul_le_mul_left _ hb
  rw [readAt_ofList (by rw [length_flatten_uniform h]; omega), ← List.drop_drop, drop_flatten h,
    List.drop_eq_getElem_cons hb, List.flatten_cons, List.drop_append_of_le_length (by omega),
    List.take_append_of_le_length (by rw [List.length_drop]; omega)]

end Blocks

end RiscvKernel.Lib.Bytes
