import Mathlib

/-! Straight-line RV64 code in supervisor mode. -/

namespace RiscvKernel.Lib.Rv64

abbrev Word := BitVec 64

scoped instance neZeroReg : NeZero 32 := ⟨by decide⟩

abbrev Reg := Fin 32

inductive Csr
  | sscratch | sstatus | sepc | stvec | scause
  deriving DecidableEq

structure Machine where
  x : Reg → Word
  csr : Csr → Word
  mem : Word → BitVec 8

namespace Machine

/-- Register 0 always reads as 0. -/
def get (m : Machine) (r : Reg) : Word := if r = 0 then 0 else m.x r

def set (m : Machine) (r : Reg) (v : Word) : Machine := { m with x := Function.update m.x r v }

def setCsr (m : Machine) (c : Csr) (v : Word) : Machine := { m with csr := Function.update m.csr c v }

/-- The doubleword at an address, least significant byte first. -/
def load (m : Machine) (a : Word) : Word :=
  (List.range 8).foldr (fun i v => v <<< 8 ||| (m.mem (a + BitVec.ofNat 64 i)).setWidth 64) 0

def store (m : Machine) (a v : Word) : Machine :=
  { m with mem := fun b => if (b - a).toNat < 8 then (v >>> (8 * (b - a).toNat)).setWidth 8 else m.mem b }

/-- The word at an address. -/
def loadWord (m : Machine) (a : Word) : BitVec 32 :=
  (List.range 4).foldr (fun i v => v <<< 8 ||| (m.mem (a + BitVec.ofNat 64 i)).setWidth 32) 0

end Machine

inductive Instr
  | addi (rd rs : Reg) (imm : Int)
  | slli (rd rs : Reg) (sh : Nat)
  | srli (rd rs : Reg) (sh : Nat)
  | ld (rd : Reg) (imm : Int) (rs : Reg)
  | sd (rt : Reg) (imm : Int) (rs : Reg)
  | csrr (rd : Reg) (c : Csr)
  | csrw (c : Csr) (rs : Reg)
  | csrrw (rd : Reg) (c : Csr) (rs : Reg)
  | la (rd : Reg) (addr : Word)
  | link (rd : Reg) (addr : Word)
  deriving DecidableEq

/-- What an instruction does; link is the part of a call that stores the return address. -/
def step (m : Machine) : Instr → Machine
  | .addi rd rs imm => m.set rd (m.get rs + BitVec.ofInt 64 imm)
  | .slli rd rs sh => m.set rd (m.get rs <<< sh)
  | .srli rd rs sh => m.set rd (m.get rs >>> sh)
  | .ld rd imm rs => m.set rd (m.load (m.get rs + BitVec.ofInt 64 imm))
  | .sd rt imm rs => m.store (m.get rs + BitVec.ofInt 64 imm) (m.get rt)
  | .csrr rd c => m.set rd (m.csr c)
  | .csrw c rs => m.setCsr c (m.get rs)
  | .csrrw rd c rs => (m.setCsr c (m.get rs)).set rd (m.csr c)
  | .la rd addr | .link rd addr => m.set rd addr

def run (m : Machine) (code : List Instr) : Machine := code.foldl step m

/-- The register that an instruction writes. -/
def Instr.dest : Instr → Option Reg
  | .addi rd _ _ | .slli rd _ _ | .srli rd _ _ | .ld rd _ _ | .csrr rd _ | .csrrw rd _ _ | .la rd _ | .link rd _ => some rd
  | .sd _ _ _ | .csrw _ _ => none

theorem step_get {m : Machine} {i : Instr} {r : Reg} (h : i.dest ≠ some r) : (step m i).get r = m.get r := by
  have hset : ∀ (m : Machine) rd v, some rd ≠ some r → (m.set rd v).get r = m.get r := fun m rd v hne => by
    have hne' : r ≠ rd := fun he => hne (by rw [he])
    simp [Machine.get, Machine.set, hne']
  cases i with
  | sd rt imm rs | csrw c rs => rfl
  | _ => exact hset _ _ _ h

/-- Code keeps the registers it does not write. -/
theorem run_get {m : Machine} {code : List Instr} {r : Reg} (h : code.all (fun i => i.dest ≠ some r) = true) :
    (run m code).get r = m.get r := by
  induction code generalizing m with
  | nil => rfl
  | cons i code ih =>
      rw [List.all_cons, Bool.and_eq_true] at h
      rw [run, List.foldl_cons]
      exact (ih h.2).trans (step_get (of_decide_eq_true h.1))

section Memory

variable {m m' : Machine} {a b v : Word}

/-- Two doublewords without a common byte. -/
def Apart (a b : Word) : Prop := 8 ≤ (a - b).toNat ∧ 8 ≤ (b - a).toNat

theorem Apart.symm (h : Apart a b) : Apart b a := ⟨h.2, h.1⟩

theorem load_congr (h : ∀ i < 8, m'.mem (a + BitVec.ofNat 64 i) = m.mem (a + BitVec.ofNat 64 i)) : m'.load a = m.load a :=
  List.foldr_ext _ _ _ fun i hi w => by rw [h i (List.mem_range.mp hi)]

theorem load_of_mem (h : m'.mem = m.mem) (a : Word) : m'.load a = m.load a := load_congr fun i _ => by rw [h]

theorem loadWord_congr (h : ∀ i < 4, m'.mem (a + BitVec.ofNat 64 i) = m.mem (a + BitVec.ofNat 64 i)) :
    m'.loadWord a = m.loadWord a := List.foldr_ext _ _ _ fun i hi w => by rw [h i (List.mem_range.mp hi)]

/-- The bytes of a doubleword from the k-th on, put together again. -/
theorem foldr_bytes (v : Word) (n k : Nat) (h : k + n ≤ 8) :
    ((List.range' k n).foldr (fun i (w : Word) => w <<< 8 ||| ((v >>> (8 * i)).setWidth 8).setWidth 64) 0).toNat =
      v.toNat / 2 ^ (8 * k) % 2 ^ (8 * n) := by
  induction n generalizing k with
  | zero => rw [Nat.mul_zero, Nat.pow_zero, Nat.mod_one]; rfl
  | succ n ih =>
      rw [List.range'_succ, List.foldr_cons]
      have hrest := ih (k + 1) (by omega)
      generalize ((List.range' (k + 1) n).foldr (fun i (w : Word) => w <<< 8 ||| ((v >>> (8 * i)).setWidth 8).setWidth 64) 0) = w at hrest ⊢
      have hbyte : (((v >>> (8 * k)).setWidth 8).setWidth 64).toNat = v.toNat / 2 ^ (8 * k) % 2 ^ 8 := by
        rw [BitVec.toNat_setWidth, BitVec.toNat_setWidth, BitVec.toNat_ushiftRight, Nat.shiftRight_eq_div_pow]
        omega
      have hw : w.toNat < 2 ^ 56 := by
        rw [hrest]
        exact Nat.lt_of_lt_of_le (Nat.mod_lt _ (Nat.two_pow_pos _)) (Nat.pow_le_pow_right (by decide) (by omega))
      have hshift : (w <<< 8).toNat = w.toNat <<< 8 := by
        rw [BitVec.toNat_shiftLeft, Nat.shiftLeft_eq]
        omega
      rw [BitVec.toNat_or, hshift, hbyte, ← Nat.shiftLeft_add_eq_or_of_lt (Nat.mod_lt _ (by decide)), Nat.shiftLeft_eq, hrest,
        Nat.mul_add 8 k, Nat.mul_add 8 n, Nat.pow_add, Nat.pow_add, ← Nat.div_div_eq_div_mul, Nat.mul_comm (2 ^ (8 * n)), Nat.mod_mul,
        Nat.mul_comm (_ % _), Nat.add_comm]

theorem toNat_offset {i : Nat} (hi : i < 8) : (a + BitVec.ofNat 64 i - a).toNat = i := by
  rw [add_sub_cancel_left, BitVec.toNat_ofNat]
  omega

theorem load_store : (m.store a v).load a = v := by
  have hbytes : (m.store a v).load a =
      (List.range' 0 8).foldr (fun i (w : Word) => w <<< 8 ||| ((v >>> (8 * i)).setWidth 8).setWidth 64) 0 := by
    rw [Machine.load, List.range_eq_range']
    refine List.foldr_ext _ _ _ fun i hi w => ?_
    have hi8 : i < 8 := by
      rw [List.mem_range'_1] at hi
      omega
    simp only [Machine.store, toNat_offset hi8, hi8, if_true]
  apply BitVec.eq_of_toNat_eq
  rw [hbytes, foldr_bytes v 8 0 (Nat.le_refl _), Nat.mul_zero, Nat.pow_zero, Nat.div_one, Nat.mod_eq_of_lt v.isLt]

theorem load_store_of_apart (h : Apart a b) : (m.store b v).load a = m.load a := by
  refine load_congr fun i hi => if_neg ?_
  have hsub : a + BitVec.ofNat 64 i - b = a - b + BitVec.ofNat 64 i := add_sub_right_comm _ _ _
  obtain ⟨h₁, h₂⟩ := h
  rw [hsub]
  bv_omega

end Memory

theorem run_append (m : Machine) (code code' : List Instr) : run m (code ++ code') = run (run m code) code' :=
  List.foldl_append

section Fields

variable (m : Machine) (r : Reg) (c : Csr) (a v : Word)

@[simp] theorem get_store : (m.store a v).get r = m.get r := rfl
@[simp] theorem csr_store : (m.store a v).csr c = m.csr c := rfl
@[simp] theorem csr_set : (m.set r v).csr c = m.csr c := rfl
@[simp] theorem load_set : (m.set r v).load a = m.load a := rfl
@[simp] theorem mem_set : (m.set r v).mem = m.mem := rfl
@[simp] theorem mem_setCsr : (m.setCsr c v).mem = m.mem := rfl
@[simp] theorem get_setCsr : (m.setCsr c v).get r = m.get r := rfl
@[simp] theorem load_setCsr : (m.setCsr c v).load a = m.load a := rfl

@[simp] theorem csr_setCsr_self : (m.setCsr c v).csr c = v := by
  rw [Machine.setCsr]
  exact Function.update_self c v m.csr

theorem csr_setCsr_ne {c' : Csr} (h : c' ≠ c) : (m.setCsr c v).csr c' = m.csr c' := by
  rw [Machine.setCsr]
  exact Function.update_of_ne h v m.csr

end Fields

theorem get_set_self {m : Machine} {r : Reg} (h : r ≠ 0) (v : Word) : (m.set r v).get r = v := by
  rw [Machine.get, if_neg h]
  exact Function.update_self r v m.x

theorem get_set_ne {m : Machine} {r q : Reg} (h : q ≠ r) (v : Word) : (m.set r v).get q = m.get q := by
  rw [Machine.get, Machine.get]
  congr 1
  exact Function.update_of_ne h v m.x

/-- The control register that an instruction writes. -/
def Instr.csrDest : Instr → Option Csr
  | .csrw c _ | .csrrw _ c _ => some c
  | _ => none

/-- Code keeps the control registers it does not write. -/
theorem run_csr {m : Machine} {code : List Instr} {c : Csr} (h : code.all (fun i => i.csrDest ≠ some c) = true) :
    (run m code).csr c = m.csr c := by
  induction code generalizing m with
  | nil => rfl
  | cons i code ih =>
      rw [List.all_cons, Bool.and_eq_true] at h
      have hne : i.csrDest ≠ some c := of_decide_eq_true h.1
      refine (ih h.2).trans ?_
      cases i with
      | csrw c' rs | csrrw rd c' rs => exact csr_setCsr_ne _ _ _ fun he => hne (by rw [he]; rfl)
      | _ => rfl

section Frames

variable {m : Machine} {base r : Reg} {slots : List (Reg × Nat)} {a b : Word}

/-- The k-th doubleword from an address on. -/
def word (b : Word) (k : Nat) : Word := b + BitVec.ofInt 64 (8 * k)

theorem apart_word {j k : Nat} (hj : j < 2 ^ 60) (hk : k < 2 ^ 60) (h : j ≠ k) : Apart (word b j) (word b k) := by
  have hnat : ∀ k : Nat, word b k = b + BitVec.ofNat 64 (8 * k) := fun k => by
    rw [word, ← BitVec.ofInt_natCast]
    push_cast
    rfl
  rw [hnat, hnat, Apart, add_sub_add_left_eq_sub, add_sub_add_left_eq_sub, BitVec.toNat_sub, BitVec.toNat_sub,
    BitVec.toNat_ofNat, BitVec.toNat_ofNat]
  omega

/-- Registers stored to the doublewords they are given, from the one base points to on. -/
def stores (base : Reg) (slots : List (Reg × Nat)) : List Instr := slots.map fun s => .sd s.1 (8 * s.2) base

def loads (base : Reg) (slots : List (Reg × Nat)) : List Instr := slots.map fun s => .ld s.1 (8 * s.2) base

theorem run_stores_frame : (run m (stores base slots)).x = m.x ∧ (run m (stores base slots)).csr = m.csr := by
  induction slots generalizing m with
  | nil => exact ⟨rfl, rfl⟩
  | cons s slots ih => exact ih

theorem run_stores_apart (h : ∀ s ∈ slots, Apart a (word (m.get base) s.2)) :
    (run m (stores base slots)).load a = m.load a := by
  induction slots generalizing m with
  | nil => rfl
  | cons s slots ih =>
      have hrest := ih (m := step m (.sd s.1 (8 * s.2) base)) fun q hq => h q (List.mem_cons_of_mem _ hq)
      exact hrest.trans (load_store_of_apart (h s List.mem_cons_self))

theorem run_stores_load (hkeys : (slots.map Prod.snd).Nodup) (hlt : ∀ s ∈ slots, s.2 < 2 ^ 60) :
    ∀ s ∈ slots, (run m (stores base slots)).load (word (m.get base) s.2) = m.get s.1 := by
  induction slots generalizing m with
  | nil => exact fun s hs => by cases hs
  | cons q slots ih =>
      rw [List.map_cons, List.nodup_cons] at hkeys
      have hlt' : ∀ s ∈ slots, s.2 < 2 ^ 60 := fun s hs => hlt s (List.mem_cons_of_mem _ hs)
      intro s hs
      rcases List.mem_cons.mp hs with rfl | hs
      · refine (run_stores_apart (m := step m (.sd s.1 (8 * s.2) base)) fun q hq => ?_).trans load_store
        apply apart_word (hlt s List.mem_cons_self) (hlt' q hq)
        exact fun he => hkeys.1 (List.mem_map.mpr ⟨q, hq, he.symm⟩)
      · exact ih (m := step m (.sd q.1 (8 * q.2) base)) hkeys.2 hlt' s hs

/-- Values put into the doublewords they are given, from b on. -/
def storeAll (b : Word) (m : Machine) (vals : List (Nat × Word)) : Machine :=
  vals.foldl (fun m s => m.store (word b s.1) s.2) m

theorem storeAll_append (vals vals' : List (Nat × Word)) :
    storeAll b m (vals ++ vals') = storeAll b (storeAll b m vals) vals' := List.foldl_append

theorem run_stores_eq : run m (stores base slots) = storeAll (m.get base) m (slots.map fun s => (s.2, m.get s.1)) := by
  induction slots generalizing m with
  | nil => rfl
  | cons s slots ih => exact ih

theorem storeAll_get {vals : List (Nat × Word)} : (storeAll b m vals).get r = m.get r := by
  induction vals generalizing m with
  | nil => rfl
  | cons s vals ih => exact ih

theorem store_mem_congr {m' : Machine} (h : m'.mem = m.mem) (a v : Word) : (m'.store a v).mem = (m.store a v).mem := by
  simp only [Machine.store, h]

theorem storeAll_mem_congr {m' : Machine} (h : m'.mem = m.mem) (vals : List (Nat × Word)) :
    (storeAll b m' vals).mem = (storeAll b m vals).mem := by
  induction vals generalizing m m' with
  | nil => exact h
  | cons s vals ih => exact ih (store_mem_congr h _ _)

theorem storeAll_outside {vals : List (Nat × Word)} (h : ∀ s ∈ vals, 8 ≤ (a - word b s.1).toNat) :
    (storeAll b m vals).mem a = m.mem a := by
  induction vals generalizing m with
  | nil => rfl
  | cons s vals ih =>
      refine (ih fun q hq => h q (List.mem_cons_of_mem _ hq)).trans ?_
      exact if_neg (Nat.not_lt.mpr (h s List.mem_cons_self))

theorem run_loads_frame : (run m (loads base slots)).mem = m.mem ∧ (run m (loads base slots)).csr = m.csr := by
  induction slots generalizing m with
  | nil => exact ⟨rfl, rfl⟩
  | cons s slots ih => exact ih

theorem run_loads_other (h : ∀ s ∈ slots, s.1 ≠ r) : (run m (loads base slots)).get r = m.get r := by
  induction slots generalizing m with
  | nil => rfl
  | cons s slots ih =>
      refine (ih fun q hq => h q (List.mem_cons_of_mem _ hq)).trans ?_
      exact get_set_ne (Ne.symm (h s List.mem_cons_self)) _

theorem run_loads_get (hregs : (slots.map Prod.fst).Nodup) (hbase : ∀ s ∈ slots, s.1 ≠ base ∧ s.1 ≠ 0) :
    ∀ s ∈ slots, (run m (loads base slots)).get s.1 = m.load (word (m.get base) s.2) := by
  induction slots generalizing m with
  | nil => exact fun s hs => by cases hs
  | cons q slots ih =>
      rw [List.map_cons, List.nodup_cons] at hregs
      have hkeep : (step m (.ld q.1 (8 * q.2) base)).get base = m.get base :=
        get_set_ne (Ne.symm (hbase q List.mem_cons_self).1) _
      intro s hs
      rcases List.mem_cons.mp hs with rfl | hs
      · refine (run_loads_other fun q hq he => hregs.1 (List.mem_map.mpr ⟨q, hq, he⟩)).trans ?_
        exact get_set_self (hbase s List.mem_cons_self).2 _
      · have hrest := ih (m := step m (.ld q.1 (8 * q.2) base)) hregs.2 (fun p hp => hbase p (List.mem_cons_of_mem _ hp)) s hs
        rw [hkeep] at hrest
        exact hrest

end Frames

end RiscvKernel.Lib.Rv64
