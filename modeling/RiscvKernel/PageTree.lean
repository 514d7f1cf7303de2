import RiscvKernel.Lib.LinkedList
import RiscvKernel.Lib.PointerTree
import RiscvKernel.Memory

namespace RiscvKernel.PageTree

open Memory Lib.LinkedList Lib.PointerTree

section Words

variable {m : Mem} {p q : Ppn} {i j : Vpn} {w : BitVec 64} {page : Page}

@[simp] theorem setPage_ram_self : (m.setPage p page).ram p = page := Function.update_self _ _ _

theorem setPage_ram_of_ne (h : q ≠ p) : (m.setPage p page).ram q = m.ram q := Function.update_of_ne h _ _

@[simp] theorem setWord_ram_self : (m.setWord p i w).ram p i = w := by
  rw [Mem.setWord, setPage_ram_self, Function.update_self]

theorem setWord_ram_of_ne (h : q ≠ p) : (m.setWord p i w).ram q = m.ram q := setPage_ram_of_ne h

theorem setWord_ram_idx (h : j ≠ i) : (m.setWord p i w).ram p j = m.ram p j := by
  rw [Mem.setWord, setPage_ram_self, Function.update_of_ne h]

@[simp] theorem setWord_freeList : (m.setWord p i w).freeList = m.freeList := rfl

@[simp] theorem setWord_satp : (m.setWord p i w).satp = m.satp := rfl

@[simp] theorem setFreeList_ram : (m.setFreeList w).ram = m.ram := rfl

@[simp] theorem setFreeList_satp : (m.setFreeList w).satp = m.satp := rfl

@[simp] theorem memorySpaceSwitch_ram : (memorySpaceSwitch m w).ram = m.ram := rfl

@[simp] theorem memorySpaceSwitch_satp : (memorySpaceSwitch m w).satp = w := rfl

end Words

/-! Entries that a space has for itself: valid and not global. -/

def child (e : BitVec 64) : Option Ppn := if has e pteV && !has e pteG then some (ppnOf e) else none

/-- The trees of own entries. Height 0 is a page, height 3 a root table. -/
def layout : Layout Ppn Vpn (BitVec 64) where
  idx := List.finRange 512
  nodup := List.nodup_finRange 512
  complete := List.mem_finRange
  child := child

/-- The flags that leaf_pte and ptab_pte add. -/
def added : Nat → BitVec 8
  | 0 => pteA ||| pteD ||| pteV
  | _ + 1 => pteV

def mkEntry : Nat → BitVec 64 → BitVec 8 → BitVec 64
  | 0 => leafPte
  | _ + 1 => ptabPte

theorem flagsOf_mkEntry (k : Nat) (w : BitVec 64) (f : BitVec 8) : flagsOf (mkEntry k w f) = f ||| added k := by
  cases k with
  | zero => simp [mkEntry, leafPte, added, BitVec.or_assoc]
  | succ k => simp [mkEntry, ptabPte, added]

theorem ppnOf_mkEntry (k : Nat) (w : BitVec 64) (f : BitVec 8) : ppnOf (mkEntry k w f) = pageptrToPagenum w := by
  cases k <;> simp [mkEntry, leafPte, ptabPte]

theorem child_eq_some {e : BitVec 64} {c : Ppn} :
    child e = some c ↔ has e pteV = true ∧ has e pteG = false ∧ ppnOf e = c := by
  unfold child
  cases has e pteV <;> cases has e pteG <;> simp

theorem flags_added : ∀ (f : BitVec 8), (f &&& pteV != 0) = true →
    ((f ||| added 0) &&& pteV != 0) = true ∧ ((f ||| added 0) &&& pteG != 0) = (f &&& pteG != 0) ∧
    ((f ||| added 1) &&& pteV != 0) = true ∧ ((f ||| added 1) &&& pteG != 0) = (f &&& pteG != 0) := by
  decide +kernel

/-- An entry with the flags of an own entry and those added is an own entry. -/
theorem child_of_flags {k : Nat} {e e' : BitVec 64} {c : Ppn} (h : child e = some c)
    (hf : flagsOf e' = flagsOf e ||| added k) : child e' = some (ppnOf e') := by
  obtain ⟨hv, hg, -⟩ := child_eq_some.mp h
  have hadd := flags_added (flagsOf e) hv
  refine child_eq_some.mpr ⟨?_, ?_, rfl⟩
  · rw [has, hf]
    cases k with
    | zero => exact hadd.1
    | succ k => exact hadd.2.2.1
  · rw [has, hf]
    cases k with
    | zero => exact hadd.2.1.trans hg
    | succ k => exact hadd.2.2.2.trans hg

theorem child_zero : child 0 = none := by decide

/-- The root table of a space. -/
def rootOf (mtag : BitVec 64) : Ppn := pageptrToPagenum (mtagToRoot mtag)

/-! The free list. -/

def derefPage (w : BitVec 64) : Option Ppn := if w = 0 then none else some (pageptrToPagenum w)

/-- The pages on the free list, in order. -/
def FreeList (m : Mem) (l : List Ppn) : Prop := Linked derefPage (fun p => m.ram p 0) m.freeList l

section FreeList

variable {m m' : Mem} {l : List Ppn} {p : Ppn}

theorem FreeList.congr (h : FreeList m l) (hf : m'.freeList = m.freeList) (hr : ∀ q ∈ l, m'.ram q = m.ram q) :
    FreeList m' l := by
  rw [FreeList, hf]
  refine Linked.congr h fun q hq => ?_
  rw [hr q hq]

theorem FreeList.of_linked {w : BitVec 64} (h : Linked derefPage (fun p => m.ram p 0) w l) : FreeList (m.setFreeList w) l := h

theorem FreeList.setWord (h : FreeList m l) (hp : p ∉ l) (i : Vpn) (w : BitVec 64) : FreeList (m.setWord p i w) l :=
  h.congr rfl fun _ hq => setWord_ram_of_ne fun he => hp (he ▸ hq)

theorem FreeList.alloc (h : FreeList m (p :: l)) (hp : p ∉ l) :
    ∃ w m', memoryAllocPage m = some (w, m') ∧ pageptrToPagenum w = p ∧ m'.ram p = (fun _ => 0) ∧
      (∀ q, q ≠ p → m'.ram q = m.ram q) ∧ FreeList m' l ∧ m'.satp = m.satp := by
  obtain ⟨hd, hl⟩ := h
  unfold derefPage at hd
  split at hd
  · cases hd
  · have hw : pageptrToPagenum m.freeList = p := Option.some.inj hd
    refine ⟨m.freeList, Mem.setPage { m with freeList := m.ram p 0 } p (fun _ => 0), ?_, hw, setPage_ram_self,
      fun q hq => setPage_ram_of_ne hq, ?_, rfl⟩
    · rw [memoryAllocPage, if_neg ‹_›]
      simp only [hw]
    · refine Linked.congr hl fun q hq => ?_
      have hne : q ≠ p := fun he => hp (he ▸ hq)
      rw [setPage_ram_of_ne hne]

theorem FreeList.alloc_nil (h : FreeList m []) : memoryAllocPage m = none := by
  have hd : derefPage m.freeList = none := h
  unfold derefPage at hd
  split at hd
  · rw [memoryAllocPage, if_pos ‹_›]
  · cases hd

end FreeList

end RiscvKernel.PageTree
