import RiscvKernel.MemoryInit

namespace RiscvKernel.PageAllocator

open Memory PageTree MemoryInit Lib.LinkedList

/-- A pointer to a union linked_page, null at the end of the list. -/
def derefPtr (w : BitVec 64) : Option (BitVec 64) := if w = 0 then none else some w

/-- The pointers that free_list leads to, in order. -/
def IsFreeList (m : Mem) (l : List (BitVec 64)) : Prop :=
  Linked derefPtr (fun pp => m.ram (pageptrToPagenum pp) 0) m.freeList l

/-- The end of memory_init: the pages from heap_end on become the free list. -/
def initPages (heapEnd ramEnd : Nat) (m : Mem) : Mem :=
  (linkPages (heapEnd / pageSize) ((ramEnd - heapEnd) / pageSize - 1) m).setFreeList (BitVec.ofNat 64 heapEnd)

theorem memoryInit_initPages {img : Image} {m m' : Mem} (h : memoryInit img m = some m') :
    ∃ m₁, m' = initPages img.heapEnd img.ramEnd m₁ := by
  simp only [memoryInit] at h
  split at h
  · cases h
  · split at h
    · cases h
    · split at h
      · cases h
      · exact ⟨_, (Option.some.inj h).symm⟩

/-- The memory, with the pages that are allocated. -/
structure Pool where
  mem : Mem
  allocated : List (BitVec 64)

/-- A call of the allocator, or a store of the owner of an allocated page. -/
inductive Op
  | alloc
  | free (pp : BitVec 64)
  | store (pp : BitVec 64) (i : Vpn) (w : BitVec 64)

/-- One operation, none when it panics. Pages that are not allocated are neither freed nor
written. -/
def Pool.step (s : Pool) : Op → Option Pool
  | .alloc => (memoryAllocPage s.mem).map fun r => ⟨r.2, r.1 :: s.allocated⟩
  | .free pp => some (if s.allocated.contains pp then ⟨memoryFreePage s.mem pp, s.allocated.erase pp⟩ else s)
  | .store pp i w => some (if s.allocated.contains pp then { s with mem := s.mem.setWord (pageptrToPagenum pp) i w } else s)

def Pool.run (s : Pool) (ops : List Op) : Option Pool := ops.foldlM Pool.step s

/-- A page of the memory that memory_init gives the allocator. -/
def IsPage (heapEnd ramEnd : Nat) (pp : BitVec 64) : Prop :=
  pp.toNat % pageSize = 0 ∧ heapEnd ≤ pp.toNat ∧ pp.toNat < ramEnd

/-- The free pages and the allocated ones are all pages, each of them once. -/
structure Conserved (heapEnd ramEnd : Nat) (s : Pool) (free : List (BitVec 64)) : Prop where
  list : IsFreeList s.mem free
  nodup : (free ++ s.allocated).Nodup
  pages : ∀ pp, pp ∈ free ++ s.allocated ↔ IsPage heapEnd ramEnd pp

section Step

variable {heapEnd ramEnd : Nat} {s s' : Pool} {free : List (BitVec 64)} {op : Op} {p q : BitVec 64}

theorem IsPage.ptr (h : IsPage heapEnd ramEnd p) (hend : ramEnd ≤ 2 ^ 56) :
    p = pagenumToPageptr (pageptrToPagenum p) := by
  obtain ⟨hmod, -, hlt⟩ := h
  apply BitVec.eq_of_toNat_eq
  simp only [pagenumToPageptr, pageptrToPagenum, BitVec.toNat_shiftLeft, BitVec.toNat_setWidth, BitVec.toNat_ushiftRight,
    Nat.shiftLeft_eq, Nat.shiftRight_eq_div_pow]
  unfold pageSize at hmod
  omega

theorem IsPage.pagenum_ne (hp : IsPage heapEnd ramEnd p) (hq : IsPage heapEnd ramEnd q) (hend : ramEnd ≤ 2 ^ 56)
    (hne : p ≠ q) : pageptrToPagenum p ≠ pageptrToPagenum q := by
  intro he
  apply hne
  rw [hp.ptr hend, hq.ptr hend, he]

theorem IsPage.ne_zero (hp : IsPage heapEnd ramEnd p) (hpos : 0 < heapEnd) : p ≠ 0 := by
  rintro rfl
  exact absurd (Nat.lt_of_lt_of_le hpos hp.2.1) (Nat.lt_irrefl 0)

/-- What is written to other pages does not change the list. -/
theorem IsFreeList.congr {m m' : Mem} (h : IsFreeList m free) (hf : m'.freeList = m.freeList)
    (hr : ∀ p ∈ free, m'.ram (pageptrToPagenum p) = m.ram (pageptrToPagenum p)) : IsFreeList m' free := by
  rw [IsFreeList, hf]
  refine Linked.congr h fun p hp => ?_
  rw [hr p hp]

theorem memoryAllocPage_nil {m : Mem} (h : IsFreeList m []) : memoryAllocPage m = none := by
  have h' : derefPtr m.freeList = none := h
  unfold derefPtr at h'
  split at h'
  · rw [memoryAllocPage, if_pos ‹_›]
  · cases h'

/-- memory_alloc_page unlinks the first page, and then clears it. -/
theorem memoryAllocPage_cons {m : Mem} (h : IsFreeList m (p :: free))
    (hne : ∀ q ∈ free, pageptrToPagenum q ≠ pageptrToPagenum p) :
    ∃ m', memoryAllocPage m = some (p, m') ∧ IsFreeList m' free ∧ m'.ram (pageptrToPagenum p) = fun _ => 0 := by
  obtain ⟨hd, hl⟩ := h
  unfold derefPtr at hd
  split at hd
  · cases hd
  · obtain rfl := Option.some.inj hd
    refine ⟨_, by rw [memoryAllocPage, if_neg ‹_›], ?_, setPage_ram_self⟩
    refine Linked.congr hl fun q hq => ?_
    rw [setPage_ram_of_ne (hne q hq)]

theorem isFreeList_memoryFreePage {m : Mem} (h : IsFreeList m free) (hp : p ≠ 0)
    (hne : ∀ q ∈ free, pageptrToPagenum q ≠ pageptrToPagenum p) : IsFreeList (memoryFreePage m p) (p :: free) := by
  refine ⟨if_neg hp, ?_⟩
  have hlink : (memoryFreePage m p).ram (pageptrToPagenum p) 0 = m.freeList := setWord_ram_self
  beta_reduce
  rw [hlink]
  refine Linked.congr h fun q hq => ?_
  exact congrFun (setWord_ram_of_ne (hne q hq)) 0

theorem Conserved.pagenum_ne (h : Conserved heapEnd ramEnd s free) (hend : ramEnd ≤ 2 ^ 56) (hp : p ∈ s.allocated) (hq : q ∈ free) :
    pageptrToPagenum q ≠ pageptrToPagenum p := by
  have hp' := (h.pages p).mp (List.mem_append_right _ hp)
  have hq' := (h.pages q).mp (List.mem_append_left _ hq)
  refine hq'.pagenum_ne hp' hend ?_
  rintro rfl
  exact (List.nodup_append.mp h.nodup).2.2 q hq q hp rfl

/-- memory_alloc_page panics when nothing is free; otherwise it returns a free page, cleared. -/
theorem Conserved.alloc (h : Conserved heapEnd ramEnd s free) (hend : ramEnd ≤ 2 ^ 56) :
    free = [] ∧ memoryAllocPage s.mem = none ∨ ∃ p l m', free = p :: l ∧ memoryAllocPage s.mem = some (p, m') ∧
      Conserved heapEnd ramEnd ⟨m', p :: s.allocated⟩ l ∧ m'.ram (pageptrToPagenum p) = fun _ => 0 := by
  cases free with
  | nil => exact .inl ⟨rfl, memoryAllocPage_nil h.list⟩
  | cons p l =>
      obtain ⟨hpl, -⟩ := List.nodup_cons.mp (List.nodup_append.mp h.nodup).1
      have hne : ∀ q ∈ l, pageptrToPagenum q ≠ pageptrToPagenum p := by
        intro q hq
        have hp' := (h.pages p).mp (by simp)
        have hq' := (h.pages q).mp (by simp [hq])
        refine hq'.pagenum_ne hp' hend ?_
        rintro rfl
        exact hpl hq
      obtain ⟨m', halloc, hlist, hzero⟩ := memoryAllocPage_cons h.list hne
      have hperm : (l ++ p :: s.allocated).Perm (p :: l ++ s.allocated) := List.perm_middle
      exact .inr ⟨p, l, m', rfl, halloc,
        ⟨hlist, hperm.nodup_iff.mpr h.nodup, fun pp => hperm.mem_iff.trans (h.pages pp)⟩, hzero⟩

theorem Conserved.step (h : Conserved heapEnd ramEnd s free) (hpos : 0 < heapEnd) (hend : ramEnd ≤ 2 ^ 56)
    (hs : s.step op = some s') :
    ∃ free', Conserved heapEnd ramEnd s' free' := by
  cases op with
  | alloc =>
      rcases h.alloc hend with ⟨-, hnone⟩ | ⟨p, l, m', -, halloc, hc, -⟩
      · rw [Pool.step, hnone] at hs
        cases hs
      · rw [Pool.step, halloc] at hs
        obtain rfl := Option.some.inj hs
        exact ⟨l, hc⟩
  | free p =>
      obtain rfl := Option.some.inj hs
      split
      · rename_i hp
        rw [List.contains_iff_mem] at hp
        have hperm : (p :: free ++ s.allocated.erase p).Perm (free ++ s.allocated) :=
          List.perm_middle.symm.trans ((List.perm_cons_erase hp).symm.append_left free)
        refine ⟨p :: free, ?_, hperm.nodup_iff.mpr h.nodup, fun pp => hperm.mem_iff.trans (h.pages pp)⟩
        exact isFreeList_memoryFreePage h.list (((h.pages p).mp (List.mem_append_right _ hp)).ne_zero hpos)
          fun q hq => h.pagenum_ne hend hp hq
      · exact ⟨free, h⟩
  | store p i w =>
      obtain rfl := Option.some.inj hs
      split
      · rename_i hp
        rw [List.contains_iff_mem] at hp
        exact ⟨free, h.list.congr rfl fun q hq => setWord_ram_of_ne (h.pagenum_ne hend hp hq), h.nodup, h.pages⟩
      · exact ⟨free, h⟩

theorem Conserved.run (h : Conserved heapEnd ramEnd s free) (hpos : 0 < heapEnd) (hend : ramEnd ≤ 2 ^ 56) {ops : List Op} (hr : s.run ops = some s') :
    ∃ free', Conserved heapEnd ramEnd s' free' := by
  induction ops generalizing s free with
  | nil =>
      obtain rfl := Option.some.inj hr
      exact ⟨free, h⟩
  | cons op ops ih =>
      rw [Pool.run, List.foldlM_cons] at hr
      cases hs : s.step op with
      | none =>
          rw [hs] at hr
          cases hr
      | some s₁ =>
          rw [hs] at hr
          obtain ⟨free₁, h₁⟩ := h.step hpos hend hs
          exact ih h₁ hr

end Step

section Init

variable {n cnt : Nat} {m : Mem}

theorem toNat_ptr {n : Nat} (h : n < 2 ^ 44) : (pagenumToPageptr (page n)).toNat = n * pageSize := by
  rw [← ofNat_page h, BitVec.toNat_ofNat]
  unfold pageSize
  omega

theorem mem_pages {p : BitVec 64} (h : n + cnt < 2 ^ 44) :
    p ∈ (freePages n cnt).map pagenumToPageptr ↔ IsPage (n * pageSize) ((n + cnt + 1) * pageSize) p := by
  constructor
  · intro hp
    obtain ⟨q, hq, rfl⟩ := List.mem_map.mp hp
    obtain ⟨x, hx, rfl⟩ := mem_freePages.mp hq
    rw [IsPage, toNat_ptr (by omega)]
    refine ⟨Nat.mul_mod_left _ _, Nat.mul_le_mul_right _ (by omega), Nat.mul_lt_mul_of_pos_right (by omega) (by decide)⟩
  · rintro ⟨hmod, hle, hlt⟩
    obtain ⟨a, ha⟩ := Nat.dvd_of_mod_eq_zero hmod
    rw [Nat.mul_comm] at ha
    rw [ha] at hle hlt
    have hna : n ≤ a := Nat.le_of_mul_le_mul_right hle (by decide)
    have hac : a < n + cnt + 1 := Nat.lt_of_mul_lt_mul_right hlt
    refine List.mem_map.mpr ⟨page a, mem_freePages.mpr ⟨a - n, by omega, by rw [Nat.add_sub_cancel' hna]⟩, ?_⟩
    apply BitVec.eq_of_toNat_eq
    rw [toNat_ptr (by omega), ha]

/-- memory_init leaves every page free. -/
theorem conserved_initPages (hpos : 0 < n) (h : n + cnt < 2 ^ 44) :
    Conserved (n * pageSize) ((n + cnt + 1) * pageSize)
      ⟨initPages (n * pageSize) ((n + cnt + 1) * pageSize) m, []⟩ ((freePages n cnt).map pagenumToPageptr) := by
  have hn : n * pageSize / pageSize = n := Nat.mul_div_cancel _ (by decide)
  have hcnt : ((n + cnt + 1) * pageSize - n * pageSize) / pageSize - 1 = cnt := by
    rw [← Nat.sub_mul, Nat.mul_div_cancel _ (by decide)]
    omega
  obtain ⟨hlink, hlast⟩ := linkPages_links (m := m) h
  refine ⟨?_, ?_, fun pp => ?_⟩
  · rw [IsFreeList, initPages, hn, hcnt, ofNat_page (by omega)]
    refine linked_range (fun p hp => if_neg (pagenumToPageptr_ne_zero hp)) rfl hpos h (fun x hx => ?_) ?_
    · rw [pageptrToPagenum_pagenumToPageptr]
      exact hlink x hx
    · rw [pageptrToPagenum_pagenumToPageptr]
      exact hlast
  · rw [List.append_nil]
    refine (freePages_nodup h).map fun p q he => ?_
    rw [← pageptrToPagenum_pagenumToPageptr p, he, pageptrToPagenum_pagenumToPageptr]
  · rw [List.append_nil]
    exact mem_pages h

end Init

/-- From memory_init on, whatever the owners of allocated pages write to them: the free list
and the allocated pages are all the pages, each of them once, memory_alloc_page panics only
when every page is allocated, and the page that it returns is a free one, filled with zeros. -/
theorem run_conserved {heapEnd ramEnd : Nat} (m : Mem) (hstart : ramStart ≤ heapEnd) (hheap : heapEnd % pageSize = 0)
    (hram : ramEnd % pageSize = 0) (hlt : heapEnd < ramEnd) (hsize : ramEnd ≤ ramStart + gigaSize) (ops : List Op)
    {s : Pool} (hr : Pool.run ⟨initPages heapEnd ramEnd m, []⟩ ops = some s) :
    (∃ free, Conserved heapEnd ramEnd s free) ∧
      (memoryAllocPage s.mem = none ↔ ∀ pp, IsPage heapEnd ramEnd pp → pp ∈ s.allocated) ∧
      ∀ pp m', memoryAllocPage s.mem = some (pp, m') → IsPage heapEnd ramEnd pp ∧ pp ∉ s.allocated ∧
        m'.ram (pageptrToPagenum pp) = fun _ => 0 := by
  have hend : ramEnd ≤ 2 ^ 56 := Nat.le_trans hsize (by decide)
  have hpos : 0 < heapEnd := Nat.lt_of_lt_of_le (by decide) hstart
  obtain ⟨n, hn⟩ : ∃ n, heapEnd = n * pageSize := ⟨_, (Nat.div_mul_cancel (Nat.dvd_of_mod_eq_zero hheap)).symm⟩
  obtain ⟨e, he⟩ : ∃ e, ramEnd = e * pageSize := ⟨_, (Nat.div_mul_cancel (Nat.dvd_of_mod_eq_zero hram)).symm⟩
  have hne : n < e := by
    rw [hn, he] at hlt
    exact Nat.lt_of_mul_lt_mul_right hlt
  obtain ⟨cnt, rfl⟩ : ∃ cnt, e = n + cnt + 1 := ⟨e - n - 1, by omega⟩
  have hbound : n + cnt < 2 ^ 44 := by
    rw [he] at hend
    unfold pageSize at hend
    omega
  have hn₀ : 0 < n := Nat.pos_of_ne_zero fun h0 => by
    rw [hn, h0, Nat.zero_mul] at hpos
    exact Nat.lt_irrefl 0 hpos
  have h₀ := conserved_initPages (m := m) hn₀ hbound
  rw [← hn, ← he] at h₀
  obtain ⟨free, h⟩ := h₀.run hpos hend hr
  refine ⟨⟨free, h⟩, ?_, fun pp m' ha => ?_⟩
  · rcases h.alloc hend with ⟨rfl, hnone⟩ | ⟨p, l, m', rfl, halloc, -, -⟩
    · exact iff_of_true hnone fun pp hpp => (h.pages pp).mpr hpp
    · refine iff_of_false (by simp [halloc]) fun hall => ?_
      have hp := hall p ((h.pages p).mp (by simp))
      exact (List.nodup_append.mp h.nodup).2.2 p (by simp) p hp rfl
  · rcases h.alloc hend with ⟨-, hnone⟩ | ⟨p, l, m₁, rfl, halloc, -, hzero⟩
    · rw [hnone] at ha
      cases ha
    · rw [halloc] at ha
      obtain ⟨rfl, rfl⟩ := Prod.mk.inj (Option.some.inj ha)
      refine ⟨(h.pages p).mp (by simp), fun hp => ?_, hzero⟩
      exact (List.nodup_append.mp h.nodup).2.2 p (by simp) p hp rfl

/-- With two pages, the third memory_alloc_page panics. -/
theorem run_conserved_twoPages :
    ∃ s, Pool.run ⟨initPages 0x807fe000 0x80800000 ⟨fun _ _ => 0, 0, 0⟩, []⟩ [.alloc, .alloc] = some s ∧
      s.allocated = [0x807ff000#64, 0x807fe000#64] ∧ memoryAllocPage s.mem = none := by
  have hview : (Pool.run ⟨initPages 0x807fe000 0x80800000 ⟨fun _ _ => 0, 0, 0⟩, []⟩ [.alloc, .alloc]).map Pool.allocated =
      some [0x807ff000#64, 0x807fe000#64] := by decide +kernel
  obtain ⟨s, hs, hall⟩ := Option.map_eq_some_iff.mp hview
  obtain ⟨-, hpanic, -⟩ := run_conserved ⟨fun _ _ => 0, 0, 0⟩ (by decide) (by decide) (by decide) (by decide) (by decide)
    [.alloc, .alloc] hs
  refine ⟨s, hs, hall, hpanic.mpr fun pp hpage => ?_⟩
  obtain ⟨hmod, hle, hlt⟩ := hpage
  have hpp : pp.toNat = 0x807fe000 ∨ pp.toNat = 0x807ff000 := by
    unfold pageSize at hmod
    omega
  rw [hall]
  rcases hpp with h | h
  · obtain rfl : pp = 0x807fe000#64 := BitVec.eq_of_toNat_eq h
    simp
  · obtain rfl : pp = 0x807ff000#64 := BitVec.eq_of_toNat_eq h
    simp

end RiscvKernel.PageAllocator
