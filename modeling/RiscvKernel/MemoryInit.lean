import RiscvKernel.AddressSpace

namespace RiscvKernel.MemoryInit

open Memory PageTree AddressSpace Lib.LinkedList Lib.PointerTree

def pageSize : Nat := 2 ^ 12
def megaSize : Nat := 2 ^ 9 * pageSize
def gigaSize : Nat := 2 ^ 9 * megaSize
def heapInitMin : Nat := 256

/-- RAM_START_PMA, the address of the kernel image. -/
def ramStart : Nat := 0x80000000

/-- What the linker and the configuration fix: the sections of the kernel image, the
pages of the main page tables in it, and the size of the memory. -/
structure Image where
  imgStart : Nat
  textStart : Nat
  textEnd : Nat
  rodataStart : Nat
  rodataEnd : Nat
  dataStart : Nat
  imgEnd : Nat
  mainPt2 : Ppn
  mainPt1 : Ppn
  mainPt0 : Ppn
  ramSize : Nat
  start : imgStart = ramStart
  nodup : [mainPt2, mainPt1, mainPt0].Nodup
  inside : ∀ p ∈ [mainPt2, mainPt1, mainPt0], imgStart ≤ p.toNat * pageSize ∧ (p.toNat + 1) * pageSize ≤ imgEnd
  ramSize_le : ramSize ≤ gigaSize

def Image.ramEnd (img : Image) : Nat := ramStart + img.ramSize

def roundUp (n blksz : Nat) : Nat := (n + blksz - 1) / blksz * blksz

/-- The addresses of a loop from first to before last. -/
def addrs (first last step : Nat) : List Nat :=
  (List.range ((last - first + step - 1) / step)).map fun i => first + step * i

/-- A loop of memory_init that writes identity-mapping leaves to one table. -/
def mapLeaves (pt : Ppn) (level : Nat) (flags : BitVec 8) (as : List Nat) (m : Mem) : Mem :=
  as.foldl (fun m a => m.setWord pt (vpn level (BitVec.ofNat 64 a)) (leafPte (BitVec.ofNat 64 a) flags)) m

def page (n : Nat) : Ppn := BitVec.ofNat 44 n

/-- The loop that puts cnt + 1 pages from the page n on the free page list. -/
def linkPages (n cnt : Nat) (m : Mem) : Mem :=
  let m := (List.range cnt).foldl (fun m x => m.setWord (page (n + x)) 0 (pagenumToPageptr (page (n + x + 1)))) m
  m.setWord (page (n + cnt)) 0 0

def Image.heapEnd (img : Image) : Nat :=
  let heapStart := img.imgEnd
  let heapEnd := roundUp heapStart pageSize
  if heapEnd - heapStart < heapInitMin then heapEnd + roundUp (heapInitMin - (heapEnd - heapStart)) pageSize else heapEnd

/-- The page tables that memory_init sets up. -/
def mapKernel (img : Image) (m : Mem) : Mem :=
  let m := mapLeaves img.mainPt2 2 (pteR ||| pteW ||| pteG) (addrs 0 ramStart gigaSize) m
  let m := m.setWord img.mainPt2 (vpn 2 (BitVec.ofNat 64 ramStart)) (ptabPte (pagenumToPageptr img.mainPt1) pteG)
  let m := m.setWord img.mainPt1 (vpn 1 (BitVec.ofNat 64 ramStart)) (ptabPte (pagenumToPageptr img.mainPt0) pteG)
  let m := mapLeaves img.mainPt0 0 (pteR ||| pteX ||| pteG) (addrs img.textStart img.textEnd pageSize) m
  let m := mapLeaves img.mainPt0 0 (pteR ||| pteG) (addrs img.rodataStart img.rodataEnd pageSize) m
  let m := mapLeaves img.mainPt0 0 (pteR ||| pteW ||| pteG) (addrs img.dataStart (ramStart + megaSize) pageSize) m
  mapLeaves img.mainPt1 1 (pteR ||| pteW ||| pteG) (addrs (ramStart + megaSize) img.ramEnd megaSize) m

/-- memory_init: none when it panics. With no page to free, the first store of the loop
is past the end of the mapped memory. -/
def memoryInit (img : Image) (m : Mem) : Option Mem :=
  if megaSize < img.imgEnd - img.imgStart then none
  else
    let m := mapKernel img m
    let m := memorySpaceSwitch m (rootToMtag (pagenumToPageptr img.mainPt2))
    if img.ramEnd < img.heapEnd then none
    else
      let pageCnt := (img.ramEnd - img.heapEnd) / pageSize
      if pageCnt = 0 then none
      else
        let m := linkPages (img.heapEnd / pageSize) (pageCnt - 1) m
        some (m.setFreeList (BitVec.ofNat 64 img.heapEnd))

section Tables

variable {m : Mem} {pt q : Ppn} {P : Vpn → BitVec 64 → Prop} {level : Nat} {flags : BitVec 8} {as : List Nat}

theorem mapLeaves_ram_of_ne (h : q ≠ pt) : (mapLeaves pt level flags as m).ram q = m.ram q := by
  induction as generalizing m with
  | nil => rfl
  | cons a as ih => exact ih.trans (setWord_ram_of_ne h)

theorem setWord_table {i : Vpn} {w : BitVec 64} (h : ∀ j, P j (m.ram pt j)) (hw : P i w) (j : Vpn) :
    P j ((m.setWord pt i w).ram pt j) := by
  by_cases hj : j = i
  · rw [hj, setWord_ram_self]
    exact hw
  · rw [setWord_ram_idx hj]
    exact h j

theorem mapLeaves_table (h : ∀ j, P j (m.ram pt j))
    (hw : ∀ a ∈ as, P (vpn level (BitVec.ofNat 64 a)) (leafPte (BitVec.ofNat 64 a) flags)) (j : Vpn) :
    P j ((mapLeaves pt level flags as m).ram pt j) := by
  induction as generalizing m with
  | nil => exact h j
  | cons a as ih => exact ih (setWord_table h (hw a List.mem_cons_self)) fun b hb => hw b (List.mem_cons_of_mem _ hb)

/-- An entry of a table of the kernel: none, a global leaf, or global and the next table. -/
def KernelEntry (next : Ppn) (e : BitVec 64) : Prop :=
  has e pteV = true → has e pteG = true ∧ (isLeaf e = true ∨ ppnOf e = next)

theorem kernelEntry_zero (next : Ppn) : KernelEntry next 0 := fun h => absurd h (by decide)

/-- The flags of the leaves of the kernel map. -/
def KernelLeaf (flags : BitVec 8) : Prop :=
  (flags &&& pteG != 0) = true ∧ (flags &&& (pteR ||| pteW ||| pteX) != 0) = true

theorem leafPte_kernel (w : BitVec 64) {flags : BitVec 8} (hf : KernelLeaf flags) :
    has (leafPte w flags) pteG = true ∧ isLeaf (leafPte w flags) = true := by
  have hor : ∀ f : BitVec 8, (f &&& pteG != 0) = true ∧ (f &&& (pteR ||| pteW ||| pteX) != 0) = true →
      ((f ||| pteA ||| pteD ||| pteV) &&& pteG != 0) = true ∧
      ((f ||| pteA ||| pteD ||| pteV) &&& (pteR ||| pteW ||| pteX) != 0) = true := by
    decide +kernel
  rw [isLeaf, has, has, leafPte, flagsOf_mkPte]
  exact hor flags hf

theorem kernelEntry_leaf (next : Ppn) (w : BitVec 64) {flags : BitVec 8} (hf : KernelLeaf flags) :
    KernelEntry next (leafPte w flags) :=
  fun _ => ⟨(leafPte_kernel w hf).1, .inl (leafPte_kernel w hf).2⟩

theorem kernelEntry_table (next : Ppn) : KernelEntry next (ptabPte (pagenumToPageptr next) pteG) := by
  intro _
  refine ⟨?_, .inr ?_⟩
  · rw [has, ptabPte, flagsOf_mkPte]
    decide
  · rw [ptabPte, ppnOf_mkPte, pageptrToPagenum_pagenumToPageptr]

/-- The three tables of the kernel map, of which nothing but the first three entries of
the root is in use. -/
structure KernelMap (img : Image) (ram : Ppn → Page) : Prop where
  root : ∀ i, KernelEntry img.mainPt1 (ram img.mainPt2 i)
  user : ∀ i : Vpn, 3 ≤ i.val → ram img.mainPt2 i = 0
  mid : ∀ i, KernelEntry img.mainPt0 (ram img.mainPt1 i)
  low : ∀ i, has (ram img.mainPt0 i) pteV = true → isLeaf (ram img.mainPt0 i) = true

theorem KernelMap.congr {img : Image} {ram ram' : Ppn → Page} (h : KernelMap img ram)
    (hr : ∀ p ∈ [img.mainPt2, img.mainPt1, img.mainPt0], ram' p = ram p) : KernelMap img ram' := by
  have h₂ := hr img.mainPt2 (by simp)
  have h₁ := hr img.mainPt1 (by simp)
  have h₀ := hr img.mainPt0 (by simp)
  exact ⟨h₂ ▸ h.root, h₂ ▸ h.user, h₁ ▸ h.mid, h₀ ▸ h.low⟩

theorem gigaAddrs : addrs 0 ramStart gigaSize = [0, 0x40000000] := by decide

theorem vpn_gigaAddrs {a : Nat} (h : a ∈ addrs 0 ramStart gigaSize) : (vpn 2 (BitVec.ofNat 64 a)).val < 3 := by
  rw [gigaAddrs] at h
  revert a
  decide

theorem vpn_ramStart : (vpn 2 (BitVec.ofNat 64 ramStart)).val < 3 := by decide

/-- The tables, whatever addresses of the memory are mapped. -/
theorem kernelMap_of_leaves (img : Image) (hzero : ∀ p ∈ [img.mainPt2, img.mainPt1, img.mainPt0], m.ram p = fun _ => 0)
    {giga text rodata data mega : List Nat} (hgiga : ∀ a ∈ giga, (vpn 2 (BitVec.ofNat 64 a)).val < 3)
    {i₂ i₁ : Vpn} (hi₂ : i₂.val < 3) :
    let m := mapLeaves img.mainPt2 2 (pteR ||| pteW ||| pteG) giga m
    let m := m.setWord img.mainPt2 i₂ (ptabPte (pagenumToPageptr img.mainPt1) pteG)
    let m := m.setWord img.mainPt1 i₁ (ptabPte (pagenumToPageptr img.mainPt0) pteG)
    let m := mapLeaves img.mainPt0 0 (pteR ||| pteX ||| pteG) text m
    let m := mapLeaves img.mainPt0 0 (pteR ||| pteG) rodata m
    let m := mapLeaves img.mainPt0 0 (pteR ||| pteW ||| pteG) data m
    KernelMap img (mapLeaves img.mainPt1 1 (pteR ||| pteW ||| pteG) mega m).ram := by
  have hnd := img.nodup
  simp only [List.nodup_cons, List.mem_cons, List.not_mem_nil, or_false, not_or] at hnd
  obtain ⟨⟨h21, h20⟩, h10, -⟩ := hnd
  intro m₁ m₂ m₃ m₄ m₅ m₆
  have hroot : ∀ i, KernelEntry img.mainPt1 (m₂.ram img.mainPt2 i) ∧ (3 ≤ i.val → m₂.ram img.mainPt2 i = 0) := by
    refine setWord_table (P := fun i e => KernelEntry img.mainPt1 e ∧ (3 ≤ i.val → e = 0)) ?_
      ⟨kernelEntry_table _, fun hge => absurd hi₂ (Nat.not_lt.mpr hge)⟩
    refine mapLeaves_table (P := fun i e => KernelEntry img.mainPt1 e ∧ (3 ≤ i.val → e = 0)) (fun j => ?_) fun a ha =>
      ⟨kernelEntry_leaf _ _ ⟨by decide, by decide⟩, fun hge => absurd (hgiga a ha) (Nat.not_lt.mpr hge)⟩
    rw [hzero _ (by simp)]
    exact ⟨kernelEntry_zero _, fun _ => rfl⟩
  have hroot_eq : (mapLeaves img.mainPt1 1 (pteR ||| pteW ||| pteG) mega m₆).ram img.mainPt2 = m₂.ram img.mainPt2 := by
    rw [mapLeaves_ram_of_ne h21, mapLeaves_ram_of_ne h20, mapLeaves_ram_of_ne h20, mapLeaves_ram_of_ne h20,
      setWord_ram_of_ne h21]
  have hmid : ∀ i, KernelEntry img.mainPt0 (m₃.ram img.mainPt1 i) := by
    refine setWord_table (P := fun _ e => KernelEntry img.mainPt0 e) (fun j => ?_) (kernelEntry_table _)
    rw [setWord_ram_of_ne (Ne.symm h21), mapLeaves_ram_of_ne (Ne.symm h21), hzero _ (by simp)]
    exact kernelEntry_zero _
  have hmid_eq : m₆.ram img.mainPt1 = m₃.ram img.mainPt1 := by
    rw [mapLeaves_ram_of_ne h10, mapLeaves_ram_of_ne h10, mapLeaves_ram_of_ne h10]
  have hlow : ∀ i, has (m₆.ram img.mainPt0 i) pteV = true → isLeaf (m₆.ram img.mainPt0 i) = true := by
    refine mapLeaves_table (P := fun _ e => has e pteV = true → isLeaf e = true) ?_ fun a _ _ => (leafPte_kernel _ ⟨by decide, by decide⟩).2
    refine mapLeaves_table (P := fun _ e => has e pteV = true → isLeaf e = true) ?_ fun a _ _ => (leafPte_kernel _ ⟨by decide, by decide⟩).2
    refine mapLeaves_table (P := fun _ e => has e pteV = true → isLeaf e = true) ?_ fun a _ _ => (leafPte_kernel _ ⟨by decide, by decide⟩).2
    intro i hv
    rw [setWord_ram_of_ne (Ne.symm h10), setWord_ram_of_ne (Ne.symm h20), mapLeaves_ram_of_ne (Ne.symm h20),
      hzero _ (by simp)] at hv
    exact absurd hv (by beta_reduce; decide)
  refine ⟨fun i => ?_, fun i hi => ?_, ?_, fun i => ?_⟩
  · rw [hroot_eq]
    exact (hroot i).1
  · rw [hroot_eq]
    exact (hroot i).2 hi
  · refine mapLeaves_table (P := fun _ e => KernelEntry img.mainPt0 e) (fun j => ?_) fun a _ => kernelEntry_leaf _ _ ⟨by decide, by decide⟩
    rw [hmid_eq]
    exact hmid j
  · rw [mapLeaves_ram_of_ne (Ne.symm h10)]
    exact hlow i

theorem mapKernel_kernelMap (img : Image) (hzero : ∀ p ∈ [img.mainPt2, img.mainPt1, img.mainPt0], m.ram p = fun _ => 0) :
    KernelMap img (mapKernel img m).ram :=
  kernelMap_of_leaves img hzero (fun _ ha => vpn_gigaAddrs ha) vpn_ramStart

end Tables

section FreePages

variable {m : Mem} {n cnt : Nat} {q : Ppn}

/-- The pages from n on that linkPages links. -/
def freePages (n cnt : Nat) : List Ppn := (List.range' n (cnt + 1)).map page

theorem page_inj {a b : Nat} (ha : a < 2 ^ 44) (hb : b < 2 ^ 44) (h : page a = page b) : a = b := by
  have := congrArg BitVec.toNat h
  rwa [page, page, BitVec.toNat_ofNat, BitVec.toNat_ofNat, Nat.mod_eq_of_lt ha, Nat.mod_eq_of_lt hb] at this

theorem mem_freePages : q ∈ freePages n cnt ↔ ∃ x ≤ cnt, page (n + x) = q := by
  simp only [freePages, List.mem_map, List.mem_range'_1]
  constructor
  · rintro ⟨a, ha, rfl⟩
    exact ⟨a - n, by omega, by rw [Nat.add_sub_cancel' ha.1]⟩
  · rintro ⟨x, hx, rfl⟩
    exact ⟨n + x, by omega, rfl⟩

theorem freePages_nodup (h : n + cnt < 2 ^ 44) : (freePages n cnt).Nodup := by
  refine List.Nodup.map_on (fun a ha b hb he => ?_) List.nodup_range'
  rw [List.mem_range'_1] at ha hb
  exact page_inj (by omega) (by omega) he

theorem pagenumToPageptr_ne_zero {p : Ppn} (h : p ≠ 0) : pagenumToPageptr p ≠ 0 := by
  intro he
  have := congrArg pageptrToPagenum he
  rw [pageptrToPagenum_pagenumToPageptr] at this
  exact h (this.trans (by decide))

theorem derefPage_pagenumToPageptr {p : Ppn} (h : p ≠ 0) : derefPage (pagenumToPageptr p) = some p := by
  rw [derefPage, if_neg (pagenumToPageptr_ne_zero h), pageptrToPagenum_pagenumToPageptr]

theorem page_ne_zero (h₀ : 0 < n) (h : n < 2 ^ 44) : page n ≠ 0 := by
  intro he
  have := page_inj h (by decide) (show page n = page 0 from he)
  omega

/-- The list of the pages, whatever the links are followed to. -/
theorem linked_range {A : Type} {deref : BitVec 64 → Option A} {f : Ppn → A} {next : A → BitVec 64}
    (hderef : ∀ p, p ≠ 0 → deref (pagenumToPageptr p) = some (f p)) (hnull : deref 0 = none) (h₀ : 0 < n)
    (h : n + cnt < 2 ^ 44) (hnext : ∀ x < cnt, next (f (page (n + x))) = pagenumToPageptr (page (n + x + 1)))
    (hlast : next (f (page (n + cnt))) = 0) :
    Linked deref next (pagenumToPageptr (page n)) ((freePages n cnt).map f) := by
  induction cnt generalizing n with
  | zero =>
      refine ⟨hderef _ (page_ne_zero h₀ h), ?_⟩
      rw [Nat.add_zero] at hlast
      rw [hlast]
      exact hnull
  | succ cnt ih =>
      refine ⟨hderef _ (page_ne_zero h₀ (by omega)), ?_⟩
      rw [show next (f (page n)) = pagenumToPageptr (page (n + 1)) from hnext 0 (by omega)]
      refine ih (by omega) (by omega) (fun x hx => ?_) ?_
      · rw [Nat.add_assoc n 1 x, Nat.add_comm 1 x]
        exact hnext (x + 1) (by omega)
      · rw [Nat.add_assoc n 1 cnt, Nat.add_comm 1 cnt]
        exact hlast

theorem linked_pages {next : Ppn → BitVec 64} (h₀ : 0 < n) (h : n + cnt < 2 ^ 44)
    (hnext : ∀ x < cnt, next (page (n + x)) = pagenumToPageptr (page (n + x + 1))) (hlast : next (page (n + cnt)) = 0) :
    Linked derefPage next (pagenumToPageptr (page n)) (freePages n cnt) := by
  have hl := linked_range (f := id) (fun p hp => derefPage_pagenumToPageptr hp) (by decide) h₀ h hnext hlast
  rwa [List.map_id] at hl

theorem linkLoop (h : n + cnt < 2 ^ 44) (k : Nat) (hk : k ≤ cnt) :
    (∀ x < k, ((List.range k).foldl (fun m x => m.setWord (page (n + x)) 0 (pagenumToPageptr (page (n + x + 1)))) m).ram
      (page (n + x)) 0 = pagenumToPageptr (page (n + x + 1))) ∧
    (∀ q ∉ freePages n cnt, ((List.range k).foldl
      (fun m x => m.setWord (page (n + x)) 0 (pagenumToPageptr (page (n + x + 1)))) m).ram q = m.ram q) := by
  induction k with
  | zero => exact ⟨fun x hx => absurd hx (by omega), fun _ _ => rfl⟩
  | succ k ih =>
      obtain ⟨hlink, hframe⟩ := ih (by omega)
      simp only [List.range_succ, List.foldl_append, List.foldl_cons, List.foldl_nil]
      refine ⟨fun x hx => ?_, fun q hq => ?_⟩
      · by_cases hxk : x = k
        · rw [hxk, setWord_ram_self]
        · have hne : page (n + x) ≠ page (n + k) := fun he => by
            have := page_inj (by omega) (by omega) he
            omega
          rw [setWord_ram_of_ne hne]
          exact hlink x (by omega)
      · rw [setWord_ram_of_ne fun he => hq (mem_freePages.mpr ⟨k, by omega, he.symm⟩)]
        exact hframe q hq

/-- Each page but the last links to the next one. -/
theorem linkPages_links (h : n + cnt < 2 ^ 44) :
    (∀ x < cnt, (linkPages n cnt m).ram (page (n + x)) 0 = pagenumToPageptr (page (n + x + 1))) ∧
      (linkPages n cnt m).ram (page (n + cnt)) 0 = 0 := by
  obtain ⟨hlink, -⟩ := linkLoop (m := m) h cnt (Nat.le_refl _)
  unfold linkPages
  refine ⟨fun x hx => ?_, setWord_ram_self⟩
  have hne : page (n + x) ≠ page (n + cnt) := fun he => by
    have := page_inj (by omega) (by omega) he
    omega
  simp only [setWord_ram_of_ne hne]
  exact hlink x hx

theorem linkPages_spec (h₀ : 0 < n) (h : n + cnt < 2 ^ 44) :
    Linked derefPage (fun p => (linkPages n cnt m).ram p 0) (pagenumToPageptr (page n)) (freePages n cnt) ∧
      ∀ q ∉ freePages n cnt, (linkPages n cnt m).ram q = m.ram q := by
  obtain ⟨hlink, hlast⟩ := linkPages_links (m := m) h
  obtain ⟨-, hframe⟩ := linkLoop (m := m) h cnt (Nat.le_refl _)
  refine ⟨linked_pages h₀ h hlink hlast, fun q hq => ?_⟩
  unfold linkPages
  rw [setWord_ram_of_ne fun he => hq (mem_freePages.mpr ⟨cnt, Nat.le_refl _, he.symm⟩)]
  exact hframe q hq

theorem linkPages_satp : (linkPages n cnt m).satp = m.satp := by
  have hloop : ∀ l : List Nat, (l.foldl (fun m x => m.setWord (page (n + x)) 0 (pagenumToPageptr (page (n + x + 1)))) m).satp =
      m.satp := by
    intro l
    induction l generalizing m with
    | nil => rfl
    | cons x l ih => exact ih
  exact hloop _

end FreePages

section Init

variable {img : Image} {m₀ m : Mem}

theorem roundUp_ge (n : Nat) : n ≤ roundUp n pageSize := by
  unfold roundUp pageSize
  omega

theorem roundUp_mod (n : Nat) : roundUp n pageSize % pageSize = 0 := Nat.mul_mod_left _ _

theorem heapEnd_ge (img : Image) : img.imgEnd ≤ img.heapEnd := by
  have := roundUp_ge img.imgEnd
  simp only [Image.heapEnd]
  split <;> omega

theorem heapEnd_mod (img : Image) : img.heapEnd % pageSize = 0 := by
  simp only [Image.heapEnd]
  split
  · rw [Nat.add_mod, roundUp_mod, roundUp_mod]
    rfl
  · exact roundUp_mod _

theorem ofNat_page {n : Nat} (h : n < 2 ^ 44) : BitVec.ofNat 64 (n * pageSize) = pagenumToPageptr (page n) := by
  apply BitVec.eq_of_toNat_eq
  simp only [pagenumToPageptr, page, BitVec.toNat_ofNat, BitVec.toNat_shiftLeft, BitVec.toNat_setWidth, Nat.shiftLeft_eq,
    Nat.mod_eq_of_lt h]
  unfold pageSize
  omega

/-- The memory after memory_init. -/
structure Booted (img : Image) (m : Mem) (free : List Ppn) : Prop where
  list : FreeList m free
  nodup : free.Nodup
  map : KernelMap img m.ram
  satp : m.satp = rootToMtag (pagenumToPageptr img.mainPt2)
  apart : ∀ p ∈ [img.mainPt2, img.mainPt1, img.mainPt0], p ∉ free
  zero : 0 ∉ free
  length : free.length = (img.ramEnd - img.heapEnd) / pageSize

/-- The page tables of the kernel and the pages from n on, which memory_init links. -/
structure Linking (img : Image) (m₀ m : Mem) (n cnt : Nat) : Prop where
  bound : n + cnt < 2 ^ 44
  pos : 0 < n
  length : (img.ramEnd - img.heapEnd) / pageSize = cnt + 1
  apart : ∀ p ∈ [img.mainPt2, img.mainPt1, img.mainPt0], p ∉ freePages n cnt
  zero : 0 ∉ freePages n cnt
  result : m = (linkPages n cnt (memorySpaceSwitch (mapKernel img m₀) (rootToMtag (pagenumToPageptr img.mainPt2)))).setFreeList
    (pagenumToPageptr (page n))

theorem memoryInit_linking (hrun : memoryInit img m₀ = some m) : ∃ n cnt, Linking img m₀ m n cnt := by
  simp only [memoryInit] at hrun
  generalize hmk : mapKernel img m₀ = mk at hrun
  split at hrun
  · cases hrun
  split at hrun
  · cases hrun
  split at hrun
  · cases hrun
  rename_i hbig hram hcnt
  have hsize := img.ramSize_le
  have hge := heapEnd_ge img
  have hin := img.inside
  obtain ⟨n, hn⟩ : ∃ n, n = img.heapEnd / pageSize := ⟨_, rfl⟩
  obtain ⟨cnt, hcnt_eq⟩ : ∃ cnt, (img.ramEnd - img.heapEnd) / pageSize = cnt + 1 := Nat.exists_eq_succ_of_ne_zero hcnt
  have hheap : img.heapEnd = n * pageSize := by
    rw [hn, Nat.div_mul_cancel (Nat.dvd_of_mod_eq_zero (heapEnd_mod img))]
  have hbound : n + cnt < 2 ^ 44 := by
    rw [hheap, Image.ramEnd] at hcnt_eq
    simp only [ramStart, gigaSize, megaSize, pageSize] at hcnt_eq hsize
    omega
  have htable : ∀ p ∈ [img.mainPt2, img.mainPt1, img.mainPt0], p.toNat < n := by
    intro p hp
    have := (hin p hp).2
    rw [hheap] at hge
    exact Nat.lt_of_mul_lt_mul_right (a := pageSize) (by unfold pageSize at *; omega)
  have hpos : 0 < n := Nat.lt_of_le_of_lt (Nat.zero_le _) (htable img.mainPt2 (by simp))
  have hapart : ∀ p, p.toNat < n → p ∉ freePages n cnt := by
    intro p hp hm
    obtain ⟨x, hx, rfl⟩ := mem_freePages.mp hm
    rw [page, BitVec.toNat_ofNat, Nat.mod_eq_of_lt (by omega)] at hp
    omega
  rw [← hn, hcnt_eq, Nat.add_sub_cancel, hheap, ofNat_page (by omega)] at hrun
  exact ⟨n, cnt, hbound, hpos, hcnt_eq, fun p hp => hapart p (htable p hp), hapart 0 hpos,
    by rw [hmk]; exact (Option.some.inj hrun).symm⟩

theorem Linking.ram {n cnt : Nat} (h : Linking img m₀ m n cnt) {p : Ppn} (hp : p ∉ freePages n cnt) :
    m.ram p = (mapKernel img m₀).ram p := by
  obtain ⟨-, hframe⟩ := linkPages_spec
    (m := memorySpaceSwitch (mapKernel img m₀) (rootToMtag (pagenumToPageptr img.mainPt2))) h.pos h.bound
  rw [h.result, setFreeList_ram, hframe p hp, memorySpaceSwitch_ram]

theorem memoryInit_booted (hzero : ∀ p ∈ [img.mainPt2, img.mainPt1, img.mainPt0], m₀.ram p = fun _ => 0)
    (hrun : memoryInit img m₀ = some m) : ∃ free, Booted img m free := by
  obtain ⟨n, cnt, h⟩ := memoryInit_linking hrun
  obtain ⟨hlinked, -⟩ := linkPages_spec
    (m := memorySpaceSwitch (mapKernel img m₀) (rootToMtag (pagenumToPageptr img.mainPt2))) h.pos h.bound
  refine ⟨freePages n cnt, ⟨?_, freePages_nodup h.bound, ?_, ?_, h.apart, h.zero, ?_⟩⟩
  · rw [h.result]
    exact .of_linked hlinked
  · exact (mapKernel_kernelMap img hzero).congr fun p hp => h.ram (h.apart p hp)
  · rw [h.result, setFreeList_satp, linkPages_satp, memorySpaceSwitch_satp]
  · rw [h.length, freePages, List.length_map, List.length_range']

theorem memoryInit_some (m : Mem) (hbig : ¬ megaSize < img.imgEnd - img.imgStart) (hram : ¬ img.ramEnd < img.heapEnd)
    (hcnt : (img.ramEnd - img.heapEnd) / pageSize ≠ 0) : ∃ m', memoryInit img m = some m' := by
  simp only [memoryInit]
  rw [if_neg hbig, if_neg hram, if_neg hcnt]
  exact ⟨_, rfl⟩

section Booted

variable {free : List Ppn}

theorem kernelEntry_child {next : Ppn} {e : BitVec 64} (h : KernelEntry next e) : child e = none := by
  cases hc : child e with
  | none => rfl
  | some c =>
      obtain ⟨hv, hg, -⟩ := child_eq_some.mp hc
      exact absurd (hg.symm.trans (h hv).1) (by decide)

theorem Booted.root (h : Booted img m free) : rootOf m.satp = img.mainPt2 := by
  rw [h.satp, rootOf, root_rootToMtag, pageptrToPagenum_pagenumToPageptr]

theorem Booted.owned (h : Booted img m free) : layout.owned 3 m.ram (rootOf m.satp) = [img.mainPt2] := by
  rw [h.root, owned_succ, List.flatMap_eq_nil_iff.mpr]
  exact fun i _ => children_none (kernelEntry_child (h.map.root i))

theorem Booted.all (h : Booted img m free) {Q : Nat → BitVec 64 → Prop} (hQ : ∀ i, Q 2 (m.ram img.mainPt2 i)) :
    layout.All Q 3 m.ram (rootOf m.satp) := by
  intro i
  rw [h.root]
  exact ⟨hQ i, fun c hc => by cases (kernelEntry_child (h.map.root i)).symm.trans hc⟩

end Booted

end Init

end RiscvKernel.MemoryInit
