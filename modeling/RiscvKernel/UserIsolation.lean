import RiscvKernel.BootMap
import RiscvKernel.PointUpdate

namespace RiscvKernel.UserIsolation

open Memory PageTree AddressSpace MapPage SpaceClone MemoryInit Unmap Lib.LinkedList Lib.PointerTree
open PageOwnership hiding Run
open DeepCopy (userStore)
open VirtualMemory (memorySetPageFlags setFlags)
open UserImage (OwnEntry entryAt)

/-! User programs store to memory between the operations of the kernel on it. -/

/-- The pages from the end of the heap to the end of the memory. -/
def InPool (img : Image) (p : Ppn) : Prop :=
  img.heapEnd ≤ p.toNat * pageSize ∧ (p.toNat + 1) * pageSize ≤ img.ramEnd

inductive Act
  | kernel (op : Op)
  | protect (vp : BitVec 64) (rwxugFlags : BitVec 8)
  | store (vma w : BitVec 64)

/-- An operation of memory.c, memory_set_page_flags of a user address, or a store of the user
program that runs in the active space. -/
def act (s : Kernel) : Act → Option Kernel
  | .kernel op => step s op
  | .protect vp rwxugFlags =>
      if userStart ≤ vp ∧ vp < userEnd then (memorySetPageFlags s.mem vp rwxugFlags).map s.setMem else none
  | .store vma w => (userStore s.mem vma w).map s.setMem

/-- No mapping is global, as no caller asks for one. -/
def Plain : Op → Prop
  | .map _ rwxugFlags => rwxugFlags &&& pteG = 0
  | _ => True

/-- When no page is freed that stays mapped, and flags are set of mapped pages only. -/
def Act.Safe (s : Kernel) : Act → Prop
  | .kernel op => op.Safe s ∧ Plain op
  | .protect vp rwxugFlags => rwxugFlags &&& pteG = 0 ∧ entryAt s.mem.ram (rootOf s.mem.satp) vp ≠ none
  | .store _ _ => True

def Does (s s' : Kernel) : Prop := ∃ a : Act, a.Safe s ∧ act s a = some s'

section Boot

variable {img : Image} {m₀ m : Mem}

theorem heapEnd_page (img : Image) : img.heapEnd = img.heapEnd / pageSize * pageSize :=
  (Nat.div_mul_cancel (Nat.dvd_of_mod_eq_zero (heapEnd_mod img))).symm

theorem freePages_pool {cnt : Nat} (hcnt : (img.ramEnd - img.heapEnd) / pageSize = cnt + 1) {p : Ppn}
    (hp : p ∈ freePages (img.heapEnd / pageSize) cnt) : InPool img p := by
  obtain ⟨x, hx, rfl⟩ := mem_freePages.mp hp
  have hsize := img.ramSize_le
  have hheap := heapEnd_page img
  obtain ⟨n, hn⟩ : ∃ n, n = img.heapEnd / pageSize := ⟨_, rfl⟩
  rw [← hn] at hheap ⊢
  have hend : (n + cnt + 1) * pageSize ≤ img.ramEnd := by
    simp only [pageSize] at hheap hcnt ⊢
    omega
  have hnum : (page (n + x)).toNat = n + x := by
    rw [page, BitVec.toNat_ofNat]
    refine Nat.mod_eq_of_lt ?_
    simp only [Image.ramEnd, ramStart, gigaSize, megaSize, pageSize] at hsize hend
    omega
  rw [InPool, hnum]
  simp only [pageSize] at hheap hend ⊢
  omega

/-- The free pages after memory_init. -/
theorem memoryInit_pool (hrun : memoryInit img m₀ = some m) {free : List Ppn} (hfree : FreeList m free) :
    ∀ p ∈ free, InPool img p := by
  have hheap := heapEnd_page img
  have hsize := img.ramSize_le
  have hge := heapEnd_ge img
  simp only [memoryInit] at hrun
  split at hrun
  · cases hrun
  split at hrun
  · cases hrun
  split at hrun
  · cases hrun
  obtain ⟨cnt, hcnt⟩ : ∃ cnt, (img.ramEnd - img.heapEnd) / pageSize = cnt + 1 := Nat.exists_eq_succ_of_ne_zero ‹_›
  rw [hcnt, Nat.add_sub_cancel] at hrun
  have hlarge : 0 < img.heapEnd / pageSize := by
    rw [Image.ramEnd] at hcnt
    have hstart := img.start
    have hin := (img.inside img.mainPt2 (by simp)).2
    simp only [ramStart, pageSize] at hstart hin hheap ⊢
    omega
  have hbound : img.heapEnd / pageSize + cnt < 2 ^ 44 := by
    simp only [Image.ramEnd, ramStart, gigaSize, megaSize, pageSize] at hsize hcnt ⊢
    omega
  obtain ⟨hlinked, -⟩ := linkPages_spec (m := memorySpaceSwitch (mapKernel img m₀)
    (rootToMtag (pagenumToPageptr img.mainPt2))) hlarge hbound
  have hlist : FreeList m (freePages (img.heapEnd / pageSize) cnt) := by
    rw [← Option.some.inj hrun, hheap, ofNat_page (by omega)]
    rw [← hheap]
    exact .of_linked hlinked
  rw [hfree.unique hlist]
  exact fun p => freePages_pool hcnt

end Boot

section Map

variable {Q : Nat → BitVec 64 → Prop} {m m' : Mem} {root : Ppn} {free : List Ppn} {vma : BitVec 64} {flags : BitVec 8}

/-- walk_pt leaves the other entries of the root alone. -/
theorem walkPt_root {pt0 : Ppn} {i' : Vpn} (h₀ : ∀ k, Q k 0) (ht : ∀ k w, Q (k + 1) (ptabPte w 0))
    (h : Space Q m root free)
    (hway : ownWay m.ram root vma = true) (hrun : walkPt m root vma = some ((pt0, i'), m')) :
    root ≠ pt0 ∧ ∀ i, i ≠ vpn 2 vma → m'.ram root i = m.ram root i := by
  simp only [ownWay, Bool.or_eq_true, Bool.and_eq_true, Bool.not_eq_true'] at hway
  have hg₂ : has (m.ram root (vpn 2 vma)) pteV = true → has (m.ram root (vpn 2 vma)) pteG = false := by
    intro hv
    rw [hv] at hway
    exact (hway.resolve_left (by decide)).1
  obtain ⟨⟨pt1, m₁⟩, hstep₂, hrun⟩ := Option.bind_eq_some_iff.mp hrun
  obtain ⟨⟨pt0', m₂⟩, hstep₁, hrun⟩ := Option.bind_eq_some_iff.mp hrun
  obtain ⟨he, rfl⟩ := Prod.mk.inj (Option.some.inj hrun)
  obtain ⟨rfl, -⟩ := Prod.mk.inj he
  rcases walkStep_found h₀ ht h (.root 3 root) hg₂ with ⟨hnone, -⟩ | ⟨c, m₁', free₁, hsome, hf₂⟩
  · cases hnone.symm.trans hstep₂
  obtain ⟨rfl, rfl⟩ := Prod.mk.inj (Option.some.inj (hsome.symm.trans hstep₂))
  have hg₁ : has (m₁'.ram c (vpn 1 vma)) pteV = true → has (m₁'.ram c (vpn 1 vma)) pteG = false := by
    intro hv
    rcases hf₂.table with ⟨rfl, hv₂, rfl⟩ | hzero
    · rw [hv₂, hv] at hway
      exact (hway.resolve_left (by decide)).2.resolve_left (by decide)
    · rw [hzero] at hv
      exact absurd hv (by beta_reduce; decide)
  have hn₁ : layout.Node m₁'.ram 3 root 2 c := hf₂.node.child hf₂.entry
  rcases walkStep_found h₀ ht hf₂.within.space hn₁ hg₁ with ⟨hnone, -⟩ | ⟨c', m₂', free₂, hsome, hf₁⟩
  · cases hnone.symm.trans hstep₁
  obtain ⟨rfl, rfl⟩ := Prod.mk.inj (Option.some.inj (hsome.symm.trans hstep₁))
  have hne : root ≠ c := fun he => by
    refine root_not_mem_children (List.nodup_append.mp hf₂.within.space.nodup).1 (vpn 2 vma) ?_
    rw [children_some hf₂.entry, ← he]
    exact self_mem_owned _ _ _
  have hframe : m₂'.ram root = m₁'.ram root := hf₁.frame root (self_mem_owned _ _ _) hne
  refine ⟨fun he => ?_, fun i hi => ?_⟩
  · refine root_not_mem_children (List.nodup_append.mp hf₁.within.space.nodup).1 (vpn 2 vma) ?_
    rw [children_some (by rw [hframe]; exact hf₂.entry), he]
    exact children_subset (vpn 1 vma) (by rw [children_some hf₁.entry]; exact self_mem_owned _ _ _)
  · rw [hframe]
    exact hf₂.rest i hi

theorem memoryAllocAndMapPage_root (h₀ : ∀ k, Q k 0) (ht : ∀ k w, Q (k + 1) (ptabPte w 0))
    (h : Space Q m (rootOf m.satp) free) (hway : ownWay m.ram (rootOf m.satp) vma = true)
    (hrun : memoryAllocAndMapPage m vma flags = some m') :
    ∀ i, i ≠ vpn 2 vma → m'.ram (rootOf m.satp) i = m.ram (rootOf m.satp) i := by
  intro i hi
  rw [memoryAllocAndMapPage] at hrun
  split at hrun
  · cases hrun
  obtain ⟨⟨w, m₁⟩, halloc, hrun⟩ := Option.bind_eq_some_iff.mp hrun
  obtain ⟨⟨⟨pt0, i'⟩, m₂⟩, hwalk, hrun⟩ := Option.bind_eq_some_iff.mp hrun
  obtain rfl := Option.some.inj hrun
  cases free with
  | nil =>
      rw [h.list.alloc_nil] at halloc
      cases halloc
  | cons p free =>
      obtain ⟨w', m₁', halloc', hw, hzero, hp, hsame, hwithin⟩ := h.take
      obtain ⟨rfl, rfl⟩ := Prod.mk.inj (Option.some.inj (halloc'.symm.trans halloc))
      have hpo : p ∉ layout.owned 3 m.ram (rootOf m.satp) := fun hm =>
        (List.nodup_append.mp h.nodup).2.2 p hm p List.mem_cons_self rfl
      have hway₁ := (ownWay_congr fun x hx => hsame x fun he => hpo (he ▸ hx)).trans hway
      have hroot : pageptrToPagenum m₁'.activeSpaceRoot = rootOf m.satp := by
        rw [Mem.activeSpaceRoot, hwithin.satp, rootOf]
      simp only [hroot] at hwalk
      obtain ⟨hne, hkept⟩ := walkPt_root h₀ ht hwithin.space hway₁ hwalk
      rw [setWord_ram_of_ne hne, hkept i hi, hsame _ fun he => hpo (he ▸ self_mem_owned _ _ _)]

theorem within_reflag {q : Ppn} {i : Vpn} {w : BitVec 64} (h : Space Q m root free) (hn : layout.Node m.ram 3 root 1 q)
    (hchild : child w = child (m.ram q i)) (hq : Q 0 w) : Within Q root m free (m.setWord q i w) free := by
  have hnd := (List.nodup_append.mp h.nodup).1
  have hoff : ∀ x, x ≠ q → (m.setWord q i w).ram x = m.ram x := fun x hx => setWord_ram_of_ne hx
  obtain ⟨rest, hold, hnew⟩ := owned_set (i := i) hn hnd hoff fun i' hi' => setWord_ram_idx hi'
  have hchildren : layout.children 0 (m.setWord q i w).ram q i = layout.children 0 m.ram q i := by
    simp only [Layout.children, setWord_ram_self, layout, hchild, Layout.owned]
  rw [hchildren] at hnew
  refine ⟨h.reflag hn hchild hq, fun x hx => ?_, fun x hx => hoff x fun he => ?_, rfl⟩
  · exact ((hnew.trans hold.symm).append_right free).subset hx
  · exact hx (he ▸ List.mem_append_left _ hn.mem)

theorem within_write {p : Ppn} {i : Vpn} {w : BitVec 64} (h : Space Q m root free) (hn : layout.Node m.ram 3 root 0 p) :
    Within Q root m free (m.setWord p i w) free := by
  have hnd := (List.nodup_append.mp h.nodup).1
  obtain ⟨howned, -⟩ := owned_leaf (Q := Q) hn hnd fun x hx => setWord_ram_of_ne (m := m) (i := i) (w := w) hx
  refine ⟨UserImage.spaceWrite h hn, fun x hx => ?_, fun x hx => setWord_ram_of_ne fun he => ?_, rfl⟩
  · rw [MapPage.region, howned] at hx
    exact hx
  · exact hx (he ▸ List.mem_append_left _ hn.mem)

/-- The root is neither a level-0 table nor a user page. -/
theorem root_ne {j : Nat} {q : Ppn} (h : Space Q m root free) (hn : layout.Node m.ram 3 root j q) (hj : j < 3) :
    root ≠ q := by
  cases hn with
  | root => omega
  | @step _ _ _ c q i hc hn =>
      refine fun he => root_not_mem_children (List.nodup_append.mp h.nodup).1 i ?_
      rw [children_some hc, he]
      exact hn.mem

end Map

/-- What a run keeps, besides the ownership of the pages: the spaces and the free list have pages of
the pool only, no mapping of a space is global but those of the kernel, and these are as at the
start, as is all memory outside the pool but the main root. -/
structure Confined (img : Image) (m₀ : Mem) (s : Kernel) (free : List Ppn) : Prop where
  inv : Inv img s free
  main : rootOf s.mainMtag = img.mainPt2
  free : ∀ p ∈ free, InPool img p
  own : ∀ t ∈ s.tags, ∀ p ∈ layout.owned 3 s.mem.ram (rootOf t), p = img.mainPt2 ∨ InPool img p
  entries : ∀ t ∈ s.tags, layout.All OwnEntry 3 s.mem.ram (rootOf t)
  root : ∀ t ∈ s.tags, ∀ i : Vpn, i.val < 3 → s.mem.ram (rootOf t) i = m₀.ram img.mainPt2 i
  outside : ∀ p, p ≠ img.mainPt2 → ¬ InPool img p → s.mem.ram p = m₀.ram p

section Step

variable {img : Image} {m₀ m' : Mem} {s s' : Kernel} {free free' : List Ppn} {t : BitVec 64} {vma : BitVec 64}
  {flags : BitVec 8}

theorem Confined.region (h : Confined img m₀ s free) (ht : t ∈ s.tags) {p : Ppn}
    (hp : p ∈ region s.mem (rootOf t) free) : p = img.mainPt2 ∨ InPool img p :=
  (List.mem_append.mp hp).elim (h.own t ht p) fun hp => .inr (h.free p hp)

/-- The main root is not free. -/
theorem main_not_free (hi : Inv img s free) (hmain : rootOf s.mainMtag = img.mainPt2) : img.mainPt2 ∉ free := by
  rw [← hmain]
  exact hi.owned_not_free List.mem_cons_self (self_mem_owned _ _ _)

/-- A change by the active space, in its region, that leaves the kernel's part of its root alone. -/
theorem Confined.within (h : Confined img m₀ s free) (hinv : Inv img (s.setMem m') free')
    (hw : Within OwnEntry (rootOf s.mem.satp) s.mem free m' free')
    (hroot : ∀ i : Vpn, i.val < 3 → m'.ram (rootOf s.mem.satp) i = s.mem.ram (rootOf s.mem.satp) i) :
    Confined img m₀ (s.setMem m') free' := by
  have hact := h.inv.active
  have hsame : ∀ t ∈ s.tags, t ≠ s.mem.satp → ∀ p ∈ layout.owned 3 s.mem.ram (rootOf t), m'.ram p = s.mem.ram p :=
    fun t ht hne p hp => hw.frame p (h.inv.not_mem_region hact ht hne hp)
  refine ⟨hinv, h.main, fun p hp => ?_, fun t ht p hp => ?_, fun t ht => ?_, fun t ht i hi => ?_,
    fun p hp hpool => ?_⟩
  · refine (h.region hact (hw.sub (List.mem_append_right _ hp))).resolve_left fun he => ?_
    exact main_not_free hinv h.main (he ▸ hp)
  · by_cases hne : t = s.mem.satp
    · subst hne
      exact h.region hact (hw.sub (List.mem_append_left _ hp))
    · rw [Kernel.setMem_mem, owned_congr (hsame t ht hne)] at hp
      exact h.own t ht p hp
  · by_cases hne : t = s.mem.satp
    · subst hne
      exact hw.space.all
    · exact (h.entries t ht).congr (hsame t ht hne)
  · by_cases hne : t = s.mem.satp
    · subst hne
      exact (hroot i hi).trans (h.root _ ht i hi)
    · rw [Kernel.setMem_mem, hsame t ht hne _ (self_mem_owned _ _ _)]
      exact h.root t ht i hi
  · rw [Kernel.setMem_mem, hw.frame p fun hm => (h.region hact hm).elim hp hpool]
    exact h.outside p hp hpool

theorem Confined.space (h : Confined img m₀ s free) (ht : t ∈ s.tags) : Space OwnEntry s.mem (rootOf t) free :=
  ⟨(h.inv.spaces t ht).list, (h.inv.spaces t ht).nodup, h.entries t ht⟩

/-- memory_alloc_and_map_page of a user address. -/
theorem Confined.map (h : Confined img m₀ s free) (hi : 3 ≤ (vpn 2 vma).val) (hg : flags &&& pteG = 0)
    (hrun : memoryAllocAndMapPage s.mem vma flags = some m') : ∃ free', Confined img m₀ (s.setMem m') free' := by
  have hspace := h.space h.inv.active
  have hway := h.inv.ownWay h.inv.active hi
  obtain ⟨free₁, hinv⟩ := h.inv.map hi hrun
  obtain ⟨w, free', hm⟩ := memoryAllocAndMapPage_within UserImage.ownEntry_zero UserImage.ownEntry_ptabPte
    (fun w _ => UserImage.UserSpace.leaf_ok hg w) hspace hway hrun
  have hfree : free₁ = free' := (hinv.spaces _ hinv.active).list.unique hm.within.space.list
  have hother := memoryAllocAndMapPage_root UserImage.ownEntry_zero UserImage.ownEntry_ptabPte hspace hway hrun
  refine ⟨free', h.within (hfree ▸ hinv) hm.within fun i hi' => hother i fun he => ?_⟩
  rw [he] at hi'
  omega

theorem ownEntry_copy {k : Nat} {e e' : BitVec 64} {c : Ppn} (hc : child e = some c) (h : OwnEntry k e)
    (hf : flagsOf e' = flagsOf e ||| added k) : OwnEntry k e' := by
  obtain ⟨hv, hg, -⟩ := child_eq_some.mp hc
  obtain ⟨hor₀, hor₁, horl⟩ := flags_or_added (flagsOf e)
  match k with
  | 0 =>
      intro _
      rw [has, hf]
      exact hor₀.trans hg
  | 1 =>
      intro _
      rw [isLeaf, has, has, hf]
      exact ⟨hor₁.trans (h hv).1, horl.trans (h hv).2⟩
  | k + 2 =>
      intro _ _
      rw [isLeaf, has, hf]
      exact horl.trans (h hv hg)

/-- memory_space_clone of the active space. -/
theorem Confined.clone (hmap : KernelMap img m₀.ram) (h : Confined img m₀ s free) {mtag : BitVec 64}
    (hrun : memorySpaceClone s.mem = some (mtag, m')) :
    ∃ free', Confined img m₀ ⟨m', s.mainMtag, mtag :: s.clones⟩ free' := by
  have hact := h.inv.active
  obtain ⟨free₁, hinv⟩ := h.inv.clone hrun
  rcases memorySpaceClone_forked (h.inv.spaces _ hact).list (h.inv.spaces _ hact).nodup with ⟨hnone, -⟩ |
    ⟨mtag', m'', u, free', hsome, hf⟩
  · cases hnone.symm.trans hrun
  obtain ⟨rfl, rfl⟩ := Prod.mk.inj (Option.some.inj (hsome.symm.trans hrun))
  have hfree : free₁ = free' := (hinv.spaces _ hinv.active).list.unique hf.list
  have htags : ∀ t, t ∈ Kernel.tags ⟨m'', s.mainMtag, mtag' :: s.clones⟩ → t = mtag' ∨ t ∈ s.tags := by
    intro t ht
    simp only [Kernel.tags, List.mem_cons] at ht ⊢
    exact or_left_comm.mp ht
  have hnew : ∀ p ∈ layout.owned 3 m''.ram (rootOf mtag'), p ∈ free := by
    intro p hp
    rw [← hf.region_eq]
    exact List.mem_append_left _ hp
  refine ⟨free', hfree ▸ hinv, h.main, fun p hp => h.free p (hf.sublist.subset hp), fun t ht p hp => ?_, fun t ht => ?_,
    fun t ht i hi => ?_,
    fun p hp hpool => ?_⟩
  · rcases htags t ht with rfl | ht
    · exact .inr (h.free p (hnew p hp))
    · exact h.own t ht p ((hf.oldSpace (h.space ht)).2 ▸ hp)
  · rcases htags t ht with rfl | ht
    · exact (hf.newSpace (h.space hact) ownEntry_copy).all
    · exact (hf.oldSpace (h.space ht)).1.all
  · rcases htags t ht with rfl | ht
    · have hentry : EntryCopy 2 s.mem.ram (rootOf s.mem.satp) m''.ram (rootOf t) i := hf.copy i
      have hold := h.root _ hact i hi
      rw [entryCopy_none (by rw [hold]; exact kernelEntry_child (hmap.root i))] at hentry
      exact hentry.trans hold
    · have hsame : m''.ram (rootOf t) = s.mem.ram (rootOf t) :=
        hf.unchanged _ (h.inv.owned_not_free ht (self_mem_owned _ _ _))
      rw [show Kernel.mem ⟨m'', s.mainMtag, mtag' :: s.clones⟩ = m'' from rfl, hsame]
      exact h.root t ht i hi
  · exact (hf.unchanged p fun hm => hpool (h.free p hm)).trans (h.outside p hp hpool)

theorem Confined.switch (h : Confined img m₀ s free) {mtag : BitVec 64} (hm : mtag ∈ s.tags) :
    Confined img m₀ (s.setMem (memorySpaceSwitch s.mem mtag)) free :=
  ⟨h.inv.switch hm, h.main, h.free, h.own, h.entries, h.root, h.outside⟩

theorem Confined.exec (h : Confined img m₀ s free) (hnone : s.userPages = []) :
    Confined img m₀ (s.setMem (memoryUnmapAndFreeUser s.mem)) free := by
  rw [h.inv.unmap_eq, hnone]
  exact h

/-- A user page of a space is in the pool. -/
theorem Confined.userPage (h : Confined img m₀ s free) (ht : t ∈ s.tags) {p : Ppn}
    (hp : layout.Node s.mem.ram 3 (rootOf t) 0 p) : InPool img p := by
  refine (h.own t ht p hp.mem).resolve_left fun he => ?_
  have hmain : s.mainMtag ∈ s.tags := List.mem_cons_self
  by_cases hne : t = s.mainMtag
  · subst hne
    refine (Layout.Node.root 3 _).ne_leaf (List.nodup_append.mp (h.inv.spaces _ ht).nodup).1 hp ?_
    rw [he, h.main]
  · refine h.inv.apart t ht s.mainMtag hmain hne p hp.mem ?_
    rw [he, ← h.main]
    exact self_mem_owned _ _ _

/-- memory_space_reclaim. -/
theorem Confined.reclaim (h : Confined img m₀ s free) (hmay : s.MayReclaim) :
    ∃ free', Confined img m₀ s.reclaim free' := by
  have hact := h.inv.active
  obtain ⟨free', hinv⟩ := h.inv.reclaim hmay
  obtain ⟨l, hl⟩ : ∃ l, l = s.userPages := ⟨_, rfl⟩
  have hmem : s.reclaim.mem = memorySpaceSwitch (freeAll s.mem l) s.mainMtag := by
    rw [Kernel.reclaim, memorySpaceReclaim, h.inv.unmap_eq, hl]
  have hram : s.reclaim.mem.ram = (freeAll s.mem l).ram := by rw [hmem, memorySpaceSwitch_ram]
  have hlist : s.reclaim.mem.freeList = (freeAll s.mem l).freeList := by rw [hmem, memorySpaceSwitch]
  have hmain' : s.reclaim.mainMtag = s.mainMtag := by rw [Kernel.reclaim]
  have hclones : s.reclaim.tags = s.mainMtag :: s.clones.erase s.mem.satp := by rw [Kernel.reclaim, Kernel.tags]
  generalize s.reclaim = r at hinv hmem hram hlist hmain' hclones ⊢
  have hnode : ∀ p ∈ l, layout.Node s.mem.ram 3 (rootOf s.mem.satp) 0 p := by
    intro p hp
    obtain ⟨q, i, hn, hv, -, rfl⟩ := mem_targets.mp (hl ▸ hp)
    exact hn.child (child_eq_some.mpr ⟨hv, ((h.entries _ hact).node hn i).1 hv, rfl⟩)
  have hpool : ∀ p ∈ l, InPool img p := fun p hp => h.userPage hact (hnode p hp)
  have htags : ∀ t ∈ r.tags, t ∈ s.tags := by
    intro t ht
    rw [hclones] at ht
    rcases List.mem_cons.mp ht with rfl | ht
    · exact List.mem_cons_self
    · exact List.mem_cons_of_mem _ (List.erase_subset ht)
  have hstay : ∀ t ∈ r.tags, ∀ p ∈ layout.owned 3 s.mem.ram (rootOf t), (freeAll s.mem l).ram p = s.mem.ram p := by
    intro t ht p hp
    refine freeAll_ram fun hm => ?_
    rcases hmay with hnil | ⟨hmain, -, -⟩
    · rw [hl, hnil] at hm
      cases hm
    · have hne : t ≠ s.mem.satp := by
        have ht := ht
        rw [hclones] at ht
        rcases List.mem_cons.mp ht with rfl | ht
        · exact Ne.symm hmain
        · exact ((List.nodup_cons.mp h.inv.tags).2.mem_erase_iff.mp ht).1
      exact h.inv.apart _ hact t (htags t ht) (Ne.symm hne) p (hnode p hm).mem hp
  have hfree : FreeList r.mem (l.reverse ++ free) := by
    have hnd : l.Nodup := by
      rcases hmay with hnil | ⟨-, hnd, -⟩
      · rw [hl, hnil]
        exact List.nodup_nil
      · exact hl ▸ hnd
    have hspace := h.inv.spaces _ hact
    refine FreeList.congr (freeList_freeAll hspace.list (List.nodup_append.mpr ⟨hnd,
      (List.nodup_append.mp hspace.nodup).2.1, fun p hp q hq he => ?_⟩) fun hm => ?_) hlist fun q _ => by rw [hram]
    · exact h.inv.owned_not_free hact (hnode p hp).mem (he ▸ hq)
    · exact h.inv.kernel 0 (by simp) (.inr ⟨_, hact, (hnode 0 hm).mem⟩)
  have heq : free' = l.reverse ++ free := (hinv.spaces _ hinv.active).list.unique hfree
  refine ⟨free', hinv, hmain' ▸ h.main, fun p hp => ?_, fun t ht p hp => ?_, fun t ht => ?_, fun t ht i hi => ?_,
    fun p hp hno => ?_⟩
  · rw [heq, List.mem_append, List.mem_reverse] at hp
    exact hp.elim (hpool p) (h.free p)
  · rw [hram, owned_congr (hstay t ht)] at hp
    exact h.own t (htags t ht) p hp
  · rw [hram]
    exact (h.entries t (htags t ht)).congr (hstay t ht)
  · rw [hram, hstay t ht _ (self_mem_owned _ _ _)]
    exact h.root t (htags t ht) i hi
  · rw [hram, freeAll_ram fun hm => hno (hpool p hm)]
    exact h.outside p hp hno

/-- Other flags of a mapped user page, or another word in it. -/
theorem Confined.change (h : Confined img m₀ s free) (hw : ∀ Q, Space Q s.mem (rootOf s.mem.satp) free →
      (∀ e, OwnEntry 0 e → Q 0 e) → Within Q (rootOf s.mem.satp) s.mem free m' free)
    (hroot : m'.ram (rootOf s.mem.satp) = s.mem.ram (rootOf s.mem.satp)) : Confined img m₀ (s.setMem m') free := by
  have hact := h.inv.active
  have hown : ∀ e, OwnEntry 0 e → EntryOk img (s.Zone free) 0 e := fun e he hv hg => by
    rw [he hv] at hg
    cases hg
  refine h.within (h.inv.within (hw _ (h.inv.spaces _ hact) hown) (fun i => .inl (by rw [hroot])) fun _ _ hz => hz)
    (hw _ (h.space hact) fun _ he => he) fun i _ => by rw [hroot]

/-- memory_set_page_flags of a mapped user address. -/
theorem Confined.protect (h : Confined img m₀ s free) (hu : UserImage.IsUser vma) (hg : flags &&& pteG = 0)
    (hmapped : entryAt s.mem.ram (rootOf s.mem.satp) vma ≠ none) (hrun : memorySetPageFlags s.mem vma flags = some m') :
    Confined img m₀ (s.setMem m') free := by
  have hspace := h.space h.inv.active
  obtain ⟨e, he⟩ := Option.ne_none_iff_exists'.mp hmapped
  obtain ⟨q, hwalk, hq, heq⟩ := UserImage.walkPtFind_entry hu he
  rw [memorySetPageFlags, show pageptrToPagenum s.mem.activeSpaceRoot = rootOf s.mem.satp from rfl, hwalk] at hrun
  obtain rfl := Option.some.inj hrun
  simp only [heq]
  have hown : OwnEntry 0 (setFlags e (flags ||| pteA ||| pteD ||| pteV)) :=
    UserImage.ownEntry_leaf (UserImage.flagsOf_setFlags _ _) hg
  have huser : UserImage.UserSpace s.mem free := ⟨hspace, h.inv.user _ h.inv.active 3 (Nat.le_refl 3)⟩
  have hchild := huser.reaches_own he
  have hchild' : child (setFlags e (flags ||| pteA ||| pteD ||| pteV)) = some (ppnOf e) :=
    child_eq_some.mpr ⟨UserImage.valid_setFlags e, hown (UserImage.valid_setFlags e), UserImage.ppnOf_setFlags _ _⟩
  refine h.change (fun Q hs hQ => within_reflag hs hq.node (by rw [heq, hchild, hchild']) (hQ _ hown)) ?_
  exact setWord_ram_of_ne (root_ne hspace hq.node (by decide))

/-- The user region has no global mapping. -/
theorem Confined.not_global (h : Confined img m₀ s free) (ht : t ∈ s.tags) {tr : Translation}
    (htr : walk 3 s.mem.ram (rootOf t) vma false = some tr) (hi : 3 ≤ (vpn 2 vma).val) : tr.global = false := by
  have hall := h.entries t ht
  obtain ⟨hv₂, hcases₂⟩ := walk_cases htr
  have hg₂ := h.inv.user t ht _ hi hv₂
  have hc₂ : child (s.mem.ram (rootOf t) (vpn 2 vma)) = some _ := child_eq_some.mpr ⟨hv₂, hg₂, rfl⟩
  obtain ⟨hentry₂, hsub₂⟩ := hall (vpn 2 vma)
  rw [hentry₂ hv₂ hg₂, hg₂] at hcases₂
  obtain ⟨hf, -⟩ | ⟨-, hw₁⟩ := hcases₂
  · cases hf
  obtain ⟨hv₁, hcases₁⟩ := walk_cases hw₁
  obtain ⟨hentry₁, hsub₁⟩ := hsub₂ _ hc₂ (vpn 1 vma)
  rw [(hentry₁ hv₁).1, (hentry₁ hv₁).2] at hcases₁
  obtain ⟨hf, -⟩ | ⟨-, hw₀⟩ := hcases₁
  · cases hf
  have hc₁ := child_eq_some.mpr ⟨hv₁, (hentry₁ hv₁).1, rfl⟩
  obtain ⟨hv₀, ⟨-, rfl⟩ | ⟨-, hw⟩⟩ := walk_cases hw₀
  · exact (hsub₁ _ hc₁ (vpn 0 vma)).1 hv₀
  · cases hw

/-- The tables behind a global entry of the root. -/
theorem kernel_path {ram : Ppn → Page} (hmap : KernelMap img ram) :
    ∀ x ∈ path 2 ram img.mainPt1 vma true, x.1 ∈ [img.mainPt1, img.mainPt0] := by
  intro x hx
  have hclosed := @path_closed 2 ram img.mainPt1 vma true
    (fun k p _ => k = 2 ∧ p = img.mainPt1 ∨ k = 1 ∧ p = img.mainPt0 ∨ k = 0) ?_ (.inl ⟨rfl, rfl⟩) x hx
  · obtain ⟨j, ⟨-, hp⟩ | ⟨-, hp⟩ | hj⟩ := hclosed
    · simp [hp]
    · simp [hp]
    · omega
  · rintro k p - i (⟨hk, rfl⟩ | ⟨hk, rfl⟩ | hk) hv hl
    · obtain ⟨-, hleaf | hppn⟩ := hmap.mid i hv
      · cases hl.symm.trans hleaf
      · exact .inr (.inl ⟨by omega, hppn⟩)
    · cases hl.symm.trans (hmap.low i hv)
    · omega

/-- The kernel's part of a space is the one after memory_init. -/
theorem Confined.kernel_translate (hmap : KernelMap img m₀.ram) (h : Confined img m₀ s free) (ht : t ∈ s.tags)
    (hi : (vpn 2 vma).val < 3) : AddressSpace.translate s.mem.ram (rootOf t) vma =
      AddressSpace.translate m₀.ram img.mainPt2 vma := by
  have hroot := h.root t ht (vpn 2 vma) hi
  have hin : ∀ p ∈ [img.mainPt1, img.mainPt0], s.mem.ram p = m₀.ram p := by
    intro p hp
    have hnd := img.nodup
    have hbounds := (img.inside p (List.mem_cons_of_mem _ hp)).2
    have hge := heapEnd_ge img
    refine h.outside p (fun he => (List.nodup_cons.mp hnd).1 (he ▸ hp)) fun hpool => ?_
    have hstart := hpool.1
    simp only [pageSize] at hbounds hstart
    omega
  unfold AddressSpace.translate
  congr 1
  cases hv : has (m₀.ram img.mainPt2 (vpn 2 vma)) pteV with
  | false => rw [walk_invalid hv, walk_invalid (by rw [hroot]; exact hv)]
  | true =>
      cases hl : isLeaf (m₀.ram img.mainPt2 (vpn 2 vma)) with
      | true => rw [walk_leaf hv hl, walk_leaf (by rw [hroot]; exact hv) (by rw [hroot]; exact hl), hroot]
      | false =>
          obtain ⟨hg, hor⟩ := hmap.root (vpn 2 vma) hv
          have hppn : ppnOf (m₀.ram img.mainPt2 (vpn 2 vma)) = img.mainPt1 := hor.resolve_left (by rw [hl]; decide)
          rw [walk_table hv hl, walk_table (by rw [hroot]; exact hv) (by rw [hroot]; exact hl), hroot, hppn, hg]
          refine walk_congr fun x hx => hin x.1 (kernel_path hmap x hx)

section Run

variable (hmap : KernelMap img m₀.ram)
  (hkernel : ∀ vma tr, AddressSpace.translate m₀.ram img.mainPt2 vma = some tr → has tr.entry pteU = false)
include hmap hkernel

/-- What user mode reaches is a page of the space. -/
theorem Confined.user_page (h : Confined img m₀ s free) (ht : t ∈ s.tags) {tr : Translation}
    (htr : AddressSpace.translate s.mem.ram (rootOf t) vma = some tr) (hu : has tr.entry pteU = true) :
    3 ≤ (vpn 2 vma).val ∧ layout.Node s.mem.ram 3 (rootOf t) 0 (tr.page vma) := by
  have hi : 3 ≤ (vpn 2 vma).val := by
    by_contra hlt
    rw [h.kernel_translate hmap ht (Nat.not_le.mp hlt)] at htr
    cases (hkernel vma tr htr).symm.trans hu
  have hw := translate_walk htr
  have hg := h.not_global ht hw hi
  have hlevel := walk_level (h.inv.tables ht) hw hg
  have hn := walk_node hw hg
  rw [hlevel] at hn
  rw [page_level_zero hlevel]
  exact ⟨hi, hn⟩

/-- A store of the user program. -/
theorem Confined.store (h : Confined img m₀ s free) {w : BitVec 64} (hrun : userStore s.mem vma w = some m') :
    Confined img m₀ (s.setMem m') free := by
  obtain ⟨tr, htr, hrun⟩ := Option.bind_eq_some_iff.mp hrun
  split at hrun
  · rename_i hflags
    rw [Bool.and_eq_true] at hflags
    obtain rfl := Option.some.inj hrun
    obtain ⟨-, hn⟩ := h.user_page hmap hkernel h.inv.active htr hflags.1
    refine h.change (fun Q hs _ => within_write hs hn) ?_
    exact setWord_ram_of_ne (root_ne (h.space h.inv.active) hn (by decide))
  · cases hrun

theorem Confined.step (h : Confined img m₀ s free) (hs : Does s s') : ∃ free', Confined img m₀ s' free' := by
  obtain ⟨a, hsafe, hstep⟩ := hs
  cases a with
  | kernel op =>
      obtain ⟨hsafe, hplain⟩ := hsafe
      cases op with
      | map vma flags =>
          simp only [act, PageOwnership.step] at hstep
          split at hstep
          · rename_i hu
            obtain ⟨m', hrun, rfl⟩ := Option.map_eq_some_iff.mp hstep
            exact h.map (vpn_user hu.1 (BitVec.le_of_lt hu.2)).ge hplain hrun
          · cases hstep
      | fault vptr =>
          simp only [act, PageOwnership.step, memoryHandlePageFault] at hstep
          split at hstep
          · rename_i hu
            obtain ⟨m', hrun, rfl⟩ := Option.map_eq_some_iff.mp hstep
            exact h.map (vpn_user hu.1 hu.2).ge (by decide) hrun
          · rename_i hu
            obtain rfl := Option.some.inj hstep
            exact h.reclaim (hsafe.resolve_left hu)
      | clone =>
          obtain ⟨⟨mtag, m'⟩, hrun, rfl⟩ := Option.map_eq_some_iff.mp hstep
          exact h.clone hmap hrun
      | switch mtag =>
          simp only [act, PageOwnership.step] at hstep
          split at hstep
          · obtain rfl := Option.some.inj hstep
            exact ⟨free, h.switch ‹_›⟩
          · cases hstep
      | exec =>
          obtain rfl := Option.some.inj hstep
          exact ⟨free, h.exec hsafe⟩
      | reclaim =>
          obtain rfl := Option.some.inj hstep
          exact h.reclaim hsafe
  | protect vp flags =>
      simp only [act] at hstep
      split at hstep
      · rename_i hu
        obtain ⟨m', hrun, rfl⟩ := Option.map_eq_some_iff.mp hstep
        exact ⟨free, h.protect hu hsafe.1 hsafe.2 hrun⟩
      · cases hstep
  | store vma w =>
      obtain ⟨m', hrun, rfl⟩ := Option.map_eq_some_iff.mp hstep
      exact ⟨free, h.store hmap hkernel hrun⟩

end Run

/-- User mode reaches pages of the pool that are neither free nor a page table nor a user page of
another space, and the kernel's mappings and its memory are as memory_init left them. -/
structure Isolated (img : Image) (m₀ : Mem) (s : Kernel) : Prop where
  kernel : ∀ t ∈ s.tags, ∀ vma, vma < userStart →
    AddressSpace.translate s.mem.ram (rootOf t) vma = AddressSpace.translate m₀.ram (rootOf m₀.satp) vma
  memory : ∀ p, p ≠ rootOf m₀.satp → ¬ InPool img p → s.mem.ram p = m₀.ram p
  user : ∀ t ∈ s.tags, ∀ vma tr,
    AddressSpace.translate s.mem.ram (rootOf t) vma = some tr → has tr.entry pteU = true →
    userStart ≤ vma ∧ InPool img (tr.page vma) ∧ (∀ free, FreeList s.mem free → tr.page vma ∉ free) ∧
    ∀ t' ∈ s.tags, (∀ vma', ∀ x ∈ path 3 s.mem.ram (rootOf t') vma' false, x.1 ≠ tr.page vma) ∧
      (t' ≠ t → ∀ vma' tr', AddressSpace.translate s.mem.ram (rootOf t') vma' = some tr' → has tr'.entry pteU = true →
        tr'.page vma' ≠ tr.page vma)

/-- A page of a space is behind no walk. -/
theorem Confined.not_table (h : Confined img m₀ s free) (ht : t ∈ s.tags) {p : Ppn}
    (hp : layout.Node s.mem.ram 3 (rootOf t) 0 p) {t' : BitVec 64} (ht' : t' ∈ s.tags) {x : Ppn × Bool}
    (hx : x ∈ path 3 s.mem.ram (rootOf t') vma false) : x.1 ≠ p := by
  obtain ⟨j, hj⟩ := path_closed (h.inv.table_closed ht') (show Table _ _ _ 3 _ false from .root _ _) x hx
  cases hb : x.2 with
  | false =>
      rw [hb] at hj
      by_cases hne : t' = t
      · subst hne
        exact Layout.Node.ne_leaf (List.nodup_append.mp (h.inv.spaces _ ht).nodup).1 hj hp
      · exact fun he => h.inv.apart t' ht' t ht hne x.1 (Layout.Node.mem hj) (he ▸ hp.mem)
  | true =>
      rw [hb] at hj
      have hzone : s.Zone free p := .inr ⟨t, ht, hp.mem⟩
      rcases hj with ⟨-, he⟩ | ⟨-, he⟩
      · exact fun he' => h.inv.kernel x.1 (by simp [he]) (he' ▸ hzone)
      · exact fun he' => h.inv.kernel x.1 (by simp [he]) (he' ▸ hzone)

theorem Confined.isolated (hmap : KernelMap img m₀.ram) (hsatp : rootOf m₀.satp = img.mainPt2)
    (hkernel : ∀ vma tr, AddressSpace.translate m₀.ram img.mainPt2 vma = some tr → has tr.entry pteU = false)
    (h : Confined img m₀ s free) : Isolated img m₀ s := by
  refine ⟨fun t ht vma hlt => ?_, fun p hp => ?_, fun t ht vma tr htr hu => ?_⟩
  · rw [hsatp]
    refine h.kernel_translate hmap ht ?_
    rw [BitVec.lt_def, userStart_toNat] at hlt
    rw [vpn_two_val]
    omega
  · exact h.outside p (hsatp ▸ hp)
  · obtain ⟨hi, hn⟩ := h.user_page hmap hkernel ht htr hu
    refine ⟨?_, h.userPage ht hn, fun free' hfree => ?_, fun t' ht' =>
      ⟨fun vma' x hx => h.not_table ht hn ht' hx, ?_⟩⟩
    · rw [BitVec.le_def, userStart_toNat]
      rw [vpn_two_val] at hi
      omega
    · rw [hfree.unique (h.inv.spaces t ht).list]
      exact h.inv.owned_not_free ht hn.mem
    · intro hne vma' tr' htr' hu'
      obtain ⟨-, hn'⟩ := h.user_page hmap hkernel ht' htr' hu'
      exact fun he => h.inv.apart t' ht' t ht hne _ hn'.mem (he ▸ hn.mem)

end Step

section Boot

variable {img : Image} {m₀ m : Mem}

theorem confined_of_booted (hrun : memoryInit img m₀ = some m) {free : List Ppn} (hb : Booted img m free) :
    Confined img m ⟨m, m.satp, []⟩ free := by
  have htags : ∀ t ∈ Kernel.tags ⟨m, m.satp, []⟩, t = m.satp := fun t ht => List.mem_singleton.mp ht
  refine ⟨inv_of_booted hb, hb.root, memoryInit_pool hrun hb.list, fun t ht p hp => ?_, fun t ht => ?_,
    fun t ht i _ => ?_, fun _ _ _ => rfl⟩
  · rw [htags t ht, hb.owned] at hp
    exact .inl (List.mem_singleton.mp hp)
  · rw [htags t ht]
    refine hb.all fun i hv hg => ?_
    cases hg.symm.trans (hb.map.root i hv).1
  · rw [htags t ht, hb.root]

theorem kernel_not_user (hlaid : BootMap.Laid img) (hz : BootMap.Cleared img m₀) (hrun : memoryInit img m₀ = some m)
    (vma : BitVec 64) (tr : Translation) (htr : AddressSpace.translate m.ram img.mainPt2 vma = some tr) :
    has tr.entry pteU = false := by
  by_cases hlt : vma.toNat < img.ramEnd
  · obtain ⟨k, g, he⟩ := BootMap.translate_below hlaid hz hrun hlt
    obtain rfl := Option.some.inj (he.symm.trans htr)
    exact (BootMap.has_leaf hlaid vma _).2.2.1
  · rw [BootMap.translate_above hlaid hz hrun (Nat.le_of_not_lt hlt)] at htr
    cases htr

/-- In every run from memory_init of memory operations and user stores, in which no page is freed
that stays mapped, user programs are isolated from the kernel and from each other. -/
theorem user_isolated (img : Image) (hlaid : BootMap.Laid img) (m₀ m : Mem) (hz : BootMap.Cleared img m₀)
    (hinit : memoryInit img m₀ = some m) (s : Kernel) (hrun : Relation.ReflTransGen Does ⟨m, m.satp, []⟩ s) :
    Isolated img m s := by
  obtain ⟨free, hb⟩ := memoryInit_booted hz hinit
  have hkernel := kernel_not_user hlaid hz hinit
  have hconf : ∃ free, Confined img m s free := by
    induction hrun with
    | refl => exact ⟨free, confined_of_booted hinit hb⟩
    | tail _ hs ih =>
        obtain ⟨free, h⟩ := ih
        exact h.step hb.map hkernel hs
  obtain ⟨free, h⟩ := hconf
  exact h.isolated hb.map hb.root hkernel

theorem sample_laid : BootMap.Laid sampleImage :=
  ⟨rfl, by decide, by decide, by decide, by decide, by decide, by decide, by decide⟩

section Leaf

variable {m : Mem} {root p : Ppn} {vma w : BitVec 64}

theorem translate_setWord {i : Vpn} {x : BitVec 64} (h : ∀ y ∈ path 3 m.ram root vma false, y.1 ≠ p) :
    AddressSpace.translate (m.setWord p i x).ram root vma = AddressSpace.translate m.ram root vma := by
  unfold AddressSpace.translate
  rw [walk_congr fun y hy => setWord_ram_of_ne (h y hy)]

theorem page_leaf : Translation.page ⟨0, leafPte w (pteR ||| pteW ||| pteU), false⟩ vma = pageptrToPagenum w := by
  rw [page_level_zero rfl, leafPte, ppnOf_mkPte]

theorem has_leaf (w : BitVec 64) : has (leafPte w (pteR ||| pteW ||| pteU)) pteU = true ∧
    has (leafPte w (pteR ||| pteW ||| pteU)) pteW = true := by
  rw [has, has, flagsOf_leafPte]
  decide

theorem userPage_leaf
    (htr : AddressSpace.translate m.ram root vma = some ⟨0, leafPte w (pteR ||| pteW ||| pteU), false⟩) :
    DeepCopy.userPage m.ram root vma = some (m.ram (pageptrToPagenum w)) := by
  rw [DeepCopy.userPage, htr, Option.bind_some, if_pos (has_leaf w).1, page_leaf]

theorem userStore_leaf
    (htr : AddressSpace.translate m.ram (rootOf m.satp) vma = some ⟨0, leafPte w (pteR ||| pteW ||| pteU), false⟩)
    (x : BitVec 64) : userStore m vma x = some (m.setWord (pageptrToPagenum w) (DeepCopy.wordOf vma) x) := by
  rw [userStore, htr, Option.bind_eq_bind, Option.bind_some, (has_leaf w).1, (has_leaf w).2, Bool.and_self, if_pos rfl, page_leaf]

end Leaf

/-- The main space and a clone have a page each at USER_START_VMA: the program of the clone stores
to its own. -/
theorem user_isolated_store : ∃ m mtag s s', memoryInit sampleImage sampleMem = some m ∧
    Relation.ReflTransGen Does ⟨m, m.satp, []⟩ s ∧ s.tags = [m.satp, mtag] ∧ s.mem.satp = mtag ∧
    act s (.store userStart 42) = some s' ∧ Isolated sampleImage m s' ∧
    (∃ page, DeepCopy.userPage s'.mem.ram (rootOf mtag) userStart = some page ∧ page 0 = 42) ∧
    ∃ page, DeepCopy.userPage s'.mem.ram (rootOf m.satp) userStart = some page ∧
      DeepCopy.userPage s.mem.ram (rootOf m.satp) userStart = some page := by
  obtain ⟨m, mtag, m₁, w, m₂, w', m₃, free₁, free₂, free₃, hinit, hclone, hsatp, hne, hfirst, hswitch, hfirst'⟩ := sample_clones
  have hplain : Plain (.map userStart (pteR ||| pteW ||| pteU)) := by
    rw [Plain]
    decide
  have hrun : Relation.ReflTransGen Does ⟨m, m.satp, []⟩ ⟨m₃, m.satp, [mtag]⟩ := by
    have h₁ : Does ⟨m, m.satp, []⟩ ⟨m₁, m.satp, [mtag]⟩ := ⟨.kernel .clone, ⟨trivial, trivial⟩, hclone⟩
    have h₂ : Does ⟨m₁, m.satp, [mtag]⟩ ⟨m₂, m.satp, [mtag]⟩ := ⟨.kernel (.map _ _), ⟨trivial, hplain⟩, hfirst.run⟩
    have h₃ : Does ⟨m₂, m.satp, [mtag]⟩ ⟨memorySpaceSwitch m₂ mtag, m.satp, [mtag]⟩ :=
      ⟨.kernel (.switch mtag), ⟨trivial, trivial⟩, hswitch⟩
    exact (((Relation.ReflTransGen.single h₁).tail h₂).tail h₃).tail ⟨.kernel (.map _ _), ⟨trivial, hplain⟩, hfirst'.run⟩
  have hactive : m₃.satp = mtag := hfirst'.satp
  have hmain : m.satp ∈ Kernel.tags ⟨m₃, m.satp, [mtag]⟩ := List.mem_cons_self
  have hnew : mtag ∈ Kernel.tags ⟨m₃, m.satp, [mtag]⟩ := List.mem_cons_of_mem _ List.mem_cons_self
  have htr' : AddressSpace.translate m₃.ram (rootOf mtag) userStart =
      some ⟨0, leafPte w' (pteR ||| pteW ||| pteU), false⟩ := hfirst'.translate hnew fun _ _ _ => rfl
  have htr : AddressSpace.translate m₃.ram (rootOf m.satp) userStart =
      some ⟨0, leafPte w (pteR ||| pteW ||| pteU), false⟩ := by
    rw [← hsatp]
    refine hfirst.translate (hsatp ▸ List.mem_cons_self) fun j p hn => ?_
    rw [hsatp] at hn
    exact hfirst'.frame m.satp List.mem_cons_self (Ne.symm hne) p hn.mem
  have hstore : act ⟨m₃, m.satp, [mtag]⟩ (.store userStart 42) =
      some ⟨m₃.setWord (pageptrToPagenum w') 0 42, m.satp, [mtag]⟩ := by
    rw [act, userStore_leaf (by rw [hactive]; exact htr')]
    rfl
  have hzero : BootMap.Cleared sampleImage sampleMem := fun p _ => rfl
  -- the page is behind no walk, and not the one of the main space
  obtain ⟨-, -, -, hapart⟩ := (user_isolated sampleImage sample_laid sampleMem m hzero hinit _ hrun).user mtag hnew userStart _
    htr' (has_leaf w').1
  have hother := (hapart m.satp hmain).2 (Ne.symm hne) userStart _ htr (has_leaf w).1
  simp only [page_leaf] at hapart hother
  have hsame : ∀ t ∈ Kernel.tags ⟨m₃, m.satp, [mtag]⟩,
      AddressSpace.translate (m₃.setWord (pageptrToPagenum w') 0 42).ram (rootOf t) userStart =
        AddressSpace.translate m₃.ram (rootOf t) userStart := fun t ht => translate_setWord ((hapart t ht).1 userStart)
  refine ⟨m, mtag, _, _, hinit, hrun, rfl, hactive, hstore,
    user_isolated sampleImage sample_laid sampleMem m hzero hinit _ (hrun.tail ⟨.store userStart 42, trivial, hstore⟩),
    ⟨_, userPage_leaf ((hsame mtag hnew).trans htr'), setWord_ram_self⟩,
    _, userPage_leaf ((hsame m.satp hmain).trans htr), ?_⟩
  rw [setWord_ram_of_ne hother]
  exact userPage_leaf htr

end Boot

end RiscvKernel.UserIsolation
