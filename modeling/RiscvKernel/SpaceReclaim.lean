import RiscvKernel.PageOwnership
import RiscvKernel.UserUnmap

namespace RiscvKernel.SpaceReclaim

open Memory PageTree AddressSpace MapPage SpaceClone DeepCopy Unmap Lib.LinkedList Lib.PointerTree

/-- Entries that are not global are tables above level 0, and no global user page is of the zone. -/
def EntryOk (zone : Ppn → Prop) (k : Nat) (e : BitVec 64) : Prop :=
  IsTable k e ∧ (k = 0 → has e pteV = true → has e pteU = true → has e pteG = true → ¬ zone (ppnOf e))

/-- The active space is a tree of tables, and it shares no user page that is its own or free. -/
def WellFormed (m : Mem) (free : List Ppn) : Prop :=
  Space (EntryOk (· ∈ region m (rootOf m.satp) free)) m (rootOf m.satp) free

/-- memory_alloc_and_map_page of pages that are not mapped, behind own entries. -/
def mapPages (m : Mem) (ops : List (BitVec 64 × BitVec 8)) : Option Mem :=
  ops.foldlM (fun m op => if ownWay m.ram (rootOf m.satp) op.1 && (translate m.ram (rootOf m.satp) op.1).isNone
    then memoryAllocAndMapPage m op.1 op.2 else none) m

/-- The life of a child: a clone of the active space, its pages, and its end. -/
def cloneAndReclaim (m : Mem) (mainMtag : BitVec 64) (ops : List (BitVec 64 × BitVec 8)) : Option Mem := do
  let (mtag, m) ← memorySpaceClone m
  let m ← mapPages (memorySpaceSwitch m mtag) ops
  return memorySpaceReclaim m mainMtag

/-- The main space is active and the same pages are free. -/
def NoLeak (free : List Ppn) (mainMtag : BitVec 64) (m : Mem) : Prop :=
  m.satp = mainMtag ∧ ∃ l, FreeList m l ∧ ∀ p, p ∈ l ↔ p ∈ free

section Closed

variable {C D : Ppn → Prop} {m : Mem} {free l : List Ppn} {p : Ppn}

/-- The free list does not lead out of C. -/
structure Closed (m : Mem) (C : Ppn → Prop) : Prop where
  head : ∀ p, derefPage m.freeList = some p → C p
  link : ∀ p, C p → ∀ q, derefPage (m.ram p 0) = some q → C q

theorem linked_subset (hlink : ∀ p, C p → ∀ q, derefPage (m.ram p 0) = some q → C q) {w : BitVec 64}
    (hw : ∀ p, derefPage w = some p → C p) (h : Linked derefPage (fun p => m.ram p 0) w l) : ∀ p ∈ l, C p := by
  induction l generalizing w with
  | nil => exact fun p hp => absurd hp List.not_mem_nil
  | cons q l ih =>
      obtain ⟨hq, h⟩ := h
      have hC : C q := hw q hq
      intro p hp
      rcases List.mem_cons.mp hp with rfl | hp
      · exact hC
      · exact ih (hlink q hC) h p hp

theorem Closed.subset (hc : Closed m C) (h : FreeList m l) : ∀ p ∈ l, C p := linked_subset hc.link hc.head h

theorem linked_closed {w : BitVec 64} (h : Linked derefPage (fun p => m.ram p 0) w l) :
    (∀ p, derefPage w = some p → p ∈ l) ∧ ∀ p ∈ l, ∀ q, derefPage (m.ram p 0) = some q → q ∈ l := by
  induction l generalizing w with
  | nil =>
      refine ⟨fun p hp => ?_, fun p hp => absurd hp List.not_mem_nil⟩
      have hnone : derefPage w = none := h
      rw [hnone] at hp
      cases hp
  | cons q l ih =>
      obtain ⟨hq, h⟩ := h
      obtain ⟨hhead, hlink⟩ := ih h
      constructor
      · intro p hp
        obtain rfl := Option.some.inj (hq.symm.trans hp)
        exact List.mem_cons_self
      · intro p hp r hr
        rcases List.mem_cons.mp hp with rfl | hp
        · exact List.mem_cons_of_mem _ (hhead r hr)
        · exact List.mem_cons_of_mem _ (hlink p hp r hr)

theorem closed_of_freeList (h : FreeList m free) : Closed m (· ∈ free) :=
  ⟨(linked_closed h).1, (linked_closed h).2⟩

theorem Closed.freePage (hc : Closed m C) (p : Ppn) :
    Closed (memoryFreePage m (pagenumToPageptr p)) fun q => C q ∨ q = p := by
  constructor
  · intro q hq
    refine .inr ?_
    have hptr : derefPage (pagenumToPageptr p) = some q := hq
    rw [derefPage] at hptr
    split at hptr
    · cases hptr
    · rw [pageptrToPagenum_pagenumToPageptr] at hptr
      exact (Option.some.inj hptr).symm
  · intro q hq r hr
    by_cases hqp : q = p
    · subst hqp
      refine .inl (hc.head r ?_)
      unfold memoryFreePage at hr
      rw [pageptrToPagenum_pagenumToPageptr] at hr
      simpa using hr
    · rw [memoryFreePage_ram hqp] at hr
      exact .inl (hc.link q (hq.resolve_right hqp) r hr)

/-- Freeing pages puts no other pages on the free list. -/
theorem Closed.freeAll (hc : Closed m C) (l : List Ppn) : Closed (Unmap.freeAll m l) fun q => C q ∨ q ∈ l := by
  induction l generalizing m C with
  | nil => exact ⟨fun p hp => .inl (hc.head p hp), fun p hp q hq => .inl (hc.link p (hp.resolve_right List.not_mem_nil) q hq)⟩
  | cons p l ih =>
      have h := ih (hc.freePage p)
      have hiff : ∀ q, (C q ∨ q = p) ∨ q ∈ l ↔ C q ∨ q ∈ p :: l := fun q => by rw [or_assoc, List.mem_cons]
      exact ⟨fun q hq => (hiff q).mp (h.head q hq), fun q hq r hr => (hiff r).mp (h.link q ((hiff q).mpr hq) r hr)⟩

end Closed

section Entries

variable {zone zone' : Ppn → Prop} {k : Nat} {e e' : BitVec 64}

theorem EntryOk.mono (h : EntryOk zone k e) (hz : ∀ p, zone' p → zone p) : EntryOk zone' k e :=
  ⟨h.1, fun hk hv hu hg hp => h.2 hk hv hu hg (hz _ hp)⟩

theorem entryOk_zero (k : Nat) : EntryOk zone k 0 := by
  refine ⟨isTable_zero k, fun _ hv => ?_⟩
  exact absurd hv (by decide)

theorem entryOk_ptabPte (k : Nat) (w : BitVec 64) : EntryOk zone (k + 1) (ptabPte w 0) :=
  ⟨isTable_ptabPte k w, fun hk => absurd hk k.succ_ne_zero⟩

theorem EntryOk.copy {c : Ppn} (hc : child e = some c) (h : EntryOk zone k e) (hf : flagsOf e' = flagsOf e ||| added k) :
    EntryOk zone k e' := by
  have hor := PageOwnership.flags_or_added (flagsOf e)
  constructor
  · intro hk _
    have hleaf := h.1 hk (Option.ne_none_iff_exists'.mpr ⟨c, hc⟩)
    obtain ⟨k, rfl⟩ := Nat.exists_eq_succ_of_ne_zero hk
    rw [isLeaf, has, hf]
    exact hor.2.2.trans hleaf
  · rintro rfl - - hg
    rw [has, hf] at hg
    have hg' : has e pteG = false := (child_eq_some.mp hc).2.1
    exact absurd (hg'.symm.trans (hor.1.symm.trans hg)) Bool.false_ne_true

end Entries

section Steps

variable {m m' : Mem} {free l : List Ppn} {vma mtag mainMtag : BitVec 64} {flags : BitVec 8}

/-- No table of the space is behind a user leaf. -/
theorem WellFormed.target_ne (h : WellFormed m free) {j : Nat} {q p : Ppn}
    (hn : layout.Node m.ram 3 (rootOf m.satp) (j + 1) q) (hp : p ∈ targets hasU 3 m.ram (rootOf m.satp)) : q ≠ p := by
  obtain ⟨t, i, ht, hv, hu, rfl⟩ := mem_targets.mp hp
  cases hg : has (m.ram t i) pteG with
  | false => exact hn.ne_leaf (List.nodup_append.mp h.nodup).1 (ht.child (child_eq_some.mpr ⟨hv, hg, rfl⟩))
  | true =>
      rintro rfl
      exact ((h.all.node ht) i).1.2 rfl hv hu hg (List.mem_append_left _ hn.mem)

theorem freeList_switch : FreeList (memorySpaceSwitch m mtag) l ↔ FreeList m l := Iff.rfl

/-- The root of a space that ends is not freed. -/
theorem WellFormed.root_leaks (h : WellFormed m free) (hl : FreeList (memoryUnmapAndFreeUser m) l) : rootOf m.satp ∉ l := by
  have hroot : layout.Node m.ram 3 (rootOf m.satp) 3 (rootOf m.satp) := .root _ _
  have hunmap : memoryUnmapAndFreeUser m = freeAll m (targets hasU 3 m.ram (rootOf m.satp)) := by
    rw [memoryUnmapAndFreeUser_level]
    exact unmapLevel_eq (d := []) (h.all.mono fun _ _ he => he.1) (List.Subset.refl _)
      (fun j q hn hq => h.target_ne hn hq rfl) (List.nil_subset _)
  have hnot : rootOf m.satp ∉ targets hasU 3 m.ram (rootOf m.satp) := fun ht => h.target_ne hroot ht rfl
  rw [hunmap] at hl
  generalize targets hasU 3 m.ram (rootOf m.satp) = freed at hl hnot
  intro hm
  rcases ((closed_of_freeList h.list).freeAll freed).subset hl _ hm with hf | ht
  · exact (List.nodup_append.mp h.nodup).2.2 _ (self_mem_owned _ _ _) _ hf rfl
  · exact hnot ht

/-- memory_alloc_and_map_page behind own entries. -/
theorem WellFormed.map (h : WellFormed m free) (hway : ownWay m.ram (rootOf m.satp) vma = true)
    (hrun : memoryAllocAndMapPage m vma flags = some m') : ∃ free', WellFormed m' free' ∧ m'.satp = m.satp := by
  -- of the zone, the page mapped is left out when the leaf is global
  let zone := fun p => p ∈ region m (rootOf m.satp) free ∧ (free.head? = some p → (flags &&& pteG != 0) = false)
  have hspace : Space (EntryOk zone) m (rootOf m.satp) free :=
    ⟨h.list, h.nodup, h.all.mono fun _ _ he => he.mono fun _ hp => hp.1⟩
  have hleaf : ∀ w, free.head? = some (pageptrToPagenum w) → EntryOk zone 0 (leafPte w flags) := by
    intro w hw
    refine ⟨isTable_leaf _, fun _ _ _ hg hz => ?_⟩
    rw [leafPte, ppnOf_mkPte] at hz
    rw [has, leafPte, flagsOf_mkPte, (PageOwnership.flags_leaf flags).1, hz.2 hw] at hg
    cases hg
  obtain ⟨w, free', hm⟩ := memoryAllocAndMapPage_within entryOk_zero entryOk_ptabPte hleaf hspace hway hrun
  have hsatp : m'.satp = m.satp := hm.within.satp
  refine ⟨free', ?_, hsatp⟩
  rw [WellFormed, hsatp]
  have hs := hm.within.space
  refine ⟨hs.list, hs.nodup, hs.all.mono fun _ _ he => he.mono fun p hp => ⟨hm.within.sub hp, fun hhead => ?_⟩⟩
  rw [Bool.eq_false_iff]
  intro hg
  obtain rfl := Option.some.inj (hm.head.symm.trans hhead)
  exact hm.shared (PageOwnership.leafPte_child w hg) hp

theorem WellFormed.mapPages {ops : List (BitVec 64 × BitVec 8)} (h : WellFormed m free)
    (hrun : mapPages m ops = some m') : ∃ free', WellFormed m' free' ∧ m'.satp = m.satp := by
  induction ops generalizing m free with
  | nil =>
      obtain rfl := Option.some.inj hrun
      exact ⟨free, h, rfl⟩
  | cons op ops ih =>
      rw [SpaceReclaim.mapPages, List.foldlM_cons] at hrun
      obtain ⟨m₁, hmap, hrun⟩ := Option.bind_eq_some_iff.mp hrun
      split at hmap
      · rename_i hop
        rw [Bool.and_eq_true] at hop
        obtain ⟨free₁, h₁, hsatp₁⟩ := h.map hop.1 hmap
        obtain ⟨free', h', hsatp⟩ := ih h₁ hrun
        exact ⟨free', h', hsatp.trans hsatp₁⟩
      · cases hmap

/-- The root of the clone was free. -/
theorem WellFormed.clone (h : WellFormed m free) (hrun : memorySpaceClone m = some (mtag, m')) :
    rootOf mtag ∈ free ∧ ∃ free', WellFormed (memorySpaceSwitch m' mtag) free' := by
  rcases memorySpaceClone_forked h.list h.nodup with ⟨hnone, -⟩ | ⟨mtag', m'', u, free', hsome, hf⟩
  · cases hnone.symm.trans hrun
  obtain ⟨rfl, rfl⟩ := Prod.mk.inj (Option.some.inj (hsome.symm.trans hrun))
  constructor
  · rw [hf.split]
    exact List.mem_cons_self
  · have hnew := hf.newSpace h fun hc hq hfl => hq.copy hc hfl
    refine ⟨free', hnew.list, hnew.nodup, hnew.all.mono fun _ _ he => he.mono fun p hp => ?_⟩
    have hp : p ∈ region m'' (rootOf mtag') free' := hp
    rw [hf.region_eq] at hp
    exact List.mem_append_right _ hp

theorem page_leaks {ops : List (BitVec 64 × BitVec 8)} (h : WellFormed m free)
    (hrun : cloneAndReclaim m mainMtag ops = some m') : ∃ p ∈ free, ∀ l, FreeList m' l → p ∉ l := by
  obtain ⟨⟨mtag, m₁⟩, hclone, hrun⟩ := Option.bind_eq_some_iff.mp hrun
  obtain ⟨m₂, hmap, hrun⟩ := Option.bind_eq_some_iff.mp hrun
  obtain rfl := Option.some.inj hrun
  obtain ⟨hfree, free₁, h₁⟩ := h.clone hclone
  obtain ⟨free₂, h₂, hsatp⟩ := h₁.mapPages hmap
  refine ⟨rootOf mtag, hfree, fun l hl => ?_⟩
  rw [memorySpaceReclaim] at hl
  have hroot := h₂.root_leaks (freeList_switch.mp hl)
  rw [hsatp] at hroot
  exact hroot

end Steps

section Sample

theorem sample_noSharedUser : WellFormed sampleMem sampleFree := by
  have hspace := sample_wellFormed.space
  refine ⟨hspace.list, hspace.nodup, ?_⟩
  apply Layout.All.of_node
  intro j q i hn
  refine ⟨((hspace.all.node hn) i).1.isTable, ?_⟩
  rintro rfl hv - hg
  obtain ⟨rfl, rfl⟩ := UserUnmap.sample_target hn hv
  exact absurd hg (by decide)

theorem sample_reclaims (mainMtag : BitVec 64) : ∃ m', cloneAndReclaim sampleMem mainMtag [] = some m' := by
  obtain ⟨mtag, m₁, hclone, -⟩ := sample_forked
  refine ⟨memorySpaceReclaim (memorySpaceSwitch m₁ mtag) mainMtag, ?_⟩
  rw [cloneAndReclaim, hclone]
  rfl

/-- There are pages enough for the clone, and one of them is free before it and not after. -/
theorem not_noLeak_sample : WellFormed sampleMem sampleFree ∧
    (layout.owned 3 sampleMem.ram (rootOf sampleMem.satp)).length ≤ sampleFree.length ∧
    ∃ m', cloneAndReclaim sampleMem sampleMem.satp [] = some m' ∧ ¬ NoLeak sampleFree sampleMem.satp m' := by
  obtain ⟨m', hrun⟩ := sample_reclaims sampleMem.satp
  refine ⟨sample_noSharedUser, by rw [sample_owned]; decide, m', hrun, ?_⟩
  obtain ⟨p, hp, hleak⟩ := page_leaks sample_noSharedUser hrun
  rintro ⟨-, l, hl, hsame⟩
  exact hleak l hl ((hsame p).mpr hp)

end Sample

/-- memory_space_reclaim frees no page table, so no child gives back what its space took. -/
theorem cloneAndReclaim_leaks {m : Mem} {free : List Ppn} (h : WellFormed m free) (mainMtag : BitVec 64)
    (ops : List (BitVec 64 × BitVec 8)) {m' : Mem} (hrun : cloneAndReclaim m mainMtag ops = some m') :
    ¬ NoLeak free mainMtag m' := by
  rintro ⟨-, l, hl, hsame⟩
  obtain ⟨p, hp, hleak⟩ := page_leaks h hrun
  exact hleak l hl ((hsame p).mpr hp)

theorem cloneAndReclaim_leaks_sample :
    ∃ m', cloneAndReclaim sampleMem sampleMem.satp [] = some m' ∧ ¬ NoLeak sampleFree sampleMem.satp m' := by
  obtain ⟨m', hrun⟩ := sample_reclaims sampleMem.satp
  exact ⟨m', hrun, cloneAndReclaim_leaks sample_noSharedUser sampleMem.satp [] hrun⟩

end RiscvKernel.SpaceReclaim
