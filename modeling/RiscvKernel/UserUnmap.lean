import RiscvKernel.DeepCopy
import RiscvKernel.Unmap

namespace RiscvKernel.UserUnmap

open Memory PageTree AddressSpace MapPage Unmap DeepCopy Lib.LinkedList Lib.PointerTree

/-- All leaves of a space that are not global, or below no global table. -/
def mapped (m : Mem) : List Ppn := targets (fun _ => true) 3 m.ram (rootOf m.satp)

/-- Those with the U flag. -/
def userPages (m : Mem) : List Ppn := targets hasU 3 m.ram (rootOf m.satp)

/-- The active space is a tree of tables that maps no page twice, and no table or free page. -/
structure WellFormed (m : Mem) (free : List Ppn) : Prop where
  space : Space IsTable m (rootOf m.satp) free
  once : (mapped m).Nodup
  apart : ∀ p ∈ mapped m, p ≠ 0 ∧ p ∉ free ∧ ∀ j q, layout.Node m.ram 3 (rootOf m.satp) (j + 1) q → q ≠ p

/-- No valid leaf with the U flag in a table of the active space. -/
def NoUserLeaf (m : Mem) : Prop :=
  ∀ q i, layout.Node m.ram 3 (rootOf m.satp) 1 q → has (m.ram q i) pteV = true → has (m.ram q i) pteU = false

/-- What memory_unmap_and_free_user should do: unmap the user pages and put them on the free list. -/
structure UnmapsUser (m : Mem) (free : List Ppn) : Prop where
  unmapped : NoUserLeaf (memoryUnmapAndFreeUser m)
  freed : ∃ l, l.Perm (userPages m) ∧ FreeList (memoryUnmapAndFreeUser m) (l ++ free)
  globals : ∀ vma tr, translate m.ram (rootOf m.satp) vma = some tr → tr.global = true →
    translate (memoryUnmapAndFreeUser m).ram (rootOf m.satp) vma = some tr
  again : memoryUnmapAndFreeUser (memoryUnmapAndFreeUser m) = memoryUnmapAndFreeUser m

section Frees

variable {sel sel' : BitVec 64 → Bool} {k : Nat} {ram : Ppn → Page} {t p : Ppn} {m : Mem} {free : List Ppn}

theorem targets_subset (h : ∀ e, sel e = true → sel' e = true) :
    List.Sublist (targets sel k ram t) (targets sel' k ram t) := by
  induction k generalizing t with
  | zero => exact List.nil_sublist _
  | succ k ih =>
      cases k with
      | zero =>
          unfold targets
          apply List.Sublist.flatMap_right
          intro i _
          split
          · rename_i hs
            rw [Bool.and_eq_true] at hs
            rw [if_pos (by rw [hs.1, h _ hs.2]; rfl)]
          · exact List.nil_sublist _
      | succ k =>
          unfold targets
          apply List.Sublist.flatMap_right
          intro i _
          cases child (ram t i) with
          | none => exact List.nil_sublist _
          | some c => exact ih

theorem userPages_sublist (m : Mem) : List.Sublist (userPages m) (mapped m) := targets_subset fun _ _ => rfl

theorem noUserLeaf_iff : NoUserLeaf m ↔ userPages m = [] := by
  constructor
  · intro h
    apply List.eq_nil_iff_forall_not_mem.mpr
    intro p hp
    obtain ⟨q, i, hn, hv, hu, -⟩ := mem_targets.mp hp
    exact Bool.false_ne_true ((h q i hn hv).symm.trans hu)
  · intro h q i hn hv
    apply Bool.eq_false_iff.mpr
    intro hu
    have hp : ppnOf (m.ram q i) ∈ userPages m := mem_targets.mpr ⟨q, i, hn, hv, hu, rfl⟩
    rw [h] at hp
    exact List.not_mem_nil hp

theorem WellFormed.apart_user (h : WellFormed m free) (hp : p ∈ userPages m) :
    p ≠ 0 ∧ p ∉ free ∧ ∀ j q, layout.Node m.ram 3 (rootOf m.satp) (j + 1) q → q ≠ p :=
  h.apart p ((userPages_sublist m).subset hp)

theorem memoryUnmapAndFreeUser_eq (h : WellFormed m free) : memoryUnmapAndFreeUser m = freeAll m (userPages m) :=
  unmapLevel_eq (k := 3) (d := []) (l := userPages m) h.space.all (List.Subset.refl _)
    (fun j q hn hq => (h.apart_user hq).2.2 j q hn rfl) (List.nil_subset _)

theorem WellFormed.satp (h : WellFormed m free) : (memoryUnmapAndFreeUser m).satp = m.satp := by
  rw [memoryUnmapAndFreeUser_eq h, freeAll_satp]

/-- The tables stay as they are. -/
theorem WellFormed.tables (h : WellFormed m free) {j : Nat} {q : Ppn}
    (hn : layout.Node m.ram 3 (rootOf m.satp) (j + 1) q) : (memoryUnmapAndFreeUser m).ram q = m.ram q := by
  rw [memoryUnmapAndFreeUser_eq h]
  exact freeAll_ram fun hq => (h.apart_user hq).2.2 j q hn rfl

/-- The pages of the user leaves come to the free list, each of them once, and stay mapped. -/
theorem WellFormed.frees (h : WellFormed m free) :
    FreeList (memoryUnmapAndFreeUser m) ((userPages m).reverse ++ free) ∧
      userPages (memoryUnmapAndFreeUser m) = userPages m := by
  have hnd : (userPages m ++ free).Nodup := by
    apply List.nodup_append.mpr
    refine ⟨h.once.sublist (userPages_sublist m), (List.nodup_append.mp h.space.nodup).2.1, ?_⟩
    rintro p hp _ hf rfl
    exact (h.apart_user hp).2.1 hf
  have h₀ : 0 ∉ userPages m := fun h₀ => (h.apart_user h₀).1 rfl
  constructor
  · rw [memoryUnmapAndFreeUser_eq h]
    generalize userPages m = l at hnd h₀ ⊢
    exact freeList_freeAll h.space.list hnd h₀
  · rw [userPages, h.satp]
    exact targets_congr fun j q hn => h.tables hn

theorem WellFormed.stays_mapped (h : WellFormed m free) (hu : UnmapsUser m free) : NoUserLeaf m := by
  rw [noUserLeaf_iff, ← h.frees.2]
  exact noUserLeaf_iff.mp hu.unmapped

end Frees

/-- memory_unmap_and_free_user clears a copy of each leaf that it frees the page of, so it does
what it should only where there is nothing to unmap. -/
theorem unmapsUser_iff {m : Mem} {free : List Ppn} (h : WellFormed m free) : UnmapsUser m free ↔ NoUserLeaf m := by
  constructor
  · exact h.stays_mapped
  · intro hno
    have hnil : userPages m = [] := noUserLeaf_iff.mp hno
    have hsame : memoryUnmapAndFreeUser m = m := by
      rw [memoryUnmapAndFreeUser_eq h, hnil]
      rfl
    constructor
    · rw [hsame]
      exact hno
    · refine ⟨[], ?_, ?_⟩
      · rw [hnil]
      · rw [hsame]
        exact h.space.list
    · intro vma tr htr _
      rw [hsame]
      exact htr
    · rw [hsame, hsame]

section Sample

theorem sample_leaf {q : Ppn} (hn : layout.Node sampleMem.ram 3 (rootOf sampleMem.satp) 1 q) : q = 10 := by
  rw [show rootOf sampleMem.satp = 1 by decide] at hn
  cases hn with
  | step hc hn =>
      have h₁ := sample_child hc
      cases hn with
      | step hc' hn =>
          have h₂ := sample_child hc'
          cases hn with
          | root =>
              simp only [sampleOwn, List.mem_cons, Prod.mk.injEq, List.not_mem_nil, or_false] at h₁ h₂
              rcases h₁ with ⟨-, rfl, rfl⟩ | ⟨h, -⟩ | ⟨h, -⟩
              · rcases h₂ with ⟨h, -⟩ | ⟨-, -, rfl⟩ | ⟨h, -⟩
                · cases h
                · rfl
                · cases h
              · cases h
              · cases h
          | step hc'' hn => cases hn

theorem sample_target {q : Ppn} {i : Vpn} (hn : layout.Node sampleMem.ram 3 (rootOf sampleMem.satp) 1 q)
    (hv : has (sampleMem.ram q i) pteV = true) : q = 10 ∧ i = 0 := by
  obtain rfl := sample_leaf hn
  have hmem := sample_valid hv
  simp only [List.mem_cons, Prod.mk.injEq, List.not_mem_nil, or_false] at hmem
  rcases hmem with ⟨h, -⟩ | ⟨h, -⟩ | ⟨h, -⟩ | ⟨h, -⟩ | ⟨h, -⟩ | ⟨-, hi⟩
  · cases h
  · cases h
  · cases h
  · cases h
  · cases h
  · exact ⟨rfl, hi⟩

/-- A space with the one leaf, of page 11, in its own tables. -/
theorem mapsOnce_of_leaf {m : Mem} (hspace : Space IsTable m (rootOf m.satp) sampleFree) (hleaf : child (m.ram 10 0) = some 11)
    (htarget : ∀ q i, layout.Node m.ram 3 (rootOf m.satp) 1 q → has (m.ram q i) pteV = true → q = 10 ∧ i = 0) :
    WellFormed m sampleFree := by
  obtain ⟨-, hg, hppn⟩ := child_eq_some.mp hleaf
  have hnd : (layout.owned 3 m.ram (rootOf m.satp)).Nodup := (List.nodup_append.mp hspace.nodup).1
  refine ⟨hspace, ?_, ?_⟩
  · refine List.Nodup.sublist (targets_sublist ?_) hnd
    apply Layout.All.of_node
    rintro j q i hn rfl hv -
    obtain ⟨rfl, rfl⟩ := htarget q i hn hv
    exact hg
  · intro p hp
    obtain ⟨q', i, hn', hv, -, rfl⟩ := mem_targets.mp hp
    obtain ⟨rfl, rfl⟩ := htarget q' i hn' hv
    rw [hppn]
    refine ⟨by decide, by decide, ?_⟩
    intro j q hn
    exact hn.ne_leaf hnd (hn'.child hleaf)

theorem sample_mapsOnce : WellFormed sampleMem sampleFree := by
  have hspace := sample_wellFormed.space
  refine mapsOnce_of_leaf ⟨hspace.list, hspace.nodup, hspace.all.mono fun _ _ h => h.isTable⟩ (by decide) ?_
  intro q i hn hv
  exact sample_target hn hv

theorem sample_node : layout.Node sampleMem.ram 3 (rootOf sampleMem.satp) 1 10 := by
  rw [show rootOf sampleMem.satp = 1 by decide]
  have h₉ : layout.child (sampleMem.ram 1 3) = some 9 := by decide
  have h₁₀ : layout.child (sampleMem.ram 9 0) = some 10 := by decide
  exact .step h₉ (.step h₁₀ (.root _ _))

/-- The same space, whose own leaf has no U flag. -/
def kernelSpace : Mem := sampleMem.setWord 10 0 (leafPte (pagenumToPageptr 11) (pteR ||| pteW))

theorem kernelSpace_child (p : Ppn) (i : Vpn) : child (kernelSpace.ram p i) = child (sampleMem.ram p i) := by
  by_cases hp : p = 10
  · subst hp
    by_cases hi : i = 0
    · subst hi
      decide
    · rw [kernelSpace, setWord_ram_idx hi]
  · rw [kernelSpace, setWord_ram_of_ne hp]

theorem kernelSpace_target {q : Ppn} {i : Vpn} (hn : layout.Node kernelSpace.ram 3 (rootOf kernelSpace.satp) 1 q)
    (hv : has (kernelSpace.ram q i) pteV = true) : q = 10 ∧ i = 0 := by
  have hs : layout.Node sampleMem.ram 3 (rootOf sampleMem.satp) 1 q := hn.of_child kernelSpace_child
  obtain rfl := sample_leaf hs
  by_cases hi : i = 0
  · exact ⟨rfl, hi⟩
  · rw [kernelSpace, setWord_ram_idx hi] at hv
    exact sample_target hs hv

theorem kernelSpace_mapsOnce : WellFormed kernelSpace sampleFree := by
  refine mapsOnce_of_leaf (sample_mapsOnce.space.reflag sample_node (by decide) fun h0 => absurd rfl h0) (by decide) ?_
  intro q i hn hv
  exact kernelSpace_target hn hv

/-- A space with tables of its own, a leaf that is not the user's and a user page below a global entry. -/
theorem unmapsUser_kernelSpace : UnmapsUser kernelSpace sampleFree := by
  refine (unmapsUser_iff kernelSpace_mapsOnce).mpr ?_
  intro q i hn hv
  obtain ⟨rfl, rfl⟩ := kernelSpace_target hn hv
  decide

/-- The one user page comes to the free list, and the leaf that maps it stays valid. -/
theorem not_unmapsUser_sample : WellFormed sampleMem sampleFree ∧ ¬ UnmapsUser sampleMem sampleFree := by
  refine ⟨sample_mapsOnce, fun hu => ?_⟩
  have hoff := sample_mapsOnce.stays_mapped hu 10 0 sample_node (by decide)
  exact absurd hoff (by decide)

end Sample

end RiscvKernel.UserUnmap
