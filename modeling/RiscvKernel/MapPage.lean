import RiscvKernel.AddressSpace

namespace RiscvKernel.MapPage

open Memory PageTree AddressSpace Lib.LinkedList Lib.PointerTree

variable {Q : Nat → BitVec 64 → Prop} {m m' m'' : Mem} {root p q : Ppn} {free free' free'' : List Ppn}

/-- A space whose tables and pages are used once and not free, with Q of its entries. -/
structure Space (Q : Nat → BitVec 64 → Prop) (m : Mem) (root : Ppn) (free : List Ppn) : Prop where
  list : FreeList m free
  nodup : (layout.owned 3 m.ram root ++ free).Nodup
  all : layout.All Q 3 m.ram root

/-- The pages of a space and the free pages. -/
def region (m : Mem) (root : Ppn) (free : List Ppn) : List Ppn := layout.owned 3 m.ram root ++ free

/-- A change of memory by the space: it stays in its region. -/
structure Within (Q : Nat → BitVec 64 → Prop) (root : Ppn) (m : Mem) (free : List Ppn) (m' : Mem) (free' : List Ppn) :
    Prop where
  space : Space Q m' root free'
  sub : region m' root free' ⊆ region m root free
  frame : ∀ x, x ∉ region m root free → m'.ram x = m.ram x
  satp : m'.satp = m.satp

theorem Within.refl (h : Space Q m root free) : Within Q root m free m free :=
  ⟨h, fun _ hx => hx, fun _ _ => rfl, rfl⟩

theorem Within.trans (h : Within Q root m free m' free') (h' : Within Q root m' free' m'' free'') :
    Within Q root m free m'' free'' := by
  refine ⟨h'.space, fun x hx => h.sub (h'.sub hx), fun x hx => ?_, h'.satp.trans h.satp⟩
  rw [h'.frame x fun hm => hx (h.sub hm), h.frame x hx]

/-- A table of zeroes has nothing below it. -/
theorem owned_zero {ram : Ppn → Page} (h : ram p = fun _ => 0) (k : Nat) : layout.owned k ram p = [p] := by
  cases k with
  | zero => rfl
  | succ k =>
      rw [owned_succ, List.flatMap_eq_nil_iff.mpr]
      intro i _
      exact children_none (by simp only [h, layout, child_zero])

theorem all_zero (h₀ : ∀ k, Q k 0) {ram : Ppn → Page} (h : ram p = fun _ => 0) (k : Nat) : layout.All Q k ram p := by
  cases k with
  | zero => trivial
  | succ k =>
      intro i
      rw [h]
      exact ⟨h₀ k, fun c hc => by simp only [layout, child_zero, reduceCtorEq] at hc⟩

/-- Taking the first free page. -/
theorem Space.take (h : Space Q m root (p :: free)) : ∃ w m', memoryAllocPage m = some (w, m') ∧ pageptrToPagenum w = p ∧
    m'.ram p = (fun _ => 0) ∧ p ∉ region m' root free ∧ (∀ x, x ≠ p → m'.ram x = m.ram x) ∧
    Within Q root m (p :: free) m' free := by
  obtain ⟨-, hnd, hdis⟩ := List.nodup_append.mp h.nodup
  obtain ⟨hpf, hndf⟩ := List.nodup_cons.mp hnd
  have hpo : p ∉ layout.owned 3 m.ram root := fun hm => hdis p hm p List.mem_cons_self rfl
  obtain ⟨w, m', hrun, hw, hzero, hsame, hfree, hsatp⟩ := h.list.alloc hpf
  have hown : ∀ x ∈ layout.owned 3 m.ram root, m'.ram x = m.ram x := fun x hx => hsame x fun he => hpo (he ▸ hx)
  have howned := owned_congr hown
  refine ⟨w, m', hrun, hw, hzero, ?_, hsame, ⟨⟨hfree, ?_, h.all.congr hown⟩, ?_, ?_, hsatp⟩⟩
  · rw [region, howned, List.mem_append]
    exact fun hm => hm.elim hpo hpf
  · rw [howned]
    exact h.nodup.sublist (List.Sublist.append_left (List.sublist_cons_self p free) _)
  · rw [region, howned]
    exact List.append_subset.mpr ⟨List.subset_append_left _ _, fun x hx =>
      List.mem_append_right _ (List.mem_cons_of_mem _ hx)⟩
  · intro x hx
    refine hsame x fun he => hx ?_
    rw [region, he]
    exact List.mem_append_right _ List.mem_cons_self

/-- Entering the page p, which is all zero and used nowhere, at a table of the space. -/
theorem Space.enter {j : Nat} {i : Vpn} {w : BitVec 64} (h₀ : ∀ k, Q k 0) (h : Space Q m root free)
    (hn : layout.Node m.ram 3 root (j + 1) q) (hp : p ∉ region m root free) (hzero : m.ram p = fun _ => 0)
    (hw : ∀ c, child w = some c → c = p) (hq : Q j w) :
    Space Q (m.setWord q i w) root free ∧
      layout.owned 3 (m.setWord q i w).ram root ⊆ (child w).toList ++ layout.owned 3 m.ram root := by
  obtain ⟨hndo, hndf, hdis⟩ := List.nodup_append.mp h.nodup
  rw [region, List.mem_append] at hp
  have hqp : p ≠ q := fun he => hp (.inl (he ▸ hn.mem))
  have hzero' : (m.setWord q i w).ram p = fun _ => 0 := by rw [setWord_ram_of_ne hqp, hzero]
  have hword : (m.setWord q i w).ram q i = w := setWord_ram_self
  have hoff : ∀ x, x ≠ q → (m.setWord q i w).ram x = m.ram x := fun x hx => setWord_ram_of_ne hx
  have hidx : ∀ i', i' ≠ i → (m.setWord q i w).ram q i' = m.ram q i' := fun i' hi' => setWord_ram_idx hi'
  obtain ⟨rest, hold, hnew⟩ := owned_set (i := i) hn hndo hoff hidx
  have hchildren : layout.children j (m.setWord q i w).ram q i = (child w).toList := by
    cases hc : child w with
    | none => exact children_none (by rw [hword]; exact hc)
    | some c =>
        rw [children_some (by rw [hword]; exact hc), hw c hc, owned_zero hzero']
        rfl
  have hto : ∀ x ∈ (child w).toList, x = p := by
    intro x hx
    rw [Option.mem_toList] at hx
    exact hw x hx
  have hsub : layout.owned 3 (m.setWord q i w).ram root ⊆ (child w).toList ++ layout.owned 3 m.ram root := by
    intro x hx
    rw [hnew.mem_iff, hchildren, List.mem_append] at hx
    rw [List.mem_append, hold.mem_iff, List.mem_append]
    exact hx.elim (fun hx => .inr (.inl hx)) .inl
  have hrest : rest.Nodup ∧ p ∉ rest := by
    refine ⟨(List.nodup_append.mp (hold.nodup_iff.mp hndo)).1, fun hm => hp (.inl ?_)⟩
    rw [hold.mem_iff]
    exact List.mem_append_left _ hm
  refine ⟨⟨h.list.setWord (fun hm => hdis q hn.mem q hm rfl) i w, ?_, ?_⟩, hsub⟩
  · refine List.nodup_append.mpr ⟨?_, hndf, ?_⟩
    · rw [hnew.nodup_iff, hchildren]
      refine List.nodup_append.mpr ⟨hrest.1, ?_, fun x hx y hy he => hrest.2 (hto y hy ▸ he ▸ hx)⟩
      cases child w with
      | none => exact List.nodup_nil
      | some c => exact List.nodup_singleton c
    · intro x hx y hy he
      rcases List.mem_append.mp (hsub hx) with hx | hx
      · exact hp (.inr (hto x hx ▸ he ▸ hy))
      · exact hdis x hx y hy he
  · refine h.all.set hn hndo hoff hidx (by rw [hword]; exact hq) fun c hc => ?_
    rw [hword] at hc
    rw [hw c hc]
    exact all_zero h₀ hzero' j

theorem Within.enter {j : Nat} {i : Vpn} {w : BitVec 64} (h₀ : ∀ k, Q k 0) (h : Within Q root m free m' free')
    (hmem : p ∈ region m root free) (hn : layout.Node m'.ram 3 root (j + 1) q) (hp : p ∉ region m' root free')
    (hzero : m'.ram p = fun _ => 0) (hw : ∀ c, child w = some c → c = p) (hq : Q j w) :
    Within Q root m free (m'.setWord q i w) free' ∧
      region (m'.setWord q i w) root free' ⊆ (child w).toList ++ region m' root free' := by
  obtain ⟨hspace, hsub⟩ := h.space.enter (i := i) h₀ hn hp hzero hw hq
  have hqr : q ∈ region m' root free' := List.mem_append_left _ hn.mem
  have hsub' : region (m'.setWord q i w) root free' ⊆ (child w).toList ++ region m' root free' := by
    rw [region, region, ← List.append_assoc]
    exact List.append_subset.mpr ⟨fun x hx => List.mem_append_left _ (hsub hx), List.subset_append_right _ _⟩
  refine ⟨⟨hspace, fun x hx => ?_, fun x hx => ?_, h.satp⟩, hsub'⟩
  · rcases List.mem_append.mp (hsub' hx) with hx | hx
    · rw [hw x (Option.mem_toList.mp hx)]
      exact hmem
    · exact h.sub hx
  · have hxq : x ≠ q := fun he => hx (h.sub (he ▸ hqr))
    rw [setWord_ram_of_ne hxq, h.frame x hx]

/-- An own entry of height 0 may be given other flags. -/
theorem Space.reflag {i : Vpn} {w : BitVec 64} (h : Space Q m root free) (hn : layout.Node m.ram 3 root 1 q)
    (hchild : child w = child (m.ram q i)) (hq : Q 0 w) : Space Q (m.setWord q i w) root free := by
  obtain ⟨hndo, hndf, hdis⟩ := List.nodup_append.mp h.nodup
  have hword : (m.setWord q i w).ram q i = w := setWord_ram_self
  have hoff : ∀ x, x ≠ q → (m.setWord q i w).ram x = m.ram x := fun x hx => setWord_ram_of_ne hx
  have hidx : ∀ i', i' ≠ i → (m.setWord q i w).ram q i' = m.ram q i' := fun i' hi' => setWord_ram_idx hi'
  obtain ⟨rest, hold, hnew⟩ := owned_set (i := i) hn hndo hoff hidx
  have hchildren : layout.children 0 (m.setWord q i w).ram q i = layout.children 0 m.ram q i := by
    simp only [Layout.children, hword, layout, hchild, Layout.owned]
  rw [hchildren] at hnew
  have hperm := hnew.trans hold.symm
  refine ⟨h.list.setWord (fun hm => hdis q hn.mem q hm rfl) i w, ?_, ?_⟩
  · exact (hperm.append_right free).nodup_iff.mpr h.nodup
  · exact h.all.set hn hndo hoff hidx (by rw [hword]; exact hq) fun c _ => trivial

/-- Whether the entries that memory_alloc_and_map_page passes are not global. -/
def ownWay (ram : Ppn → Page) (root : Ppn) (vma : BitVec 64) : Bool :=
  let entry2 := ram root (vpn 2 vma)
  let entry1 := ram (ppnOf entry2) (vpn 1 vma)
  !has entry2 pteV || !has entry2 pteG && (!has entry1 pteV || !has entry1 pteG)

theorem ownWay_congr {ram ram' : Ppn → Page} {vma : BitVec 64} (h : ∀ x ∈ layout.owned 3 ram root, ram' x = ram x) :
    ownWay ram' root vma = ownWay ram root vma := by
  simp only [ownWay, h root (self_mem_owned _ _ _)]
  cases hc : layout.child (ram root (vpn 2 vma)) with
  | none =>
      cases hv : has (ram root (vpn 2 vma)) pteV with
      | false => rfl
      | true =>
          cases hg : has (ram root (vpn 2 vma)) pteG with
          | true => rfl
          | false => cases hc.symm.trans (child_eq_some.mpr ⟨hv, hg, rfl⟩)
  | some c =>
      obtain ⟨-, -, rfl⟩ := child_eq_some.mp hc
      have hmem := children_subset (vpn 2 vma) (by rw [children_some hc]; exact self_mem_owned 2 _ _)
      rw [h _ hmem]

section Walk

variable {j : Nat} {i : Vpn} {c : Ppn}

theorem ptabPte_child {w : BitVec 64} : child (ptabPte w 0) = some (pageptrToPagenum w) := by
  have hv : has (ptabPte w 0) pteV = true := by
    rw [has, ptabPte, flagsOf_mkPte]
    decide
  have hg : has (ptabPte w 0) pteG = false := by
    rw [has, ptabPte, flagsOf_mkPte]
    decide
  exact child_eq_some.mpr ⟨hv, hg, by rw [ptabPte, ppnOf_mkPte]⟩

/-- One level of walk_pt: the table c found at an entry of q is a node of the space, the
old one behind a valid entry or else a new one of zeroes. -/
structure Found (Q : Nat → BitVec 64 → Prop) (root : Ppn) (m : Mem) (free : List Ppn) (j : Nat) (q : Ppn) (i : Vpn)
    (c : Ppn) (m' : Mem) (free' : List Ppn) : Prop where
  within : Within Q root m free m' free'
  node : layout.Node m'.ram 3 root (j + 2) q
  entry : child (m'.ram q i) = some c
  table : m' = m ∧ has (m.ram q i) pteV = true ∧ c = ppnOf (m.ram q i) ∨ m'.ram c = fun _ => 0
  frame : ∀ x ∈ layout.owned 3 m.ram root, x ≠ q → m'.ram x = m.ram x
  rest : ∀ i', i' ≠ i → m'.ram q i' = m.ram q i'
  size : free.length ≤ free'.length + 1

theorem walkStep_found (h₀ : ∀ k, Q k 0) (ht : ∀ k w, Q (k + 1) (ptabPte w 0)) (h : Space Q m root free)
    (hn : layout.Node m.ram 3 root (j + 2) q) (hg : has (m.ram q i) pteV = true → has (m.ram q i) pteG = false) :
    walkStep m q i = none ∧ free = [] ∨
      ∃ c m' free', walkStep m q i = some (c, m') ∧ Found Q root m free j q i c m' free' := by
  unfold walkStep
  cases hv : has (m.ram q i) pteV with
  | true =>
      have hc : child (m.ram q i) = some (ppnOf (m.ram q i)) := child_eq_some.mpr ⟨hv, hg hv, rfl⟩
      exact .inr ⟨_, m, free, rfl, .refl h, hn, hc, .inl ⟨rfl, hv, rfl⟩, fun _ _ _ => rfl, fun _ _ => rfl,
        Nat.le_succ _⟩
  | false =>
      simp only [Bool.false_eq_true, if_false, createTable]
      cases free with
      | nil => exact .inl ⟨by rw [h.list.alloc_nil]; rfl, rfl⟩
      | cons p free =>
          obtain ⟨w, m₁, halloc, hw, hzero, hp, hsame, hwithin⟩ := h.take
          have hpo : p ∉ layout.owned 3 m.ram root := fun hm =>
            (List.nodup_append.mp h.nodup).2.2 p hm p List.mem_cons_self rfl
          have hqp : q ≠ p := fun he => hpo (he ▸ hn.mem)
          have hown : ∀ x ∈ layout.owned 3 m.ram root, m₁.ram x = m.ram x := fun x hx => hsame x fun he => hpo (he ▸ hx)
          have hn₁ := hn.congr hown
          have hnd := (List.nodup_append.mp hwithin.space.nodup).1
          have hppn : ppnOf (ptabPte w 0) = p := by rw [ptabPte, ppnOf_mkPte, hw]
          simp only [halloc, Option.bind_eq_bind, Option.bind_some, Option.pure_def, setWord_ram_self, hppn]
          refine .inr ⟨p, _, free, rfl, ⟨?_, hn₁.set hnd fun x hx => setWord_ram_of_ne hx, ?_, .inr ?_, ?_, ?_,
            Nat.le_refl _⟩⟩
          · refine (hwithin.enter h₀ (List.mem_append_right _ List.mem_cons_self) hn₁ hp hzero (fun c hc => ?_) (ht j w)).1
            rw [← Option.some.inj (ptabPte_child.symm.trans hc), hw]
          · rw [setWord_ram_self, ptabPte_child, hw]
          · rw [setWord_ram_of_ne hqp.symm, hzero]
          · intro x hx hxq
            rw [setWord_ram_of_ne hxq, hown x hx]
          · intro i' hi'
            rw [setWord_ram_idx hi', hown q hn.mem]

/-- walk_pt: the level-0 table of an address, reached through own tables. -/
structure Walked (Q : Nat → BitVec 64 → Prop) (root : Ppn) (m : Mem) (free : List Ppn) (vma : BitVec 64)
    (pt1 pt0 : Ppn) (m' : Mem) (free' : List Ppn) : Prop where
  within : Within Q root m free m' free'
  entry2 : child (m'.ram root (vpn 2 vma)) = some pt1
  entry1 : child (m'.ram pt1 (vpn 1 vma)) = some pt0
  kept : ∀ i, m'.ram root i = m.ram root i ∨ child (m'.ram root i) ≠ none
  size : free.length ≤ free'.length + 2

theorem walkPt_walked {vma : BitVec 64} (h₀ : ∀ k, Q k 0) (ht : ∀ k w, Q (k + 1) (ptabPte w 0))
    (h : Space Q m root free) (hway : ownWay m.ram root vma = true) :
    walkPt m root vma = none ∧ free.length < 2 ∨
      ∃ pt1 pt0 m' free', walkPt m root vma = some ((pt0, vpn 0 vma), m') ∧
        Walked Q root m free vma pt1 pt0 m' free' := by
  unfold walkPt
  simp only [ownWay, Bool.or_eq_true, Bool.and_eq_true, Bool.not_eq_true'] at hway
  have hg₂ : has (m.ram root (vpn 2 vma)) pteV = true → has (m.ram root (vpn 2 vma)) pteG = false := by
    intro hv
    rw [hv] at hway
    exact (hway.resolve_left (by decide)).1
  rcases walkStep_found h₀ ht h (.root 3 root) hg₂ with ⟨hnone, rfl⟩ | ⟨pt1, m₁, free₁, hstep₂, hf₂⟩
  · exact .inl ⟨by rw [hnone]; rfl, by decide⟩
  have hg₁ : has (m₁.ram pt1 (vpn 1 vma)) pteV = true → has (m₁.ram pt1 (vpn 1 vma)) pteG = false := by
    intro hv
    rcases hf₂.table with ⟨rfl, hv₂, rfl⟩ | hzero
    · rw [hv₂, hv] at hway
      exact (hway.resolve_left (by decide)).2.resolve_left (by decide)
    · rw [hzero] at hv
      exact absurd hv (by beta_reduce; decide)
  have hn₁ : layout.Node m₁.ram 3 root 2 pt1 := hf₂.node.child hf₂.entry
  simp only [hstep₂, Option.bind_eq_bind, Option.bind_some]
  have hsize := hf₂.size
  rcases walkStep_found h₀ ht hf₂.within.space hn₁ hg₁ with ⟨hnone, rfl⟩ | ⟨pt0, m₂, free₂, hstep₁, hf₁⟩
  · refine .inl ⟨by rw [hnone]; rfl, ?_⟩
    rw [List.length_nil] at hsize
    omega
  have hne : root ≠ pt1 := fun he => by
    refine root_not_mem_children (List.nodup_append.mp hf₂.within.space.nodup).1 (vpn 2 vma) ?_
    rw [children_some hf₂.entry, ← he]
    exact self_mem_owned _ _ _
  have hsize₁ := hf₁.size
  refine .inr ⟨pt1, pt0, m₂, free₂, by rw [hstep₁]; rfl, hf₂.within.trans hf₁.within, ?_, hf₁.entry, fun i => ?_,
    by omega⟩
  · rw [hf₁.frame root (self_mem_owned _ _ _) hne]
    exact hf₂.entry
  · rw [hf₁.frame root (self_mem_owned _ _ _) hne]
    by_cases hi : i = vpn 2 vma
    · exact .inr (hi ▸ Option.ne_none_iff_exists'.mpr ⟨pt1, hf₂.entry⟩)
    · exact .inl (hf₂.rest i hi)

end Walk

/-- memory_alloc_and_map_page of an address whose tables are own ones: the first free
page is behind its leaf. -/
structure Mapped (Q : Nat → BitVec 64 → Prop) (root : Ppn) (m : Mem) (free : List Ppn) (vma : BitVec 64)
    (flags : BitVec 8) (w : BitVec 64) (m' : Mem) (free' : List Ppn) : Prop where
  head : free.head? = some (pageptrToPagenum w)
  within : Within Q root m free m' free'
  tables : ∃ pt1 pt0, child (m'.ram root (vpn 2 vma)) = some pt1 ∧ child (m'.ram pt1 (vpn 1 vma)) = some pt0 ∧
    m'.ram pt0 (vpn 0 vma) = leafPte w flags
  kept : ∀ i, m'.ram root i = m.ram root i ∨ child (m'.ram root i) ≠ none
  shared : child (leafPte w flags) = none → pageptrToPagenum w ∉ region m' root free'
  size : free.length ≤ free'.length + 3

theorem memoryAllocAndMapPage_mapped {vma : BitVec 64} {flags : BitVec 8} (h₀ : ∀ k, Q k 0)
    (ht : ∀ k w, Q (k + 1) (ptabPte w 0)) (hleaf : ∀ w, free.head? = some (pageptrToPagenum w) → Q 0 (leafPte w flags))
    (h : Space Q m (rootOf m.satp) free) (hway : ownWay m.ram (rootOf m.satp) vma = true)
    (hwf : wellformedVma vma = true) :
    memoryAllocAndMapPage m vma flags = none ∧ free.length < 3 ∨
      ∃ w m' free', memoryAllocAndMapPage m vma flags = some m' ∧
        Mapped Q (rootOf m.satp) m free vma flags w m' free' := by
  unfold memoryAllocAndMapPage
  rw [hwf, if_neg (by decide)]
  cases free with
  | nil => exact .inl ⟨by rw [h.list.alloc_nil]; rfl, by decide⟩
  | cons p free =>
      obtain ⟨w, m₁, halloc, hw, hzero, hp, hsame, hwithin⟩ := h.take
      have hpo : p ∉ layout.owned 3 m.ram (rootOf m.satp) := fun hm =>
        (List.nodup_append.mp h.nodup).2.2 p hm p List.mem_cons_self rfl
      have hway₁ := (ownWay_congr fun x hx => hsame x fun he => hpo (he ▸ hx)).trans hway
      have hroot : pageptrToPagenum m₁.activeSpaceRoot = rootOf m.satp := by
        rw [Mem.activeSpaceRoot, hwithin.satp, rootOf]
      simp only [halloc, Option.bind_eq_bind, Option.bind_some, hroot]
      rcases walkPt_walked h₀ ht hwithin.space hway₁ with ⟨hnone, hlen⟩ | ⟨pt1, pt0, m₂, free₂, hwalk, hwk⟩
      · exact .inl ⟨by rw [hnone]; rfl, by rw [List.length_cons]; omega⟩
      have hn₁ : layout.Node m₂.ram 3 (rootOf m.satp) 2 pt1 := .step hwk.entry2 (.root _ _)
      have hn₀ := hn₁.child hwk.entry1
      have hp₂ : p ∉ region m₂ (rootOf m.satp) free₂ := fun hm => hp (hwk.within.sub hm)
      have hchild : ∀ c, child (leafPte w flags) = some c → c = p := by
        intro c hc
        rw [← (child_eq_some.mp hc).2.2, leafPte, ppnOf_mkPte, hw]
      obtain ⟨hwithin₃, hsub₃⟩ := (hwithin.trans hwk.within).enter (i := vpn 0 vma) h₀
        (List.mem_append_right _ List.mem_cons_self) hn₀ hp₂ (by rw [hwk.within.frame p hp, hzero]) hchild
        (hleaf w (by rw [hw]; rfl))
      have hnd := (List.nodup_append.mp hwk.within.space.nodup).1
      have hsize := hwk.size
      have hroot0 : rootOf m.satp ≠ pt0 := fun he => by
        refine root_not_mem_children hnd (vpn 2 vma) ?_
        rw [children_some hwk.entry2, he]
        exact children_subset (vpn 1 vma) (by rw [children_some hwk.entry1]; exact self_mem_owned _ _ _)
      have hpt10 : pt1 ≠ pt0 := fun he => by
        have hnd₁ := children_nodup hnd (vpn 2 vma)
        rw [children_some hwk.entry2] at hnd₁
        refine root_not_mem_children hnd₁ (vpn 1 vma) ?_
        rw [children_some hwk.entry1, he]
        exact self_mem_owned _ _ _
      refine .inr ⟨w, _, free₂, by rw [hwalk]; rfl, ⟨?_, hwithin₃, ⟨pt1, pt0, ?_, ?_, setWord_ram_self⟩, ?_, ?_,
        by rw [List.length_cons]; omega⟩⟩
      · rw [hw]
        rfl
      · rw [setWord_ram_of_ne hroot0]
        exact hwk.entry2
      · rw [setWord_ram_of_ne hpt10]
        exact hwk.entry1
      · intro i
        rw [setWord_ram_of_ne hroot0, ← hsame (rootOf m.satp) fun he => hpo (he ▸ self_mem_owned _ _ _)]
        exact hwk.kept i
      · intro hnone hm
        have hm' := hsub₃ hm
        rw [hnone, hw] at hm'
        exact hp₂ hm'

/-- What memory_alloc_and_map_page returns on is mapped. -/
theorem memoryAllocAndMapPage_within {vma : BitVec 64} {flags : BitVec 8} (h₀ : ∀ k, Q k 0)
    (ht : ∀ k w, Q (k + 1) (ptabPte w 0)) (hleaf : ∀ w, free.head? = some (pageptrToPagenum w) → Q 0 (leafPte w flags))
    (h : Space Q m (rootOf m.satp) free) (hway : ownWay m.ram (rootOf m.satp) vma = true)
    (hrun : memoryAllocAndMapPage m vma flags = some m') :
    ∃ w free', Mapped Q (rootOf m.satp) m free vma flags w m' free' := by
  cases hwf : wellformedVma vma with
  | false => simp [memoryAllocAndMapPage, hwf] at hrun
  | true =>
      rcases memoryAllocAndMapPage_mapped h₀ ht hleaf h hway hwf with ⟨hnone, -⟩ | ⟨w, m₂, free', hsome, hmap⟩
      · cases hnone.symm.trans hrun
      · obtain rfl := Option.some.inj (hsome.symm.trans hrun)
        exact ⟨w, free', hmap⟩

end RiscvKernel.MapPage
