import RiscvKernel.SegmentOverlap

namespace RiscvKernel.RangeCoverage

open MemoryInit hiding Image
open Memory PageTree AddressSpace MapPage PageOwnership VirtualMemory UserImage UserRange SegmentOverlap Lib.PointerTree
  Lib.PathLookup

/-- What the tables of a space hold above level 0. -/
def TableEntry : Nat → BitVec 64 → Prop
  | 0, _ => True
  | 1, e => has e pteV = true → has e pteG = false ∧ isLeaf e = false
  | _ + 2, e => has e pteV = true → has e pteG = false → isLeaf e = false

/-- A space that has its own tables for the user region, with any leaves in them. -/
structure UserTables (m : Mem) (free : List Ppn) : Prop where
  space : Space TableEntry m (rootOf m.satp) free
  user : has (m.ram (rootOf m.satp) 3) pteV = true → has (m.ram (rootOf m.satp) 3) pteG = false

/-- The level-0 table of an address. -/
def tableAt (ram : Ppn → Page) (root : Ppn) (vma : BitVec 64) : Option Ppn :=
  (child (ram root (vpn 2 vma))).bind fun pt1 => child (ram pt1 (vpn 1 vma))

/-- The flags of the leaf of an address. -/
def leafFlagsAt (m : Mem) (vma : BitVec 64) : Option (BitVec 8) := (entryAt m.ram (rootOf m.satp) vma).map flagsOf

/-- The level-0 tables are no other tables, and each is that of 2 MiB of addresses. -/
structure Separate (ram : Ppn → Page) (root : Ppn) : Prop where
  top : ∀ a q, tableAt ram root a = some q → q ≠ root
  mid : ∀ a b q pt1, tableAt ram root a = some q → child (ram root (vpn 2 b)) = some pt1 → q ≠ pt1
  inj : ∀ a b q, tableAt ram root a = some q → tableAt ram root b = some q → vpn 2 a = vpn 2 b ∧ vpn 1 a = vpn 1 b

section Tables

variable {m m' : Mem} {free : List Ppn} {root q : Ppn} {vma a : BitVec 64} {flags : BitVec 8} {ram : Ppn → Page}

theorem tableEntry_zero (k : Nat) : TableEntry k 0 := by
  match k with
  | 0 => trivial
  | 1 => exact fun hv => absurd hv (by decide)
  | _ + 2 => exact fun hv => absurd hv (by decide)

theorem tableEntry_ptabPte (k : Nat) (w : BitVec 64) : TableEntry (k + 1) (ptabPte w 0) := by
  obtain ⟨hg, hl⟩ := ptabPte_flags w
  match k with
  | 0 => exact fun _ => ⟨hg, hl⟩
  | _ + 1 => exact fun _ _ => hl

theorem entryAt_table (ram : Ppn → Page) (root : Ppn) (vma : BitVec 64) : entryAt ram root vma =
    (tableAt ram root vma).bind fun pt0 => if has (ram pt0 (vpn 0 vma)) pteV then some (ram pt0 (vpn 0 vma)) else none := by
  rw [entryAt_eq, tableAt, Option.bind_assoc]

theorem reaches_tableAt (h : tableAt ram root a = some q) : Reaches layout ram (vpns a) 3 root 1 q := by
  obtain ⟨pt1, h₂, h₁⟩ := Option.bind_eq_some_iff.mp h
  exact .step h₂ (.step h₁ (.root _ _))

theorem separate_of_nodup (h : (layout.owned 3 ram root).Nodup) : Separate ram root := by
  refine ⟨fun a q ha he => ?_, fun a b q pt1 ha hb he => ?_, fun a b q ha hb => ?_⟩
  · subst he
    exact absurd (reaches_unique h (reaches_tableAt ha) (.root 3 q (v := vpns a))).1 (by decide)
  · subst he
    have hb' : Reaches layout ram (vpns b) 3 root 2 q := .step hb (.root _ _)
    exact absurd (reaches_unique h (reaches_tableAt ha) hb').1 (by decide)
  · have hpath := (reaches_unique h (reaches_tableAt ha) (reaches_tableAt hb)).2
    exact ⟨hpath 2 (by decide) (by decide), hpath 1 (by decide) (by decide)⟩

theorem walkPtFind_table (hu : IsUser vma) (h : tableAt m.ram root vma = some q) :
    walkPtFind m root vma = some (q, vpn 0 vma) := by
  obtain ⟨pt1, h₂, h₁⟩ := Option.bind_eq_some_iff.mp h
  obtain ⟨hv₂, -, rfl⟩ := child_eq_some.mp h₂
  obtain ⟨hv₁, -, rfl⟩ := child_eq_some.mp h₁
  simp [VirtualMemory.walkPtFind, hu.wellformed, hv₂, hv₁]

/-- A word of a level-0 table may change. -/
theorem Separate.set (h : Separate m.ram root) (hq : tableAt m.ram root vma = some q) {i : Vpn} {w : BitVec 64} :
    Separate (m.setWord q i w).ram root ∧ ∀ a, tableAt (m.setWord q i w).ram root a = tableAt m.ram root a := by
  have hroot : (m.setWord q i w).ram root = m.ram root := setWord_ram_of_ne (h.top vma q hq).symm
  have htable : ∀ a, tableAt (m.setWord q i w).ram root a = tableAt m.ram root a := by
    intro a
    rw [tableAt, tableAt, hroot]
    cases hc : child (m.ram root (vpn 2 a)) with
    | none => rfl
    | some pt1 => rw [Option.bind_some, Option.bind_some, setWord_ram_of_ne (h.mid vma a q pt1 hq hc).symm]
  refine ⟨⟨fun a p ha => ?_, fun a b p pt1 ha hb => ?_, fun a b p ha hb => ?_⟩, htable⟩
  · exact h.top a p ((htable a).symm.trans ha)
  · rw [hroot] at hb
    exact h.mid a b p pt1 ((htable a).symm.trans ha) hb
  · exact h.inj a b p ((htable a).symm.trans ha) ((htable b).symm.trans hb)

/-- memory_set_page_flags where there are tables. -/
theorem memorySetPageFlags_flags (h : Separate m.ram (rootOf m.satp)) (hu : IsUser vma)
    (hq : tableAt m.ram (rootOf m.satp) vma = some q) : ∃ m', memorySetPageFlags m vma flags = some m' ∧
      m'.satp = m.satp ∧ Separate m'.ram (rootOf m.satp) ∧
      (∀ a, tableAt m'.ram (rootOf m.satp) a = tableAt m.ram (rootOf m.satp) a) ∧
      ∀ a, IsUser a → leafFlagsAt m' a = if pageNo a = pageNo vma then some (leafFlags flags) else leafFlagsAt m a := by
  obtain ⟨hsep, htable⟩ := h.set hq (i := vpn 0 vma) (w := setFlags (m.ram q (vpn 0 vma)) (leafFlags flags))
  refine ⟨m.setWord q (vpn 0 vma) (setFlags (m.ram q (vpn 0 vma)) (leafFlags flags)), ?_, rfl, hsep, htable,
    fun a ha => ?_⟩
  · rw [memorySetPageFlags, show pageptrToPagenum m.activeSpaceRoot = rootOf m.satp from rfl, walkPtFind_table hu hq]
    rfl
  · rw [leafFlagsAt, leafFlagsAt, setWord_satp, entryAt_table, entryAt_table, htable]
    split
    · rename_i hn
      have hv := (vpns_eq_iff ha hu).mpr hn
      have hqa : tableAt m.ram (rootOf m.satp) a = some q := by
        rw [tableAt, show vpn 2 a = vpn 2 vma from hv 2 (by decide), show vpn 1 a = vpn 1 vma from hv 1 (by decide)]
        exact hq
      have hvalid : has (setFlags (m.ram q (vpn 0 vma)) (leafFlags flags)) pteV = true := valid_setFlags _
      rw [hqa, Option.bind_some, show vpn 0 a = vpn 0 vma from hv 0 (by decide), setWord_ram_self, if_pos hvalid,
        Option.map_some, flagsOf_setFlags]
    · rename_i hn
      cases hqa : tableAt m.ram (rootOf m.satp) a with
      | none => rfl
      | some p =>
          have hword : (m.setWord q (vpn 0 vma) (setFlags (m.ram q (vpn 0 vma)) (leafFlags flags))).ram p (vpn 0 a) =
              m.ram p (vpn 0 a) := by
            by_cases hp : p = q
            · subst hp
              obtain ⟨h2, h1⟩ := h.inj a vma p hqa hq
              refine setWord_ram_idx fun h0 => hn ((vpns_eq_iff ha hu).mp fun i hi => ?_)
              interval_cases i
              · exact h0
              · exact h1
              · exact h2
            · rw [setWord_ram_of_ne hp]
          rw [Option.bind_some, Option.bind_some, hword]

/-- memory_alloc_and_map_page, on the flags. -/
theorem memoryAllocAndMapPage_flags (h : UserTables m free) (hu : IsUser vma) :
    memoryAllocAndMapPage m vma flags = none ∧ free.length < 3 ∨
      ∃ m' free', memoryAllocAndMapPage m vma flags = some m' ∧ UserTables m' free' ∧ free.length ≤ free'.length + 3 ∧
        ∀ a, IsUser a → leafFlagsAt m' a = if pageNo a = pageNo vma then some (leafFlags flags) else leafFlagsAt m a := by
  rcases @memoryAllocAndMapPage_entries _ _ _ flags _ tableEntry_zero tableEntry_ptabPte (fun _ h hv => (h hv).1)
    (fun _ => trivial) h.space h.user hu.vpn_two hu.wellformed with hnone | ⟨m', free', w, hrun, hspace, huser, hsatp, hup, hlen⟩
  · exact .inl hnone
  · refine .inr ⟨m', free', hrun, ⟨hspace, huser⟩, hlen, fun a ha => ?_⟩
    rw [leafFlagsAt, leafFlagsAt, hsatp]
    split
    · rename_i hn
      rw [vpns_congr ((vpns_eq_iff ha hu).mpr hn), hup.entry, Option.map_some, leafPte, flagsOf_mkPte, leafFlags]
    · rename_i hn
      exact congrArg (Option.map flagsOf) (hup.other (vpns a) fun hall => hn ((vpns_eq_iff ha hu).mp hall))

end Tables

section Ranges

variable {m m₁ : Mem} {free : List Ppn} {vma size a : BitVec 64} {flags flags' : BitVec 8} {n : Nat}

/-- The flags after an operation on the first cnt pages of a range. -/
def FlagsSet (m m' : Mem) (vma : BitVec 64) (flags : BitVec 8) (cnt : Nat) : Prop :=
  ∀ a, IsUser a → leafFlagsAt m' a =
    if pageNo vma ≤ pageNo a ∧ pageNo a < pageNo vma + cnt then some (leafFlags flags) else leafFlagsAt m a

theorem FlagsSet.zero (m : Mem) (vma : BitVec 64) (flags : BitVec 8) : FlagsSet m m vma flags 0 := by
  intro a _
  rw [if_neg (by omega)]

theorem FlagsSet.succ {m' m'' : Mem} {cnt : Nat} (h : FlagsSet m m' vma flags cnt)
    (h' : ∀ a, IsUser a → leafFlagsAt m'' a =
      if pageNo a = pageNo vma + cnt then some (leafFlags flags) else leafFlagsAt m' a) :
    FlagsSet m m'' vma flags (cnt + 1) := by
  intro a ha
  rw [h' a ha, h a ha]
  by_cases hn : pageNo a = pageNo vma + cnt
  · rw [if_pos hn, if_pos (by omega)]
  · rw [if_neg hn]
    refine if_congr ?_ rfl rfl
    omega

theorem allocLoop_flags (h : UserTables m free) (hr : InRegion vma n) (cnt : Nat) (hcnt : cnt ≤ pageCount n) :
    (List.range cnt).foldlM (fun m x => memoryAllocAndMapPage m (vma + BitVec.ofNat 64 (x * 4096)) flags) m = none ∧
        free.length < 3 * cnt ∨
      ∃ m' free', (List.range cnt).foldlM
          (fun m x => memoryAllocAndMapPage m (vma + BitVec.ofNat 64 (x * 4096)) flags) m = some m' ∧
        UserTables m' free' ∧ free.length ≤ free'.length + 3 * cnt ∧ FlagsSet m m' vma flags cnt := by
  induction cnt with
  | zero => exact .inr ⟨m, free, rfl, h, Nat.le_refl _, .zero m vma flags⟩
  | succ cnt ih =>
      rw [List.range_succ, List.foldlM_append]
      rcases ih (by omega) with ⟨hnone, hlen⟩ | ⟨m₁, free₁, hrun, h₁, hlen, hset⟩
      · rw [hnone]
        exact .inl ⟨rfl, by omega⟩
      obtain ⟨hu, hn⟩ := hr.page (i := cnt) (by omega)
      rw [hrun]
      simp only [Option.bind_eq_bind, Option.bind_some, List.foldlM_cons, List.foldlM_nil, Option.pure_def]
      rcases @memoryAllocAndMapPage_flags _ _ _ flags h₁ hu with ⟨hnone, hlen'⟩ | ⟨m₂, free₂, hrun', h₂, hlen', hset'⟩
      · rw [hnone]
        exact .inl ⟨rfl, by omega⟩
      · rw [hrun']
        rw [hn] at hset'
        exact .inr ⟨m₂, free₂, rfl, h₂, by omega, hset.succ hset'⟩

theorem protectLoop_flags (h : Separate m.ram (rootOf m.satp)) (hr : InRegion vma n)
    (hmap : ∀ a, IsUser a → pageNo vma ≤ pageNo a → pageNo a < pageNo vma + pageCount n → leafFlagsAt m a ≠ none)
    (cnt : Nat) (hcnt : cnt ≤ pageCount n) :
    ∃ m', (List.range cnt).foldlM (fun m x => memorySetPageFlags m (vma + BitVec.ofNat 64 (x * 4096)) flags) m = some m' ∧
      m'.satp = m.satp ∧ Separate m'.ram (rootOf m.satp) ∧ FlagsSet m m' vma flags cnt := by
  induction cnt with
  | zero => exact ⟨m, rfl, rfl, h, .zero m vma flags⟩
  | succ cnt ih =>
      obtain ⟨m₁, hrun, hsatp, h₁, hset⟩ := ih (by omega)
      obtain ⟨hu, hn⟩ := hr.page (i := cnt) (by omega)
      have hleaf : leafFlagsAt m₁ (vma + BitVec.ofNat 64 (cnt * 4096)) ≠ none := by
        rw [hset _ hu, if_neg (by omega)]
        exact hmap _ hu (by omega) (by omega)
      obtain ⟨e, he⟩ := Option.ne_none_iff_exists'.mp fun he => hleaf (Option.map_eq_none_iff.mpr he)
      rw [entryAt_table] at he
      obtain ⟨q, hq, -⟩ := Option.bind_eq_some_iff.mp he
      rw [hsatp.symm] at h₁
      obtain ⟨m₂, hrun', hsatp', h₂, -, hset'⟩ := @memorySetPageFlags_flags _ _ _ flags h₁ hu hq
      refine ⟨m₂, ?_, hsatp'.trans hsatp, hsatp ▸ h₂, hset.succ (hn ▸ hset')⟩
      rw [List.range_succ, List.foldlM_append, hrun]
      simp only [Option.bind_eq_bind, Option.bind_some, List.foldlM_cons, List.foldlM_nil, Option.pure_def, hrun']

theorem memoryAllocAndMapRange_flags (h : UserTables m free) (hr : InRegion vma size.toNat) :
    memoryAllocAndMapRange m vma size flags = none ∧ free.length < 3 * pageCount size.toNat ∨
      ∃ m' free', memoryAllocAndMapRange m vma size flags = some m' ∧ UserTables m' free' ∧
        FlagsSet m m' vma flags (pageCount size.toNat) := by
  rw [memoryAllocAndMapRange, forPages_eq hr]
  rcases @allocLoop_flags _ _ _ flags _ h hr _ (Nat.le_refl _) with hnone | ⟨m', free', hrun, h', -, hset⟩
  · exact .inl hnone
  · exact .inr ⟨m', free', hrun, h', hset⟩

theorem memorySetRangeFlags_flags (h : UserTables m free) (hr : InRegion vma size.toNat)
    (hmap : ∀ a, IsUser a → pageNo vma ≤ pageNo a → pageNo a < pageNo vma + pageCount size.toNat → leafFlagsAt m a ≠ none) :
    ∃ m', memorySetRangeFlags m vma size flags = some m' ∧ FlagsSet m m' vma flags (pageCount size.toNat) := by
  have hsep := separate_of_nodup (List.nodup_append.mp h.space.nodup).1
  obtain ⟨m', hrun, -, -, hset⟩ := @protectLoop_flags _ _ flags _ hsep hr hmap _ (Nat.le_refl _)
  exact ⟨m', by rw [memorySetRangeFlags, forPages_eq hr, hrun], hset⟩

/-- The page of an address has a byte of the range. -/
def Meets (vma : BitVec 64) (n : Nat) (a : BitVec 64) : Prop := ∃ i < n, pageNo (vma + BitVec.ofNat 64 i) = pageNo a

/-- Every page of the range is mapped with the flags. -/
def RangeHas (m : Mem) (vma : BitVec 64) (n : Nat) (flags : BitVec 8) : Prop :=
  ∀ a, IsUser a → Meets vma n a → leafFlagsAt m a = some (leafFlags flags)

/-- The range does not reach into one page more than its size fills. -/
def Covered (vma : BitVec 64) (n : Nat) : Prop := vma.toNat % 4096 + n ≤ 4096 * pageCount n

def lastByte (vma : BitVec 64) (n : Nat) : BitVec 64 := vma + BitVec.ofNat 64 (n - 1)

theorem pageNo_byte (h : InRegion vma n) {i : Nat} (hi : i < n) :
    pageNo (vma + BitVec.ofNat 64 i) = (vma.toNat + i) / 4096 := by
  rw [inRegion_iff] at h
  rw [pageNo, toNat_add_ofNat (by omega)]

theorem meets_iff (h : InRegion vma n) (hn : 0 < n) :
    Meets vma n a ↔ pageNo vma ≤ pageNo a ∧ pageNo a ≤ pageNo (lastByte vma n) := by
  rw [lastByte, pageNo_byte h (Nat.sub_lt hn Nat.one_pos)]
  constructor
  · intro ⟨i, hi, ha⟩
    rw [pageNo_byte h hi] at ha
    unfold pageNo at ha ⊢
    omega
  · intro ⟨hlo, hhi⟩
    by_cases hp : pageNo vma = pageNo a
    · refine ⟨0, hn, ?_⟩
      rw [pageNo_byte h hn, ← hp, pageNo, Nat.add_zero]
    · refine ⟨4096 * pageNo a - vma.toNat, ?_, ?_⟩
      · unfold pageNo at hlo hhi hp ⊢
        omega
      · rw [pageNo_byte h (by unfold pageNo at hlo hhi hp ⊢; omega)]
        unfold pageNo at hlo hhi hp ⊢
        omega

theorem covered_iff (h : InRegion vma n) (hn : 0 < n) :
    Covered vma n ↔ pageNo (lastByte vma n) < pageNo vma + pageCount n := by
  rw [lastByte, pageNo_byte h (Nat.sub_lt hn Nat.one_pos), Covered, pageNo, pageCount]
  omega

/-- The one page that may be left out is the last. -/
theorem lastByte_le (h : InRegion vma n) (hn : 0 < n) : pageNo (lastByte vma n) ≤ pageNo vma + pageCount n := by
  rw [lastByte, pageNo_byte h (Nat.sub_lt hn Nat.one_pos), pageNo, pageCount]
  omega

theorem FlagsSet.has_iff {m' : Mem} (hset : FlagsSet m m' vma flags (pageCount n)) (h : InRegion vma n) (hn : 0 < n) :
    RangeHas m' vma n flags ↔ Covered vma n ∨ leafFlagsAt m (lastByte vma n) = some (leafFlags flags) := by
  have hlast : IsUser (lastByte vma n) := h.isUser (Nat.sub_lt hn Nat.one_pos)
  have hle := lastByte_le h hn
  have hlo : pageNo vma ≤ pageNo (lastByte vma n) := by
    rw [lastByte, pageNo_byte h (Nat.sub_lt hn Nat.one_pos), pageNo]
    omega
  rw [covered_iff h hn]
  constructor
  · intro hhas
    by_cases hc : pageNo (lastByte vma n) < pageNo vma + pageCount n
    · exact .inl hc
    · have hflags := hhas _ hlast ((meets_iff h hn).mpr ⟨hlo, Nat.le_refl _⟩)
      rw [hset _ hlast, if_neg (by omega)] at hflags
      exact .inr hflags
  · intro hcase a ha hmeets
    obtain ⟨hlo', hhi'⟩ := (meets_iff h hn).mp hmeets
    rw [hset a ha]
    split
    · rfl
    · have hpage : pageNo a = pageNo (lastByte vma n) := by omega
      rcases hcase with hc | hflags
      · omega
      · rw [← hflags, leafFlagsAt, leafFlagsAt, vpns_congr ((vpns_eq_iff ha hlast).mpr hpage)]

/-- Mapping a range and then giving it new flags does so for all of its pages when the range fits the pages that its
size fills, and otherwise only if its last page had both flags before. -/
theorem range_has_flags_iff (h : UserTables m free) (hr : InRegion vma size.toNat) (hs : 0 < size.toNat) :
    (3 * pageCount size.toNat ≤ free.length → memoryAllocAndMapRange m vma size flags ≠ none) ∧
      ∀ m₁, memoryAllocAndMapRange m vma size flags = some m₁ → ∃ m₂, memorySetRangeFlags m₁ vma size flags' = some m₂ ∧
        (RangeHas m₁ vma size.toNat flags ∧ RangeHas m₂ vma size.toNat flags' ↔ Covered vma size.toNat ∨
          leafFlagsAt m (lastByte vma size.toNat) = some (leafFlags flags) ∧ leafFlags flags = leafFlags flags') := by
  have hlast : IsUser (lastByte vma size.toNat) := hr.isUser (Nat.sub_lt hs Nat.one_pos)
  refine ⟨fun hlen => ?_, fun m₁ hrun => ?_⟩
  · rcases @memoryAllocAndMapRange_flags _ _ _ _ flags h hr with ⟨-, hlt⟩ | ⟨m', -, hrun, -⟩
    · omega
    · rw [hrun]
      exact Option.some_ne_none m'
  · rcases @memoryAllocAndMapRange_flags _ _ _ _ flags h hr with ⟨hnone, -⟩ | ⟨m', free', hrun', h', hset⟩
    · cases hnone.symm.trans hrun
    obtain rfl := Option.some.inj (hrun'.symm.trans hrun)
    obtain ⟨m₂, hrun₂, hset₂⟩ := @memorySetRangeFlags_flags _ _ _ _ flags' h' hr fun a ha hlo hhi => by
      rw [hset a ha, if_pos ⟨hlo, hhi⟩]
      exact Option.some_ne_none _
    refine ⟨m₂, hrun₂, ?_⟩
    rw [hset.has_iff hr hs, hset₂.has_iff hr hs]
    by_cases hc : Covered vma size.toNat
    · simp only [hc, true_or, and_self]
    · have hout : leafFlagsAt m' (lastByte vma size.toNat) = leafFlagsAt m (lastByte vma size.toNat) := by
        rw [covered_iff hr hs] at hc
        rw [hset _ hlast, if_neg (by omega)]
      simp only [hc, false_or, hout]
      constructor
      · intro ⟨hf, hf'⟩
        exact ⟨hf, Option.some.inj (hf.symm.trans hf')⟩
      · intro ⟨hf, he⟩
        exact ⟨hf, he ▸ hf⟩

end Ranges

section Sample

theorem userTables_of_booted {img : MemoryInit.Image} {m : Mem} {free : List Ppn} (h : Booted img m free) :
    UserTables m free := by
  refine ⟨⟨h.list, ?_, h.all fun i hv hg => ?_⟩, (userSpace_of_booted h).user⟩
  · rw [h.owned]
    exact List.nodup_cons.mpr ⟨h.apart _ (by simp), h.nodup⟩
  · exact absurd ((h.map.root i hv).1.symm.trans hg) (by decide)

/-- A page of bytes from the middle of a page on. -/
theorem sample_inRegion : InRegion 0xC0000800 (4096 : BitVec 64).toNat := by
  rw [inRegion_iff]
  decide

theorem sample_alloc (flags : BitVec 8) : ∃ m free m₁, UserTables m free ∧
    (∀ a, IsUser a → leafFlagsAt m a = none) ∧ memoryAllocAndMapRange m 0xC0000800 4096 flags = some m₁ ∧
    FlagsSet m m₁ 0xC0000800 flags (pageCount (4096 : BitVec 64).toNat) := by
  obtain ⟨m, free, -, hb, hlen⟩ := sample_booted
  have hroot : has (m.ram (rootOf m.satp) 3) pteV = false := by
    rw [hb.root, hb.map.user 3 (by decide)]
    decide
  have hnone : ∀ a, IsUser a → leafFlagsAt m a = none := by
    intro a ha
    have hchild : child (m.ram (rootOf m.satp) (vpn 2 a)) = none := by
      rw [ha.vpn_two]
      simp [child, hroot]
    rw [leafFlagsAt, entryAt_eq, hchild]
    rfl
  rcases @memoryAllocAndMapRange_flags _ _ _ _ flags (userTables_of_booted hb) sample_inRegion with ⟨-, hlt⟩ | ⟨m₁, -, hrun, -, hset⟩
  · have hcount : pageCount (4096 : BitVec 64).toNat = 1 := by decide
    omega
  · exact ⟨m, free, m₁, userTables_of_booted hb, hnone, hrun, hset⟩

theorem range_has_flags_straddling : ∃ m free m₁, UserTables m free ∧
    memoryAllocAndMapRange m 0xC0000800 4096 (pteR ||| pteW ||| pteU) = some m₁ ∧
    ∃ m₂, memorySetRangeFlags m₁ 0xC0000800 4096 (pteR ||| pteU) = some m₂ ∧
      (RangeHas m₁ 0xC0000800 4096 (pteR ||| pteW ||| pteU) ∧ RangeHas m₂ 0xC0000800 4096 (pteR ||| pteU) ↔
        Covered 0xC0000800 4096 ∨
          leafFlagsAt m (lastByte 0xC0000800 4096) = some (leafFlags (pteR ||| pteW ||| pteU)) ∧
            leafFlags (pteR ||| pteW ||| pteU) = leafFlags (pteR ||| pteU)) := by
  obtain ⟨m, free, m₁, hm, -, hrun, -⟩ := sample_alloc (pteR ||| pteW ||| pteU)
  exact ⟨m, free, m₁, hm, hrun, (range_has_flags_iff hm sample_inRegion (by decide)).2 m₁ hrun⟩

/-- A range of one page's size that starts in the middle of a page leaves its second page unmapped. -/
theorem range_second_page_unmapped : ¬ ∀ m free vma size flags flags' m₁, UserTables m free → InRegion vma size.toNat →
    0 < size.toNat → memoryAllocAndMapRange m vma size flags = some m₁ →
      ∃ m₂, memorySetRangeFlags m₁ vma size flags' = some m₂ ∧ RangeHas m₁ vma size.toNat flags ∧
        RangeHas m₂ vma size.toNat flags' := by
  intro hall
  obtain ⟨m, free, m₁, hm, hnone, hrun, hset⟩ := sample_alloc (pteR ||| pteW ||| pteU)
  obtain ⟨m₂, -, hhas, -⟩ := hall m free _ _ _ (pteR ||| pteU) m₁ hm sample_inRegion (by decide) hrun
  rcases (hset.has_iff sample_inRegion (by decide)).mp hhas with hc | hlast
  · exact absurd hc (by unfold Covered; decide)
  · have hu : IsUser (lastByte 0xC0000800 (4096 : BitVec 64).toNat) :=
      sample_inRegion.isUser (Nat.sub_lt (by decide) Nat.one_pos)
    cases (hnone _ hu).symm.trans hlast

end Sample

end RiscvKernel.RangeCoverage
