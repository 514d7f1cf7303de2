import RiscvKernel.MemoryInit
import RiscvKernel.SpaceClone
import RiscvKernel.Unmap

namespace RiscvKernel.PageOwnership

open Memory PageTree AddressSpace MapPage SpaceClone MemoryInit Unmap Lib.LinkedList Lib.PointerTree

/-- USER_START_VMA and USER_END_VMA. -/
def userStart : BitVec 64 := 0xC0000000
def userEnd : BitVec 64 := 0xD0000000

/-- The memory and the spaces in use: the main one and those cloned and not reclaimed. -/
structure Kernel where
  mem : Mem
  mainMtag : BitVec 64
  clones : List (BitVec 64)

def Kernel.tags (s : Kernel) : List (BitVec 64) := s.mainMtag :: s.clones

def Kernel.setMem (s : Kernel) (m : Mem) : Kernel := { s with mem := m }

@[simp] theorem Kernel.setMem_mem (s : Kernel) (m : Mem) : (s.setMem m).mem = m := rfl

@[simp] theorem Kernel.setMem_tags (s : Kernel) (m : Mem) : (s.setMem m).tags = s.tags := rfl

/-- memory_space_reclaim, of the active space. -/
def Kernel.reclaim (s : Kernel) : Kernel where
  mem := memorySpaceReclaim s.mem s.mainMtag
  mainMtag := s.mainMtag
  clones := s.clones.erase s.mem.satp

inductive Op
  | map (vma : BitVec 64) (rwxugFlags : BitVec 8)
  | fault (vptr : BitVec 64)
  | clone
  | switch (mtag : BitVec 64)
  | exec
  | reclaim

/-- memory_handle_page_fault; outside the user region process_exit reclaims the space. -/
def memoryHandlePageFault (s : Kernel) (vptr : BitVec 64) : Option Kernel :=
  if userStart ≤ vptr ∧ vptr ≤ userEnd then
    (memoryAllocAndMapPage s.mem vptr (pteW ||| pteR ||| pteU)).map s.setMem
  else some s.reclaim

/-- The operations on the memory; none when the kernel panics, or for a mapping that is
not of a user address or a space that is not in use. -/
def step (s : Kernel) : Op → Option Kernel
  | .map vma rwxugFlags =>
      if userStart ≤ vma ∧ vma < userEnd then (memoryAllocAndMapPage s.mem vma rwxugFlags).map s.setMem else none
  | .fault vptr => memoryHandlePageFault s vptr
  | .clone => (memorySpaceClone s.mem).map fun (mtag, m) => ⟨m, s.mainMtag, mtag :: s.clones⟩
  | .switch mtag => if mtag ∈ s.tags then some (s.setMem (memorySpaceSwitch s.mem mtag)) else none
  | .exec => some (s.setMem (memoryUnmapAndFreeUser s.mem))
  | .reclaim => some s.reclaim

/-- No page twice on the free list, no page of a space in use on it, and no page behind
two user leaves. The leaves below USER_START_VMA are the kernel's own map of all memory. -/
structure Ownership (s : Kernel) (free : List Ppn) : Prop where
  list : FreeList s.mem free
  nodup : free.Nodup
  tables : ∀ t ∈ s.tags, ∀ vma, ∀ x ∈ path 3 s.mem.ram (rootOf t) vma false, x.1 ∉ free
  leaves : ∀ t ∈ s.tags, ∀ vma tr, translate s.mem.ram (rootOf t) vma = some tr →
    tr.global = false ∨ userStart ≤ vma → tr.page vma ∉ free
  once : ∀ t ∈ s.tags, ∀ t' ∈ s.tags, ∀ vma vma' tr tr', translate s.mem.ram (rootOf t) vma = some tr →
    translate s.mem.ram (rootOf t') vma' = some tr' → tr.global = false → tr'.global = false →
    has tr.entry pteU = true → has tr'.entry pteU = true → tr.page vma = tr'.page vma' →
    t = t' ∧ ∀ k < 3, vpn k vma = vpn k vma'

/-- The pages that memory_unmap_and_free_user frees: those of the valid user leaves. -/
def Kernel.userPages (s : Kernel) : List Ppn := targets hasU 3 s.mem.ram (rootOf s.mem.satp)

/-- The active space has no user leaf, or it is a clone and each of its user pages is
behind one leaf only. -/
def Kernel.MayReclaim (s : Kernel) : Prop :=
  s.userPages = [] ∨ s.mem.satp ≠ s.mainMtag ∧ s.userPages.Nodup ∧
    ∀ t ∈ s.tags, t ≠ s.mem.satp → ∀ p ∈ s.userPages, p ∉ targets (fun _ => true) 3 s.mem.ram (rootOf t)

/-- When the operation frees no page that stays mapped. -/
def Op.Safe (s : Kernel) : Op → Prop
  | .exec => s.userPages = []
  | .reclaim => s.MayReclaim
  | .fault vptr => userStart ≤ vptr ∧ vptr ≤ userEnd ∨ s.MayReclaim
  | _ => True

inductive Run (s : Kernel) : Kernel → Prop
  | nil : Run s s
  | cons {s₁ s₂ : Kernel} (op : Op) (h : Run s s₁) (hsafe : op.Safe s₁) (hstep : step s₁ op = some s₂) : Run s s₂

section Addresses

variable {vma : BitVec 64}

theorem vpn_two_val : (vpn 2 vma).val = vma.toNat / 2 ^ 30 % 512 := vpn_val 2 vma

theorem userStart_toNat : userStart.toNat = 0xC0000000 := rfl

theorem userEnd_toNat : userEnd.toNat = 0xD0000000 := rfl

theorem vpn_user (h : userStart ≤ vma) (h' : vma ≤ userEnd) : (vpn 2 vma).val = 3 := by
  rw [BitVec.le_def, userStart_toNat] at h
  rw [BitVec.le_def, userEnd_toNat] at h'
  rw [vpn_two_val]
  omega

/-- The canonical addresses from USER_START_VMA on are those of the other root entries. -/
theorem vpn_above (h : userStart ≤ vma) (hwf : wellformedVma vma = true) : 3 ≤ (vpn 2 vma).val := by
  rw [BitVec.le_def, userStart_toNat] at h
  rw [vpn_two_val]
  unfold wellformedVma at hwf
  rw [Bool.or_eq_true, beq_iff_eq, beq_iff_eq] at hwf
  have hlt := vma.isLt
  have hint := BitVec.toInt_sshiftRight (x := vma) (n := 38)
  have hto := BitVec.toInt_eq_toNat_cond vma
  rw [Int.shiftRight_eq_div_pow] at hint
  have hcases : vma.toInt / (2 ^ 38 : Nat) = 0 ∨ vma.toInt / (2 ^ 38 : Nat) = -1 := by
    rcases hwf with hz | hz
    · rw [hz] at hint
      exact .inl (hint.symm.trans (by decide))
    · have hm : vma.sshiftRight 38 = 0 - 1 := by rw [← hz, BitVec.add_sub_cancel]
      rw [hm] at hint
      exact .inr (hint.symm.trans (by decide))
  split at hto <;> omega

end Addresses

/-! The invariant. -/

/-- The free pages and those of the spaces in use. -/
def Kernel.Zone (s : Kernel) (free : List Ppn) (p : Ppn) : Prop :=
  p ∈ free ∨ ∃ t ∈ s.tags, p ∈ layout.owned 3 s.mem.ram (rootOf t)

/-- What the tables of a space hold: global pages that are used nowhere else at level 0,
own tables at level 1, and own tables or the kernel's map in the root. -/
def EntryOk (img : Image) (zone : Ppn → Prop) : Nat → BitVec 64 → Prop
  | 0, e => has e pteV = true → has e pteG = true → ppnOf e ∉ [img.mainPt1, img.mainPt0, 0] ∧ ¬ zone (ppnOf e)
  | 1, e => has e pteV = true → has e pteG = false ∧ isLeaf e = false
  | _ + 2, e => has e pteV = true → (has e pteG = true → isLeaf e = true ∨ ppnOf e = img.mainPt1) ∧
      (has e pteG = false → isLeaf e = false)

structure Inv (img : Image) (s : Kernel) (free : List Ppn) : Prop where
  spaces : ∀ t ∈ s.tags, Space (EntryOk img (s.Zone free)) s.mem (rootOf t) free
  apart : ∀ t ∈ s.tags, ∀ t' ∈ s.tags, t ≠ t' → ∀ p ∈ layout.owned 3 s.mem.ram (rootOf t),
    p ∉ layout.owned 3 s.mem.ram (rootOf t')
  user : ∀ t ∈ s.tags, ∀ i : Vpn, 3 ≤ i.val → has (s.mem.ram (rootOf t) i) pteV = true →
    has (s.mem.ram (rootOf t) i) pteG = false
  mid : ∀ i, KernelEntry img.mainPt0 (s.mem.ram img.mainPt1 i)
  low : ∀ i, has (s.mem.ram img.mainPt0 i) pteV = true → isLeaf (s.mem.ram img.mainPt0 i) = true
  kernel : ∀ p ∈ [img.mainPt1, img.mainPt0, 0], ¬ s.Zone free p
  tags : s.tags.Nodup
  active : s.mem.satp ∈ s.tags

section Entries

variable {img : Image} {zone zone' : Ppn → Prop} {k : Nat} {e e' : BitVec 64}

theorem EntryOk.mono (h : EntryOk img zone k e) (hz : ∀ p, zone' p → zone p) : EntryOk img zone' k e := by
  match k with
  | 0 => exact fun hv hg => ⟨(h hv hg).1, fun hm => (h hv hg).2 (hz _ hm)⟩
  | 1 => exact h
  | _ + 2 => exact h

theorem EntryOk.isTable (h : EntryOk img zone k e) : IsTable k e := by
  intro hk hc
  obtain ⟨c, hc⟩ := Option.ne_none_iff_exists'.mp hc
  obtain ⟨hv, hg, -⟩ := child_eq_some.mp hc
  match k with
  | 0 => exact absurd rfl hk
  | 1 => exact (h hv).2
  | _ + 2 => exact (h hv).2 hg

theorem EntryOk.upper (h : EntryOk img zone (k + 1) e) : EntryOk img zone' (k + 1) e := by
  match k with
  | 0 => exact h
  | _ + 1 => exact h

theorem entryOk_zero (img : Image) (zone : Ppn → Prop) (k : Nat) : EntryOk img zone k 0 := by
  match k with
  | 0 => exact fun hv => absurd hv (by decide)
  | 1 => exact fun hv => absurd hv (by decide)
  | _ + 2 => exact fun hv => absurd hv (by decide)

theorem ptabPte_flags (w : BitVec 64) : has (ptabPte w 0) pteG = false ∧ isLeaf (ptabPte w 0) = false := by
  rw [isLeaf, has, has, ptabPte, flagsOf_mkPte]
  decide

theorem entryOk_ptabPte (img : Image) (zone : Ppn → Prop) (k : Nat) (w : BitVec 64) :
    EntryOk img zone (k + 1) (ptabPte w 0) := by
  obtain ⟨hg, hl⟩ := ptabPte_flags w
  match k with
  | 0 => exact fun _ => ⟨hg, hl⟩
  | _ + 1 => exact fun _ => ⟨fun hg' => absurd (hg.symm.trans hg') (by decide), fun _ => hl⟩

theorem flags_or_added : ∀ (f : BitVec 8), ((f ||| added 0) &&& pteG != 0) = (f &&& pteG != 0) ∧
    ((f ||| added 1) &&& pteG != 0) = (f &&& pteG != 0) ∧
    ((f ||| added 1) &&& (pteR ||| pteW ||| pteX) != 0) = (f &&& (pteR ||| pteW ||| pteX) != 0) := by
  decide +kernel

/-- The condition on own entries is one on their flags. -/
theorem EntryOk.copy {c : Ppn} (hc : child e = some c) (h : EntryOk img zone k e) (hf : flagsOf e' = flagsOf e ||| added k) :
    EntryOk img zone k e' := by
  obtain ⟨hv, hg, -⟩ := child_eq_some.mp hc
  have hor := flags_or_added (flagsOf e)
  match k with
  | 0 =>
      have hg' : has e' pteG = false := by
        rw [has, hf]
        exact hor.1.trans hg
      exact fun _ hgt => absurd (hg'.symm.trans hgt) (by decide)
  | 1 =>
      intro _
      rw [isLeaf, has, has, hf]
      exact ⟨hor.2.1.trans (h hv).1, hor.2.2.trans (h hv).2⟩
  | k + 2 =>
      have hg' : has e' pteG = false := by
        rw [has, hf]
        exact hor.2.1.trans hg
      refine fun _ => ⟨fun hgt => absurd (hg'.symm.trans hgt) (by decide), fun _ => ?_⟩
      rw [isLeaf, has, hf]
      exact hor.2.2.trans ((h hv).2 hg)

end Entries

section Ownership

variable {img : Image} {s : Kernel} {free : List Ppn} {t t' : BitVec 64} {vma vma' : BitVec 64} {tr tr' : Translation}

theorem Inv.tables (h : Inv img s free) (ht : t ∈ s.tags) : layout.All IsTable 3 s.mem.ram (rootOf t) :=
  (h.spaces t ht).all.mono fun _ _ => EntryOk.isTable

theorem Inv.owned_not_free (h : Inv img s free) (ht : t ∈ s.tags) {p : Ppn}
    (hp : p ∈ layout.owned 3 s.mem.ram (rootOf t)) : p ∉ free :=
  fun hm => (List.nodup_append.mp (h.spaces t ht).nodup).2.2 p hp p hm rfl

/-- The tables a walk reads: own ones, and behind a global entry those of the kernel. -/
def Table (img : Image) (ram : Ppn → Page) (root : Ppn) : Nat → Ppn → Bool → Prop
  | 0, _, _ => True
  | k + 1, p, false => layout.Node ram 3 root (k + 1) p
  | k + 1, p, true => k = 1 ∧ p = img.mainPt1 ∨ k = 0 ∧ p = img.mainPt0

theorem node_le {ram : Ppn → Page} {k j : Nat} {r q : Ppn} (h : layout.Node ram k r j q) : j ≤ k := by
  induction h with
  | root k t => exact Nat.le_refl k
  | step h hn ih => omega

theorem Inv.table_closed (h : Inv img s free) (ht : t ∈ s.tags) (k : Nat) (p : Ppn) (g : Bool) (i : Vpn)
    (hp : Table img s.mem.ram (rootOf t) (k + 1) p g) (hv : has (s.mem.ram p i) pteV = true)
    (hl : isLeaf (s.mem.ram p i) = false) :
    Table img s.mem.ram (rootOf t) k (ppnOf (s.mem.ram p i)) (g || has (s.mem.ram p i) pteG) := by
  cases k with
  | zero => trivial
  | succ k =>
      cases g with
      | true =>
          rcases hp with ⟨hk, rfl⟩ | ⟨hk, -⟩
          · obtain ⟨-, hleaf | hppn⟩ := h.mid i hv
            · rw [hl] at hleaf
              cases hleaf
            · exact .inr ⟨by omega, hppn⟩
          · omega
      | false =>
          rw [Bool.false_or]
          cases hg : has (s.mem.ram p i) pteG with
          | false => exact hp.child (child_eq_some.mpr ⟨hv, hg, rfl⟩)
          | true =>
              have hentry := ((h.spaces t ht).all.node hp i).1
              have hle := node_le hp
              match k with
              | 0 => exact absurd ((hentry hv).1.symm.trans hg) (by decide)
              | 1 =>
                  have hleaf := (hentry hv).1 hg
                  rw [hl] at hleaf
                  exact .inl ⟨rfl, hleaf.resolve_left (by decide)⟩
              | k + 2 => omega

theorem Inv.path_not_free (h : Inv img s free) (ht : t ∈ s.tags) :
    ∀ x ∈ path 3 s.mem.ram (rootOf t) vma false, x.1 ∉ free := by
  intro x hx
  obtain ⟨j, hj⟩ := path_closed (h.table_closed ht) (show Table _ _ _ 3 _ false from .root _ _) x hx
  cases hb : x.2 with
  | false =>
      rw [hb] at hj
      exact h.owned_not_free ht (Layout.Node.mem hj)
  | true =>
      rw [hb] at hj
      rcases hj with ⟨-, hp⟩ | ⟨-, hp⟩
      · exact fun hm => h.kernel x.1 (by simp [hp]) (.inl hm)
      · exact fun hm => h.kernel x.1 (by simp [hp]) (.inl hm)

/-- A leaf that is not global is a page of the space. -/
theorem Inv.own_page (h : Inv img s free) (ht : t ∈ s.tags) (htr : walk 3 s.mem.ram (rootOf t) vma false = some tr)
    (hg : tr.global = false) : tr.page vma ∈ layout.owned 3 s.mem.ram (rootOf t) := by
  rw [page_level_zero (walk_level (h.tables ht) htr hg)]
  exact (walk_node htr hg).mem

/-- In the user region and above a global leaf is a level-0 entry of an own table. -/
theorem Inv.global_page (h : Inv img s free) (ht : t ∈ s.tags) (htr : walk 3 s.mem.ram (rootOf t) vma false = some tr)
    (hi : 3 ≤ (vpn 2 vma).val) (hg : tr.global = true) : ¬ s.Zone free (tr.page vma) := by
  have hall := (h.spaces t ht).all
  obtain ⟨hv₂, hcases₂⟩ := walk_cases htr
  have hg₂ := h.user t ht _ hi hv₂
  have hc₂ : child (s.mem.ram (rootOf t) (vpn 2 vma)) = some _ := child_eq_some.mpr ⟨hv₂, hg₂, rfl⟩
  obtain ⟨hentry₂, hsub₂⟩ := hall (vpn 2 vma)
  rw [(hentry₂ hv₂).2 hg₂, hg₂] at hcases₂
  obtain ⟨hf, -⟩ | ⟨-, hw₁⟩ := hcases₂
  · cases hf
  obtain ⟨hv₁, hcases₁⟩ := walk_cases hw₁
  obtain ⟨hentry₁, hsub₁⟩ := hsub₂ _ hc₂ (vpn 1 vma)
  rw [(hentry₁ hv₁).1, (hentry₁ hv₁).2] at hcases₁
  obtain ⟨hf, -⟩ | ⟨-, hw₀⟩ := hcases₁
  · cases hf
  have hc₁ := child_eq_some.mpr ⟨hv₁, (hentry₁ hv₁).1, rfl⟩
  obtain ⟨hv₀, ⟨-, rfl⟩ | ⟨-, hw⟩⟩ := walk_cases hw₀
  · rw [page_level_zero rfl]
    exact ((hsub₁ _ hc₁ (vpn 0 vma)).1 hv₀ hg).2
  · cases hw

/-- Two addresses with the same page are in the same virtual page. -/
theorem walk_inj {k : Nat} {ram : Ppn → Page} {r : Ppn} (hnd : (layout.owned k ram r).Nodup)
    (h : walk k ram r vma false = some tr) (h' : walk k ram r vma' false = some tr') (hg : tr.global = false)
    (hg' : tr'.global = false) (hlev : tr.level = 0) (hlev' : tr'.level = 0) (he : ppnOf tr.entry = ppnOf tr'.entry) :
    ∀ j < k, vpn j vma = vpn j vma' := by
  induction k generalizing r with
  | zero => exact fun j hj => absurd hj (Nat.not_lt_zero j)
  | succ k ih =>
      have hmem : ∀ {v : BitVec 64} {tr : Translation}, walk (k + 1) ram r v false = some tr → tr.global = false →
          ppnOf tr.entry ∈ layout.children k ram r (vpn k v) := by
        intro v tr hw hg
        obtain ⟨hc, hcases⟩ := walk_child hw hg
        rw [children_some hc]
        rcases hcases with ⟨-, rfl⟩ | ⟨-, hw⟩
        · exact self_mem_owned _ _ _
        · exact (walk_node hw hg).mem
      have hi : vpn k vma = vpn k vma' := by
        by_contra hne
        exact children_disjoint hnd hne (he ▸ hmem h' hg') (hmem h hg)
      intro j hj
      rcases Nat.lt_succ_iff_lt_or_eq.mp hj with hj | rfl
      · obtain ⟨hc, hcases⟩ := walk_child h hg
        obtain ⟨-, hcases'⟩ := walk_child h' hg'
        rw [← hi] at hcases'
        have hsub := children_nodup hnd (vpn k vma)
        rw [children_some hc] at hsub
        rcases hcases with ⟨-, rfl⟩ | ⟨-, hw⟩
        · have hk : k = 0 := hlev
          omega
        · rcases hcases' with ⟨-, rfl⟩ | ⟨-, hw'⟩
          · have hk : k = 0 := hlev'
            omega
          · exact ih hsub hw hw' j hj
      · exact hi

/-- The invariant is what the property asks for. -/
theorem Inv.ownership (h : Inv img s free) : Ownership s free := by
  have hmain : s.mainMtag ∈ s.tags := List.mem_cons_self
  refine ⟨(h.spaces _ hmain).list, (List.nodup_append.mp (h.spaces _ hmain).nodup).2.1, fun t ht vma => h.path_not_free ht,
    ?_, ?_⟩
  · intro t ht vma tr htr hor
    have hw := translate_walk htr
    cases hg : tr.global with
    | false => exact h.owned_not_free ht (h.own_page ht hw hg)
    | true =>
        rw [hg] at hor
        have hi := vpn_above (hor.resolve_left (by decide)) (translate_wellformed htr)
        exact fun hm => h.global_page ht hw hi hg (.inl hm)
  · intro t ht t' ht' vma vma' tr tr' htr htr' hg hg' _ _ he
    have hw := translate_walk htr
    have hw' := translate_walk htr'
    have htt : t = t' := by
      by_contra hne
      exact h.apart t ht t' ht' hne _ (h.own_page ht hw hg) (he ▸ h.own_page ht' hw' hg')
    subst htt
    have hlev := walk_level (h.tables ht) hw hg
    have hlev' := walk_level (h.tables ht) hw' hg'
    rw [page_level_zero hlev, page_level_zero hlev'] at he
    exact ⟨rfl, walk_inj (List.nodup_append.mp (h.spaces t ht).nodup).1 hw hw' hg hg' hlev hlev' he⟩

end Ownership

/-! The steps. -/

section Steps

variable {img : Image} {s : Kernel} {m' : Mem} {free free' : List Ppn} {t t' : BitVec 64} {vma : BitVec 64}

/-- The pages of a space are apart from the region of another. -/
theorem Inv.not_mem_region (h : Inv img s free) (ht : t ∈ s.tags) (ht' : t' ∈ s.tags) (hne : t' ≠ t) {p : Ppn}
    (hp : p ∈ layout.owned 3 s.mem.ram (rootOf t')) : p ∉ region s.mem (rootOf t) free := by
  intro hm
  rcases List.mem_append.mp hm with hm | hm
  · exact h.apart t' ht' t ht hne p hp hm
  · exact h.owned_not_free ht' hp hm

theorem zone_of_region (ht : t ∈ s.tags) {p : Ppn} (hp : p ∈ region s.mem (rootOf t) free) :
    s.Zone free p :=
  (List.mem_append.mp hp).elim (fun hp => .inr ⟨t, ht, hp⟩) .inl

/-- The user addresses are mapped through own tables. -/
theorem Inv.ownWay (h : Inv img s free) (ht : t ∈ s.tags) (hi : 3 ≤ (vpn 2 vma).val) :
    ownWay s.mem.ram (rootOf t) vma = true := by
  unfold MapPage.ownWay
  cases hv : has (s.mem.ram (rootOf t) (vpn 2 vma)) pteV with
  | false => simp [hv]
  | true =>
      have hg := h.user t ht _ hi hv
      have hsub := ((h.spaces t ht).all (vpn 2 vma)).2 _ (child_eq_some.mpr ⟨hv, hg, rfl⟩)
      have hentry := (hsub (vpn 1 vma)).1
      cases hv₁ : has (s.mem.ram (ppnOf (s.mem.ram (rootOf t) (vpn 2 vma))) (vpn 1 vma)) pteV with
      | false => simp [hg, hv₁]
      | true => simp [hg, (hentry hv₁).1]

/-- A change by the active space, in its region, keeps the invariant; zone₁ is what is
known of its global pages before. -/
theorem Inv.within (h : Inv img s free) {zone₁ : Ppn → Prop}
    (hw : Within (EntryOk img zone₁) (rootOf s.mem.satp) s.mem free m' free')
    (hkept : ∀ i, m'.ram (rootOf s.mem.satp) i = s.mem.ram (rootOf s.mem.satp) i ∨
      child (m'.ram (rootOf s.mem.satp) i) ≠ none)
    (hzone : ∀ p, (s.setMem m').Zone free' p → s.Zone free p → zone₁ p) : Inv img (s.setMem m') free' := by
  have hact := h.active
  have hsame : ∀ t ∈ s.tags, t ≠ s.mem.satp → ∀ p ∈ layout.owned 3 s.mem.ram (rootOf t), m'.ram p = s.mem.ram p :=
    fun t ht hne p hp => hw.frame p (h.not_mem_region hact ht hne hp)
  have howned : ∀ t ∈ s.tags, t ≠ s.mem.satp →
      layout.owned 3 m'.ram (rootOf t) = layout.owned 3 s.mem.ram (rootOf t) :=
    fun t ht hne => owned_congr (hsame t ht hne)
  have hregion : ∀ p ∈ layout.owned 3 m'.ram (rootOf s.mem.satp), p ∈ region s.mem (rootOf s.mem.satp) free :=
    fun p hp => hw.sub (List.mem_append_left _ hp)
  have hsub : ∀ p, (s.setMem m').Zone free' p → s.Zone free p := by
    rintro p (hp | ⟨t, ht, hp⟩)
    · exact zone_of_region hact (hw.sub (List.mem_append_right _ hp))
    · by_cases hne : t = s.mem.satp
      · rw [hne] at hp
        exact zone_of_region hact (hregion p hp)
      · exact .inr ⟨t, ht, howned t ht hne ▸ hp⟩
  have hkernel : ∀ p ∈ [img.mainPt1, img.mainPt0, 0], m'.ram p = s.mem.ram p :=
    fun p hp => hw.frame p fun hm => h.kernel p hp (zone_of_region hact hm)
  refine ⟨?_, ?_, ?_, ?_, ?_, fun p hp hz => h.kernel p hp (hsub p hz), h.tags, ?_⟩
  · intro t ht
    by_cases hne : t = s.mem.satp
    · subst hne
      exact ⟨hw.space.list, hw.space.nodup, hw.space.all.mono fun _ _ he => he.mono fun p hp => hzone p hp (hsub p hp)⟩
    · refine ⟨hw.space.list, ?_, ((h.spaces t ht).all.congr (hsame t ht hne)).mono fun _ _ he => he.mono hsub⟩
      refine List.nodup_append.mpr ⟨?_, (List.nodup_append.mp hw.space.nodup).2.1, ?_⟩
      · rw [Kernel.setMem, howned t ht hne]
        exact (List.nodup_append.mp (h.spaces t ht).nodup).1
      · intro p hp q hq he
        rw [Kernel.setMem, howned t ht hne] at hp
        exact h.not_mem_region hact ht hne hp (hw.sub (List.mem_append_right _ (he ▸ hq)))
  · intro t ht t' ht' hne p hp hp'
    by_cases hta : t = s.mem.satp
    · have hta' : t' ≠ s.mem.satp := fun he => hne (hta.trans he.symm)
      rw [Kernel.setMem, howned t' ht' hta'] at hp'
      exact h.not_mem_region hact ht' hta' hp' (hregion p (hta ▸ hp))
    · rw [Kernel.setMem, howned t ht hta] at hp
      by_cases hta' : t' = s.mem.satp
      · exact h.not_mem_region hact ht hta hp (hregion p (hta' ▸ hp'))
      · rw [Kernel.setMem, howned t' ht' hta'] at hp'
        exact h.apart t ht t' ht' hne p hp hp'
  · intro t ht i hi hv
    by_cases hne : t = s.mem.satp
    · subst hne
      rcases hkept i with he | hc
      · rw [Kernel.setMem, he] at hv ⊢
        exact h.user _ ht i hi hv
      · obtain ⟨c, hc⟩ := Option.ne_none_iff_exists'.mp hc
        exact (child_eq_some.mp hc).2.1
    · rw [Kernel.setMem, hsame t ht hne _ (self_mem_owned _ _ _)] at hv ⊢
      exact h.user t ht i hi hv
  · rw [Kernel.setMem, hkernel img.mainPt1 (by simp)]
    exact h.mid
  · rw [Kernel.setMem, hkernel img.mainPt0 (by simp)]
    exact h.low
  · rw [Kernel.setMem, hw.satp]
    exact hact

theorem flags_leaf : ∀ f : BitVec 8, ((f ||| pteA ||| pteD ||| pteV) &&& pteG != 0) = (f &&& pteG != 0) ∧
    ((f ||| pteA ||| pteD ||| pteV) &&& pteV != 0) = true := by
  decide +kernel

theorem leafPte_child (w : BitVec 64) {flags : BitVec 8} (hg : (flags &&& pteG != 0) = true) :
    child (leafPte w flags) = none := by
  have hg' : has (leafPte w flags) pteG = true := by
    rw [has, leafPte, flagsOf_mkPte]
    exact (flags_leaf flags).1.trans hg
  simp [child, hg']

/-- memory_alloc_and_map_page of a user address. -/
theorem Inv.map (h : Inv img s free) {flags : BitVec 8} (hi : 3 ≤ (vpn 2 vma).val)
    (hrun : memoryAllocAndMapPage s.mem vma flags = some m') : ∃ free', Inv img (s.setMem m') free' := by
  -- of the zone, the page mapped is left out when the leaf is global
  let zone₁ := fun p => s.Zone free p ∧ (free.head? = some p → (flags &&& pteG != 0) = false)
  have hact := h.active
  have hspace : Space (EntryOk img zone₁) s.mem (rootOf s.mem.satp) free :=
    ⟨(h.spaces _ hact).list, (h.spaces _ hact).nodup, (h.spaces _ hact).all.mono fun _ _ he => he.mono fun _ hp => hp.1⟩
  have hleaf : ∀ w, free.head? = some (pageptrToPagenum w) → EntryOk img zone₁ 0 (leafPte w flags) := by
    intro w hw hv hg
    rw [has, leafPte, flagsOf_mkPte] at hg
    rw [leafPte, ppnOf_mkPte]
    refine ⟨fun hk => h.kernel _ hk (.inl (List.mem_of_mem_head? hw)), fun hz => ?_⟩
    rw [(flags_leaf flags).1, hz.2 hw] at hg
    cases hg
  obtain ⟨w, free', hm⟩ := memoryAllocAndMapPage_within (entryOk_zero img zone₁) (entryOk_ptabPte img zone₁) hleaf hspace
    (h.ownWay hact hi) hrun
  refine ⟨free', h.within hm.within hm.kept fun p hp hz => ⟨hz, fun hhead => ?_⟩⟩
  rw [Bool.eq_false_iff]
  intro hg
  obtain rfl := Option.some.inj (hm.head.symm.trans hhead)
  have hnot := hm.shared (leafPte_child w hg)
  have hpf : pageptrToPagenum w ∈ free := List.mem_of_mem_head? hhead
  rcases hp with hp | ⟨t, ht, hp⟩
  · exact hnot (List.mem_append_right _ hp)
  · by_cases hne : t = s.mem.satp
    · exact hnot (List.mem_append_left _ (hne ▸ hp))
    · have howned := owned_congr (k := 3) (t := rootOf t) fun p hp =>
        hm.within.frame p (h.not_mem_region hact ht hne hp)
      rw [Kernel.setMem, howned] at hp
      exact h.owned_not_free ht hp hpf

/-- memory_space_clone of the active space. -/
theorem Inv.clone (h : Inv img s free) {mtag : BitVec 64} (hrun : memorySpaceClone s.mem = some (mtag, m')) :
    ∃ free', Inv img ⟨m', s.mainMtag, mtag :: s.clones⟩ free' := by
  have hact := h.active
  rcases memorySpaceClone_forked (h.spaces _ hact).list (h.spaces _ hact).nodup with ⟨hnone, -⟩ |
    ⟨mtag', m'', u, free', hsome, hf⟩
  · cases hnone.symm.trans hrun
  obtain ⟨rfl, rfl⟩ := Prod.mk.inj (Option.some.inj (hsome.symm.trans hrun))
  have htags : ∀ t, t ∈ Kernel.tags ⟨m'', s.mainMtag, mtag' :: s.clones⟩ ↔ t = mtag' ∨ t ∈ s.tags := by
    intro t
    simp only [Kernel.tags, List.mem_cons]
    exact or_left_comm
  have hold : ∀ t ∈ s.tags, layout.owned 3 m''.ram (rootOf t) = layout.owned 3 s.mem.ram (rootOf t) :=
    fun t ht => (hf.oldSpace (h.spaces t ht)).2
  have hnew : ∀ p ∈ layout.owned 3 m''.ram (rootOf mtag'), p ∈ free := by
    intro p hp
    rw [← hf.region_eq]
    exact List.mem_append_left _ hp
  have hfresh : mtag' ∉ s.tags := fun hm =>
    h.owned_not_free hm (self_mem_owned 3 s.mem.ram (rootOf mtag')) (hnew _ (self_mem_owned _ _ _))
  have hsub : ∀ p, Kernel.Zone ⟨m'', s.mainMtag, mtag' :: s.clones⟩ free' p → s.Zone free p := by
    rintro p (hp | ⟨t, ht, hp⟩)
    · exact .inl (hf.sublist.subset hp)
    · rcases (htags t).mp ht with rfl | ht
      · exact .inl (hnew p hp)
      · exact .inr ⟨t, ht, hold t ht ▸ hp⟩
  have hkernel : ∀ p ∈ [img.mainPt1, img.mainPt0, 0], m''.ram p = s.mem.ram p :=
    fun p hp => hf.unchanged p fun hm => h.kernel p hp (.inl hm)
  refine ⟨free', ?_, ?_, ?_, ?_, ?_, fun p hp hz => h.kernel p hp (hsub p hz), ?_, ?_⟩
  · intro t ht
    rcases (htags t).mp ht with rfl | ht
    · have hspace := hf.newSpace (h.spaces _ hact) fun hc hq hfl => hq.copy hc hfl
      exact ⟨hspace.list, hspace.nodup, hspace.all.mono fun _ _ he => he.mono hsub⟩
    · have hspace := (hf.oldSpace (h.spaces t ht)).1
      exact ⟨hspace.list, hspace.nodup, hspace.all.mono fun _ _ he => he.mono hsub⟩
  · intro t ht t' ht' hne p hp hp'
    rcases (htags t).mp ht with he | hs <;> rcases (htags t').mp ht' with he' | hs'
    · exact hne (he.trans he'.symm)
    · exact h.owned_not_free hs' (hold t' hs' ▸ hp') (hnew p (he ▸ hp))
    · exact h.owned_not_free hs (hold t hs ▸ hp) (hnew p (he' ▸ hp'))
    · exact h.apart t hs t' hs' hne p (hold t hs ▸ hp) (hold t' hs' ▸ hp')
  · intro t ht i hi hv
    rcases (htags t).mp ht with rfl | ht
    · have hentry : EntryCopy 2 s.mem.ram (rootOf s.mem.satp) m''.ram (rootOf t) i := hf.copy i
      cases hc : child (s.mem.ram (rootOf s.mem.satp) i) with
      | none =>
          have he := (entryCopy_none hc).mp hentry
          rw [he] at hv ⊢
          exact h.user _ hact i hi hv
      | some c =>
          have hchild := child_of_flags hc ((entryCopy_some hc).mp hentry).1
          exact (child_eq_some.mp hchild).2.1
    · have hroot : m''.ram (rootOf t) = s.mem.ram (rootOf t) :=
        hf.unchanged _ (h.owned_not_free ht (self_mem_owned _ _ _))
      rw [hroot] at hv ⊢
      exact h.user t ht i hi hv
  · rw [hkernel img.mainPt1 (by simp)]
    exact h.mid
  · rw [hkernel img.mainPt0 (by simp)]
    exact h.low
  · have hnd := h.tags
    rw [Kernel.tags, List.nodup_cons] at hnd ⊢
    rw [Kernel.tags, List.mem_cons, not_or] at hfresh
    rw [List.mem_cons, not_or, List.nodup_cons]
    exact ⟨⟨Ne.symm hfresh.1, hnd.1⟩, hfresh.2, hnd.2⟩
  · rw [htags, hf.satp]
    exact .inr hact

theorem Inv.switch (h : Inv img s free) {mtag : BitVec 64} (hm : mtag ∈ s.tags) :
    Inv img (s.setMem (memorySpaceSwitch s.mem mtag)) free :=
  ⟨fun t ht => ⟨(h.spaces t ht).list, (h.spaces t ht).nodup, (h.spaces t ht).all⟩, h.apart, h.user, h.mid, h.low, h.kernel,
    h.tags, hm⟩

/-- The page of a leaf is one of the space, or global and in no zone. -/
theorem Inv.target_cases (h : Inv img s free) (ht : t ∈ s.tags) {sel : BitVec 64 → Bool} {p : Ppn}
    (hp : p ∈ targets sel 3 s.mem.ram (rootOf t)) :
    layout.Node s.mem.ram 3 (rootOf t) 0 p ∨ p ∉ [img.mainPt1, img.mainPt0, 0] ∧ ¬ s.Zone free p := by
  obtain ⟨q, i, hn, hv, -, rfl⟩ := mem_targets.mp hp
  cases hg : has (s.mem.ram q i) pteG with
  | false => exact .inl (hn.child (child_eq_some.mpr ⟨hv, hg, rfl⟩))
  | true => exact .inr (((h.spaces t ht).all.node hn i).1 hv hg)

/-- No user leaf of a table is global. -/
def PlainUser : Nat → BitVec 64 → Prop := fun k e => k = 0 → has e pteV = true → hasU e = true → has e pteG = false

/-- A clone without global user leaves may be reclaimed. -/
theorem Inv.mayReclaim (h : Inv img s free) (hmain : s.mem.satp ≠ s.mainMtag)
    (hplain : layout.All PlainUser 3 s.mem.ram (rootOf s.mem.satp)) : s.MayReclaim := by
  have hact := h.active
  have hsub : List.Sublist s.userPages (layout.owned 3 s.mem.ram (rootOf s.mem.satp)) := targets_sublist hplain
  refine .inr ⟨hmain, (List.nodup_append.mp (h.spaces _ hact).nodup).1.sublist hsub, fun t ht hne p hp hm => ?_⟩
  have hp := hsub.subset hp
  rcases h.target_cases ht hm with hn | ⟨-, hz⟩
  · exact h.apart _ hact t ht (Ne.symm hne) p hp hn.mem
  · exact hz (.inr ⟨_, hact, hp⟩)

/-- memory_unmap_and_free_user frees the pages of the user leaves and no table. -/
theorem Inv.unmap_eq (h : Inv img s free) : memoryUnmapAndFreeUser s.mem = freeAll s.mem s.userPages := by
  have hact := h.active
  rw [memoryUnmapAndFreeUser_level]
  refine unmapLevel_eq (l := s.userPages) (d := []) (h.tables hact) (List.Subset.refl _) (fun j q hn hm => ?_)
    (List.nil_subset _)
  rcases h.target_cases hact hm with hp | ⟨-, hp⟩
  · exact hn.ne_leaf (List.nodup_append.mp (h.spaces _ hact).nodup).1 hp rfl
  · exact hp (.inr ⟨_, hact, hn.mem⟩)

theorem Inv.exec (h : Inv img s free) (hnone : s.userPages = []) :
    Inv img (s.setMem (memoryUnmapAndFreeUser s.mem)) free := by
  rw [h.unmap_eq, hnone]
  exact h

/-- Freeing pages that no space that stays in use has behind a leaf. -/
theorem Inv.freeAll (h : Inv img s free) {l : List Ppn} {clones' : List (BitVec 64)} (hnd : l.Nodup)
    (hl : ∀ p ∈ l, p ∉ free ∧ p ∉ [img.mainPt1, img.mainPt0, 0]) (hsub : clones' ⊆ s.clones) (hnd' : clones'.Nodup)
    (hstay : ∀ t ∈ s.mainMtag :: clones', ∀ p ∈ l, p ∉ layout.owned 3 s.mem.ram (rootOf t) ∧
      p ∉ targets (fun _ => true) 3 s.mem.ram (rootOf t)) :
    Inv img ⟨memorySpaceSwitch (freeAll s.mem l) s.mainMtag, s.mainMtag, clones'⟩ (l.reverse ++ free) := by
  have htags : ∀ t ∈ s.mainMtag :: clones', t ∈ s.tags := by
    intro t ht
    rcases List.mem_cons.mp ht with rfl | ht
    · exact List.mem_cons_self
    · exact List.mem_cons_of_mem _ (hsub ht)
  have hmain := (h.spaces _ (htags s.mainMtag List.mem_cons_self))
  have hndf := (List.nodup_append.mp hmain.nodup).2.1
  have hlf : (l ++ free).Nodup := List.nodup_append.mpr ⟨hnd, hndf, fun p hp q hq he => (hl p hp).1 (he ▸ hq)⟩
  have hram : ∀ t ∈ s.mainMtag :: clones', ∀ p ∈ layout.owned 3 s.mem.ram (rootOf t),
      (Unmap.freeAll s.mem l).ram p = s.mem.ram p :=
    fun t ht p hp => freeAll_ram fun hm => (hstay t ht p hm).1 hp
  have howned : ∀ t ∈ s.mainMtag :: clones', layout.owned 3 (Unmap.freeAll s.mem l).ram (rootOf t) =
      layout.owned 3 s.mem.ram (rootOf t) := fun t ht => owned_congr (hram t ht)
  have hlist : FreeList (Unmap.freeAll s.mem l) (l.reverse ++ free) :=
    freeList_freeAll hmain.list hlf fun hm => (hl 0 hm).2 (by simp)
  have hzone : ∀ p, Kernel.Zone ⟨memorySpaceSwitch (Unmap.freeAll s.mem l) s.mainMtag, s.mainMtag, clones'⟩
      (l.reverse ++ free) p → p ∈ l ∨ s.Zone free p := by
    rintro p (hp | ⟨t, ht, hp⟩)
    · rcases List.mem_append.mp hp with hp | hp
      · exact .inl (List.mem_reverse.mp hp)
      · exact .inr (.inl hp)
    · exact .inr (.inr ⟨t, htags t ht, howned t ht ▸ hp⟩)
  have hkernel : ∀ p ∈ [img.mainPt1, img.mainPt0, 0], (Unmap.freeAll s.mem l).ram p = s.mem.ram p :=
    fun p hp => freeAll_ram fun hm => (hl p hm).2 hp
  refine ⟨?_, ?_, ?_, ?_, ?_, ?_, ?_, List.mem_cons_self⟩
  · intro t ht
    have hspace := h.spaces t (htags t ht)
    refine ⟨hlist, ?_, ?_⟩
    · show (layout.owned 3 (Unmap.freeAll s.mem l).ram (rootOf t) ++ (l.reverse ++ free)).Nodup
      rw [howned t ht]
      refine List.nodup_append.mpr ⟨(List.nodup_append.mp hspace.nodup).1, ?_, ?_⟩
      · exact ((List.reverse_perm l).append_right free).nodup_iff.mpr hlf
      · intro p hp q hq he
        subst he
        rcases List.mem_append.mp hq with hq | hq
        · exact (hstay t ht p (List.mem_reverse.mp hq)).1 hp
        · exact h.owned_not_free (htags t ht) hp hq
    · refine Layout.All.congr ?_ (hram t ht)
      refine Layout.All.of_node fun j q i hn => ?_
      have hentry := (hspace.all.node hn i).1
      cases j with
      | zero =>
          intro hv hg
          refine ⟨(hentry hv hg).1, fun hz => ?_⟩
          rcases hzone _ hz with hm | hz
          · exact (hstay t ht _ hm).2 (mem_targets.mpr ⟨q, i, hn, hv, rfl, rfl⟩)
          · exact (hentry hv hg).2 hz
      | succ j => exact hentry.upper
  · intro t ht t' ht' hne p hp hp'
    exact h.apart t (htags t ht) t' (htags t' ht') hne p (howned t ht ▸ hp) (howned t' ht' ▸ hp')
  · intro t ht i hi hv
    rw [memorySpaceSwitch_ram, hram t ht _ (self_mem_owned _ _ _)] at hv ⊢
    exact h.user t (htags t ht) i hi hv
  · rw [memorySpaceSwitch_ram, hkernel img.mainPt1 (by simp)]
    exact h.mid
  · rw [memorySpaceSwitch_ram, hkernel img.mainPt0 (by simp)]
    exact h.low
  · intro p hp hz
    rcases hzone p hz with hm | hz
    · exact (hl p hm).2 hp
    · exact h.kernel p hp hz
  · have hmainNot := (List.nodup_cons.mp h.tags).1
    exact List.nodup_cons.mpr ⟨fun hm => hmainNot (hsub hm), hnd'⟩

theorem Inv.reclaim (h : Inv img s free) (hmay : s.MayReclaim) : ∃ free', Inv img s.reclaim free' := by
  have hact := h.active
  have hclones := (List.nodup_cons.mp h.tags).2
  have hmem : s.reclaim.mem = memorySpaceSwitch (Unmap.freeAll s.mem s.userPages) s.mainMtag := by
    rw [Kernel.reclaim, memorySpaceReclaim, h.unmap_eq]
  have heq : s.reclaim = ⟨memorySpaceSwitch (Unmap.freeAll s.mem s.userPages) s.mainMtag, s.mainMtag,
      s.clones.erase s.mem.satp⟩ := by
    rw [← hmem]
    rfl
  rw [heq]
  refine ⟨_, h.freeAll ?_ ?_ List.erase_subset (hclones.erase _) ?_⟩
  · rcases hmay with hnil | ⟨-, hnd, -⟩
    · rw [hnil]
      exact List.nodup_nil
    · exact hnd
  · intro p hp
    rcases h.target_cases hact hp with hn | ⟨hk, hz⟩
    · exact ⟨h.owned_not_free hact hn.mem, fun hk => h.kernel p hk (.inr ⟨_, hact, hn.mem⟩)⟩
    · exact ⟨fun hm => hz (.inl hm), hk⟩
  · intro t ht p hp
    rcases hmay with hnil | ⟨hmain, -, honce⟩
    · rw [hnil] at hp
      cases hp
    · have hts : t ∈ s.tags ∧ t ≠ s.mem.satp := by
        rcases List.mem_cons.mp ht with rfl | ht
        · exact ⟨List.mem_cons_self, Ne.symm hmain⟩
        · rw [hclones.mem_erase_iff] at ht
          exact ⟨List.mem_cons_of_mem _ ht.2, ht.1⟩
      refine ⟨?_, honce t hts.1 hts.2 p hp⟩
      rcases h.target_cases hact hp with hn | ⟨-, hz⟩
      · exact h.apart _ hact t hts.1 (Ne.symm hts.2) p hn.mem
      · exact fun hm => hz (.inr ⟨t, hts.1, hm⟩)

theorem Inv.step (h : Inv img s free) {op : Op} {s' : Kernel} (hsafe : op.Safe s) (hstep : step s op = some s') :
    ∃ free', Inv img s' free' := by
  cases op with
  | map vma flags =>
      simp only [PageOwnership.step] at hstep
      split at hstep
      · rename_i hu
        obtain ⟨m', hrun, rfl⟩ := Option.map_eq_some_iff.mp hstep
        exact h.map (vpn_user hu.1 (BitVec.le_of_lt hu.2)).ge hrun
      · cases hstep
  | fault vptr =>
      simp only [PageOwnership.step, memoryHandlePageFault] at hstep
      split at hstep
      · rename_i hu
        obtain ⟨m', hrun, rfl⟩ := Option.map_eq_some_iff.mp hstep
        exact h.map (vpn_user hu.1 hu.2).ge hrun
      · rename_i hu
        obtain rfl := Option.some.inj hstep
        exact h.reclaim (hsafe.resolve_left hu)
  | clone =>
      obtain ⟨⟨mtag, m'⟩, hrun, rfl⟩ := Option.map_eq_some_iff.mp hstep
      exact h.clone hrun
  | switch mtag =>
      simp only [PageOwnership.step] at hstep
      split at hstep
      · obtain rfl := Option.some.inj hstep
        exact ⟨free, h.switch ‹_›⟩
      · cases hstep
  | exec =>
      obtain rfl := Option.some.inj hstep
      exact ⟨free, h.exec hsafe⟩
  | reclaim =>
      obtain rfl := Option.some.inj hstep
      exact h.reclaim hsafe

end Steps

/-! The runs. -/

section Runs

variable {img : Image} {m₀ m : Mem} {free : List Ppn}

theorem inv_of_booted (h : Booted img m free) : Inv img ⟨m, m.satp, []⟩ free := by
  have htags : ∀ t ∈ Kernel.tags ⟨m, m.satp, []⟩, t = m.satp := fun t ht => List.mem_singleton.mp ht
  have hroot := h.root
  have hin := img.inside img.mainPt2 (by simp)
  have hnd := img.nodup
  simp only [List.nodup_cons, List.mem_cons, List.not_mem_nil, or_false, not_or] at hnd
  have hzone : ∀ p, Kernel.Zone ⟨m, m.satp, []⟩ free p → p ∈ free ∨ p = img.mainPt2 := by
    rintro p (hp | ⟨t, ht, hp⟩)
    · exact .inl hp
    · rw [htags t ht, h.owned] at hp
      exact .inr (List.mem_singleton.mp hp)
  refine ⟨?_, ?_, ?_, h.map.mid, h.map.low, ?_, List.nodup_singleton _, List.mem_singleton_self _⟩
  · intro t ht
    rw [htags t ht]
    refine ⟨h.list, ?_, h.all fun i hv => ?_⟩
    · rw [h.owned]
      exact List.nodup_cons.mpr ⟨h.apart _ (by simp), h.nodup⟩
    · obtain ⟨hg, hor⟩ := h.map.root i hv
      exact ⟨fun _ => hor, fun hg' => absurd (hg'.symm.trans hg) (by decide)⟩
  · intro t ht t' ht' hne
    exact absurd ((htags t ht).trans (htags t' ht').symm) hne
  · intro t ht i hi hv
    rw [htags t ht, hroot] at hv ⊢
    show has (m.ram img.mainPt2 i) pteG = false
    rw [h.map.user i hi]
    decide
  · intro p hp hz
    rcases hzone p hz with hm | rfl
    · simp only [List.mem_cons, List.not_mem_nil, or_false] at hp
      rcases hp with rfl | rfl | rfl
      · exact h.apart _ (by simp) hm
      · exact h.apart _ (by simp) hm
      · exact h.zero hm
    · simp only [List.mem_cons, List.not_mem_nil, or_false] at hp
      rcases hp with he | he | he
      · exact hnd.1.1 he
      · exact hnd.1.2 he
      · have := img.start
        rw [he] at hin
        simp [ramStart] at this hin
        omega

/-- In every run from memory_init in which no page is freed that stays mapped, the pages
are owned as they should be. -/
theorem run_ownership (hzero : ∀ p ∈ [img.mainPt2, img.mainPt1, img.mainPt0], m₀.ram p = fun _ => 0)
    (hinit : memoryInit img m₀ = some m) {s : Kernel} (hrun : Run ⟨m, m.satp, []⟩ s) : ∃ free, Ownership s free := by
  have hinv : ∃ free, Inv img s free := by
    induction hrun with
    | nil =>
        obtain ⟨free, hb⟩ := memoryInit_booted hzero hinit
        exact ⟨free, inv_of_booted hb⟩
    | cons op _ hsafe hstep ih =>
        obtain ⟨free, h⟩ := ih
        exact h.step hsafe hstep
  obtain ⟨free, h⟩ := hinv
  exact ⟨free, h.ownership⟩

end Runs

section Sample

/-- An image of 128 KiB with 8 MiB of memory. -/
def sampleImage : Image where
  imgStart := 0x80000000
  textStart := 0x80000000
  textEnd := 0x80008000
  rodataStart := 0x80008000
  rodataEnd := 0x8000A000
  dataStart := 0x8000A000
  imgEnd := 0x80020000
  mainPt2 := 0x80010
  mainPt1 := 0x80011
  mainPt0 := 0x80012
  ramSize := 8 * 1024 * 1024
  start := rfl
  nodup := by decide
  inside := by
    intro p hp
    simp only [List.mem_cons, List.not_mem_nil, or_false] at hp
    rcases hp with rfl | rfl | rfl <;> decide
  ramSize_le := by decide

/-- Memory at reset, with the page tables in the zeroed bss. -/
def sampleMem : Mem := ⟨fun _ _ => 0, 0, 0⟩

theorem sample_booted : ∃ m free, memoryInit sampleImage sampleMem = some m ∧ Booted sampleImage m free ∧
    7 ≤ free.length := by
  obtain ⟨m, hm⟩ := @memoryInit_some sampleImage sampleMem (by decide) (by decide) (by decide)
  obtain ⟨free, hb⟩ := memoryInit_booted (fun p _ => rfl) hm
  refine ⟨m, free, hm, hb, ?_⟩
  rw [hb.length]
  decide

section FirstPage

variable {img : Image} {s : Kernel} {free : List Ppn}

/-- The page at USER_START_VMA is mapped in the active space, which had no user leaf. -/
structure FirstPage (img : Image) (s : Kernel) (free : List Ppn) (w : BitVec 64) (m' : Mem) (free' : List Ppn) : Prop where
  run : step s (.map userStart (pteR ||| pteW ||| pteU)) = some (s.setMem m')
  inv : Inv img (s.setMem m') free'
  size : free.length ≤ free'.length + 3
  satp : m'.satp = s.mem.satp
  plain : layout.All PlainUser 3 m'.ram (rootOf s.mem.satp)
  pages : targets hasU 3 m'.ram (rootOf s.mem.satp) = [pageptrToPagenum w]
  tables : ∃ pt1 pt0, child (m'.ram (rootOf s.mem.satp) (vpn 2 userStart)) = some pt1 ∧
    child (m'.ram pt1 (vpn 1 userStart)) = some pt0 ∧ m'.ram pt0 (vpn 0 userStart) = leafPte w (pteR ||| pteW ||| pteU)
  frame : ∀ t ∈ s.tags, t ≠ s.mem.satp → ∀ p ∈ layout.owned 3 s.mem.ram (rootOf t), m'.ram p = s.mem.ram p

theorem Inv.firstPage (h : Inv img s free) (hlen : 3 ≤ free.length) (hno : s.userPages = []) :
    ∃ w m' free', FirstPage img s free w m' free' := by
  have hact := h.active
  -- the only user leaf is the one of the page mapped
  let Q := fun k e => IsTable k e ∧
    (k = 0 → has e pteV = true → hasU e = true → free.head? = some (ppnOf e) ∧ has e pteG = false)
  have hspace : Space Q s.mem (rootOf s.mem.satp) free := by
    have hsp := h.spaces _ hact
    refine ⟨hsp.list, hsp.nodup, Layout.All.of_node fun j q i hn => ⟨((h.tables hact).node hn i).1, ?_⟩⟩
    rintro rfl hv hu
    have hmem : ppnOf (s.mem.ram q i) ∈ s.userPages := mem_targets.mpr ⟨q, i, hn, hv, hu, rfl⟩
    rw [hno] at hmem
    cases hmem
  have hQ₀ : ∀ k, Q k 0 := fun k => ⟨fun _ hc => absurd child_zero hc, fun _ hv => absurd hv (by decide)⟩
  have hQt : ∀ k w, Q (k + 1) (ptabPte w 0) := fun k w => ⟨fun _ _ => (ptabPte_flags w).2, fun h0 => by cases h0⟩
  have hQl : ∀ w, free.head? = some (pageptrToPagenum w) → Q 0 (leafPte w (pteR ||| pteW ||| pteU)) := by
    intro w hw
    refine ⟨fun h0 => absurd rfl h0, fun _ _ _ => ⟨?_, ?_⟩⟩
    · rw [leafPte, ppnOf_mkPte]
      exact hw
    · rw [has, flagsOf_leafPte]
      decide
  have hway : MapPage.ownWay s.mem.ram (rootOf s.mem.satp) userStart = true := h.ownWay hact (by decide)
  rcases memoryAllocAndMapPage_mapped hQ₀ hQt hQl hspace hway (by decide) with ⟨-, hshort⟩ | ⟨w, m', free', hrun, hm⟩
  · omega
  obtain ⟨free'', hinv⟩ := h.map (show 3 ≤ (vpn 2 userStart).val by decide) hrun
  obtain rfl : free'' = free' := (hinv.spaces _ hact).list.unique hm.within.space.list
  have hplain : layout.All PlainUser 3 m'.ram (rootOf s.mem.satp) :=
    hm.within.space.all.mono fun _ _ hq h0 hv hu => (hq.2 h0 hv hu).2
  have hnd : (targets hasU 3 m'.ram (rootOf s.mem.satp)).Nodup :=
    (List.nodup_append.mp hm.within.space.nodup).1.sublist (targets_sublist hplain)
  have hall : ∀ p ∈ targets hasU 3 m'.ram (rootOf s.mem.satp), p = pageptrToPagenum w := by
    intro p hp
    obtain ⟨q, i, hn, hv, hu, rfl⟩ := mem_targets.mp hp
    have hhead := ((hm.within.space.all.node hn i).1.2 rfl hv hu).1
    exact Option.some.inj (hhead.symm.trans hm.head)
  have hmem : pageptrToPagenum w ∈ targets hasU 3 m'.ram (rootOf s.mem.satp) := by
    obtain ⟨pt1, pt0, hc₂, hc₁, hleaf⟩ := hm.tables
    refine mem_targets.mpr ⟨pt0, vpn 0 userStart, ((Layout.Node.root 3 _).child hc₂).child hc₁, ?_⟩
    rw [hleaf, hasU, has, has, flagsOf_leafPte, leafPte, ppnOf_mkPte]
    exact ⟨by decide, by decide, rfl⟩
  refine ⟨w, m', free'', ?_, hinv, hm.size, hm.within.satp, hplain, ?_, hm.tables, ?_⟩
  · rw [PageOwnership.step, if_pos ⟨by decide, by decide⟩, hrun]
    rfl
  · generalize targets hasU 3 m'.ram (rootOf s.mem.satp) = l at hnd hall hmem
    cases l with
    | nil => cases hmem
    | cons p l =>
        obtain rfl := hall p List.mem_cons_self
        obtain rfl : l = [] := List.eq_nil_iff_forall_not_mem.mpr fun q hq =>
          (List.nodup_cons.mp hnd).1 (hall q (List.mem_cons_of_mem _ hq) ▸ hq)
        rfl
  · intro t ht hne p hp
    exact hm.within.frame p (h.not_mem_region hact ht hne hp)

theorem translate_userStart {ram : Ppn → Page} {root pt1 pt0 : Ppn} {w : BitVec 64}
    (hc₂ : child (ram root (vpn 2 userStart)) = some pt1) (hl₂ : isLeaf (ram root (vpn 2 userStart)) = false)
    (hc₁ : child (ram pt1 (vpn 1 userStart)) = some pt0) (hl₁ : isLeaf (ram pt1 (vpn 1 userStart)) = false)
    (hleaf : ram pt0 (vpn 0 userStart) = leafPte w (pteR ||| pteW ||| pteU)) :
    translate ram root userStart = some ⟨0, leafPte w (pteR ||| pteW ||| pteU), false⟩ := by
  have hflags := flagsOf_leafPte w (pteR ||| pteW ||| pteU)
  obtain ⟨hv₂, hg₂, rfl⟩ := child_eq_some.mp hc₂
  obtain ⟨hv₁, hg₁, rfl⟩ := child_eq_some.mp hc₁
  have hg₀ : has (leafPte w (pteR ||| pteW ||| pteU)) pteG = false := by
    rw [has, hflags]
    decide
  rw [AddressSpace.translate, if_pos (by decide), walk_table hv₂ hl₂, hg₂, walk_table hv₁ hl₁, hg₁,
    walk_leaf (by rw [hleaf, has, hflags]; decide) (by rw [hleaf, isLeaf, has, hflags]; decide), hleaf, hg₀, if_pos]
  · rfl
  · simp only [leafOk, has, hflags, Nat.pow_zero, Nat.mod_one]
    decide

/-- The page is behind its address as long as the tables of the space stay. -/
theorem FirstPage.translate {w : BitVec 64} {m' : Mem} {free' : List Ppn} (h : FirstPage img s free w m' free')
    (hact : s.mem.satp ∈ s.tags) {ram : Ppn → Page}
    (hram : ∀ j p, layout.Node m'.ram 3 (rootOf s.mem.satp) (j + 1) p → ram p = m'.ram p) :
    translate ram (rootOf s.mem.satp) userStart = some ⟨0, leafPte w (pteR ||| pteW ||| pteU), false⟩ := by
  obtain ⟨pt1, pt0, hc₂, hc₁, hleaf⟩ := h.tables
  have htab : layout.All IsTable 3 m'.ram (rootOf s.mem.satp) := h.inv.tables hact
  have hn₂ : layout.Node m'.ram 3 (rootOf s.mem.satp) 3 (rootOf s.mem.satp) := .root _ _
  have hn₁ := hn₂.child hc₂
  have hl₂ := (htab.node hn₂ (vpn 2 userStart)).1 (by decide) (Option.ne_none_iff_exists'.mpr ⟨_, hc₂⟩)
  have hl₁ := (htab.node hn₁ (vpn 1 userStart)).1 (by decide) (Option.ne_none_iff_exists'.mpr ⟨_, hc₁⟩)
  rw [← hram 2 _ hn₂] at hc₂ hl₂
  rw [← hram 1 _ hn₁] at hc₁ hl₁
  rw [← hram 0 _ (hn₁.child (hram 1 _ hn₁ ▸ hc₁))] at hleaf
  exact translate_userStart hc₂ hl₂ hc₁ hl₁ hleaf

/-- The page is one of the space. -/
theorem FirstPage.node {w : BitVec 64} {m' : Mem} {free' : List Ppn} (h : FirstPage img s free w m' free') :
    layout.Node m'.ram 3 (rootOf s.mem.satp) 0 (pageptrToPagenum w) := by
  have hmem : pageptrToPagenum w ∈ targets hasU 3 m'.ram (rootOf s.mem.satp) := h.pages ▸ List.mem_singleton_self _
  obtain ⟨q, i, hn, hv, hu, hp⟩ := mem_targets.mp hmem
  exact hn.child (child_eq_some.mpr ⟨hv, (h.plain.node hn i).1 rfl hv hu, hp⟩)

theorem targets_nil {sel : BitVec 64 → Bool} {ram : Ppn → Page} {root : Ppn} (h : ∀ i, child (ram root i) = none) :
    targets sel 3 ram root = [] := by
  apply List.eq_nil_iff_forall_not_mem.mpr
  intro p hp
  obtain ⟨q, i, hn, -⟩ := mem_targets.mp hp
  cases hn with
  | step hc hn => cases (h _).symm.trans hc

end FirstPage

/-- The main space with a page at USER_START_VMA. -/
theorem sample_mapped : ∃ m w m' free free', memoryInit sampleImage sampleMem = some m ∧
    FirstPage sampleImage ⟨m, m.satp, []⟩ free w m' free' := by
  obtain ⟨m, free, hinit, hb, hlen⟩ := sample_booted
  have hno : Kernel.userPages ⟨m, m.satp, []⟩ = [] := targets_nil fun i => hb.root ▸ kernelEntry_child (hb.map.root i)
  obtain ⟨w, m', free', hfirst⟩ := (inv_of_booted hb).firstPage (by omega) hno
  exact ⟨m, w, m', free, free', hinit, hfirst⟩

/-- The main space and a clone of it, the active one, each with a page at USER_START_VMA. -/
theorem sample_clones : ∃ m mtag m₁ w m₂ w' m₃ free₁ free₂ free₃, memoryInit sampleImage sampleMem = some m ∧
    step ⟨m, m.satp, []⟩ .clone = some ⟨m₁, m.satp, [mtag]⟩ ∧ m₁.satp = m.satp ∧ mtag ≠ m.satp ∧
    FirstPage sampleImage ⟨m₁, m.satp, [mtag]⟩ free₁ w m₂ free₂ ∧
    step ⟨m₂, m.satp, [mtag]⟩ (.switch mtag) = some ⟨memorySpaceSwitch m₂ mtag, m.satp, [mtag]⟩ ∧
    FirstPage sampleImage ⟨memorySpaceSwitch m₂ mtag, m.satp, [mtag]⟩ free₂ w' m₃ free₃ := by
  obtain ⟨m, free, hinit, hb, hlen⟩ := sample_booted
  have hinv := inv_of_booted hb
  have hempty : ∀ i, child (m.ram (rootOf m.satp) i) = none := fun i => hb.root ▸ kernelEntry_child (hb.map.root i)
  have hspace := hinv.spaces m.satp List.mem_cons_self
  rcases memorySpaceClone_forked hspace.list hspace.nodup with ⟨-, hshort⟩ | ⟨mtag, m₁, u, free₁, hrun, hf⟩
  · rw [hb.owned, List.length_singleton] at hshort
    omega
  obtain ⟨free', hinv₁⟩ := hinv.clone hrun
  obtain rfl : free' = free₁ := (hinv₁.spaces _ List.mem_cons_self).list.unique hf.list
  have hlen₁ : free.length = free'.length + 1 := by
    have hcount := hf.copy.length
    have hsplit := congrArg List.length hf.split
    rw [hf.owned, hb.owned, List.length_cons, List.length_singleton] at hcount
    rw [List.length_append, List.length_cons] at hsplit
    omega
  have hne : mtag ≠ m.satp := by
    have hnd := hinv₁.tags
    simp only [Kernel.tags, List.nodup_cons, List.mem_singleton] at hnd
    exact Ne.symm hnd.1
  have hroot : m₁.ram (rootOf m.satp) = m.ram (rootOf m.satp) :=
    hf.unchanged _ (hinv.owned_not_free List.mem_cons_self (self_mem_owned _ _ _))
  have hno : Kernel.userPages ⟨m₁, m.satp, [mtag]⟩ = [] := by
    refine targets_nil fun i => ?_
    rw [hf.satp, hroot]
    exact hempty i
  obtain ⟨w, m₂, free₂, hfirst⟩ := hinv₁.firstPage (by omega) hno
  have hsize := hfirst.size
  have hmem : mtag ∈ Kernel.tags ⟨m₁, m.satp, [mtag]⟩ := List.mem_cons_of_mem _ List.mem_cons_self
  have hno' : Kernel.userPages ⟨memorySpaceSwitch m₂ mtag, m.satp, [mtag]⟩ = [] := by
    refine targets_nil fun i => ?_
    have hcopy : EntryCopy 2 m.ram (rootOf m.satp) m₁.ram (rootOf mtag) i := hf.copy i
    show child (m₂.ram (rootOf mtag) i) = none
    rw [hfirst.frame mtag hmem (by rw [hf.satp]; exact hne) _ (self_mem_owned _ _ _), (entryCopy_none (hempty i)).mp hcopy]
    exact hempty i
  obtain ⟨w', m₃, free₃, hfirst'⟩ := (hfirst.inv.switch hmem).firstPage (by omega) hno'
  refine ⟨m, mtag, m₁, w, m₂, w', m₃, free', free₂, free₃, hinit, ?_, hf.satp, hne, hfirst, if_pos hmem, hfirst'⟩
  rw [step, hrun]
  rfl

/-- The clone is reclaimed, with the page mapped in it. -/
theorem run_ownership_sample : ∃ m mtag s s' free free', memoryInit sampleImage sampleMem = some m ∧
    Run ⟨m, m.satp, []⟩ s ∧ s.tags = [m.satp, mtag] ∧ s.mem.satp = mtag ∧ s.userPages ≠ [] ∧ Ownership s free ∧
    step s .reclaim = some s' ∧ Ownership s' free' := by
  obtain ⟨m, mtag, m₁, w, m₂, w', m₃, free₁, free₂, free₃, hinit, hclone, hsatp, hne, hfirst, hswitch, hfirst'⟩ := sample_clones
  have hrun : Run ⟨m, m.satp, []⟩ ⟨m₃, m.satp, [mtag]⟩ := by
    have h₁ := Run.cons .clone .nil trivial hclone
    have h₂ := Run.cons (.map userStart (pteR ||| pteW ||| pteU)) h₁ trivial hfirst.run
    have h₃ := Run.cons (.switch mtag) h₂ trivial hswitch
    exact .cons (.map userStart (pteR ||| pteW ||| pteU)) h₃ trivial hfirst'.run
  have hactive : m₃.satp = mtag := hfirst'.satp
  have hmay : Kernel.MayReclaim ⟨m₃, m.satp, [mtag]⟩ := hfirst'.inv.mayReclaim (by rw [Kernel.setMem_mem, hactive]; exact hne)
    (by rw [Kernel.setMem_mem, hactive]; exact hfirst'.plain)
  obtain ⟨free, hown⟩ := run_ownership (fun p _ => rfl) hinit hrun
  obtain ⟨free', hown'⟩ := run_ownership (fun p _ => rfl) hinit (.cons .reclaim hrun hmay rfl)
  refine ⟨m, mtag, _, _, free, free', hinit, hrun, rfl, hactive, ?_, hown, rfl, hown'⟩
  have hpages := hfirst'.pages
  rw [show (memorySpaceSwitch m₂ mtag).satp = m₃.satp from hactive.symm] at hpages
  rw [Kernel.userPages, hpages]
  exact List.cons_ne_nil _ _

/-- After process_exec the page it frees is still behind its leaf. -/
theorem exec_page_mapped_and_free : ∃ m s s', memoryInit sampleImage sampleMem = some m ∧
    step ⟨m, m.satp, []⟩ (.map userStart (pteR ||| pteW ||| pteU)) = some s ∧ step s .exec = some s' ∧
    ∀ free, ¬ Ownership s' free := by
  obtain ⟨m, w, m', free₀, free, hinit, hfirst⟩ := sample_mapped
  obtain ⟨s, hs⟩ : ∃ s : Kernel, s = Kernel.setMem ⟨m, m.satp, []⟩ m' := ⟨_, rfl⟩
  have hmap := hfirst.run
  have hinv := hfirst.inv
  have hact : m.satp ∈ s.tags := hs ▸ List.mem_cons_self
  have hmem : m' = s.mem := hs ▸ rfl
  have hsatp : s.mem.satp = m.satp := hmem ▸ hfirst.satp
  have huser : s.userPages = [pageptrToPagenum w] := by
    rw [Kernel.userPages, hsatp, ← hmem]
    exact hfirst.pages
  have hn : layout.Node s.mem.ram 3 (rootOf m.satp) 0 (pageptrToPagenum w) := hmem ▸ hfirst.node
  rw [← hs] at hmap hinv
  refine ⟨m, s, s.setMem (memoryUnmapAndFreeUser s.mem), hinit, hmap, rfl, fun free' h => ?_⟩
  have hnd := (List.nodup_append.mp (hinv.spaces _ hact).nodup).1
  have hmem' : (s.setMem (memoryUnmapAndFreeUser s.mem)).mem = freeAll s.mem [pageptrToPagenum w] := by
    rw [Kernel.setMem_mem, hinv.unmap_eq, huser]
  have hfree : pageptrToPagenum w ∈ free' := by
    have hlist := h.list
    rw [hmem', FreeList, freeAll_freeList (List.cons_ne_nil _ _), List.getLast_singleton] at hlist
    have h₀ : pageptrToPagenum w ≠ 0 := fun he =>
      hinv.kernel 0 (by simp) (.inr ⟨_, hact, he ▸ hn.mem⟩)
    cases free' with
    | nil => cases (derefPage_pagenumToPageptr h₀).symm.trans hlist
    | cons q l =>
        obtain rfl := Option.some.inj ((derefPage_pagenumToPageptr h₀).symm.trans hlist.1)
        exact List.mem_cons_self
  have hram : ∀ {j q}, layout.Node s.mem.ram 3 (rootOf m.satp) (j + 1) q →
      (freeAll s.mem [pageptrToPagenum w]).ram q = s.mem.ram q :=
    fun hq => freeAll_ram fun hm => hq.ne_leaf hnd hn (List.mem_singleton.mp hm)
  have htr : translate (freeAll s.mem [pageptrToPagenum w]).ram (rootOf m.satp) userStart =
      some ⟨0, leafPte w (pteR ||| pteW ||| pteU), false⟩ :=
    hfirst.translate List.mem_cons_self fun j p hp => by
      rw [hmem] at hp ⊢
      exact hram hp
  have hleaves := h.leaves m.satp (by rw [Kernel.setMem_tags]; exact hact) userStart _ (by rw [hmem']; exact htr) (.inl rfl)
  rw [page_level_zero rfl, leafPte, ppnOf_mkPte] at hleaves
  exact hleaves hfree

end Sample

end RiscvKernel.PageOwnership
