import RiscvKernel.PageTree

namespace RiscvKernel.AddressSpace

open Memory PageTree Lib.LinkedList Lib.PointerTree

/-! The Sv39 translation. -/

def isLeaf (e : BitVec 64) : Bool := has e (pteR ||| pteW ||| pteX)

/-- The entry at which a translation ends, its level, and whether an entry on the way
or the leaf itself was global. -/
structure Translation where
  level : Nat
  entry : BitVec 64
  global : Bool
  deriving DecidableEq

/-- A leaf faults when it is writable and not readable, or a misaligned superpage. -/
def leafOk (k : Nat) (e : BitVec 64) : Bool :=
  (has e pteR || !has e pteW) && (ppnOf e).toNat % 512 ^ k == 0

/-- The walk of the hardware from a table of height k; none is a page fault. -/
def walk : Nat → (Ppn → Page) → Ppn → BitVec 64 → Bool → Option Translation
  | 0, _, _, _, _ => none
  | k + 1, ram, t, vma, g =>
      let e := ram t (vpn k vma)
      if !has e pteV then none
      else if isLeaf e then if leafOk k e then some ⟨k, e, g || has e pteG⟩ else none
      else walk k ram (ppnOf e) vma (g || has e pteG)

def translate (ram : Ppn → Page) (root : Ppn) (vma : BitVec 64) : Option Translation :=
  if wellformedVma vma then walk 3 ram root vma false else none

/-- The page an address is in, under its translation. -/
def Translation.page (tr : Translation) (vma : BitVec 64) : Ppn :=
  ppnOf tr.entry + BitVec.ofNat 44 ((vma >>> 12).toNat % 512 ^ tr.level)

/-- The tables the walk reads, each with whether a global entry led there. -/
def path : Nat → (Ppn → Page) → Ppn → BitVec 64 → Bool → List (Ppn × Bool)
  | 0, _, _, _, _ => []
  | k + 1, ram, t, vma, g => (t, g) ::
      let e := ram t (vpn k vma)
      if has e pteV && !isLeaf e then path k ram (ppnOf e) vma (g || has e pteG) else []

section Addresses

variable {a : BitVec 64}

theorem vpn_val (k : Nat) (a : BitVec 64) : (vpn k a).val = a.toNat / 2 ^ (12 + 9 * k) % 512 := by
  simp [vpn, BitVec.toNat_ushiftRight, Nat.shiftRight_eq_div_pow]

theorem wellformed_iff : wellformedVma a = true ↔ a.toNat < 2 ^ 38 ∨ 2 ^ 64 - 2 ^ 38 ≤ a.toNat := by
  have hlt := a.isLt
  have hint : (a.sshiftRight 38).toInt = a.toInt / 2 ^ 38 := by
    rw [BitVec.toInt_sshiftRight, Int.shiftRight_eq_div_pow]
    rfl
  have hzero : a.sshiftRight 38 = 0 ↔ a.toInt / 2 ^ 38 = 0 := by
    rw [← hint, ← BitVec.toInt_inj]
    rfl
  have hone : a.sshiftRight 38 + 1 = 0 ↔ a.toInt / 2 ^ 38 = -1 := by
    rw [← hint, ← eq_neg_iff_add_eq_zero, ← BitVec.toInt_inj]
    rfl
  rw [wellformedVma, Bool.or_eq_true, beq_iff_eq, beq_iff_eq, hzero, hone, BitVec.toInt_eq_toNat_cond]
  split <;> omega

theorem wellformed_of_lt (h : a.toNat < 2 ^ 38) : wellformedVma a = true := wellformed_iff.mpr (.inl h)

end Addresses

section Walk

variable {k : Nat} {ram ram' : Ppn → Page} {t p : Ppn} {vma : BitVec 64} {g : Bool} {tr : Translation}

theorem walk_invalid (hv : has (ram t (vpn k vma)) pteV = false) : walk (k + 1) ram t vma g = none := by
  simp [walk, hv]

theorem walk_leaf (hv : has (ram t (vpn k vma)) pteV = true) (hl : isLeaf (ram t (vpn k vma)) = true) :
    walk (k + 1) ram t vma g = if leafOk k (ram t (vpn k vma)) then
      some ⟨k, ram t (vpn k vma), g || has (ram t (vpn k vma)) pteG⟩ else none := by
  simp [walk, hv, hl]

theorem walk_table (hv : has (ram t (vpn k vma)) pteV = true) (hl : isLeaf (ram t (vpn k vma)) = false) :
    walk (k + 1) ram t vma g = walk k ram (ppnOf (ram t (vpn k vma))) vma (g || has (ram t (vpn k vma)) pteG) := by
  simp [walk, hv, hl]

theorem path_stop (h : has (ram t (vpn k vma)) pteV = false ∨ isLeaf (ram t (vpn k vma)) = true) :
    path (k + 1) ram t vma g = [(t, g)] := by
  rcases h with h | h <;> simp [path, h]

theorem path_table (hv : has (ram t (vpn k vma)) pteV = true) (hl : isLeaf (ram t (vpn k vma)) = false) :
    path (k + 1) ram t vma g =
      (t, g) :: path k ram (ppnOf (ram t (vpn k vma))) vma (g || has (ram t (vpn k vma)) pteG) := by
  simp [path, hv, hl]

theorem path_congr (h : ∀ x ∈ path k ram t vma g, ram' x.1 = ram x.1) : path k ram' t vma g = path k ram t vma g := by
  induction k generalizing t g with
  | zero => rfl
  | succ k ih =>
      simp only [path] at h ⊢
      have ht : ram' t = ram t := h (t, g) List.mem_cons_self
      rw [ht]
      congr 1
      split
      · rename_i hv
        exact ih fun x hx => h x (List.mem_cons_of_mem _ (by rw [if_pos hv]; exact hx))
      · rfl

/-- A translation depends on the tables of its path. -/
theorem walk_congr (h : ∀ x ∈ path k ram t vma g, ram' x.1 = ram x.1) : walk k ram' t vma g = walk k ram t vma g := by
  induction k generalizing t g with
  | zero => rfl
  | succ k ih =>
      have ht : ram' t = ram t := h (t, g) List.mem_cons_self
      cases hv : has (ram t (vpn k vma)) pteV with
      | false => rw [walk_invalid hv, walk_invalid (by rw [ht]; exact hv)]
      | true =>
          cases hl : isLeaf (ram t (vpn k vma)) with
          | true => rw [walk_leaf hv hl, walk_leaf (by rw [ht]; exact hv) (by rw [ht]; exact hl), ht]
          | false =>
              rw [walk_table hv hl, walk_table (by rw [ht]; exact hv) (by rw [ht]; exact hl), ht]
              rw [path_table hv hl] at h
              exact ih fun x hx => h x (List.mem_cons_of_mem _ hx)

theorem path_global {x : Ppn × Bool} (h : x ∈ path k ram t vma true) : x.2 = true := by
  induction k generalizing t with
  | zero => cases h
  | succ k ih =>
      simp only [path, Bool.true_or, List.mem_cons] at h
      rcases h with rfl | h
      · rfl
      · split at h
        · exact ih h
        · cases h

/-- One level of a walk that does not fault. -/
theorem walk_cases (h : walk (k + 1) ram t vma g = some tr) : has (ram t (vpn k vma)) pteV = true ∧
    (isLeaf (ram t (vpn k vma)) = true ∧ tr = ⟨k, ram t (vpn k vma), g || has (ram t (vpn k vma)) pteG⟩ ∨
      isLeaf (ram t (vpn k vma)) = false ∧
        walk k ram (ppnOf (ram t (vpn k vma))) vma (g || has (ram t (vpn k vma)) pteG) = some tr) := by
  cases hv : has (ram t (vpn k vma)) pteV with
  | false =>
      rw [walk_invalid hv] at h
      cases h
  | true =>
      refine ⟨rfl, ?_⟩
      cases hl : isLeaf (ram t (vpn k vma)) with
      | true =>
          rw [walk_leaf hv hl] at h
          split at h
          · exact .inl ⟨rfl, (Option.some.inj h).symm⟩
          · cases h
      | false =>
          rw [walk_table hv hl] at h
          exact .inr ⟨rfl, h⟩

theorem walk_global (h : walk k ram t vma true = some tr) : tr.global = true := by
  induction k generalizing t with
  | zero => cases h
  | succ k ih =>
      rcases (walk_cases h).2 with ⟨-, rfl⟩ | ⟨-, hw⟩
      · rfl
      · exact ih hw

/-- Where no global entry has been met the walk is in the own tree. -/
theorem path_own (h : (p, false) ∈ path k ram t vma false) : p ∈ layout.owned k ram t := by
  induction k generalizing t with
  | zero => cases h
  | succ k ih =>
      simp only [path, Bool.false_or, List.mem_cons, Prod.mk.injEq, and_true] at h
      rcases h with rfl | h
      · exact self_mem_owned _ _ _
      · split at h
        · rename_i hv
          cases hg : has (ram t (vpn k vma)) pteG with
          | true =>
              rw [hg] at h
              cases path_global h
          | false =>
              rw [hg] at h
              rw [Bool.and_eq_true] at hv
              have hc : layout.child (ram t (vpn k vma)) = some (ppnOf (ram t (vpn k vma))) :=
                child_eq_some.mpr ⟨hv.1, hg, rfl⟩
              exact children_subset (vpn k vma) (by rw [children_some hc]; exact ih h)
        · cases h

/-- A walk that ends in no global leaf goes through own entries. -/
theorem walk_child (h : walk (k + 1) ram t vma false = some tr) (hg : tr.global = false) :
    layout.child (ram t (vpn k vma)) = some (ppnOf (ram t (vpn k vma))) ∧
    (isLeaf (ram t (vpn k vma)) = true ∧ tr = ⟨k, ram t (vpn k vma), false⟩ ∨
      isLeaf (ram t (vpn k vma)) = false ∧ walk k ram (ppnOf (ram t (vpn k vma))) vma false = some tr) := by
  obtain ⟨hv, hcases⟩ := walk_cases h
  have hge : has (ram t (vpn k vma)) pteG = false := by
    rw [Bool.eq_false_iff]
    intro hge
    rw [hge] at hcases
    rcases hcases with ⟨-, rfl⟩ | ⟨-, hw⟩
    · cases hg
    · rw [Bool.or_true] at hw
      rw [walk_global hw] at hg
      cases hg
  rw [hge] at hcases
  exact ⟨child_eq_some.mpr ⟨hv, hge, rfl⟩, hcases⟩

theorem walk_node (h : walk k ram t vma false = some tr) (hg : tr.global = false) :
    layout.Node ram k t tr.level (ppnOf tr.entry) := by
  induction k generalizing t with
  | zero => cases h
  | succ k ih =>
      obtain ⟨hc, hcases⟩ := walk_child h hg
      refine .step hc ?_
      rcases hcases with ⟨-, rfl⟩ | ⟨-, hw⟩
      · exact .root _ _
      · exact ih hw

/-- Own entries above level 0 point to tables. -/
def IsTable (k : Nat) (e : BitVec 64) : Prop := k ≠ 0 → child e ≠ none → isLeaf e = false

/-- In a tree of tables, a leaf that is not global is a page of level 0. -/
theorem walk_level (hall : layout.All IsTable k ram t) (h : walk k ram t vma false = some tr) (hg : tr.global = false) :
    tr.level = 0 := by
  induction k generalizing t with
  | zero => cases h
  | succ k ih =>
      obtain ⟨hc, hcases⟩ := walk_child h hg
      rcases hcases with ⟨hl, rfl⟩ | ⟨-, hw⟩
      · by_contra hk
        rw [(hall _).1 hk (Option.ne_none_iff_exists'.mpr ⟨_, hc⟩)] at hl
        cases hl
      · exact ih ((hall _).2 _ hc) hw

section Closed

variable {A : Nat → Ppn → Bool → Prop}
  (hA : ∀ k t g i, A (k + 1) t g → has (ram t i) pteV = true → isLeaf (ram t i) = false →
    A k (ppnOf (ram t i)) (g || has (ram t i) pteG))
include hA

/-- A walk stays in a set of tables closed under the entries that are tables. -/
theorem path_closed (ha : A k t g) : ∀ x ∈ path k ram t vma g, ∃ j, A (j + 1) x.1 x.2 := by
  induction k generalizing t g with
  | zero => exact fun x hx => by cases hx
  | succ k ih =>
      intro x hx
      cases hv : has (ram t (vpn k vma)) pteV with
      | false =>
          rw [path_stop (.inl hv), List.mem_singleton] at hx
          exact ⟨k, hx ▸ ha⟩
      | true =>
          cases hl : isLeaf (ram t (vpn k vma)) with
          | true =>
              rw [path_stop (.inr hl), List.mem_singleton] at hx
              exact ⟨k, hx ▸ ha⟩
          | false =>
              rw [path_table hv hl, List.mem_cons] at hx
              rcases hx with rfl | hx
              · exact ⟨k, ha⟩
              · exact ih (hA k t g _ ha hv hl) x hx

theorem walk_closed (ha : A k t g) (h : walk k ram t vma g = some tr) :
    ∃ t' g' i, A (tr.level + 1) t' g' ∧ tr.entry = ram t' i ∧ has (ram t' i) pteV = true ∧
      isLeaf (ram t' i) = true ∧ tr.global = (g' || has (ram t' i) pteG) := by
  induction k generalizing t g with
  | zero => cases h
  | succ k ih =>
      obtain ⟨hv, ⟨hl, rfl⟩ | ⟨hl, hw⟩⟩ := walk_cases h
      · exact ⟨t, g, vpn k vma, ha, rfl, hv, hl, rfl⟩
      · exact ih (hA k t g _ ha hv hl) hw

end Closed

theorem page_level_zero (h : tr.level = 0) : tr.page vma = ppnOf tr.entry := by
  simp [Translation.page, h, Nat.mod_one]

theorem translate_wellformed (h : translate ram t vma = some tr) : wellformedVma vma = true := by
  unfold AddressSpace.translate at h
  split at h
  · assumption
  · cases h

theorem translate_walk (h : translate ram t vma = some tr) : walk 3 ram t vma false = some tr := by
  unfold AddressSpace.translate at h
  split at h
  · exact h
  · cases h

end Walk

end RiscvKernel.AddressSpace
