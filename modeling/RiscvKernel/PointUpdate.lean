import RiscvKernel.UserImage
import RiscvKernel.DeepCopy

namespace RiscvKernel.PointUpdate

open Memory PageTree AddressSpace MapPage UserImage DeepCopy Lib.LinkedList Lib.PointerTree Lib.PathLookup

/-- The walk of a has the same result in both memories, and meets no new shared tables. -/
structure Same (k : Nat) (ram ram' : Ppn → Page) (t : Ppn) (a : BitVec 64) : Prop where
  walk : walk k ram' t a false = walk k ram t a false
  shared : ∀ p, (p, true) ∈ path k ram' t a false → (p, true) ∈ path k ram t a false

section Same

variable {k j : Nat} {ram ram' : Ppn → Page} {t p q c : Ppn} {a vma : BitVec 64} {i : Vpn}

theorem Same.refl (k : Nat) (ram : Ppn → Page) (t : Ppn) (a : BitVec 64) : Same k ram ram t a := ⟨rfl, fun _ h => h⟩

theorem Same.trans {ram'' : Ppn → Page} (h : Same k ram ram' t a) (h' : Same k ram' ram'' t a) : Same k ram ram'' t a :=
  ⟨h'.walk.trans h.walk, fun p hp => h.shared p (h'.shared p hp)⟩

theorem Same.congr (h : ∀ x ∈ path k ram t a false, ram' x.1 = ram x.1) : Same k ram ram' t a := by
  refine ⟨walk_congr h, fun p hp => ?_⟩
  rwa [path_congr h] at hp

/-- Behind the same entry of an own table. -/
theorem Same.step (he : ram' t (vpn k a) = ram t (vpn k a))
    (hown : ∀ c, child (ram t (vpn k a)) = some c → isLeaf (ram t (vpn k a)) = false → Same k ram ram' c a)
    (hshared : ∀ p, (p, true) ∈ path (k + 1) ram t a false → ram' p = ram p) : Same (k + 1) ram ram' t a := by
  cases hv : has (ram t (vpn k a)) pteV with
  | false =>
      have hv' : has (ram' t (vpn k a)) pteV = false := by rw [he, hv]
      constructor
      · rw [walk_invalid hv, walk_invalid hv']
      · intro p hp
        rw [path_stop (.inl hv')] at hp
        simp at hp
  | true =>
      have hv' : has (ram' t (vpn k a)) pteV = true := by rw [he, hv]
      cases hl : isLeaf (ram t (vpn k a)) with
      | true =>
          have hl' : isLeaf (ram' t (vpn k a)) = true := by rw [he, hl]
          constructor
          · rw [walk_leaf hv hl, walk_leaf hv' hl', he]
          · intro p hp
            rw [path_stop (.inr hl')] at hp
            simp at hp
      | false =>
          have hl' : isLeaf (ram' t (vpn k a)) = false := by rw [he, hl]
          cases hg : has (ram t (vpn k a)) pteG with
          | false =>
              have hsub := hown _ (child_eq_some.mpr ⟨hv, hg, rfl⟩) hl
              constructor
              · rw [walk_table hv hl, walk_table hv' hl', he, hg]
                exact hsub.walk
              · intro p hp
                rw [path_table hv' hl', he, hg] at hp
                rw [path_table hv hl, hg]
                rcases List.mem_cons.mp hp with hp | hp
                · cases hp
                · exact List.mem_cons_of_mem _ (hsub.shared p hp)
          | true =>
              rw [path_table hv hl, hg] at hshared
              have hsame : ∀ x ∈ path k ram (ppnOf (ram t (vpn k a))) a true, ram' x.1 = ram x.1 := by
                rintro ⟨p, b⟩ hx
                obtain rfl : b = true := path_global hx
                exact hshared p (List.mem_cons_of_mem _ hx)
              constructor
              · rw [walk_table hv hl, walk_table hv' hl', he, hg]
                exact walk_congr hsame
              · intro p hp
                rw [path_table hv' hl', he, hg] at hp
                rw [path_table hv hl, hg]
                rcases List.mem_cons.mp hp with hp | hp
                · cases hp
                · rw [Bool.false_or, path_congr hsame] at hp
                  exact List.mem_cons_of_mem _ hp

theorem zero_walk (h : ram t = fun _ => 0) : walk k ram t a false = none ∧ ∀ p, (p, true) ∉ path k ram t a false := by
  cases k with
  | zero => exact ⟨rfl, fun p hp => by cases hp⟩
  | succ k =>
      have hv : has (ram t (vpn k a)) pteV = false := by
        rw [h]
        exact (by decide : has 0 pteV = false)
      refine ⟨walk_invalid hv, fun p hp => ?_⟩
      rw [path_stop (.inl hv)] at hp
      simp at hp

/-- A table of zeroes behind an entry that was not valid. -/
theorem Same.create (hv : has (ram t (vpn k a)) pteV = false) (hc : child (ram' t (vpn k a)) = some c)
    (hl : isLeaf (ram' t (vpn k a)) = false) (hzero : ram' c = fun _ => 0) : Same (k + 1) ram ram' t a := by
  obtain ⟨hv', hg', rfl⟩ := child_eq_some.mp hc
  obtain ⟨hwalk, hpath⟩ := zero_walk (k := k) (a := a) hzero
  constructor
  · rw [walk_invalid hv, walk_table hv' hl, hg']
    exact hwalk
  · intro p hp
    rw [path_table hv' hl, hg'] at hp
    rcases List.mem_cons.mp hp with hp | hp
    · cases hp
    · exact absurd hp (hpath p)

/-- The own tables behind the first are below its entry. -/
theorem path_children (h : (p, false) ∈ path (k + 1) ram t a false) : p = t ∨ p ∈ layout.children k ram t (vpn k a) := by
  by_cases hp : has (ram t (vpn k a)) pteV = true ∧ isLeaf (ram t (vpn k a)) = false
  · rw [path_table hp.1 hp.2, Bool.false_or] at h
    rcases List.mem_cons.mp h with h | h
    · exact .inl (Prod.mk.inj h).1
    · cases hg : has (ram t (vpn k a)) pteG with
      | true =>
          rw [hg] at h
          cases path_global h
      | false =>
          rw [hg] at h
          have hc : layout.child (ram t (vpn k a)) = some _ := child_eq_some.mpr ⟨hp.1, hg, rfl⟩
          rw [children_some hc]
          exact .inr (path_own h)
  · rw [not_and_or, Bool.not_eq_true, Bool.not_eq_false] at hp
    rw [path_stop hp] at h
    exact .inl (Prod.mk.inj (List.mem_singleton.mp h)).1

end Same

section Steps

variable {Q : Nat → BitVec 64 → Prop} {m m' : Mem} {root p q c : Ppn} {free free' : List Ppn} {a vma w : BitVec 64} {i : Vpn}
  {j k : Nat} {t : Ppn}

/-- The shared tables that walks from the root meet are not of the zone. -/
def SharedOff (m : Mem) (root : Ppn) (zone : List Ppn) : Prop := ∀ a p, (p, true) ∈ path 3 m.ram root a false → p ∉ zone

theorem SharedOff.step {zone zone' : List Ppn} (h : SharedOff m root zone) (hsame : ∀ a, Same 3 m.ram m'.ram root a)
    (hsub : zone' ⊆ zone) : SharedOff m' root zone' := fun a p hp hm => h a p ((hsame a).shared p hp) (hsub hm)

/-- Changing free pages. -/
theorem same_of_free (h : Space Q m root free) (hs : SharedOff m root (region m root free))
    (hf : ∀ x, x ∉ free → m'.ram x = m.ram x) (a : BitVec 64) : Same 3 m.ram m'.ram root a := by
  apply Same.congr
  rintro ⟨x, b⟩ hx
  apply hf
  intro hm
  cases b with
  | false => exact (List.nodup_append.mp h.nodup).2.2 x (path_own hx) x hm rfl
  | true => exact hs a x hx (List.mem_append_right _ hm)

/-- Entering a table of zeroes behind an entry of q that was not valid. -/
theorem same_of_create (hv : has (m.ram q i) pteV = false) (hc : child (m'.ram q i) = some c)
    (hl : isLeaf (m'.ram q i) = false) (hzero : m'.ram c = fun _ => 0)
    (hframe : ∀ x ∈ layout.owned 3 m.ram root, x ≠ q → m'.ram x = m.ram x) (hrest : ∀ i', i' ≠ i → m'.ram q i' = m.ram q i')
    (a : BitVec 64) (hshared : ∀ p, (p, true) ∈ path 3 m.ram root a false → m'.ram p = m.ram p) :
    Same 3 m.ram m'.ram root a := by
  have hsub : ∀ k t, layout.Node m.ram 3 root k t → (∀ p, (p, true) ∈ path k m.ram t a false → m'.ram p = m.ram p) →
      Same k m.ram m'.ram t a := by
    intro k
    induction k with
    | zero => exact fun t _ _ => ⟨rfl, fun p hp => by cases hp⟩
    | succ k ih =>
        intro t hn hsh
        by_cases hit : t = q ∧ vpn k a = i
        · obtain ⟨rfl, rfl⟩ := hit
          exact .create hv hc hl hzero
        · have he : m'.ram t (vpn k a) = m.ram t (vpn k a) := by
            by_cases hq : t = q
            · subst hq
              exact hrest _ fun hi => hit ⟨rfl, hi⟩
            · rw [hframe t hn.mem hq]
          refine .step he (fun c hc hlc => ih c (hn.child hc) fun p hp => hsh p ?_) hsh
          obtain ⟨hv', hg', rfl⟩ := child_eq_some.mp hc
          rw [path_table hv' hlc, hg']
          exact List.mem_cons_of_mem _ hp
  exact hsub 3 root (.root _ _) hshared

/-- One level of walk_pt. -/
theorem walkStep_same (h₀ : ∀ k, Q k 0) (ht : ∀ k w, Q (k + 1) (ptabPte w 0)) (htable : ∀ k e, Q k e → IsTable k e)
    (h : Space Q m root free) (hs : SharedOff m root (region m root free)) (hn : layout.Node m.ram 3 root (j + 2) q)
    (hg : has (m.ram q i) pteV = true → has (m.ram q i) pteG = false) (hrun : walkStep m q i = some (c, m')) :
    ∃ free', Found Q root m free j q i c m' free' ∧ ∀ a, Same 3 m.ram m'.ram root a := by
  rcases walkStep_found h₀ ht h hn hg with ⟨hnone, -⟩ | ⟨c', m'', free', hsome, hf⟩
  · cases hnone.symm.trans hrun
  obtain ⟨rfl, rfl⟩ := Prod.mk.inj (Option.some.inj (hsome.symm.trans hrun))
  refine ⟨free', hf, ?_⟩
  rcases hf.table with ⟨rfl, -, -⟩ | hzero
  · exact fun a => .refl _ _ _ _
  cases hv : has (m.ram q i) pteV with
  | true =>
      rw [walkStep, hv, if_pos rfl] at hsome
      obtain ⟨-, rfl⟩ := Prod.mk.inj (Option.some.inj hsome)
      exact fun a => .refl _ _ _ _
  | false =>
      have hl : isLeaf (m''.ram q i) = false :=
        htable _ _ ((hf.within.space.all.node hf.node) i).1 (Nat.succ_ne_zero j) (Option.ne_none_iff_exists'.mpr ⟨_, hf.entry⟩)
      intro a
      exact same_of_create hv hf.entry hl hzero hf.frame hf.rest a fun p hp => hf.within.frame p (hs a p hp)

/-- Changing the level-0 entry of vma. -/
theorem same_of_set (hr : Reaches layout m.ram (vpns vma) k t 1 q) (hnd : (layout.owned k m.ram t).Nodup)
    (hp : ∀ x, x ≠ q → m'.ram x = m.ram x) (hi : ∀ i, i ≠ vpn 0 vma → m'.ram q i = m.ram q i)
    (hne : ¬ ∀ i < k, vpns a i = vpns vma i) (hs : ∀ p, (p, true) ∈ path k m.ram t a false → p ≠ q) :
    Same k m.ram m'.ram t a := by
  generalize hj : 1 = j at hr
  induction hr with
  | root k t =>
      subst hj
      have h0 : vpn 0 a ≠ vpn 0 vma := fun he => hne fun i hi => by
        obtain rfl : i = 0 := by omega
        exact he
      refine .step (hi _ h0) (fun c _ _ => ⟨rfl, fun p hp => by cases hp⟩) fun p hp' => hp p (hs p hp')
  | @step k j t c q hc hr ih =>
      subst hj
      have hc : layout.child (m.ram t (vpn k vma)) = some c := hc
      have hq : q ∈ layout.children k m.ram t (vpn k vma) := by
        rw [children_some hc]
        exact hr.node.mem
      have htq : t ≠ q := fun he => root_not_mem_children hnd (vpn k vma) (he ▸ hq)
      by_cases he : vpn k a = vpn k vma
      · refine .step (by rw [hp t htq]) (fun c' hc' hl => ?_) fun p hp' => hp p (hs p hp')
        rw [he] at hc' hl
        obtain rfl : c = c' := Option.some.inj (hc.symm.trans hc')
        refine ih ?_ hp hi (fun hall => hne fun i hik => ?_) (fun p hp' => hs p ?_) rfl
        · rw [← children_some (k := k) hc]
          exact children_nodup hnd _
        · rcases Nat.lt_succ_iff_lt_or_eq.mp hik with hik | rfl
          · exact hall i hik
          · exact he
        · obtain ⟨hv, hg, rfl⟩ := child_eq_some.mp hc
          have hv' : has (m.ram t (vpn k a)) pteV = true := by rw [he]; exact hv
          rw [path_table hv' (by rw [he]; exact hl), he]
          rw [show has (m.ram t (vpn k vma)) pteG = false from hg]
          exact List.mem_cons_of_mem _ hp'
      · apply Same.congr
        rintro ⟨x, b⟩ hx
        apply hp
        cases b with
        | true => exact hs x hx
        | false =>
            rintro rfl
            rcases path_children hx with rfl | hx
            · exact htq rfl
            · exact children_disjoint hnd he hq hx

theorem walkPt_same (h₀ : ∀ k, Q k 0) (ht : ∀ k w, Q (k + 1) (ptabPte w 0)) (htable : ∀ k e, Q k e → IsTable k e)
    (h : Space Q m root free) (hs : SharedOff m root (region m root free)) (hway : ownWay m.ram root vma = true) {x : Ppn × Vpn}
    (hrun : walkPt m root vma = some (x, m')) :
    ∃ pt1 free', x.2 = vpn 0 vma ∧ Walked Q root m free vma pt1 x.1 m' free' ∧ ∀ a, Same 3 m.ram m'.ram root a := by
  rcases walkPt_walked h₀ ht h hway with ⟨hnone, -⟩ | ⟨pt1, pt0, m'', free', hsome, hwk⟩
  · cases hnone.symm.trans hrun
  obtain ⟨rfl, rfl⟩ := Prod.mk.inj (Option.some.inj (hsome.symm.trans hrun))
  refine ⟨pt1, free', rfl, hwk, ?_⟩
  obtain ⟨⟨pt1', m₁⟩, hstep₂, hrun⟩ := Option.bind_eq_some_iff.mp hrun
  obtain ⟨⟨pt0', m₂⟩, hstep₁, hrun⟩ := Option.bind_eq_some_iff.mp hrun
  obtain ⟨-, rfl⟩ := Prod.mk.inj (Option.some.inj hrun)
  simp only [ownWay, Bool.or_eq_true, Bool.and_eq_true, Bool.not_eq_true'] at hway
  have hg₂ : has (m.ram root (vpn 2 vma)) pteV = true → has (m.ram root (vpn 2 vma)) pteG = false := by
    intro hv
    rw [hv] at hway
    exact (hway.resolve_left (by decide)).1
  obtain ⟨free₁, hf₂, hsame₂⟩ := walkStep_same h₀ ht htable h hs (.root 3 root) hg₂ hstep₂
  have hg₁ : has (m₁.ram pt1' (vpn 1 vma)) pteV = true → has (m₁.ram pt1' (vpn 1 vma)) pteG = false := by
    intro hv
    rcases hf₂.table with ⟨rfl, hv₂, rfl⟩ | hzero
    · rw [hv₂, hv] at hway
      exact (hway.resolve_left (by decide)).2.resolve_left (by decide)
    · rw [hzero] at hv
      exact absurd hv (by beta_reduce; decide)
  obtain ⟨free₂, -, hsame₁⟩ := walkStep_same h₀ ht htable hf₂.within.space (hs.step hsame₂ hf₂.within.sub)
    (hf₂.node.child hf₂.entry) hg₁ hstep₁
  exact fun a => (hsame₂ a).trans (hsame₁ a)

/-- memory_alloc_and_map_page changes no translation but that of its page. -/
theorem memoryAllocAndMapPage_same {flags : BitVec 8} (h₀ : ∀ k, Q k 0) (ht : ∀ k w, Q (k + 1) (ptabPte w 0))
    (htable : ∀ k e, Q k e → IsTable k e) (h : Space Q m (rootOf m.satp) free)
    (hs : SharedOff m (rootOf m.satp) (region m (rootOf m.satp) free)) (hway : ownWay m.ram (rootOf m.satp) vma = true)
    (hrun : memoryAllocAndMapPage m vma flags = some m') :
    (∀ p, free.head? = some p → m'.ram p = fun _ => 0) ∧
      ∀ a, (¬ ∀ i < 3, vpns a i = vpns vma i) → Same 3 m.ram m'.ram (rootOf m.satp) a := by
  unfold memoryAllocAndMapPage at hrun
  split at hrun
  · cases hrun
  obtain ⟨⟨w, m₁⟩, halloc, hrun⟩ := Option.bind_eq_some_iff.mp hrun
  obtain ⟨⟨⟨pt0, i⟩, m₂⟩, hwalk, hrun⟩ := Option.bind_eq_some_iff.mp hrun
  obtain rfl := Option.some.inj hrun
  cases free with
  | nil => cases h.list.alloc_nil.symm.trans halloc
  | cons p free =>
      obtain ⟨w', m₁', htake, hw, hzero, hp, hsame, hwithin⟩ := h.take
      obtain ⟨rfl, rfl⟩ := Prod.mk.inj (Option.some.inj (htake.symm.trans halloc))
      have hpo : p ∉ layout.owned 3 m.ram (rootOf m.satp) := fun hm =>
        (List.nodup_append.mp h.nodup).2.2 p hm p List.mem_cons_self rfl
      have hroot : pageptrToPagenum m₁'.activeSpaceRoot = rootOf m.satp := by
        rw [Mem.activeSpaceRoot, hwithin.satp, rootOf]
      have hway₁ := (ownWay_congr fun x hx => hsame x fun he => hpo (he ▸ hx)).trans hway
      have hsame₁ := same_of_free h hs fun x hx => hsame x fun he => hx (he ▸ List.mem_cons_self)
      have hs₁ := hs.step hsame₁ hwithin.sub
      rw [hroot] at hwalk
      obtain ⟨pt1, free₂, hi, hwk, hsame₂⟩ := walkPt_same h₀ ht htable hwithin.space hs₁ hway₁ hwalk
      obtain rfl : i = vpn 0 vma := hi
      have hs₂ := hs₁.step hsame₂ hwk.within.sub
      have hreach : Reaches layout m₂.ram (vpns vma) 3 (rootOf m.satp) 1 pt0 :=
        .step hwk.entry2 (.step hwk.entry1 (.root _ _))
      have hmem : pt0 ∈ region m₂ (rootOf m.satp) free₂ := List.mem_append_left _ hreach.node.mem
      constructor
      · intro p' hp'
        obtain rfl := Option.some.inj hp'
        have hp0 : p ≠ pt0 := fun he => hp (hwk.within.sub (he ▸ hmem))
        rw [setWord_ram_of_ne hp0, hwk.within.frame p hp, hzero]
      · intro a hne
        refine ((hsame₁ a).trans (hsame₂ a)).trans (same_of_set hreach (List.nodup_append.mp hwk.within.space.nodup).1
          (fun x hx => setWord_ram_of_ne hx) (fun i hi => setWord_ram_idx hi) hne fun p hp he => ?_)
        exact hs₂ a p hp (he ▸ hmem)

end Steps

section Addresses

variable {a b : BitVec 64}

theorem toNat_page (h : a >>> 12 = b >>> 12) : a.toNat / 4096 = b.toNat / 4096 := by
  have := congrArg BitVec.toNat h
  simpa [BitVec.toNat_ushiftRight, Nat.shiftRight_eq_div_pow] using this

theorem wellformed_page (h : a >>> 12 = b >>> 12) (hb : wellformedVma b = true) : wellformedVma a = true := by
  have hn := toNat_page h
  rw [wellformed_iff] at hb ⊢
  omega

theorem vpns_page (h : a >>> 12 = b >>> 12) (k : Nat) : vpns a k = vpns b k := by
  have hn := toNat_page h
  apply Fin.ext
  rw [vpns, vpns, vpn_val, vpn_val, Nat.pow_add, ← Nat.div_div_eq_div_mul, ← Nat.div_div_eq_div_mul]
  rw [show 2 ^ 12 = 4096 from rfl, hn]

/-- A well-formed address is given by its VPNs and its offset. -/
theorem page_of_vpns (ha : wellformedVma a = true) (hb : wellformedVma b = true) (h : ∀ i < 3, vpns a i = vpns b i) :
    a >>> 12 = b >>> 12 := by
  have h0 := congrArg Fin.val (h 0 (by decide))
  have h1 := congrArg Fin.val (h 1 (by decide))
  have h2 := congrArg Fin.val (h 2 (by decide))
  simp only [vpns, vpn_val] at h0 h1 h2
  rw [wellformed_iff] at ha hb
  have hlta := a.isLt
  have hltb := b.isLt
  apply BitVec.eq_of_toNat_eq
  simp only [BitVec.toNat_ushiftRight, Nat.shiftRight_eq_div_pow]
  omega

end Addresses

/-- The flags of a leaf, and of one that the hardware takes: W only with R. -/
def rwx (flags : BitVec 8) : Bool := flags &&& (pteR ||| pteW ||| pteX) != 0

def writesRead (flags : BitVec 8) : Bool := flags &&& pteW == 0 || flags &&& pteR != 0

/-- vma's page has moved from the free list to an own leaf with these flags, and nothing else has changed. -/
structure IsPointUpdate (m : Mem) (free : List Ppn) (vma : BitVec 64) (flags : BitVec 8) (m' : Mem) (free' : List Ppn) :
    Prop where
  satp : m'.satp = m.satp
  here : ∃ p ∈ free, p ∉ free' ∧ (m'.ram p = fun _ => 0) ∧ ∀ a : BitVec 64, a >>> 12 = vma >>> 12 →
    ∃ tr, translate m'.ram (rootOf m.satp) a = some tr ∧ tr.page a = p ∧ flagsOf tr.entry = flags ||| pteA ||| pteD ||| pteV
  elsewhere : ∀ a : BitVec 64, a >>> 12 ≠ vma >>> 12 → translate m'.ram (rootOf m.satp) a = translate m.ram (rootOf m.satp) a

section Update

variable {m m' : Mem} {free free' : List Ppn} {vma a w : BitVec 64} {flags : BitVec 8}

theorem shape_zero (k : Nat) : Shape k 0 := by
  cases k with
  | zero => exact fun h => absurd child_zero h
  | succ k => exact fun h => absurd child_zero h

theorem shape_ptabPte (k : Nat) (w : BitVec 64) : Shape (k + 1) (ptabPte w 0) :=
  fun h => isTable_ptabPte k w k.succ_ne_zero h

theorem rwx_leaf : ∀ f : BitVec 8, rwx f = true → ((f ||| pteA ||| pteD ||| pteV) &&& (pteR ||| pteW ||| pteX) != 0) = true ∧
    ((f ||| pteA ||| pteD ||| pteV) &&& pteA != 0) = true ∧ ((f ||| pteA ||| pteD ||| pteV) &&& pteD != 0) = true := by
  decide +kernel

theorem writesRead_leaf : ∀ f : BitVec 8, ((f ||| pteA ||| pteD ||| pteV) &&& pteR != 0 ||
    !((f ||| pteA ||| pteD ||| pteV) &&& pteW != 0)) = writesRead f := by
  decide +kernel

theorem shape_leafPte (hf : rwx flags = true) (w : BitVec 64) : Shape 0 (leafPte w flags) := by
  obtain ⟨hl, ha, hd⟩ := rwx_leaf flags hf
  intro _
  rw [isLeaf, has, has, has, flagsOf_leafPte]
  exact ⟨hl, ha, hd⟩

theorem leafOk_leafPte (w : BitVec 64) (flags : BitVec 8) : leafOk 0 (leafPte w flags) = writesRead flags := by
  rw [leafOk, has, has, flagsOf_leafPte, pow_zero, Nat.mod_one, writesRead_leaf]
  simp

/-- What a walk of vma's page finds. -/
theorem walk_leafPte {root pt1 pt0 : Ppn} (h₂ : child (m'.ram root (vpn 2 vma)) = some pt1)
    (hl₂ : isLeaf (m'.ram root (vpn 2 vma)) = false) (h₁ : child (m'.ram pt1 (vpn 1 vma)) = some pt0)
    (hl₁ : isLeaf (m'.ram pt1 (vpn 1 vma)) = false) (h₀ : m'.ram pt0 (vpn 0 vma) = leafPte w flags) (hf : rwx flags = true)
    (ha : ∀ i < 3, vpns a i = vpns vma i) :
    walk 3 m'.ram root a false =
        (if writesRead flags then some ⟨0, leafPte w flags, has (leafPte w flags) pteG⟩ else none) ∧
      ∀ p, (p, true) ∉ path 3 m'.ram root a false := by
  have ha₂ : vpn 2 a = vpn 2 vma := ha 2 (by decide)
  have ha₁ : vpn 1 a = vpn 1 vma := ha 1 (by decide)
  have ha₀ : vpn 0 a = vpn 0 vma := ha 0 (by decide)
  rw [← ha₂] at h₂ hl₂
  rw [← ha₁] at h₁ hl₁
  rw [← ha₀] at h₀
  obtain ⟨hv₂, hg₂, rfl⟩ := child_eq_some.mp h₂
  obtain ⟨hv₁, hg₁, rfl⟩ := child_eq_some.mp h₁
  have hv₀ : has (leafPte w flags) pteV = true := valid_leafPte w flags
  have hl₀ : isLeaf (leafPte w flags) = true := by
    rw [isLeaf, has, flagsOf_leafPte]
    exact (rwx_leaf flags hf).1
  constructor
  · rw [walk_table hv₂ hl₂, hg₂, Bool.false_or, walk_table hv₁ hl₁, hg₁, Bool.false_or,
      walk_leaf (by rw [h₀]; exact hv₀) (by rw [h₀]; exact hl₀), h₀, leafOk_leafPte, Bool.false_or]
  · intro p hp
    rw [path_table hv₂ hl₂, hg₂, Bool.false_or, path_table hv₁ hl₁, hg₁, Bool.false_or,
      path_stop (.inr (by rw [h₀]; exact hl₀))] at hp
    simp at hp

/-- What memory_alloc_and_map_page does with any flags of a leaf. -/
structure Mapping (m : Mem) (free : List Ppn) (vma : BitVec 64) (flags : BitVec 8) (w : BitVec 64) (m' : Mem)
    (free' : List Ppn) : Prop where
  space : WellFormed m' free'
  satp : m'.satp = m.satp
  fresh : pageptrToPagenum w ∈ free ∧ pageptrToPagenum w ∉ free'
  zero : m'.ram (pageptrToPagenum w) = fun _ => 0
  here : ∀ a : BitVec 64, a >>> 12 = vma >>> 12 → translate m'.ram (rootOf m.satp) a =
    if writesRead flags then some ⟨0, leafPte w flags, has (leafPte w flags) pteG⟩ else none
  elsewhere : ∀ a : BitVec 64, a >>> 12 ≠ vma >>> 12 → translate m'.ram (rootOf m.satp) a = translate m.ram (rootOf m.satp) a

theorem mapping_of_run (h : WellFormed m free) (hwf : wellformedVma vma = true) (hf : rwx flags = true)
    (hway : ownWay m.ram (rootOf m.satp) vma = true) (hrun : memoryAllocAndMapPage m vma flags = some m') :
    ∃ w free', Mapping m free vma flags w m' free' := by
  obtain ⟨w, free', hm⟩ := memoryAllocAndMapPage_within shape_zero shape_ptabPte (fun w _ => shape_leafPte hf w) h.space hway hrun
  obtain ⟨hzero, hsame⟩ := memoryAllocAndMapPage_same shape_zero shape_ptabPte (fun _ _ he => he.isTable) h.space
    (fun a p hp => h.tables a p hp) hway hrun
  have hsatp : m'.satp = m.satp := hm.within.satp
  have hfree : pageptrToPagenum w ∈ free := List.mem_of_mem_head? hm.head
  obtain ⟨pt1, pt0, h₂, h₁, h₀⟩ := hm.tables
  have hn₁ : layout.Node m'.ram 3 (rootOf m.satp) 2 pt1 := .step h₂ (.root _ _)
  have hn₀ : layout.Node m'.ram 3 (rootOf m.satp) 1 pt0 := hn₁.child h₁
  have hl₂ : isLeaf (m'.ram (rootOf m.satp) (vpn 2 vma)) = false :=
    (hm.within.space.all (vpn 2 vma)).1 (Option.ne_none_iff_exists'.mpr ⟨_, h₂⟩)
  have hl₁ : isLeaf (m'.ram pt1 (vpn 1 vma)) = false :=
    ((hm.within.space.all.node hn₁) (vpn 1 vma)).1 (Option.ne_none_iff_exists'.mpr ⟨_, h₁⟩)
  have hwalk := fun a => walk_leafPte (a := a) h₂ hl₂ h₁ hl₁ h₀ hf
  have hpage : child (leafPte w flags) = none ∨ child (leafPte w flags) = some (pageptrToPagenum w) := by
    cases hc : child (leafPte w flags) with
    | none => exact .inl rfl
    | some c =>
        obtain ⟨-, -, rfl⟩ := child_eq_some.mp hc
        rw [leafPte, ppnOf_mkPte]
        exact .inr rfl
  refine ⟨w, free', ⟨?_, hsatp, ⟨hfree, ?_⟩, hzero _ hm.head, ?_, ?_⟩⟩
  · refine ⟨hsatp ▸ hm.within.space, fun a p hp => ?_, fun a tr htr hg hu => ?_⟩
    · rw [hsatp] at hp ⊢
      by_cases ha : ∀ i < 3, vpns a i = vpns vma i
      · exact absurd hp ((hwalk a ha).2 p)
      · exact fun hmem => h.tables a p ((hsame a ha).shared p hp) (hm.within.sub hmem)
    · rw [hsatp] at htr ⊢
      by_cases ha : ∀ i < 3, vpns a i = vpns vma i
      · have hw := translate_walk htr
        rw [(hwalk a ha).1] at hw
        split at hw
        · obtain rfl := Option.some.inj hw
          rw [page_level_zero rfl, leafPte, ppnOf_mkPte]
          refine hm.shared (hpage.resolve_right fun hc => ?_)
          exact Bool.false_ne_true ((child_eq_some.mp hc).2.1.symm.trans hg)
        · cases hw
      · have htr' : translate m.ram (rootOf m.satp) a = some tr := by
          unfold AddressSpace.translate
          rw [if_pos (translate_wellformed htr), ← (hsame a ha).walk]
          exact translate_walk htr
        exact fun hmem => h.pages a tr htr' hg hu (hm.within.sub hmem)
  · rcases hpage with hc | hc
    · exact fun hmem => hm.shared hc (List.mem_append_right _ hmem)
    · have hp : layout.Node m'.ram 3 (rootOf m.satp) 0 (pageptrToPagenum w) := hn₀.child (by rw [h₀]; exact hc)
      exact fun hmem => (List.nodup_append.mp hm.within.space.nodup).2.2 _ hp.mem _ hmem rfl
  · intro a ha
    unfold AddressSpace.translate
    rw [if_pos (wellformed_page ha hwf)]
    exact (hwalk a fun i _ => vpns_page ha i).1
  · intro a ha
    unfold AddressSpace.translate
    split
    · rename_i hwa
      exact (hsame a fun hall => ha (page_of_vpns hwa hwf hall)).walk
    · rfl

theorem exists_run (h : WellFormed m free) (hwf : wellformedVma vma = true) (hf : rwx flags = true)
    (hway : ownWay m.ram (rootOf m.satp) vma = true) (hpages : 3 ≤ free.length) :
    ∃ m', memoryAllocAndMapPage m vma flags = some m' := by
  rcases memoryAllocAndMapPage_mapped shape_zero shape_ptabPte (fun w _ => shape_leafPte hf w) h.space hway hwf with
    ⟨-, hlen⟩ | ⟨w, m', free', hrun, -⟩
  · exact absurd hpages (Nat.not_le.mpr hlen)
  · exact ⟨m', hrun⟩

end Update

/-- memory_alloc_and_map_page of an address whose level-2 and level-1 entries are invalid or own
tables is a point update of the translation, if it gives no W without R. -/
theorem memoryAllocAndMapPage_pointUpdate {m : Mem} {free : List Ppn} {vma : BitVec 64} {flags : BitVec 8}
    (h : WellFormed m free) (hwf : wellformedVma vma = true) (hway : ownWay m.ram (rootOf m.satp) vma = true)
    (hf : rwx flags = true) (hw : writesRead flags = true) (hpages : 3 ≤ free.length) :
    ∃ m' free', memoryAllocAndMapPage m vma flags = some m' ∧ IsPointUpdate m free vma flags m' free' ∧
      WellFormed m' free' := by
  obtain ⟨m', hrun⟩ := exists_run h hwf hf hway hpages
  obtain ⟨w, free', hm⟩ := mapping_of_run h hwf hf hway hrun
  refine ⟨m', free', hrun, ⟨hm.satp, ⟨pageptrToPagenum w, hm.fresh.1, hm.fresh.2, hm.zero, fun a ha => ?_⟩, hm.elsewhere⟩, hm.space⟩
  refine ⟨_, (hm.here a ha).trans (if_pos hw), ?_, flagsOf_leafPte w flags⟩
  rw [page_level_zero rfl, leafPte, ppnOf_mkPte]

theorem memoryAllocAndMapPage_pointUpdate_stack : ∃ m' free',
    memoryAllocAndMapPage sampleMem 0xC0001000 (pteR ||| pteW ||| pteU) = some m' ∧
      IsPointUpdate sampleMem sampleFree 0xC0001000 (pteR ||| pteW ||| pteU) m' free' ∧ WellFormed m' free' :=
  memoryAllocAndMapPage_pointUpdate sample_wellFormed (by decide) (by decide) (by decide) (by decide) (by decide)

/-- With W alone every access to the page faults. -/
theorem memoryAllocAndMapPage_writeOnly_faults : WellFormed sampleMem sampleFree ∧ rwx (pteW ||| pteU) = true ∧
    ownWay sampleMem.ram (rootOf sampleMem.satp) 0xC0001000 = true ∧ ∃ m',
      memoryAllocAndMapPage sampleMem 0xC0001000 (pteW ||| pteU) = some m' ∧
      translate m'.ram (rootOf sampleMem.satp) 0xC0001000 = none := by
  have hway : ownWay sampleMem.ram (rootOf sampleMem.satp) 0xC0001000 = true := by decide
  have hwf : wellformedVma 0xC0001000 = true := by decide
  have hf : rwx (pteW ||| pteU) = true := by decide
  obtain ⟨m', hrun⟩ := exists_run sample_wellFormed hwf hf hway (by decide)
  obtain ⟨w, free', hm⟩ := mapping_of_run sample_wellFormed hwf hf hway hrun
  exact ⟨sample_wellFormed, hf, hway, m', hrun, (hm.here _ rfl).trans (if_neg (by decide))⟩

end RiscvKernel.PointUpdate
