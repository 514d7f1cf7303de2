import RiscvKernel.Lib.PathLookup
import RiscvKernel.PageOwnership
import RiscvKernel.VirtualMemory

namespace RiscvKernel.UserImage

open Memory PageTree AddressSpace MapPage PageOwnership VirtualMemory Lib.LinkedList Lib.PointerTree Lib.PathLookup

/-! The user region as pages with flags and bytes, and the operations of the kernel on it. -/

def valid (e : BitVec 64) : Bool := has e pteV

/-- The VPNs of an address, by level. -/
def vpns (vma : BitVec 64) (k : Nat) : Vpn := vpn k vma

/-- The valid leaf entry of an address below tables of the space. -/
def entryAt (ram : Ppn → Page) (root : Ppn) (vma : BitVec 64) : Option (BitVec 64) :=
  lookup layout valid 3 ram root (vpns vma)

theorem entryAt_eq (ram : Ppn → Page) (root : Ppn) (vma : BitVec 64) : entryAt ram root vma =
    (child (ram root (vpn 2 vma))).bind fun pt1 => (child (ram pt1 (vpn 1 vma))).bind fun pt0 =>
      if has (ram pt0 (vpn 0 vma)) pteV then some (ram pt0 (vpn 0 vma)) else none := rfl

section Kept

variable {Q : Nat → BitVec 64 → Prop} {m m' m'' : Mem} {root p q c : Ppn} {free free' : List Ppn} {v : Nat → Vpn} {j : Nat}

/-- The tables lead to the same entries, and the pages behind them are the same. -/
structure Kept (root : Ppn) (m m' : Mem) : Prop where
  lookup : ∀ v, lookup layout valid 3 m'.ram root v = lookup layout valid 3 m.ram root v
  pages : ∀ v e p, Lib.PathLookup.lookup layout valid 3 m.ram root v = some e → child e = some p → m'.ram p = m.ram p

theorem Kept.refl (m : Mem) : Kept root m m := ⟨fun _ => rfl, fun _ _ _ _ _ => rfl⟩

theorem Kept.trans (h : Kept root m m') (h' : Kept root m' m'') : Kept root m m'' := by
  refine ⟨fun v => (h'.lookup v).trans (h.lookup v), fun v e p he hp => ?_⟩
  rw [h'.pages v e p ((h.lookup v).trans he) hp, h.pages v e p he hp]

/-- The page behind an entry of the tree is a node of it. -/
theorem lookup_node {ram : Ppn → Page} {e : BitVec 64} (h : lookup layout valid 3 ram root v = some e) (hp : child e = some p) :
    layout.Node ram 3 root 0 p := by
  obtain ⟨q, hq, he, -⟩ := reaches_of_lookup h
  exact hq.node.child (i := v 0) (by rw [he]; exact hp)

theorem Kept.of_owned (h : ∀ x ∈ layout.owned 3 m.ram root, m'.ram x = m.ram x) : Kept root m m' :=
  ⟨fun _ => lookup_congr fun _ _ hn => h _ hn.mem, fun _ _ _ he hp => h _ (lookup_node he hp).mem⟩

theorem walkStep_kept (h₀ : ∀ k, Q k 0) (ht : ∀ k w, Q (k + 1) (ptabPte w 0)) (h : Space Q m root free)
    (hn : Reaches layout m.ram v 3 root (j + 2) q)
    (hg : has (m.ram q (v (j + 1))) pteV = true → has (m.ram q (v (j + 1))) pteG = false)
    (hrun : walkStep m q (v (j + 1)) = some (c, m')) :
    ∃ free', Space Q m' root free' ∧ Kept root m m' ∧ Reaches layout m'.ram v 3 root (j + 1) c := by
  rcases walkStep_found h₀ ht h hn.node hg with ⟨hnone, -⟩ | ⟨c', m₁, free', hsome, hf⟩
  · cases hnone.symm.trans hrun
  obtain ⟨rfl, rfl⟩ := Prod.mk.inj (Option.some.inj (hsome.symm.trans hrun))
  have hnd := (List.nodup_append.mp h.nodup).1
  have hreach : Reaches layout m₁.ram v 3 root (j + 1) c' := (hn.set hnd hf.frame).child hf.entry
  refine ⟨free', hf.within.space, ?_, hreach⟩
  cases hv : has (m.ram q (v (j + 1))) pteV with
  | true =>
      have hsame : walkStep m q (v (j + 1)) = some (ppnOf (m.ram q (v (j + 1))), m) := by
        rw [walkStep, hv]
        rfl
      obtain ⟨-, rfl⟩ := Prod.mk.inj (Option.some.inj (hsame.symm.trans hrun))
      exact .refl _
  | false =>
      have hzero : m₁.ram c' = fun _ => 0 := by
        rcases hf.table with ⟨-, hv', -⟩ | hzero
        · exact absurd (hv.symm.trans hv') (by decide)
        · exact hzero
      refine ⟨fun v' => ?_, fun v' e p he hp => ?_⟩
      · refine lookup_enter hn.node hnd hf.frame hf.rest ?_ fun c₁ hc₁ i' => ?_
        · cases hc : layout.child (m.ram q (v (j + 1))) with
          | none => rfl
          | some x => exact absurd (hv.symm.trans (child_eq_some.mp hc).1) (by decide)
        · obtain rfl : c' = c₁ := Option.some.inj (hf.entry.symm.trans hc₁)
          have hentry : m₁.ram c' i' = 0 := by rw [hzero]
          rw [hentry]
          exact ⟨by decide, child_zero⟩
      · have hpage := lookup_node he hp
        exact hf.frame p hpage.mem fun he => Layout.Node.ne_leaf hnd hn.node hpage he.symm

theorem walkPt_kept (h₀ : ∀ k, Q k 0) (ht : ∀ k w, Q (k + 1) (ptabPte w 0))
    (hQ : ∀ e, Q 1 e → has e pteV = true → has e pteG = false) (h : Space Q m root free) {vma : BitVec 64}
    (hg : has (m.ram root (vpn 2 vma)) pteV = true → has (m.ram root (vpn 2 vma)) pteG = false) {x : Ppn × Vpn}
    (hrun : walkPt m root vma = some (x, m')) :
    x.2 = vpn 0 vma ∧ Kept root m m' ∧ Reaches layout m'.ram (vpns vma) 3 root 1 x.1 := by
  obtain ⟨⟨pt1, m₁⟩, h₂, hrun⟩ := Option.bind_eq_some_iff.mp hrun
  obtain ⟨⟨pt0, m₂⟩, h₁, hrun⟩ := Option.bind_eq_some_iff.mp hrun
  obtain ⟨rfl, rfl⟩ := Prod.mk.inj (Option.some.inj hrun)
  obtain ⟨free₁, hspace₁, hkept₁, hreach₁⟩ := walkStep_kept (v := vpns vma) h₀ ht h (.root 3 root) hg h₂
  have hall := hspace₁.all.node hreach₁.node
  obtain ⟨free₂, -, hkept₂, hreach₂⟩ := walkStep_kept h₀ ht hspace₁ hreach₁ (hQ _ (hall _).1) h₁
  exact ⟨rfl, hkept₁.trans hkept₂, hreach₂⟩

/-- memory_alloc_and_map_page puts a page of zeroes behind the entry of its address and
leaves the other entries and their pages as they are. -/
structure Updated (root : Ppn) (m : Mem) (vma : BitVec 64) (flags : BitVec 8) (w : BitVec 64) (m' : Mem) : Prop where
  entry : entryAt m'.ram root vma = some (leafPte w flags)
  zero : m'.ram (pageptrToPagenum w) = fun _ => 0
  other : ∀ v, (¬ ∀ i < 3, v i = vpns vma i) → lookup layout valid 3 m'.ram root v = lookup layout valid 3 m.ram root v
  pages : ∀ v e p, lookup layout valid 3 m.ram root v = some e → child e = some p → m'.ram p = m.ram p

theorem valid_leafPte (w : BitVec 64) (flags : BitVec 8) : valid (leafPte w flags) = true := by
  have hor : ∀ f : BitVec 8, ((f ||| pteA ||| pteD ||| pteV) &&& pteV != 0) = true := by decide +kernel
  rw [valid, has, leafPte, flagsOf_mkPte]
  exact hor flags

theorem memoryAllocAndMapPage_updated (h₀ : ∀ k, Q k 0) (ht : ∀ k w, Q (k + 1) (ptabPte w 0))
    (hQ : ∀ e, Q 1 e → has e pteV = true → has e pteG = false) (h : Space Q m (rootOf m.satp) free) {vma : BitVec 64}
    {flags : BitVec 8} (hway : ownWay m.ram (rootOf m.satp) vma = true)
    (hrun : memoryAllocAndMapPage m vma flags = some m') :
    ∃ w, Updated (rootOf m.satp) m vma flags w m' := by
  unfold memoryAllocAndMapPage at hrun
  split at hrun
  · cases hrun
  obtain ⟨⟨w, m₁⟩, halloc, hrun⟩ := Option.bind_eq_some_iff.mp hrun
  obtain ⟨⟨⟨pt0, i⟩, m₂⟩, hwalk, hrun⟩ := Option.bind_eq_some_iff.mp hrun
  obtain rfl := Option.some.inj hrun
  cases free with
  | nil => cases h.list.alloc_nil.symm.trans halloc
  | cons p free =>
      obtain ⟨w', m₁', htake, hw, hzero, hp, hsame, hwithin⟩ := h.take
      obtain ⟨rfl, rfl⟩ := Prod.mk.inj (Option.some.inj (htake.symm.trans halloc))
      have hpo : p ∉ layout.owned 3 m.ram (rootOf m.satp) := fun hm =>
        (List.nodup_append.mp h.nodup).2.2 p hm p List.mem_cons_self rfl
      have hown : ∀ x ∈ layout.owned 3 m.ram (rootOf m.satp), m₁'.ram x = m.ram x := fun x hx =>
        hsame x fun he => hpo (he ▸ hx)
      have hroot : pageptrToPagenum m₁'.activeSpaceRoot = rootOf m.satp := by
        rw [Mem.activeSpaceRoot, hwithin.satp, rootOf]
      have hway₁ := (ownWay_congr hown).trans hway
      rw [hroot] at hwalk
      have hg : has (m₁'.ram (rootOf m.satp) (vpn 2 vma)) pteV = true →
          has (m₁'.ram (rootOf m.satp) (vpn 2 vma)) pteG = false := by
        intro hv
        simp only [ownWay, hv, Bool.not_true, Bool.false_or, Bool.and_eq_true, Bool.not_eq_true'] at hway₁
        exact hway₁.1
      obtain ⟨rfl, hkept, hreach⟩ := walkPt_kept h₀ ht hQ hwithin.space hg hwalk
      rcases walkPt_walked h₀ ht hwithin.space hway₁ with ⟨hnone, -⟩ | ⟨pt1, pt0', m₂', free₂, hsome, hwk⟩
      · cases hnone.symm.trans hwalk
      obtain ⟨hx, rfl⟩ := Prod.mk.inj (Option.some.inj (hsome.symm.trans hwalk))
      have hkept₂ := (Kept.of_owned hown).trans hkept
      have hnd := (List.nodup_append.mp hwk.within.space.nodup).1
      have hoff : ∀ x, x ≠ pt0 → (m₂'.setWord pt0 (vpn 0 vma) (leafPte w' flags)).ram x = m₂'.ram x :=
        fun x hx => setWord_ram_of_ne hx
      have hp0 : p ≠ pt0 := by
        intro he
        refine hp (hwk.within.sub (List.mem_append_left _ ?_))
        rw [he]
        exact hreach.node.mem
      refine ⟨w', ?_, ?_, fun v hne => ?_, fun v e p' he hp' => ?_⟩
      · rw [entryAt, lookup_reaches (hreach.set hnd fun x _ hx => hoff x hx)]
        simp only [vpns, setWord_ram_self, valid_leafPte, if_true]
      · rw [hw, hoff p hp0, hwk.within.frame p hp, hzero]
      · rw [lookup_set_ne hreach hnd (fun x _ hx => hoff x hx) (fun i hi => setWord_ram_idx hi) hne]
        exact hkept₂.lookup v
      · have hpage := lookup_node ((hkept₂.lookup v).trans he) hp'
        rw [hoff p' fun he => Layout.Node.ne_leaf hnd hreach.node hpage he.symm]
        exact hkept₂.pages v e p' he hp'

end Kept

/-! A space whose user region has no global entry. -/

def OwnEntry : Nat → BitVec 64 → Prop
  | 0, e => has e pteV = true → has e pteG = false
  | 1, e => has e pteV = true → has e pteG = false ∧ isLeaf e = false
  | _ + 2, e => has e pteV = true → has e pteG = false → isLeaf e = false

structure UserSpace (m : Mem) (free : List Ppn) : Prop where
  space : Space OwnEntry m (rootOf m.satp) free
  user : has (m.ram (rootOf m.satp) 3) pteV = true → has (m.ram (rootOf m.satp) 3) pteG = false

def IsUser (vma : BitVec 64) : Prop := userStart ≤ vma ∧ vma < userEnd

/-- The page number of an address. -/
def pageNo (vma : BitVec 64) : Nat := vma.toNat / 4096

section Addresses

variable {a b : BitVec 64}

theorem IsUser.bounds (h : IsUser a) : 0xC0000000 ≤ a.toNat ∧ a.toNat < 0xD0000000 := by
  obtain ⟨h₁, h₂⟩ := h
  rw [BitVec.le_def, userStart_toNat] at h₁
  rw [BitVec.lt_def, userEnd_toNat] at h₂
  exact ⟨h₁, h₂⟩

theorem isUser_iff : IsUser a ↔ 0xC0000000 ≤ a.toNat ∧ a.toNat < 0xD0000000 := by
  rw [IsUser, BitVec.le_def, userStart_toNat, BitVec.lt_def, userEnd_toNat]

theorem IsUser.wellformed (h : IsUser a) : wellformedVma a = true :=
  wellformed_of_lt (Nat.lt_trans h.bounds.2 (by decide))

theorem IsUser.vpn_two (h : IsUser a) : vpn 2 a = 3 := Fin.ext (vpn_user h.1 (BitVec.le_of_lt h.2))

theorem pageNo_of_vpns (ha : a.toNat < 2 ^ 39) (hb : b.toNat < 2 ^ 39) (h : ∀ i < 3, vpns a i = vpns b i) :
    pageNo a = pageNo b := by
  have h0 := congrArg Fin.val (h 0 (by decide))
  have h1 := congrArg Fin.val (h 1 (by decide))
  have h2 := congrArg Fin.val (h 2 (by decide))
  simp only [vpns, vpn_val] at h0 h1 h2
  unfold pageNo
  omega

/-- Two user addresses are on one page when their VPNs are the same. -/
theorem vpns_eq_iff (ha : IsUser a) (hb : IsUser b) : (∀ i < 3, vpns a i = vpns b i) ↔ pageNo a = pageNo b := by
  have hba := ha.bounds
  have hbb := hb.bounds
  constructor
  · exact pageNo_of_vpns (Nat.lt_trans hba.2 (by decide)) (Nat.lt_trans hbb.2 (by decide))
  · intro h i hi
    unfold pageNo at h
    apply Fin.ext
    simp only [vpns, vpn_val]
    interval_cases i <;> omega

theorem vpns_congr (h : ∀ i < 3, vpns a i = vpns b i) (ram : Ppn → Page) (root : Ppn) :
    entryAt ram root a = entryAt ram root b := by
  simp only [entryAt, lookup, h 0 (by decide), h 1 (by decide), h 2 (by decide)]

end Addresses

section Bytes

def offset (vma : BitVec 64) : Fin 4096 := ⟨vma.toNat % 4096, Nat.mod_lt _ (by decide)⟩

/-- The bytes of a page. -/
def bytesOf (p : Page) (off : Fin 4096) : UInt8 := getByte (p ⟨off.val / 8, by omega⟩) (off.val % 8)

theorem wordOf_val (vma : BitVec 64) : (DeepCopy.wordOf vma).val = vma.toNat % 4096 / 8 := by
  have hval : (DeepCopy.wordOf vma).val = vma.toNat / 8 % 512 := by
    simp [DeepCopy.wordOf, BitVec.toNat_ushiftRight, Nat.shiftRight_eq_div_pow]
  omega

theorem byteOf_eq (p : Page) (vma : BitVec 64) : byteOf p vma = bytesOf p (offset vma) := by
  have hword : DeepCopy.wordOf vma = ⟨(offset vma).val / 8, by omega⟩ := Fin.ext (wordOf_val vma)
  have hmod : vma.toNat % 8 = (offset vma).val % 8 := by
    simp only [offset]
    omega
  rw [byteOf, bytesOf, hword, hmod]

theorem byteMask (i : Nat) (h : i < 64) : (255#64)[i] = decide (i < 8) := by
  revert h i
  decide

theorem getByte_setByte (w : BitVec 64) (b : UInt8) {k k' : Nat} (hk : k < 8) (hk' : k' < 8) :
    getByte (setByte w k b) k' = if k' = k then b else getByte w k' := by
  split
  · rename_i he
    subst he
    apply UInt8.toBitVec_inj.mp
    ext i hi
    have h64 : 8 * k' + i < 64 := by omega
    have hlt : ¬ 8 * k' + i < 8 * k' := by omega
    simp [getByte, setByte, h64, hlt, hi, byteMask]
  · rename_i hne
    apply UInt8.toBitVec_inj.mp
    ext i hi
    have h64 : 8 * k' + i < 64 := by omega
    rcases Nat.lt_or_gt_of_ne hne with hlt | hlt
    · have hin : 8 * k' + i < 8 * k := by omega
      simp [getByte, setByte, h64, hin]
    · have hin : ¬ 8 * k' + i < 8 * k := by omega
      have hge : ¬ 8 * k' + i - 8 * k < 8 := by omega
      have hbyte : b.toBitVec.getLsbD (8 * k' + i - 8 * k) = false := BitVec.getLsbD_of_ge _ _ (by omega)
      simp [getByte, setByte, h64, hin, byteMask, hge, hbyte]

/-- A store of a byte into a page. -/
theorem bytesOf_set (p : Page) (vma : BitVec 64) (b : UInt8) :
    bytesOf (Function.update p (DeepCopy.wordOf vma) (setByte (p (DeepCopy.wordOf vma)) (vma.toNat % 8) b)) =
      Function.update (bytesOf p) (offset vma) b := by
  funext off
  have hoff : (offset vma).val = vma.toNat % 4096 := rfl
  have hlt := off.isLt
  by_cases hword : (⟨off.val / 8, by omega⟩ : Vpn) = DeepCopy.wordOf vma
  · have hval := congrArg Fin.val hword
    rw [wordOf_val] at hval
    simp only [bytesOf, hword, Function.update_self, getByte_setByte _ _ (Nat.mod_lt _ (by decide : 0 < 8))
      (Nat.mod_lt _ (by decide : 0 < 8))]
    by_cases he : off = offset vma
    · rw [he, Function.update_self, if_pos (by omega)]
    · have hne : off.val ≠ vma.toNat % 4096 := fun h => he (Fin.ext h)
      rw [Function.update_of_ne he, bytesOf, hword, if_neg (by simp only at hval; omega)]
  · have he : off ≠ offset vma := by
      intro he
      have hval : off.val = vma.toNat % 4096 := (congrArg Fin.val he).trans hoff
      exact hword (Fin.ext ((congrArg (· / 8) hval).trans (wordOf_val vma).symm))
    rw [Function.update_of_ne he, bytesOf, bytesOf, Function.update_of_ne hword]

end Bytes

/-! The pages of the user region, by number. -/

structure Leaf where
  flags : BitVec 8
  bytes : Fin 4096 → UInt8

abbrev Image := Nat → Option Leaf

/-- The flags of a page under which the kernel can store to it. -/
def writable (flags : BitVec 8) : Bool := flags &&& pteR != 0 && flags &&& pteW != 0

def Image.set (I : Image) (n : Nat) (l : Leaf) : Image := Function.update I n (some l)

/-- A page of zeroes in place of whatever was at its address. -/
def Image.map (I : Image) (flags : BitVec 8) (n : Nat) : Image :=
  I.set n ⟨flags ||| pteA ||| pteD ||| pteV, fun _ => 0⟩

def Image.protect (I : Image) (flags : BitVec 8) (n : Nat) : Option Image :=
  (I n).map fun l => I.set n ⟨flags ||| pteA ||| pteD ||| pteV, l.bytes⟩

def Image.storeByte (I : Image) (vma : BitVec 64) (b : UInt8) : Option Image :=
  (I (pageNo vma)).bind fun l =>
    if writable l.flags then some (I.set (pageNo vma) ⟨l.flags, Function.update l.bytes (offset vma) b⟩) else none

def leafOf (m : Mem) (e : BitVec 64) : Leaf := ⟨flagsOf e, bytesOf (m.ram (ppnOf e))⟩

/-- The page of a user address. -/
def viewAt (m : Mem) (vma : BitVec 64) : Option Leaf := (entryAt m.ram (rootOf m.satp) vma).map (leafOf m)

/-- The user region of the active space is the image. -/
def Shows (m : Mem) (I : Image) : Prop := ∀ vma, IsUser vma → viewAt m vma = I (pageNo vma)

section Space

variable {m m' : Mem} {free : List Ppn} {I : Image} {vma : BitVec 64} {flags : BitVec 8}

theorem ownEntry_zero (k : Nat) : OwnEntry k 0 := by
  match k with
  | 0 => exact fun hv => absurd hv (by decide)
  | 1 => exact fun hv => absurd hv (by decide)
  | _ + 2 => exact fun hv => absurd hv (by decide)

theorem ownEntry_ptabPte (k : Nat) (w : BitVec 64) : OwnEntry (k + 1) (ptabPte w 0) := by
  obtain ⟨hg, hl⟩ := ptabPte_flags w
  match k with
  | 0 => exact fun _ => ⟨hg, hl⟩
  | _ + 1 => exact fun _ _ => hl

/-- The entries a walk to a user address reads. -/
structure UserWalk (m : Mem) (vma : BitVec 64) : Prop where
  entry2 : has (m.ram (rootOf m.satp) (vpn 2 vma)) pteV = true →
    has (m.ram (rootOf m.satp) (vpn 2 vma)) pteG = false ∧ isLeaf (m.ram (rootOf m.satp) (vpn 2 vma)) = false
  entry1 : has (m.ram (rootOf m.satp) (vpn 2 vma)) pteV = true →
    has (m.ram (ppnOf (m.ram (rootOf m.satp) (vpn 2 vma))) (vpn 1 vma)) pteV = true →
    has (m.ram (ppnOf (m.ram (rootOf m.satp) (vpn 2 vma))) (vpn 1 vma)) pteG = false ∧
      isLeaf (m.ram (ppnOf (m.ram (rootOf m.satp) (vpn 2 vma))) (vpn 1 vma)) = false

theorem UserSpace.walk (h : UserSpace m free) (hu : IsUser vma) : UserWalk m vma := by
  have hg : has (m.ram (rootOf m.satp) (vpn 2 vma)) pteV = true → has (m.ram (rootOf m.satp) (vpn 2 vma)) pteG = false := by
    rw [hu.vpn_two]
    exact h.user
  have hall := h.space.all (vpn 2 vma)
  refine ⟨fun hv => ⟨hg hv, hall.1 hv (hg hv)⟩, fun hv hv' => ?_⟩
  exact (hall.2 _ (child_eq_some.mpr ⟨hv, hg hv, rfl⟩) (vpn 1 vma)).1 hv'

/-- The translation of a user address is that of its leaf entry. -/
theorem UserSpace.translate (h : UserSpace m free) (hu : IsUser vma) : translate m.ram (rootOf m.satp) vma =
    (entryAt m.ram (rootOf m.satp) vma).bind fun e =>
      if isLeaf e then if leafOk 0 e then some ⟨0, e, has e pteG⟩ else none else none := by
  have hw := h.walk hu
  rw [AddressSpace.translate, if_pos hu.wellformed, entryAt]
  simp only [lookup, vpns]
  cases hv : has (m.ram (rootOf m.satp) (vpn 2 vma)) pteV with
  | false =>
      rw [walk_invalid hv]
      simp [layout, child, hv]
  | true =>
      obtain ⟨hg, hl⟩ := hw.entry2 hv
      have hw1 := hw.entry1 hv
      rw [walk_table hv hl, hg, show layout.child _ = some _ from child_eq_some.mpr ⟨hv, hg, rfl⟩, Option.bind_some]
      generalize ppnOf (m.ram (rootOf m.satp) (vpn 2 vma)) = pt1 at hw1 ⊢
      cases hv' : has (m.ram pt1 (vpn 1 vma)) pteV with
      | false =>
          rw [walk_invalid hv']
          simp [layout, child, hv']
      | true =>
          obtain ⟨hg', hl'⟩ := hw1 hv'
          rw [walk_table hv' hl', hg', show layout.child _ = some _ from child_eq_some.mpr ⟨hv', hg', rfl⟩, Option.bind_some]
          generalize ppnOf (m.ram pt1 (vpn 1 vma)) = pt0
          simp only [AddressSpace.walk, valid, Bool.false_or]
          by_cases hv0 : has (m.ram pt0 (vpn 0 vma)) pteV = true
          · simp [hv0]
          · simp [hv0]

theorem UserSpace.reaches_own (h : UserSpace m free) {e : BitVec 64} (he : entryAt m.ram (rootOf m.satp) vma = some e) :
    child e = some (ppnOf e) := by
  obtain ⟨q, hq, heq, hv⟩ := reaches_of_lookup he
  have hown := (h.space.all.node hq.node (vpns vma 0)).1
  rw [heq] at hown
  exact child_eq_some.mpr ⟨hv, hown hv, rfl⟩

/-- Two user addresses with the same frame are on one page. -/
theorem UserSpace.frame_inj (h : UserSpace m free) {a b e e' : BitVec 64} (ha : IsUser a) (hb : IsUser b)
    (he : entryAt m.ram (rootOf m.satp) a = some e) (he' : entryAt m.ram (rootOf m.satp) b = some e')
    (hp : ppnOf e = ppnOf e') : pageNo a = pageNo b :=
  (vpns_eq_iff ha hb).mp (lookup_inj (List.nodup_append.mp h.space.nodup).1 he he' (h.reaches_own he)
    (hp ▸ h.reaches_own he'))

theorem Shows.entry (h : Shows m I) (hu : IsUser vma) {l : Leaf} (hl : I (pageNo vma) = some l) :
    ∃ e, entryAt m.ram (rootOf m.satp) vma = some e ∧ leafOf m e = l :=
  Option.map_eq_some_iff.mp ((h vma hu).trans hl)

theorem Shows.no_entry (h : Shows m I) (hu : IsUser vma) (hl : I (pageNo vma) = none) :
    entryAt m.ram (rootOf m.satp) vma = none :=
  Option.map_eq_none_iff.mp ((h vma hu).trans hl)

/-- A change of one user page. -/
theorem Shows.set {n : Nat} {l : Leaf} (h : Shows m I)
    (hself : ∀ vma, IsUser vma → pageNo vma = n → viewAt m' vma = some l)
    (hother : ∀ vma, IsUser vma → pageNo vma ≠ n → viewAt m' vma = viewAt m vma) : Shows m' (I.set n l) := by
  intro vma hu
  by_cases hn : pageNo vma = n
  · rw [hself vma hu hn, Image.set, hn, Function.update_self]
  · rw [hother vma hu hn, Image.set, Function.update_of_ne hn]
    exact h vma hu

/-- A page of the space may be written. -/
theorem spaceWrite {Q : Nat → BitVec 64 → Prop} {root p : Ppn} {i : Vpn} {w : BitVec 64} (h : Space Q m root free)
    (hn : layout.Node m.ram 3 root 0 p) : Space Q (m.setWord p i w) root free := by
  obtain ⟨hndo, -, hdis⟩ := List.nodup_append.mp h.nodup
  obtain ⟨howned, hall⟩ := owned_leaf hn hndo fun x hx => setWord_ram_of_ne (m := m) (i := i) (w := w) hx
  refine ⟨h.list.setWord (fun hm => hdis _ hn.mem _ hm rfl) _ _, ?_, hall h.all⟩
  rw [howned]
  exact h.nodup

/-- The flags a leaf of a user page gets. -/
theorem ownEntry_leaf {e : BitVec 64} (hf : flagsOf e = flags ||| pteA ||| pteD ||| pteV) (hg : flags &&& pteG = 0) :
    OwnEntry 0 e := by
  have hall : ∀ f : BitVec 8, f &&& pteG = 0 → ((f ||| pteA ||| pteD ||| pteV) &&& pteG != 0) = false := by
    decide +kernel
  intro _
  rw [has, hf]
  exact hall flags hg

theorem UserSpace.leaf_ok (hg : flags &&& pteG = 0) (w : BitVec 64) : OwnEntry 0 (leafPte w flags) :=
  ownEntry_leaf (flagsOf_leafPte w flags) hg

theorem getByte_zero (k : Nat) : getByte 0 k = 0 := by
  rw [getByte, show (0 : BitVec 64).extractLsb' (8 * k) 8 = 0 from BitVec.extractLsb'_zero]
  rfl

theorem leafOf_congr {e : BitVec 64} (h : m'.ram (ppnOf e) = m.ram (ppnOf e)) : leafOf m' e = leafOf m e := by
  rw [leafOf, leafOf, h]

theorem ownWay_of {Q : Nat → BitVec 64 → Prop} {root : Ppn} (hQ : ∀ e, Q 1 e → has e pteV = true → has e pteG = false)
    (h : layout.All Q 3 m.ram root) (hg : has (m.ram root 3) pteV = true → has (m.ram root 3) pteG = false)
    (hvpn : vpn 2 vma = 3) : MapPage.ownWay m.ram root vma = true := by
  simp only [MapPage.ownWay, hvpn]
  cases hv : has (m.ram root 3) pteV with
  | false => rfl
  | true =>
      have hc : child (m.ram root 3) = some _ := child_eq_some.mpr ⟨hv, hg hv, rfl⟩
      rw [hg hv]
      cases hv' : has (m.ram (ppnOf (m.ram root 3)) (vpn 1 vma)) pteV with
      | false => rfl
      | true => rw [hQ _ ((h 3).2 _ hc (vpn 1 vma)).1 hv']; rfl

/-- memory_alloc_and_map_page of an address whose tables are the space's own. -/
theorem memoryAllocAndMapPage_entries {Q : Nat → BitVec 64 → Prop} (h₀ : ∀ k, Q k 0)
    (ht : ∀ k w, Q (k + 1) (ptabPte w 0)) (hQ : ∀ e, Q 1 e → has e pteV = true → has e pteG = false)
    (hleaf : ∀ w, Q 0 (leafPte w flags)) (h : Space Q m (rootOf m.satp) free)
    (hg : has (m.ram (rootOf m.satp) 3) pteV = true → has (m.ram (rootOf m.satp) 3) pteG = false) (hvpn : vpn 2 vma = 3)
    (hwf : wellformedVma vma = true) : memoryAllocAndMapPage m vma flags = none ∧ free.length < 3 ∨
      ∃ m' free' w, memoryAllocAndMapPage m vma flags = some m' ∧ Space Q m' (rootOf m'.satp) free' ∧
        (has (m'.ram (rootOf m'.satp) 3) pteV = true → has (m'.ram (rootOf m'.satp) 3) pteG = false) ∧
        m'.satp = m.satp ∧ Updated (rootOf m.satp) m vma flags w m' ∧ free.length ≤ free'.length + 3 := by
  have hway := ownWay_of hQ h.all hg hvpn
  rcases memoryAllocAndMapPage_mapped h₀ ht (fun w _ => hleaf w) h hway hwf with hnone | ⟨w, m', free', hrun, hmap⟩
  · exact .inl hnone
  obtain ⟨w', hup⟩ := memoryAllocAndMapPage_updated h₀ ht hQ h hway hrun
  have hroot : rootOf m'.satp = rootOf m.satp := by rw [hmap.within.satp]
  have hspace : Space Q m' (rootOf m'.satp) free' := hroot.symm ▸ hmap.within.space
  refine .inr ⟨m', free', w', hrun, hspace, fun hv => ?_, hmap.within.satp, hup, hmap.size⟩
  rw [hroot] at hv ⊢
  rcases hmap.kept 3 with hsame | hchild
  · rw [hsame] at hv ⊢
    exact hg hv
  · obtain ⟨c, hc⟩ := Option.ne_none_iff_exists'.mp hchild
    exact (child_eq_some.mp hc).2.1

theorem Updated.entryAt {w : BitVec 64} (h : Updated (rootOf m.satp) m vma flags w m') (hu : IsUser vma) {a : BitVec 64}
    (ha : IsUser a) : entryAt m'.ram (rootOf m.satp) a =
      if pageNo a = pageNo vma then some (leafPte w flags) else entryAt m.ram (rootOf m.satp) a := by
  split
  · rename_i hn
    rw [vpns_congr ((vpns_eq_iff ha hu).mpr hn)]
    exact h.entry
  · rename_i hn
    exact h.other _ fun hall => hn ((vpns_eq_iff ha hu).mp hall)

/-- memory_alloc_and_map_page of a user address, on the image. -/
theorem memoryAllocAndMapPage_shows (h : UserSpace m free) (hI : Shows m I) (hu : IsUser vma) (hg : flags &&& pteG = 0) :
    memoryAllocAndMapPage m vma flags = none ∧ free.length < 3 ∨
      ∃ m' free', memoryAllocAndMapPage m vma flags = some m' ∧ UserSpace m' free' ∧ Shows m' (I.map flags (pageNo vma)) ∧
        free.length ≤ free'.length + 3 := by
  rcases memoryAllocAndMapPage_entries ownEntry_zero ownEntry_ptabPte (fun e he hv => (he hv).1) (UserSpace.leaf_ok hg)
    h.space h.user hu.vpn_two hu.wellformed with hnone | ⟨m', free', w, hrun, hspace, huser, hsatp, hup, hsize⟩
  · exact .inl hnone
  refine .inr ⟨m', free', hrun, ⟨hspace, huser⟩, hI.set (fun a ha hn => ?_) (fun a ha hn => ?_), hsize⟩
  · rw [viewAt, hsatp, hup.entryAt hu ha, if_pos hn, Option.map_some, leafOf, flagsOf_leafPte, leafPte, ppnOf_mkPte, hup.zero]
    refine congrArg (fun b => some (Leaf.mk _ b)) (funext fun off => getByte_zero _)
  · rw [viewAt, viewAt, hsatp, hup.entryAt hu ha, if_neg hn]
    cases he : UserImage.entryAt m.ram (rootOf m.satp) a with
    | none => rfl
    | some e => rw [Option.map_some, Option.map_some, leafOf_congr (hup.pages _ e _ he (h.reaches_own he))]

/-- The walk of memory_set_page_flags ends at the table of the entry. -/
theorem walkPtFind_entry (hu : IsUser vma) {e : BitVec 64}
    (he : entryAt m.ram (rootOf m.satp) vma = some e) :
    ∃ q, walkPtFind m (rootOf m.satp) vma = some (q, vpn 0 vma) ∧
      Reaches layout m.ram (vpns vma) 3 (rootOf m.satp) 1 q ∧ m.ram q (vpn 0 vma) = e := by
  obtain ⟨q, hq, heq, -⟩ := reaches_of_lookup he
  refine ⟨q, ?_, hq, heq⟩
  cases hq with
  | step h₂ hq =>
      cases hq with
      | step h₁ hq =>
          cases hq with
          | root =>
              obtain ⟨hv₂, -, rfl⟩ := child_eq_some.mp h₂
              obtain ⟨hv₁, -, rfl⟩ := child_eq_some.mp h₁
              simp only [vpns] at hv₁ hv₂
              simp [VirtualMemory.walkPtFind, hu.wellformed, hv₂, hv₁, vpns]
          | step h₀ hq => exact absurd hq.le (by decide)

theorem flagsMask (i : Nat) (h : i < 64) : (18446744073709551360#64)[i] = !decide (i < 8) := by
  revert h i
  decide

theorem flagsOf_setFlags (e : BitVec 64) (f : BitVec 8) : flagsOf (setFlags e f) = f := by
  ext i hi
  have h64 : i < 64 := by omega
  simp [flagsOf, setFlags, h64, hi, flagsMask]

theorem ppnOf_setFlags (e : BitVec 64) (f : BitVec 8) : ppnOf (setFlags e f) = ppnOf e := by
  ext i hi
  have h64 : 10 + i < 64 := by omega
  have hge : 8 ≤ 10 + i := by omega
  simp [ppnOf, setFlags, h64, flagsMask, hge]

theorem valid_setFlags (e : BitVec 64) : valid (setFlags e (flags ||| pteA ||| pteD ||| pteV)) = true := by
  have hor : ∀ f : BitVec 8, ((f ||| pteA ||| pteD ||| pteV) &&& pteV != 0) = true := by decide +kernel
  rw [valid, has, flagsOf_setFlags]
  exact hor flags

/-- memory_set_page_flags of a mapped user address, on the image. -/
theorem memorySetPageFlags_shows (h : UserSpace m free) (hI : Shows m I) (hu : IsUser vma) (hg : flags &&& pteG = 0)
    {l : Leaf} (hl : I (pageNo vma) = some l) :
    ∃ m', memorySetPageFlags m vma flags = some m' ∧ UserSpace m' free ∧
      Shows m' (I.set (pageNo vma) ⟨flags ||| pteA ||| pteD ||| pteV, l.bytes⟩) := by
  obtain ⟨e, he, hleaf⟩ := hI.entry hu hl
  obtain ⟨q, hwalk, hq, heq⟩ := walkPtFind_entry hu he
  have hchild := h.reaches_own he
  have hnd := (List.nodup_append.mp h.space.nodup).1
  have hown : OwnEntry 0 (setFlags e (flags ||| pteA ||| pteD ||| pteV)) := ownEntry_leaf (flagsOf_setFlags _ _) hg
  have hchild' : child (setFlags e (flags ||| pteA ||| pteD ||| pteV)) = some (ppnOf e) :=
    child_eq_some.mpr ⟨valid_setFlags e, hown (valid_setFlags e), ppnOf_setFlags _ _⟩
  have hspace := h.space.reflag (i := vpn 0 vma) hq.node (by rw [heq, hchild, hchild']) hown
  have hoff : ∀ x, x ≠ q → (m.setWord q (vpn 0 vma) (setFlags e (flags ||| pteA ||| pteD ||| pteV))).ram x = m.ram x :=
    fun x hx => setWord_ram_of_ne hx
  have hq0 : rootOf m.satp ≠ q := by
    cases hq with
    | step h₂ hq =>
        refine fun he => root_not_mem_children hnd (vpns vma 2) ?_
        rw [children_some h₂]
        nth_rewrite 1 [he]
        exact hq.node.mem
  refine ⟨_, ?_, ⟨hspace, fun hv => ?_⟩, hI.set (fun a ha hn => ?_) (fun a ha hn => ?_)⟩
  · rw [memorySetPageFlags, show pageptrToPagenum m.activeSpaceRoot = rootOf m.satp from rfl, hwalk]
    simp only [Option.bind_eq_bind, Option.bind_some, Option.pure_def, heq]
  · rw [setWord_satp, hoff _ hq0] at hv ⊢
    exact h.user hv
  · have hentry : entryAt (m.setWord q (vpn 0 vma) (setFlags e (flags ||| pteA ||| pteD ||| pteV))).ram (rootOf m.satp) a =
        some (setFlags e (flags ||| pteA ||| pteD ||| pteV)) := by
      rw [vpns_congr ((vpns_eq_iff ha hu).mpr hn), entryAt, lookup_reaches (hq.set hnd fun x _ hx => hoff x hx)]
      simp only [vpns, setWord_ram_self, valid_setFlags, if_true]
    have hpage : ppnOf e ≠ q := fun he' => Layout.Node.ne_leaf hnd hq.node (lookup_node he hchild) he'.symm
    rw [viewAt, setWord_satp, hentry, Option.map_some, leafOf, flagsOf_setFlags, ppnOf_setFlags, hoff _ hpage, ← hleaf]
    rfl
  · have hentry : entryAt (m.setWord q (vpn 0 vma) (setFlags e (flags ||| pteA ||| pteD ||| pteV))).ram (rootOf m.satp) a =
        entryAt m.ram (rootOf m.satp) a :=
      lookup_set_ne hq hnd (fun x _ hx => hoff x hx) (fun i hi => setWord_ram_idx hi)
        fun hall => hn ((vpns_eq_iff ha hu).mp hall)
    rw [viewAt, viewAt, setWord_satp, hentry]
    cases hea : entryAt m.ram (rootOf m.satp) a with
    | none => rfl
    | some e' =>
        have hpage : ppnOf e' ≠ q := fun he' =>
          Layout.Node.ne_leaf hnd hq.node (lookup_node hea (h.reaches_own hea)) he'.symm
        rw [Option.map_some, Option.map_some, leafOf_congr (hoff _ hpage)]

/-- Whether the kernel can store through an entry. -/
theorem storable (e : BitVec 64) : (isLeaf e = true ∧ leafOk 0 e = true ∧ has e pteW = true) ↔ writable (flagsOf e) = true := by
  have hall : ∀ f : BitVec 8, ((f &&& (pteR ||| pteW ||| pteX) != 0) = true ∧
      ((f &&& pteR != 0) || !(f &&& pteW != 0)) = true ∧ (f &&& pteW != 0) = true) ↔
        (f &&& pteR != 0 && f &&& pteW != 0) = true := by
    decide +kernel
  rw [writable, ← hall, isLeaf, leafOk, pow_zero, Nat.mod_one]
  simp only [has, BEq.rfl, Bool.and_true]

/-- A store of the kernel to a user address, on the image. -/
theorem storeByte_shows (h : UserSpace m free) (hI : Shows m I) (hu : IsUser vma) (b : UInt8) :
    storeByte m vma b = none ∧ I.storeByte vma b = none ∨
      ∃ m' I', storeByte m vma b = some m' ∧ I.storeByte vma b = some I' ∧ UserSpace m' free ∧ Shows m' I' := by
  unfold storeByte Image.storeByte
  rw [h.translate hu]
  cases hl : I (pageNo vma) with
  | none =>
      rw [hI.no_entry hu hl]
      exact .inl ⟨rfl, rfl⟩
  | some l =>
      obtain ⟨e, he, hleaf⟩ := hI.entry hu hl
      subst hleaf
      have hpage := lookup_node he (h.reaches_own he)
      have hflags : (leafOf m e).flags = flagsOf e := rfl
      rw [he, Option.bind_some, Option.bind_some, hflags]
      by_cases hw : writable (flagsOf e) = true
      · obtain ⟨hisl, hok, hwr⟩ := (storable e).mpr hw
        have htr : ∀ g, (Translation.mk 0 e g).page vma = ppnOf e := fun g => page_level_zero rfl
        simp only [hisl, hok, hwr, hw, if_true, Option.bind_eq_bind, Option.bind_some, htr]
        have hset : ∀ x, x ≠ ppnOf e → (m.setWord (ppnOf e) (DeepCopy.wordOf vma)
            (setByte (m.ram (ppnOf e) (DeepCopy.wordOf vma)) (vma.toNat % 8) b)).ram x = m.ram x :=
          fun x hx => setWord_ram_of_ne hx
        have hnd := (List.nodup_append.mp h.space.nodup).1
        have hroot : rootOf m.satp ≠ ppnOf e := Layout.Node.ne_leaf hnd (.root 3 _) hpage
        have hlookup : ∀ a, entryAt (m.setWord (ppnOf e) (DeepCopy.wordOf vma)
            (setByte (m.ram (ppnOf e) (DeepCopy.wordOf vma)) (vma.toNat % 8) b)).ram (rootOf m.satp) a =
            entryAt m.ram (rootOf m.satp) a :=
          fun a => lookup_congr fun j q hq => hset q fun he' => Layout.Node.ne_leaf hnd hq hpage he'
        refine .inr ⟨_, _, rfl, rfl, ⟨spaceWrite h.space hpage, fun hv => ?_⟩, hI.set (fun a ha hn => ?_) fun a ha hn => ?_⟩
        · rw [setWord_satp, hset _ hroot] at hv ⊢
          exact h.user hv
        · rw [viewAt, setWord_satp, hlookup, vpns_congr ((vpns_eq_iff ha hu).mpr hn), he, Option.map_some, leafOf,
            Mem.setWord, setPage_ram_self, bytesOf_set]
          rfl
        · rw [viewAt, viewAt, setWord_satp, hlookup]
          cases hea : entryAt m.ram (rootOf m.satp) a with
          | none => rfl
          | some e' =>
              have hne : ppnOf e' ≠ ppnOf e := fun he' => hn (h.frame_inj ha hu hea he he')
              rw [Option.map_some, Option.map_some, leafOf_congr (hset _ hne)]
      · have hnot : ¬ (isLeaf e = true ∧ leafOk 0 e = true ∧ has e pteW = true) := fun hall => hw ((storable e).mp hall)
        rw [if_neg hw]
        refine .inl ⟨?_, rfl⟩
        by_cases hisl : isLeaf e = true
        · by_cases hok : leafOk 0 e = true
          · have hwr : ¬ has e pteW = true := fun hwr => hnot ⟨hisl, hok, hwr⟩
            simp [hisl, hok, hwr]
          · simp [hok]
        · simp [hisl]

end Space

end RiscvKernel.UserImage
