import RiscvKernel.UserImage

namespace RiscvKernel.UserRange

open Memory PageTree PageOwnership VirtualMemory UserImage

/-! The range operations and the stores of the kernel, on the image of the user region. -/

/-- The bytes from vma on lie in the user region. -/
def InRegion (vma : BitVec 64) (size : Nat) : Prop := userStart ≤ vma ∧ vma.toNat + size ≤ userEnd.toNat

/-- The pages that a range operation visits are counted from the size. -/
def pageCount (size : Nat) : Nat := (size + 4095) / 4096

def InPages (vma : BitVec 64) (size n : Nat) : Prop := pageNo vma ≤ n ∧ n < pageNo vma + pageCount size

instance decidableInPages (vma : BitVec 64) (size n : Nat) : Decidable (InPages vma size n) :=
  inferInstanceAs (Decidable (_ ∧ _))

def leafFlags (flags : BitVec 8) : BitVec 8 := flags ||| pteA ||| pteD ||| pteV

/-- A fresh page. -/
def zeroLeaf (flags : BitVec 8) : Leaf := ⟨leafFlags flags, fun _ => 0⟩

def mapPages (I : Image) (flags : BitVec 8) (n₀ cnt n : Nat) : Option Leaf :=
  if n₀ ≤ n ∧ n < n₀ + cnt then some (zeroLeaf flags) else I n

def protectPages (I : Image) (flags : BitVec 8) (n₀ cnt n : Nat) : Option Leaf :=
  if n₀ ≤ n ∧ n < n₀ + cnt then (I n).map fun l => ⟨leafFlags flags, l.bytes⟩ else I n

def storeBytes (I : Image) (vma : BitVec 64) : List UInt8 → Option Image
  | [] => some I
  | b :: bs => (I.storeByte vma b).bind fun I => storeBytes I (vma + 1) bs

def byteAt (I : Image) (vma : BitVec 64) : Option UInt8 := (I (pageNo vma)).map fun l => l.bytes (offset vma)

def flagsAt (I : Image) (n : Nat) : Option (BitVec 8) := (I n).map Leaf.flags

section Region

variable {vma size : BitVec 64} {n i : Nat}

theorem inRegion_iff : InRegion vma n ↔ 0xC0000000 ≤ vma.toNat ∧ vma.toNat + n ≤ 0xD0000000 := by
  rw [InRegion, BitVec.le_def, userStart_toNat, userEnd_toNat]

theorem toNat_add_ofNat (h : vma.toNat + i < 2 ^ 64) : (vma + BitVec.ofNat 64 i).toNat = vma.toNat + i := by
  rw [BitVec.toNat_add, BitVec.toNat_ofNat, Nat.add_mod_mod, Nat.mod_eq_of_lt h]

theorem InRegion.isUser (h : InRegion vma n) (hi : i < n) : IsUser (vma + BitVec.ofNat 64 i) := by
  rw [inRegion_iff] at h
  rw [isUser_iff, toNat_add_ofNat (by omega)]
  omega

theorem numPages_eq (h : size.toNat ≤ 0x10000000) : (numPages size).toNat = pageCount size.toNat := by
  have hn : ((size / 4096).setWidth 32).toNat = size.toNat / 4096 := by
    rw [BitVec.toNat_setWidth, BitVec.toNat_udiv]
    exact Nat.mod_eq_of_lt (by rw [show (4096 : BitVec 64).toNat = 4096 from rfl]; omega)
  have hmod : size % 4096 > 0 ↔ size.toNat % 4096 ≠ 0 := by
    rw [gt_iff_lt, BitVec.lt_def, BitVec.toNat_umod]
    exact Nat.pos_iff_ne_zero
  unfold numPages pageCount
  simp only [hmod]
  split
  · rw [BitVec.toInt_eq_toNat_of_lt] <;> rw [BitVec.toNat_add, hn]
    · simp only [BitVec.ofNat_eq_ofNat, BitVec.toNat_ofNat, Int.toNat_natCast]
      omega
    · simp only [BitVec.ofNat_eq_ofNat, BitVec.toNat_ofNat]
      omega
  · rw [BitVec.toInt_eq_toNat_of_lt (by rw [hn]; omega), hn, Int.toNat_natCast]
    omega

theorem pageNo_add (h : vma.toNat + i * 4096 < 2 ^ 64) : pageNo (vma + BitVec.ofNat 64 (i * 4096)) = pageNo vma + i := by
  rw [pageNo, pageNo, toNat_add_ofNat h]
  omega

theorem InRegion.page (h : InRegion vma n) (hi : i < pageCount n) : IsUser (vma + BitVec.ofNat 64 (i * 4096)) ∧
    pageNo (vma + BitVec.ofNat 64 (i * 4096)) = pageNo vma + i := by
  have hb := inRegion_iff.mp h
  unfold pageCount at hi
  exact ⟨h.isUser (by omega), pageNo_add (by omega)⟩

theorem InRegion.size_le (h : InRegion vma n) : n ≤ 0x10000000 := by
  rw [inRegion_iff] at h
  omega

end Region

section Loops

variable {m m' : Mem} {free free' : List Ppn} {I : Image} {vma size : BitVec 64} {flags : BitVec 8}

theorem forPages_eq {op : Mem → BitVec 64 → Option Mem} (h : InRegion vma size.toNat) :
    forPages m op vma size =
      (List.range (pageCount size.toNat)).foldlM (fun m x => op m (vma + BitVec.ofNat 64 (x * 4096))) m := by
  rw [forPages, numPages_eq h.size_le]

theorem mapPages_succ (I : Image) (flags : BitVec 8) (n₀ cnt : Nat) :
    Image.map (mapPages I flags n₀ cnt) flags (n₀ + cnt) = mapPages I flags n₀ (cnt + 1) := by
  funext n
  by_cases hn : n = n₀ + cnt
  · rw [hn, Image.map, Image.set, Function.update_self, mapPages, if_pos (by omega)]
    rfl
  · rw [Image.map, Image.set, Function.update_of_ne hn, mapPages, mapPages]
    refine if_congr ?_ rfl rfl
    omega

theorem protectPages_succ {l : Leaf} (I : Image) (flags : BitVec 8) (n₀ cnt : Nat)
    (hl : protectPages I flags n₀ cnt (n₀ + cnt) = some l) :
    Image.set (protectPages I flags n₀ cnt) (n₀ + cnt) ⟨leafFlags flags, l.bytes⟩ = protectPages I flags n₀ (cnt + 1) := by
  funext n
  by_cases hn : n = n₀ + cnt
  · rw [protectPages, if_neg (by omega)] at hl
    rw [hn, Image.set, Function.update_self, protectPages, if_pos (by omega), hl, Option.map_some]
  · rw [Image.set, Function.update_of_ne hn, protectPages, protectPages]
    refine if_congr ?_ rfl rfl
    omega

/-- The first cnt pages of memory_alloc_and_map_range. -/
theorem mapLoop_shows (h : UserSpace m free) (hI : Shows m I) {n : Nat} (hr : InRegion vma n) (hg : flags &&& pteG = 0)
    (cnt : Nat) (hcnt : cnt ≤ pageCount n) :
    (List.range cnt).foldlM (fun m x => memoryAllocAndMapPage m (vma + BitVec.ofNat 64 (x * 4096)) flags) m = none ∧
        free.length < 3 * cnt ∨
      ∃ m' free', (List.range cnt).foldlM
          (fun m x => memoryAllocAndMapPage m (vma + BitVec.ofNat 64 (x * 4096)) flags) m = some m' ∧
        UserSpace m' free' ∧ Shows m' (mapPages I flags (pageNo vma) cnt) ∧ free.length ≤ free'.length + 3 * cnt := by
  induction cnt with
  | zero =>
      have hnone : mapPages I flags (pageNo vma) 0 = I := by
        funext n
        rw [mapPages, if_neg (by omega)]
      exact .inr ⟨m, free, rfl, h, hnone.symm ▸ hI, Nat.le_refl _⟩
  | succ cnt ih =>
      rw [List.range_succ, List.foldlM_append]
      rcases ih (by omega) with ⟨hnone, hlen⟩ | ⟨m₁, free₁, hrun, h₁, hI₁, hlen⟩
      · rw [hnone]
        exact .inl ⟨rfl, by omega⟩
      obtain ⟨hu, hn⟩ := hr.page (i := cnt) (by omega)
      rw [hrun]
      simp only [Option.bind_eq_bind, Option.bind_some, List.foldlM_cons, List.foldlM_nil, Option.pure_def]
      rcases memoryAllocAndMapPage_shows h₁ hI₁ hu hg with ⟨hnone, hlen'⟩ | ⟨m₂, free₂, hrun', h₂, hI₂, hlen'⟩
      · rw [hnone]
        exact .inl ⟨rfl, by omega⟩
      · rw [hrun']
        rw [hn, mapPages_succ] at hI₂
        exact .inr ⟨m₂, free₂, rfl, h₂, hI₂, by omega⟩

theorem memoryAllocAndMapRange_shows (h : UserSpace m free) (hI : Shows m I) (hr : InRegion vma size.toNat)
    (hg : flags &&& pteG = 0) :
    memoryAllocAndMapRange m vma size flags = none ∧ free.length < 3 * pageCount size.toNat ∨
      ∃ m' free', memoryAllocAndMapRange m vma size flags = some m' ∧ UserSpace m' free' ∧
        Shows m' (mapPages I flags (pageNo vma) (pageCount size.toNat)) ∧
        free.length ≤ free'.length + 3 * pageCount size.toNat := by
  rw [memoryAllocAndMapRange, forPages_eq hr]
  exact mapLoop_shows h hI hr hg _ (Nat.le_refl _)

theorem protectLoop_shows (h : UserSpace m free) (hI : Shows m I) {n : Nat} (hr : InRegion vma n) (hg : flags &&& pteG = 0)
    (hmap : ∀ i < pageCount n, I (pageNo vma + i) ≠ none) (cnt : Nat) (hcnt : cnt ≤ pageCount n) :
    ∃ m', (List.range cnt).foldlM (fun m x => memorySetPageFlags m (vma + BitVec.ofNat 64 (x * 4096)) flags) m = some m' ∧
      UserSpace m' free ∧ Shows m' (protectPages I flags (pageNo vma) cnt) := by
  induction cnt with
  | zero =>
      have hnone : protectPages I flags (pageNo vma) 0 = I := by
        funext n
        rw [protectPages, if_neg (by omega)]
      exact ⟨m, rfl, h, hnone.symm ▸ hI⟩
  | succ cnt ih =>
      obtain ⟨m₁, hrun, h₁, hI₁⟩ := ih (by omega)
      obtain ⟨hu, hn⟩ := hr.page (i := cnt) (by omega)
      obtain ⟨l, hl⟩ := Option.ne_none_iff_exists'.mp (hmap cnt (by omega))
      have hl' : protectPages I flags (pageNo vma) cnt (pageNo vma + cnt) = some l := by
        rw [protectPages, if_neg (by omega), hl]
      obtain ⟨m₂, hrun', h₂, hI₂⟩ := memorySetPageFlags_shows h₁ hI₁ hu hg (hn.symm ▸ hl')
      refine ⟨m₂, ?_, h₂, ?_⟩
      · rw [List.range_succ, List.foldlM_append, hrun]
        simp only [Option.bind_eq_bind, Option.bind_some, List.foldlM_cons, List.foldlM_nil, Option.pure_def, hrun']
      · rw [hn] at hI₂
        exact protectPages_succ I flags _ cnt hl' ▸ hI₂

theorem memorySetRangeFlags_shows (h : UserSpace m free) (hI : Shows m I) (hr : InRegion vma size.toNat)
    (hg : flags &&& pteG = 0) (hmap : ∀ i < pageCount size.toNat, I (pageNo vma + i) ≠ none) :
    ∃ m', memorySetRangeFlags m vma size flags = some m' ∧ UserSpace m' free ∧
      Shows m' (protectPages I flags (pageNo vma) (pageCount size.toNat)) := by
  rw [memorySetRangeFlags, forPages_eq hr]
  exact protectLoop_shows h hI hr hg hmap _ (Nat.le_refl _)

/-- The stores of the kernel to a range of the user region. -/
theorem store_shows (bs : List UInt8) (h : UserSpace m free) (hI : Shows m I) (hr : InRegion vma bs.length) :
    store m vma bs = none ∧ storeBytes I vma bs = none ∨
      ∃ m' I', store m vma bs = some m' ∧ storeBytes I vma bs = some I' ∧ UserSpace m' free ∧ Shows m' I' := by
  induction bs generalizing m I vma with
  | nil => exact .inr ⟨m, I, rfl, rfl, h, hI⟩
  | cons b bs ih =>
      have hb := inRegion_iff.mp hr
      rw [List.length_cons] at hb
      have hu : IsUser vma := isUser_iff.mpr (by omega)
      have hnext : InRegion (vma + 1) bs.length := by
        rw [inRegion_iff, show vma + 1 = vma + BitVec.ofNat 64 1 from rfl, toNat_add_ofNat (by omega)]
        omega
      simp only [store, storeBytes, Option.bind_eq_bind]
      rcases storeByte_shows h hI hu b with ⟨hnone, hnone'⟩ | ⟨m₁, I₁, hrun, hrun', h₁, hI₁⟩
      · rw [hnone, hnone']
        exact .inl ⟨rfl, rfl⟩
      · rw [hrun, hrun']
        exact ih h₁ hI₁ hnext

end Loops

section Bytes

variable {I I' : Image} {vma a : BitVec 64} {b : UInt8} {n : Nat}

theorem address_inj (hp : pageNo a = pageNo vma) (ho : offset a = offset vma) : a = vma := by
  have hoff := congrArg Fin.val ho
  simp only [offset] at hoff
  unfold pageNo at hp
  apply BitVec.eq_of_toNat_eq
  omega

theorem storeByte_spec (h : I.storeByte vma b = some I') : (∀ n, flagsAt I' n = flagsAt I n) ∧ byteAt I' vma = some b ∧
    ∀ a, a ≠ vma → byteAt I' a = byteAt I a := by
  obtain ⟨l, hl, hset⟩ := Option.bind_eq_some_iff.mp h
  split at hset
  · obtain rfl := Option.some.inj hset
    refine ⟨fun n => ?_, ?_, fun a ha => ?_⟩
    · by_cases hn : n = pageNo vma
      · rw [hn, flagsAt, flagsAt, Image.set, Function.update_self, hl]
        rfl
      · rw [flagsAt, flagsAt, Image.set, Function.update_of_ne hn]
    · rw [byteAt, Image.set, Function.update_self, Option.map_some]
      exact congrArg some (Function.update_self _ _ _)
    · by_cases hn : pageNo a = pageNo vma
      · have hoff : offset a ≠ offset vma := fun ho => ha (address_inj hn ho)
        rw [byteAt, byteAt, Image.set, hn, Function.update_self, hl, Option.map_some, Option.map_some]
        exact congrArg some (Function.update_of_ne hoff _ _)
      · rw [byteAt, byteAt, Image.set, Function.update_of_ne hn]
  · cases hset

/-- What the stores change: the bytes of the range. -/
theorem storeBytes_spec (bs : List UInt8) (hr : vma.toNat + bs.length < 2 ^ 64) (h : storeBytes I vma bs = some I') :
    (∀ n, flagsAt I' n = flagsAt I n) ∧ ∀ a, byteAt I' a =
      if vma.toNat ≤ a.toNat ∧ a.toNat < vma.toNat + bs.length then bs[a.toNat - vma.toNat]? else byteAt I a := by
  induction bs generalizing I vma with
  | nil =>
      obtain rfl := Option.some.inj h
      refine ⟨fun _ => rfl, fun a => ?_⟩
      rw [if_neg (by rw [List.length_nil]; omega)]
  | cons b bs ih =>
      rw [List.length_cons] at hr
      obtain ⟨I₁, h₁, h⟩ := Option.bind_eq_some_iff.mp h
      obtain ⟨hf₁, hb₁, ho₁⟩ := storeByte_spec h₁
      have hnext : (vma + 1).toNat = vma.toNat + 1 := toNat_add_ofNat (i := 1) (by omega)
      obtain ⟨hf, hbytes⟩ := ih (by rw [hnext]; omega) h
      refine ⟨fun n => (hf n).trans (hf₁ n), fun a => ?_⟩
      rw [hbytes a, hnext, List.length_cons]
      by_cases ha : a = vma
      · subst ha
        rw [if_neg (by omega), if_pos (by omega), hb₁, Nat.sub_self, List.getElem?_cons_zero]
      · have hne : a.toNat ≠ vma.toNat := fun he => ha (BitVec.eq_of_toNat_eq he)
        by_cases hin : vma.toNat + 1 ≤ a.toNat ∧ a.toNat < vma.toNat + 1 + bs.length
        · obtain ⟨i, hi⟩ : ∃ i, a.toNat - vma.toNat = i + 1 := ⟨a.toNat - vma.toNat - 1, by omega⟩
          rw [if_pos hin, if_pos (by omega), hi, List.getElem?_cons_succ]
          congr 1
          omega
        · rw [if_neg hin, if_neg (by omega), ho₁ a ha]

/-- The stores succeed on writable pages. -/
theorem storeBytes_some (bs : List UInt8) (hr : vma.toNat + bs.length < 2 ^ 64)
    (hw : ∀ i < bs.length, ∃ f, flagsAt I ((vma.toNat + i) / 4096) = some f ∧ writable f = true) :
    ∃ I', storeBytes I vma bs = some I' := by
  induction bs generalizing I vma with
  | nil => exact ⟨I, rfl⟩
  | cons b bs ih =>
      rw [List.length_cons] at hr hw
      obtain ⟨f, hf, hwf⟩ := hw 0 (by omega)
      obtain ⟨l, hl, rfl⟩ := Option.map_eq_some_iff.mp hf
      have hstep : I.storeByte vma b = some (I.set (pageNo vma) ⟨l.flags, Function.update l.bytes (offset vma) b⟩) := by
        rw [Image.storeByte, pageNo, show vma.toNat / 4096 = (vma.toNat + 0) / 4096 from rfl, hl, Option.bind_some, if_pos hwf]
      have hnext : (vma + 1).toNat = vma.toNat + 1 := toNat_add_ofNat (i := 1) (by omega)
      obtain ⟨I', hI'⟩ := @ih (I.set (pageNo vma) ⟨l.flags, Function.update l.bytes (offset vma) b⟩) (vma + 1)
        (by rw [hnext]; omega) fun i hi => by
          rw [hnext, (storeByte_spec hstep).1, Nat.add_right_comm]
          exact hw (i + 1) (by omega)
      exact ⟨I', by rw [storeBytes, hstep, Option.bind_some, hI']⟩

theorem flagsAt_mapPages {flags : BitVec 8} {n₀ cnt : Nat} :
    flagsAt (mapPages I flags n₀ cnt) n = if n₀ ≤ n ∧ n < n₀ + cnt then some (leafFlags flags) else flagsAt I n := by
  rw [flagsAt, mapPages]
  split <;> rfl

theorem byteAt_mapPages {flags : BitVec 8} {n₀ cnt : Nat} : byteAt (mapPages I flags n₀ cnt) a =
    if n₀ ≤ pageNo a ∧ pageNo a < n₀ + cnt then some 0 else byteAt I a := by
  rw [byteAt, mapPages]
  split <;> rfl

theorem flagsAt_protectPages {flags : BitVec 8} {n₀ cnt : Nat} (hmap : ∀ i < cnt, flagsAt I (n₀ + i) ≠ none) :
    flagsAt (protectPages I flags n₀ cnt) n = if n₀ ≤ n ∧ n < n₀ + cnt then some (leafFlags flags) else flagsAt I n := by
  rw [flagsAt, protectPages]
  split
  · rename_i hn
    obtain ⟨i, rfl⟩ := Nat.exists_eq_add_of_le hn.1
    obtain ⟨f, hf⟩ := Option.ne_none_iff_exists'.mp (hmap i (by omega))
    obtain ⟨l, hl, -⟩ := Option.map_eq_some_iff.mp hf
    rw [hl]
    rfl
  · rfl

theorem byteAt_protectPages {flags : BitVec 8} {n₀ cnt : Nat} : byteAt (protectPages I flags n₀ cnt) a = byteAt I a := by
  rw [byteAt, byteAt, protectPages]
  split
  · cases I (pageNo a) <;> rfl
  · rfl

end Bytes

end RiscvKernel.UserRange
