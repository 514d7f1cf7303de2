import RiscvKernel.EzHeap
import RiscvKernel.Vioblk
import RiscvKernel.VirtioFeatures

namespace RiscvKernel.BlockSize

open Io Lib.Bytes SleepLock FlatDisk Vioblk VirtioFeatures EzHeap

variable {δ : Type}

/-- The block size of vioblk_attach: blk_size where the device has the feature. -/
def attachBlksz (enabled : Featset) (blkSize : Nat) : Nat :=
  if virtioFeatsetTest enabled virtioBlkFBlkSize then blkSize else 512

theorem attachBlksz_pos (enabled : Featset) {blkSize : Nat} (h : 0 < blkSize) : 0 < attachBlksz enabled blkSize := by
  unfold attachBlksz
  split
  · exact h
  · decide

/-- The struct that vioblk_attach fills from the configuration of the device; the block buffer
behind it is as kmalloc returns it. -/
def vioblkDevice (enabled : Featset) (capacity blkSize : Nat) (h : 0 < blkSize) (heap : Nat → UInt8) (disk : δ) :
    VioblkDevice δ where
  opened := false
  readonly := false
  blksz := attachBlksz enabled blkSize
  blksz_pos := attachBlksz_pos enabled h
  pos := 0
  size := capacity * attachBlksz enabled blkSize % 2 ^ 64
  blkcnt := capacity
  availIdx := 0
  usedIdx := 0
  reqHeader := ⟨.tIn, 0⟩
  reqStatus := 0
  blkbuf := readAt heap 0 (attachBlksz enabled blkSize)
  lock := lockInit
  disk

/-- sizeof(struct lock). -/
def lockSize : Nat := 32

/-- sizeof(struct vioblk_device). -/
def deviceSize : Nat := 216

/-- vioblk_attach over a heap and the bytes of memory; no device when kmalloc panics. -/
def vioblkAttach (page : Nat → Nat) (heap : Heap) (enabled : Featset) (capacity blkSize : Nat) (h : 0 < blkSize)
    (mem : Nat → UInt8) (disk : δ) : Option (VioblkDevice δ) :=
  match kmalloc page heap lockSize with
  | (none, _) => none
  | (some _, heap) =>
      match kmalloc page heap (deviceSize + attachBlksz enabled blkSize) with
      | (none, _) => none
      | (some dev, _) => some (vioblkDevice enabled capacity blkSize h (fun i => mem (dev + deviceSize + i)) disk)

/-- The struct and the block buffer have to fit in a page. -/
theorem vioblkAttach_cases (page : Nat → Nat) (heap : Heap) (enabled : Featset) (capacity : Nat) {blkSize : Nat}
    (h : 0 < blkSize) (hword : attachBlksz enabled blkSize < 2 ^ 32) (mem : Nat → UInt8) (disk : δ) :
    pageSize < deviceSize + attachBlksz enabled blkSize ∧
        vioblkAttach page heap enabled capacity blkSize h mem disk = none ∨
      deviceSize + attachBlksz enabled blkSize ≤ pageSize ∧ ∃ buf,
        vioblkAttach page heap enabled capacity blkSize h mem disk = some (vioblkDevice enabled capacity blkSize h buf disk) := by
  have hfits := roundUp_le_pageSize (show deviceSize + attachBlksz enabled blkSize + 15 < 2 ^ 64 by
    simp only [deviceSize]
    omega)
  obtain ⟨lock, heap', hlock⟩ := (kmalloc_some_iff page heap lockSize).mpr (by decide)
  rw [vioblkAttach, hlock]
  simp only
  by_cases hsize : deviceSize + attachBlksz enabled blkSize ≤ pageSize
  · obtain ⟨dev, heap'', hdev⟩ := (kmalloc_some_iff page heap' _).mpr (hfits.mpr hsize)
    rw [hdev]
    exact .inr ⟨hsize, _, rfl⟩
  · rw [kmalloc_large page heap' (Nat.lt_of_not_le (mt hfits.mp hsize))]
    exact .inl ⟨Nat.lt_of_not_le hsize, rfl⟩

def vioblkOpen (v : VioblkDevice δ) : Int × VioblkDevice δ :=
  if v.opened then (-ebusy, v) else (0, { v with opened := true })

def vioblkGetlen (v : VioblkDevice δ) : Int × Nat := (0, v.size)

/-- A device of capacity units of 512 bytes, in which a header counts its sector too, completes
every request that lies inside. -/
def CountsSectors (hw : Hardware (Nat → UInt8)) (capacity : Nat) : Prop :=
  ∀ type sector len buf disk, sector * 512 + len ≤ capacity * 512 →
    hw ⟨type, sector⟩ len buf disk = hardware 512 ⟨type, sector⟩ len buf disk

/-- The driver shows the bytes of a device of capacity units of 512 bytes where they are. -/
structure Addresses (hw : Hardware (Nat → UInt8)) (tp capacity : Nat) (v : VioblkDevice (Nat → UInt8)) : Prop where
  length : vioblkGetlen v = (0, 512 * capacity)
  read : ∀ p n, p ≤ 512 * capacity → ∃ v', vioblkRead hw tp { v with pos := p } n =
    some (((min n (512 * capacity - p) : Nat) : Int), readAt v.disk p (min n (512 * capacity - p)), v') ∧ v'.disk = v.disk
  write : ∀ p buf, p ≤ 512 * capacity → ∃ v', vioblkWrite hw tp { v with pos := p } buf =
    some (((min buf.length (512 * capacity - p) : Nat) : Int), v') ∧
      v'.disk = writeAt v.disk p (buf.take (512 * capacity - p))

/-- Two devices that answer alike what the driver asks inside its device. -/
def Agree (hw hw' : Hardware δ) (v : VioblkDevice δ) : Prop :=
  ∀ type sector buf disk, sector * v.blksz < v.size →
    hw ⟨type, sector⟩ v.blksz buf disk = hw' ⟨type, sector⟩ v.blksz buf disk

section Agree

variable {hw hw' : Hardware δ} {v : VioblkDevice δ}

theorem Agree.submit (h : Agree hw hw' v) (hp : v.pos < v.size) (type : ReqType) {w : VioblkDevice δ}
    (hz : w.blksz = v.blksz) : submit hw type (v.pos / v.blksz) w = submit hw' type (v.pos / v.blksz) w := by
  have hlt : v.pos / v.blksz * v.blksz < v.size := Nat.lt_of_le_of_lt (Nat.div_mul_le_self _ _) hp
  have hr : hw ⟨type, v.pos / v.blksz⟩ w.blksz w.blkbuf w.disk = hw' ⟨type, v.pos / v.blksz⟩ w.blksz w.blkbuf w.disk := by
    rw [hz]
    exact h type _ _ _ hlt
  unfold Vioblk.submit
  rw [hr]

theorem Agree.vioblkReadLoop (h : Agree hw hw' v) (bufsz total : Nat) (out : List UInt8) :
    vioblkReadLoop hw bufsz total out v = vioblkReadLoop hw' bufsz total out v := by
  induction hk : bufsz - total using Nat.strongRecOn generalizing total out v with
  | ind k ih =>
      rw [Vioblk.vioblkReadLoop, Vioblk.vioblkReadLoop.eq_def hw']
      by_cases hlt : total < bufsz
      · rw [if_pos hlt, if_pos hlt]
        by_cases hend : v.size ≤ v.pos
        · rw [if_pos hend, if_pos hend]
        · have hpos := @blockPart_pos _ v (bufsz - total) (by omega)
          rw [if_neg hend, if_neg hend, h.submit (Nat.lt_of_not_le hend) .tIn rfl]
          simp only
          congr 1
          refine @ih (bufsz - (total + blockPart v (bufsz - total))) (by omega) _ ?_ _ _ rfl
          exact h
      · rw [if_neg hlt, if_neg hlt]

theorem Agree.fetchBlock (h : Agree hw hw' v) (hp : v.pos < v.size) (n : Nat) :
    fetchBlock hw n v = fetchBlock hw' n v := by
  unfold Vioblk.fetchBlock
  rw [h.submit hp .tIn rfl]

theorem fetchBlock_same {n : Nat} {w : VioblkDevice δ} (h : fetchBlock hw n v = .ok w) :
    w.blksz = v.blksz ∧ w.size = v.size := by
  unfold Vioblk.fetchBlock at h
  split at h
  · simp only at h
    split at h
    · cases h
    · obtain rfl := Except.ok.inj h
      exact ⟨rfl, rfl⟩
  · obtain rfl := Except.ok.inj h
    exact ⟨rfl, rfl⟩

theorem Agree.vioblkWriteLoop (h : Agree hw hw' v) (buf : List UInt8) (total : Nat) :
    vioblkWriteLoop hw buf total v = vioblkWriteLoop hw' buf total v := by
  induction hk : buf.length - total using Nat.strongRecOn generalizing total v with
  | ind k ih =>
      rw [Vioblk.vioblkWriteLoop, Vioblk.vioblkWriteLoop.eq_def hw']
      by_cases hlt : total < buf.length
      · rw [if_pos hlt, if_pos hlt]
        by_cases hend : v.size ≤ v.pos
        · rw [if_pos hend, if_pos hend]
        · have hpos := @blockPart_pos _ v (buf.length - total) (by omega)
          have hp := Nat.lt_of_not_le hend
          rw [if_neg hend, if_neg hend]
          simp only
          rw [h.fetchBlock hp]
          cases hf : Vioblk.fetchBlock hw' (blockPart v (buf.length - total)) v with
          | error w => rfl
          | ok w =>
              obtain ⟨hz, hs⟩ := fetchBlock_same hf
              simp only
              rw [h.submit hp .tOut (by exact hz)]
              congr 1
              refine @ih (buf.length - (total + blockPart v (buf.length - total))) (by omega) _ ?_ _ rfl
              intro type sector b disk hlt'
              have hlt'' : sector * w.blksz < w.size := hlt'
              show hw ⟨type, sector⟩ w.blksz b disk = hw' ⟨type, sector⟩ w.blksz b disk
              rw [hz] at hlt'' ⊢
              rw [hs] at hlt''
              exact h type sector b disk hlt''
      · rw [if_neg hlt, if_neg hlt]

theorem Agree.vioblkRead (h : Agree hw hw' v) (tp n : Nat) : vioblkRead hw tp v n = vioblkRead hw' tp v n := by
  have hl : ∀ lock, Agree hw hw' { v with lock } := fun _ => h
  unfold Vioblk.vioblkRead
  simp only [fun lock => (hl lock).vioblkReadLoop n 0 []]

theorem Agree.vioblkWrite (h : Agree hw hw' v) (tp : Nat) (buf : List UInt8) :
    vioblkWrite hw tp v buf = vioblkWrite hw' tp v buf := by
  have hl : ∀ lock, Agree hw hw' { v with lock } := fun _ => h
  unfold Vioblk.vioblkWrite
  simp only [fun lock => (hl lock).vioblkWriteLoop buf 0]

end Agree

section Addresses

variable {hw : Hardware (Nat → UInt8)} {tp capacity : Nat} {v : VioblkDevice (Nat → UInt8)}

/-- Where the device counts in blocks of the driver, the driver is right. -/
theorem addresses_of_agree (hopen : v.opened = true) (hwrite : v.readonly = false) (hlock : v.lock = lockInit)
    (hsize : v.size = 512 * capacity) (hblocks : v.size = v.blkcnt * v.blksz) (hbuf : v.blkbuf.length = v.blksz)
    (hagree : Agree hw (hardware v.blksz) v) : Addresses hw tp capacity v := by
  have htracks : ∀ p, p ≤ 512 * capacity → Tracks { v with pos := p } ⟨v.disk, v.size, p⟩ := fun p hp =>
    ⟨hopen, hwrite, hblocks, hbuf, rfl, rfl, hsize ▸ hp, rfl⟩
  have hagree' : ∀ p, Agree hw (hardware v.blksz) { v with pos := p } := fun _ => hagree
  refine ⟨congrArg _ hsize, fun p n hp => ?_, fun p buf hp => ?_⟩
  · rw [(hagree' p).vioblkRead]
    by_cases hn : 1 ≤ n
    · obtain ⟨v', he, ht, -, -⟩ := vioblkRead_tracks (htracks p hp) hlock tp hn
      have hm : min n (v.size - p) = min n (512 * capacity - p) := by rw [hsize]
      simp only [FlatDisk.read, hm] at he
      exact ⟨v', he, ht.bytes.symm⟩
    · obtain rfl : n = 0 := by omega
      refine ⟨{ v with pos := p, lock := ⟨tp⟩ }, ?_, rfl⟩
      rw [vioblkRead, hlock, lockAcquire_lockInit]
      simp only [Option.bind_eq_bind, Option.bind_some, if_true, Nat.zero_min, readAt_zero]
      rfl
  · rw [(hagree' p).vioblkWrite]
    by_cases hn : 1 ≤ buf.length
    · obtain ⟨v', he, ht, -, -⟩ := vioblkWrite_tracks (htracks p hp) hlock tp hn
      have hm : min buf.length (v.size - p) = min buf.length (512 * capacity - p) := by rw [hsize]
      simp only [FlatDisk.write, hm] at he
      refine ⟨v', he, ?_⟩
      rw [← ht.bytes]
      simp only [FlatDisk.write, hm]
      rw [Nat.min_comm, ← List.take_take, List.take_length]
    · obtain rfl : buf = [] := List.eq_nil_of_length_eq_zero (by omega)
      refine ⟨{ v with pos := p, lock := ⟨tp⟩ }, ?_, by simp⟩
      rw [vioblkWrite, hlock, lockAcquire_lockInit]
      simp only [Option.bind_eq_bind, Option.bind_some, hopen, hwrite]
      simp

theorem CountsSectors.submit (hhw : CountsSectors hw capacity) (type : ReqType) {sector : Nat}
    (hin : sector * 512 + v.blksz ≤ capacity * 512) : submit hw type sector v = submit (hardware 512) type sector v := by
  unfold Vioblk.submit
  rw [hhw type sector _ _ _ hin]

theorem vioblkWriteLoop_done {buf : List UInt8} {total : Nat} {hw : Hardware δ} {v : VioblkDevice δ} (h : buf.length ≤ total) :
    vioblkWriteLoop hw buf total v = ((total : Int), unlock v) := by
  rw [Vioblk.vioblkWriteLoop, if_neg (Nat.not_lt_of_le h)]

theorem vioblkWriteLoop_step {buf : List UInt8} {total n : Nat} {w u : VioblkDevice δ} {hw : Hardware δ} {v : VioblkDevice δ}
    (hlt : total < buf.length) (hend : v.pos < v.size) (hn : blockPart v (buf.length - total) = n)
    (hfetch : fetchBlock hw n v = .ok w)
    (hu : Vioblk.submit hw .tOut (v.pos / v.blksz)
      { w with blkbuf := splice w.blkbuf (v.pos % v.blksz) ((buf.drop total).take n) } = u)
    (hok : u.reqStatus = virtioBlkSOk) :
    vioblkWriteLoop hw buf total v = vioblkWriteLoop hw buf (total + n) { u with pos := v.pos + n } := by
  subst hn
  rw [Vioblk.vioblkWriteLoop, if_pos hlt, if_neg (Nat.not_le_of_lt hend)]
  simp only [hfetch, hu]
  rw [if_neg (not_not.mpr hok)]

/-- One byte at the start of the second block goes to the second sector. -/
theorem vioblkWriteLoop_secondBlock (hhw : CountsSectors hw capacity) (hpos : v.pos = v.blksz) (hend : v.pos < v.size)
    (hblk : 1 < v.blksz) (hlen : 512 + v.blksz ≤ capacity * 512) (b : UInt8) :
    ∃ v', vioblkWriteLoop hw [b] 0 v = (1, v') ∧ v'.disk = writeAt v.disk 512 [b] := by
  have hdiv : v.pos / v.blksz = 1 := by
    rw [hpos]
    exact Nat.div_self v.blksz_pos
  have hmod : v.pos % v.blksz = 0 := by
    rw [hpos]
    exact Nat.mod_self _
  have hpart : blockPart v 1 = 1 := by
    rw [blockPart, hmod]
    split <;> omega
  have hin : 1 * 512 + v.blksz ≤ capacity * 512 := by omega
  have hfetch : fetchBlock hw 1 v = .ok (Vioblk.submit (hardware 512) .tIn 1 v) := by
    rw [Vioblk.fetchBlock, hmod, hdiv, if_pos (.inr (Nat.ne_of_lt hblk)), hhw.submit .tIn hin]
    exact if_neg (not_not.mpr rfl)
  have hmerge : writeAt v.disk 512 ((splice (readAt v.disk 512 v.blksz) 0 [b]).take v.blksz) = writeAt v.disk 512 [b] := by
    rw [List.take_of_length_le, writeAt_splice]
    · rw [List.length_singleton]
      omega
    · rw [splice_length] <;> simp
      omega
  have hstore : Vioblk.submit hw .tOut (v.pos / v.blksz) { Vioblk.submit (hardware 512) .tIn 1 v with
      blkbuf := splice (readAt v.disk 512 v.blksz) (v.pos % v.blksz) (([b].drop 0).take 1) } =
      Vioblk.submit (hardware 512) .tOut 1 { Vioblk.submit (hardware 512) .tIn 1 v with
        blkbuf := splice (readAt v.disk 512 v.blksz) 0 [b] } := by
    rw [hdiv, hmod]
    exact hhw.submit .tOut hin
  have hstep := vioblkWriteLoop_step (show 0 < [b].length from Nat.zero_lt_one) hend hpart hfetch hstore rfl
  exact ⟨_, hstep.trans (vioblkWriteLoop_done (Nat.le_refl 1)), hmerge⟩

theorem vioblkWrite_secondBlock (hhw : CountsSectors hw capacity) (hopen : v.opened = true) (hwrite : v.readonly = false)
    (hlock : v.lock = lockInit) (hpos : v.pos = v.blksz) (hend : v.pos < v.size) (hblk : 1 < v.blksz)
    (hlen : 512 + v.blksz ≤ capacity * 512) (b : UInt8) :
    ∃ v', vioblkWrite hw tp v [b] = some (1, v') ∧ v'.disk = writeAt v.disk 512 [b] := by
  obtain ⟨v', he, hd⟩ := @vioblkWriteLoop_secondBlock hw capacity { v with lock := ⟨tp⟩ } hhw hpos hend hblk hlen b
  refine ⟨v', ?_, hd⟩
  rw [vioblkWrite, hlock, lockAcquire_lockInit]
  simp only [Option.bind_eq_bind, Option.bind_some]
  rw [if_neg (by simp [hopen]), if_neg (by simp [hwrite]), if_neg (by simp), he]
  rfl

/-- Only blocks of 512 bytes make the driver right about a device that is not empty. -/
theorem Addresses.blksz (h : Addresses hw tp capacity v) (hhw : CountsSectors hw capacity) (hopen : v.opened = true)
    (hwrite : v.readonly = false) (hlock : v.lock = lockInit) (hsize : v.size = capacity * v.blksz % 2 ^ 64)
    (hblk : 512 ≤ v.blksz) (hword : v.blksz < 2 ^ 32) (hc : capacity ≠ 0) : capacity < 2 ^ 55 ∧ v.blksz = 512 := by
  have hlen : v.size = 512 * capacity := congrArg Prod.snd h.length
  have hcap : capacity < 2 ^ 55 := by omega
  refine ⟨hcap, ?_⟩
  by_contra hne
  have hlt : 512 < v.blksz := by omega
  -- the product wraps, so that the device is larger than any block
  have hwrap : 2 ^ 64 + 512 * capacity ≤ capacity * v.blksz := by
    have hmore : 512 * capacity < capacity * v.blksz := by
      rw [Nat.mul_comm capacity]
      exact Nat.mul_lt_mul_of_pos_right hlt (Nat.pos_of_ne_zero hc)
    have hmod := Nat.div_add_mod (capacity * v.blksz) (2 ^ 64)
    rw [← hsize, hlen] at hmod
    have hq : capacity * v.blksz / 2 ^ 64 ≠ 0 := fun hz => by
      rw [hz] at hmod
      omega
    omega
  have hbig : 2 ^ 32 < capacity := by
    by_contra hsmall
    have hle : capacity * v.blksz ≤ capacity * (2 ^ 32 - 1) := Nat.mul_le_mul_left _ (by omega)
    omega
  have hend : v.blksz < v.size := by omega
  have hsecond : 512 + v.blksz ≤ capacity * 512 := by omega
  obtain ⟨v', he, hd⟩ := @vioblkWrite_secondBlock hw tp capacity { v with pos := v.blksz } hhw hopen hwrite hlock rfl hend
    (Nat.lt_trans (by decide) hlt) hsecond (v.disk v.blksz + 1)
  obtain ⟨w, hw', hd'⟩ := h.write v.blksz [v.disk v.blksz + 1] (by omega)
  rw [he] at hw'
  obtain rfl : v' = w := congrArg Prod.snd (Option.some.inj hw')
  rw [hd] at hd'
  have htake : [v.disk v.blksz + 1].take (512 * capacity - v.blksz) = [v.disk v.blksz + 1] :=
    List.take_of_length_le (by simp; omega)
  rw [htake] at hd'
  have hbyte := congrFun hd' v.blksz
  rw [writeAt_outside (by simp; omega)] at hbyte
  have hin := @writeAt_inside v.disk v.blksz [v.disk v.blksz + 1] 0 (by simp)
  rw [Nat.add_zero] at hin
  rw [hin] at hbyte
  revert hbyte
  simp

/-- The driver is right about an empty device, and with blocks of 512 bytes about one whose bytes
can be counted in 64 bits. -/
theorem addresses_vioblkDevice (hhw : CountsSectors hw capacity) {enabled : Featset} {blkSize : Nat} {hpos : 0 < blkSize}
    {buf disk : Nat → UInt8} (h : capacity = 0 ∨ capacity < 2 ^ 55 ∧ attachBlksz enabled blkSize = 512) :
    Addresses hw tp capacity (vioblkOpen (vioblkDevice enabled capacity blkSize hpos buf disk)).2 := by
  have hsize : (vioblkOpen (vioblkDevice enabled capacity blkSize hpos buf disk)).2.size =
      capacity * attachBlksz enabled blkSize % 2 ^ 64 := rfl
  refine addresses_of_agree rfl rfl rfl ?_ ?_ ?_ fun type sector buf disk hlt => ?_
  · rw [hsize]
    rcases h with rfl | ⟨hc, hz⟩
    · simp
    · rw [hz]
      omega
  · rw [hsize]
    show _ = capacity * attachBlksz enabled blkSize
    rcases h with rfl | ⟨hc, hz⟩
    · simp
    · rw [hz]
      omega
  · exact readAt_length _ _ _
  · rw [hsize] at hlt
    have hlt' : sector * attachBlksz enabled blkSize < capacity * attachBlksz enabled blkSize % 2 ^ 64 := hlt
    show hw ⟨type, sector⟩ (attachBlksz enabled blkSize) buf disk =
      hardware (attachBlksz enabled blkSize) ⟨type, sector⟩ (attachBlksz enabled blkSize) buf disk
    rcases h with rfl | ⟨hc, hz⟩
    · simp at hlt'
    · rw [hz] at hlt' ⊢
      exact hhw type sector 512 buf disk (by omega)

end Addresses

/-- The driver of a device that counts in units of 512 bytes is right if and only if its struct
and its block buffer fit in a page, and there is nothing on the device, or its bytes can be
counted in 64 bits and the driver uses blocks of 512 bytes. -/
theorem addresses_iff (hw : Hardware (Nat → UInt8)) (capacity : Nat) (hhw : CountsSectors hw capacity) (tp : Nat)
    (page : Nat → Nat) (heap : Heap) (enabled : Featset) (k : Nat) (hk : 512 * (k + 1) < 2 ^ 32) (mem disk : Nat → UInt8) :
    (∃ v, vioblkAttach page heap enabled capacity (512 * (k + 1)) (by omega) mem disk = some v ∧
        Addresses hw tp capacity (vioblkOpen v).2) ↔
      capacity = 0 ∧ deviceSize + attachBlksz enabled (512 * (k + 1)) ≤ pageSize ∨
        capacity < 2 ^ 55 ∧ attachBlksz enabled (512 * (k + 1)) = 512 := by
  have hbounds : 512 ≤ attachBlksz enabled (512 * (k + 1)) ∧ attachBlksz enabled (512 * (k + 1)) < 2 ^ 32 := by
    unfold attachBlksz
    split <;> omega
  rcases vioblkAttach_cases page heap enabled capacity (show 0 < 512 * (k + 1) by omega) hbounds.2 mem disk with
    ⟨hlarge, hnone⟩ | ⟨hfits, buf, hsome⟩
  · rw [hnone]
    have hne : attachBlksz enabled (512 * (k + 1)) ≠ 512 := fun hz => by
      rw [hz] at hlarge
      exact absurd hlarge (by decide)
    constructor
    · rintro ⟨v, hv, -⟩
      cases hv
    · rintro (⟨-, hfits⟩ | ⟨-, hz⟩)
      · exact absurd hlarge (Nat.not_lt_of_le hfits)
      · exact absurd hz hne
  · rw [hsome]
    constructor
    · rintro ⟨v, hv, h⟩
      cases hv
      by_cases hc : capacity = 0
      · exact .inl ⟨hc, hfits⟩
      · exact .inr (h.blksz hhw rfl rfl rfl rfl hbounds.1 hbounds.2 hc)
    · intro h
      exact ⟨_, rfl, addresses_vioblkDevice hhw (h.imp_left And.left)⟩

/-- A device that fails the requests that do not lie inside. -/
def virtioBlk (capacity : Nat) : Hardware (Nat → UInt8) := fun header len buf disk =>
  if header.sector * 512 + len ≤ capacity * 512 then hardware 512 header len buf disk else (1, buf, disk)

theorem countsSectors_virtioBlk (capacity : Nat) : CountsSectors (virtioBlk capacity) capacity :=
  fun _ _ _ _ _ h => if_pos h

/-- VIRTIO_BLK_F_BLK_SIZE. -/
def blkSizeEnabled : Featset := virtioFeatsetAdd (fun _ => 0) virtioBlkFBlkSize

/-- The heap that memory_init makes when the image ends at 0x80400000. -/
def bootHeap : Heap := ⟨0x80400000, 0x80401000, 0⟩

theorem addresses_blkSize512 : ∃ v, vioblkAttach pagesFrom bootHeap blkSizeEnabled 4 (512 * (0 + 1)) (by decide)
      (fun _ => 0) (fun a => UInt8.ofNat a) = some v ∧ Addresses (virtioBlk 4) 0 4 (vioblkOpen v).2 :=
  (addresses_iff (virtioBlk 4) 4 (countsSectors_virtioBlk 4) 0 pagesFrom bootHeap blkSizeEnabled 0 (by decide) (fun _ => 0)
    fun a => UInt8.ofNat a).mpr (.inr ⟨by decide, by decide⟩)

/-- A device of 2048 bytes with blocks of 1024 bytes. -/
theorem not_addresses_blkSize1024 : ¬ ∃ v, vioblkAttach pagesFrom bootHeap blkSizeEnabled 4 (512 * (1 + 1)) (by decide)
      (fun _ => 0) (fun a => UInt8.ofNat a) = some v ∧ Addresses (virtioBlk 4) 0 4 (vioblkOpen v).2 := by
  rintro ⟨v, hv, h⟩
  have hlen : (vioblkAttach pagesFrom bootHeap blkSizeEnabled 4 (512 * (1 + 1)) (by decide) (fun _ => 0)
      (fun a => UInt8.ofNat a)).map (fun v => vioblkGetlen (vioblkOpen v).2) = some (0, 4096) := by decide +kernel
  rw [hv, Option.map_some] at hlen
  have := h.length.symm.trans (Option.some.inj hlen)
  revert this
  decide

end RiscvKernel.BlockSize
