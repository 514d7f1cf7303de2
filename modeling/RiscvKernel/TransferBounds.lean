import RiscvKernel.KfsRounds
import RiscvKernel.KfsRun
import RiscvKernel.Literal

namespace RiscvKernel.TransferBounds

open Io Lib.Bytes SleepLock FlatDisk Kfs KfsFile KfsRounds Literal

/-- The round asks for the bytes of the file from position pos + count on, inside
one block, and for no more than m in all. -/
def Inside (img : Nat → UInt8) (i pos m : Nat) (t : Transfer Disk) (a : Ask Disk) : Prop :=
  a.io.pos = dataOff img i (pos + t.count) ∧ (pos + t.count) % 4096 + a.want ≤ 4096 ∧ t.count + a.want ≤ m

/-- Every transfer of data that fs_read or fs_write asks the device for is for
the file's own bytes, below its length. -/
def RequestsInside (chunk : Chunk Disk) (loc : Locals) (k : Globals Disk) (io : Fin 32) (buf : Nat → UInt8)
    (n : Nat) : Prop :=
  let e := fsEnter FlatDisk.ops loc k io buf n
  let i := (k.fileArray io).inode
  let pos := (k.fileArray io).filePos
  ∀ fuel, ∀ t ∈ rounds FlatDisk.ops chunk e.numInodes i fuel e.start,
    Inside k.globalIO.bytes i pos (min n (byteLen k.globalIO.bytes i - pos)) t (ask FlatDisk.ops e.numInodes i t)

section Enter

variable {k : Globals Disk} {io : Fin 32} {i n : Nat} {loc : Locals} {buf : Nat → UInt8}

/-- Up to the loop the inodes are looked up; a length that wraps is not clamped. -/
theorem fsEnter_disk (hino : 4096 + 4096 * numInodes k.globalIO.bytes ≤ k.globalIO.size)
    (ho : Opened k.globalIO (k.fileArray io) i) (hn : n < 2 ^ 64) {m : Nat}
    (hm : m = if (k.fileArray io).filePos + n < 2 ^ 64 then
      min n (byteLen k.globalIO.bytes i - (k.fileArray io).filePos) else n) :
    (fsEnter FlatDisk.ops loc k io buf n).seek = 0 ∧
      (fsEnter FlatDisk.ops loc k io buf n).numInodes = numInodes k.globalIO.bytes ∧
      (fsEnter FlatDisk.ops loc k io buf n).start = entered k io loc buf m := by
  obtain ⟨rfl, hi, hsz, hle⟩ := ho
  have hN := le32_lt k.globalIO.bytes 4
  have hlb : byteLen k.globalIO.bytes (k.fileArray io).inode < 2 ^ 32 :=
    le32_lt k.globalIO.bytes (4096 + (k.fileArray io).inode * 4096)
  have hi32 : (k.fileArray io).inode < 2 ^ 32 := Nat.lt_trans hi hN
  have hclamp : (if ((k.fileArray io).filePos + n) % 2 ^ 64 > byteLen k.globalIO.bytes (k.fileArray io).inode then
      (byteLen k.globalIO.bytes (k.fileArray io).inode + (2 ^ 64 - (k.fileArray io).filePos)) % 2 ^ 64 else n) = m := by
    rw [hm]
    by_cases hov : (k.fileArray io).filePos + n < 2 ^ 64
    · rw [if_pos hov, Nat.mod_eq_of_lt hov]
      split_ifs <;> omega
    · rw [if_neg hov, if_neg (by omega)]
  have hseek := @ioseek_ops k.globalIO 4 (by omega)
  have hread := @ioread_ops { k.globalIO with pos := 4 } 4 (by simp only; omega)
  have hseek' := @ioseek_ops { k.globalIO with pos := 4 + 4 }
    (4096 + (k.fileArray io).inode * 4096) (by simp only; omega)
  have hread' := @ioread_ops { k.globalIO with pos := 4096 + (k.fileArray io).inode * 4096 } 4
    (by simp only; omega)
  have hnum : overlay loc.numInodes.toNat (readAt k.globalIO.bytes 4 4) = numInodes k.globalIO.bytes :=
    overlay_four loc.numInodes.toNat_lt (readAt_length _ _ _)
  have hlenB : overlay loc.lengthB.toNat (readAt k.globalIO.bytes (4096 + (k.fileArray io).inode * 4096) 4) =
    byteLen k.globalIO.bytes (k.fileArray io).inode :=
    overlay_four loc.lengthB.toNat_lt (readAt_length _ _ _)
  have hmod : (4096 + (k.fileArray io).inode * 4096) % 2 ^ 64 = 4096 + (k.fileArray io).inode * 4096 :=
    Nat.mod_eq_of_lt (by omega)
  simp only [fsEnter, hseek, hread, hmod, hseek', hread', hnum, hlenB, fsIoctl, fsGetpos, hclamp]
  exact ⟨trivial, trivial, rfl⟩

end Enter

section Loop

variable {d0 : Disk} {i pos m : Nat} {chunk : Chunk Disk} {t : Transfer Disk}

/-- What holds before every round of a transfer of m bytes from pos on. -/
structure LoopInv (d0 : Disk) (i pos m : Nat) (t : Transfer Disk) : Prop where
  bytes : MetaEq d0.bytes t.io.bytes
  size : t.io.size = d0.size
  n : t.count + t.n = m
  filePos : t.filePos = pos + t.count
  fileSize : t.fd.fileSize = byteLen d0.bytes i
  spot : t.blockSpot < 2 ^ 32

variable (hwf : WellFormed d0) (hi : i < numInodes d0.bytes)
include hwf hi

theorem LoopInv.ask (h : LoopInv d0 i pos m t) (hnw : 4096 * (numInodes d0.bytes + 1) < 2 ^ 32)
    (hpos : pos + m ≤ byteLen d0.bytes i) (hn : 0 < t.n) :
    (Kfs.ask FlatDisk.ops (numInodes d0.bytes) i t).io = { t.io with pos := dataOff d0.bytes i (pos + t.count) } := by
  have hlen := hwf.len_le i hi
  have hfp := h.filePos
  have hcn := h.n
  have hlt : t.filePos < byteLen d0.bytes i := by omega
  rw [(ask_eq hwf.inodes hlen h.bytes h.size hi hnw hlt h.spot).1, hwf.sought hi hlt h.size, h.filePos]

theorem LoopInv.inside (h : LoopInv d0 i pos m t) (hnw : 4096 * (numInodes d0.bytes + 1) < 2 ^ 32)
    (hpos : pos + m ≤ byteLen d0.bytes i) (hn : 0 < t.n) :
    Inside d0.bytes i pos m t (Kfs.ask FlatDisk.ops (numInodes d0.bytes) i t) := by
  have hle : part t.filePos t.n ≤ t.n := part_le
  have hblk : t.filePos % 4096 + part t.filePos t.n ≤ 4096 := part_le_block
  have hcn := h.n
  refine ⟨by rw [h.ask hwf hi hnw hpos hn], ?_, ?_⟩
  · rw [← h.filePos]
    exact hblk
  · change t.count + part t.filePos t.n ≤ m
    omega

theorem LoopInv.step (hfull : FullChunk d0 i chunk) (h : LoopInv d0 i pos m t)
    (hnw : 4096 * (numInodes d0.bytes + 1) < 2 ^ 32) (hpos : pos + m ≤ byteLen d0.bytes i) (hn : 0 < t.n) :
    LoopInv d0 i pos m (blockStep FlatDisk.ops chunk (numInodes d0.bytes) i t) := by
  have hle : part t.filePos t.n ≤ t.n := part_le
  have hblk : t.filePos % 4096 + part t.filePos t.n ≤ 4096 := part_le_block
  have hcn := h.n
  have hfp := h.filePos
  have hlt : t.filePos < byteLen d0.bytes i := by omega
  obtain ⟨buf', d', hch, hs', hm'⟩ := hfull t.count (part t.filePos t.n) t.buf
    (sought d0 i t.filePos t.io) t.filePos (by rw [hwf.sought hi hlt h.size])
    (by rw [hwf.sought hi hlt h.size]; exact h.size) (by rw [hwf.sought hi hlt h.size]; exact h.bytes) hlt hblk
  rw [blockStep_eq hwf.inodes (hwf.len_le i hi) h.bytes h.size hi hnw hn (by omega) (by omega) h.spot h.fileSize
    (Nat.le_refl _) hch]
  exact ⟨hm', hs', by simp only; omega, by simp only; omega, h.fileSize, le32_lt _ _⟩

theorem LoopInv.rounds (hfull : FullChunk d0 i chunk) (hpos : pos + m ≤ byteLen d0.bytes i)
    (hnw : 0 < m → 4096 * (numInodes d0.bytes + 1) < 2 ^ 32) (fuel : Nat) (h : LoopInv d0 i pos m t) :
    ∀ t' ∈ KfsRounds.rounds FlatDisk.ops chunk (numInodes d0.bytes) i fuel t,
      Inside d0.bytes i pos m t' (Kfs.ask FlatDisk.ops (numInodes d0.bytes) i t') := by
  induction fuel generalizing t with
  | zero => simp [KfsRounds.rounds]
  | succ fuel ih =>
      rw [KfsRounds.rounds]
      by_cases h0 : t.n > 0
      · have hcn := h.n
        have hfit := hnw (by omega)
        rw [if_pos h0]
        intro t' ht'
        rcases List.mem_cons.mp ht' with rfl | ht'
        · exact h.inside hwf hi hfit hpos h0
        · exact ih (h.step hwf hi hfull hfit hpos h0) t' ht'
      · simp [if_neg h0]

/-- Without a clamp the rounds never stop asking, so some round asks for more
than m bytes: each round inside the file adds at least one byte to the count. -/
theorem unclamped_escapes (hfull : FullChunk d0 i chunk) {n : Nat} (hn : byteLen d0.bytes i < n) (hn' : n < 2 ^ 64)
    (hpos : pos + m ≤ byteLen d0.bytes i) (j : Nat) (hb : MetaEq d0.bytes t.io.bytes) (hs : t.io.size = d0.size)
    (hc : t.count + t.n = n) (hj : m < t.count + j) (hcm : t.count ≤ m) :
    ¬ ∀ fuel, ∀ t' ∈ KfsRounds.rounds FlatDisk.ops chunk (numInodes d0.bytes) i fuel t,
      Inside d0.bytes i pos m t' (Kfs.ask FlatDisk.ops (numInodes d0.bytes) i t') := by
  induction j generalizing t with
  | zero => omega
  | succ j ih =>
      intro hall
      have h0 : t.n > 0 := by omega
      obtain ⟨hp, hblk, hle⟩ := hall 1 t (by simp [KfsRounds.rounds, h0])
      have hpart : 0 < part t.filePos t.n := part_pos h0
      have hpl : part t.filePos t.n ≤ t.n := part_le
      have hwant : (Kfs.ask FlatDisk.ops (numInodes d0.bytes) i t).want = part t.filePos t.n := rfl
      obtain ⟨q, hio⟩ := ask_disk (numInodes d0.bytes) i t
      obtain ⟨buf', d', hch, hs', hm'⟩ := hfull t.count (Kfs.ask FlatDisk.ops (numInodes d0.bytes) i t).want t.buf
        (Kfs.ask FlatDisk.ops (numInodes d0.bytes) i t).io (pos + t.count) hp (by rw [hio]; exact hs)
        (by rw [hio]; exact hb) (by omega) hblk
      have hlen := hwf.len_le i hi
      have hleft : ((part t.filePos t.n : Int) % 2 ^ 64).toNat = part t.filePos t.n := by omega
      have hcnt : (t.count + part t.filePos t.n) % 2 ^ 64 = t.count + part t.filePos t.n := by omega
      have hrest : (t.n + (2 ^ 64 - part t.filePos t.n)) % 2 ^ 64 = t.n - part t.filePos t.n := by omega
      have hans : answer FlatDisk.ops chunk (numInodes d0.bytes) i t = ((part t.filePos t.n : Int), buf', d') := hch
      have hstep := blockStep_received FlatDisk.ops chunk (numInodes d0.bytes) i t
      rw [hans, received] at hstep
      simp only [hleft, hcnt, hrest] at hstep
      apply ih (t := blockStep FlatDisk.ops chunk (numInodes d0.bytes) i t)
      · rw [hstep]; exact hm'
      · rw [hstep]; exact hs'
      · rw [hstep]; simp only; omega
      · rw [hstep]; simp only; omega
      · rw [hstep]; simp only; omega
      · intro fuel t' ht'
        exact hall (fuel + 1) t' (by rw [KfsRounds.rounds, if_pos h0]; exact List.mem_cons_of_mem _ ht')

/-- With an offset of the data blocks that wraps, the first round asks elsewhere. -/
theorem wrapped_offset (hnw : ¬ 4096 * (numInodes d0.bytes + 1) < 2 ^ 32) (hb : MetaEq d0.bytes t.io.bytes)
    (hs : t.io.size = d0.size) (hp : t.filePos < byteLen d0.bytes i) (hspot : t.blockSpot < 2 ^ 32) :
    (Kfs.ask FlatDisk.ops (numInodes d0.bytes) i t).io.pos ≠ dataOff d0.bytes i t.filePos := by
  have hlen := hwf.len_le i hi
  have hino := hwf.inodes
  have hN := le32_lt d0.bytes 4
  have hN' : numInodes d0.bytes < 2 ^ 32 := hN
  have hend := hwf.dataOff_end hi hp
  have hno : leNat (readAt t.io.bytes (4096 + i * 4096 + (4 + t.filePos / 4096 * 4)) 4) =
      blockNo d0.bytes i (t.filePos / 4096) := hb.blockNo hi (by omega)
  have hblk : blockNo d0.bytes i (t.filePos / 4096) < 2 ^ 32 := le32_lt _ _
  rw [dataOff] at hend ⊢
  unfold Kfs.ask
  rw [blockNumOff_of_lt (by omega) (by omega), ioseek_ops (by omega)]
  simp only
  rw [ioread_ops (by simp only; omega)]
  simp only
  rw [overlay_four hspot (readAt_length _ _ _), hno, ioseek_ops (by simp only; omega)]
  simp only
  omega

end Loop

section Call

variable {k : Globals Disk} {io : Fin 32} {i n : Nat} {loc : Locals} {buf : Nat → UInt8} {chunk : Chunk Disk}

/-- The length does not wrap, and the data blocks, if any are used, start below 2 ^ 32. -/
def Fits (k : Globals Disk) (io : Fin 32) (n : Nat) : Prop :=
  (k.fileArray io).filePos + n < 2 ^ 64 ∧
    (0 < min n (byteLen k.globalIO.bytes (k.fileArray io).inode - (k.fileArray io).filePos) →
      4096 * (numInodes k.globalIO.bytes + 1) < 2 ^ 32)

theorem requestsInside_iff (hwf : WellFormed k.globalIO) (ho : Opened k.globalIO (k.fileArray io) i)
    (hfull : FullChunk k.globalIO i chunk) (hn : n < 2 ^ 64) (hspot : loc.blockSpot.toNat < 2 ^ 32) :
    RequestsInside chunk loc k io buf n ↔ Fits k io n := by
  obtain ⟨-, hnum, hstart⟩ := @fsEnter_disk k io i n loc buf hwf.inodes ho hn _ rfl
  obtain ⟨rfl, hi, hsz, hle⟩ := ho
  have hlen := hwf.len_le _ hi
  unfold RequestsInside Fits
  simp only
  rw [hnum, hstart]
  by_cases hov : (k.fileArray io).filePos + n < 2 ^ 64
  · rw [if_pos hov, and_iff_right hov]
    constructor
    · intro h hm
      by_contra hnw
      have h1 := (h 1 _ (by simp only [rounds, entered, gt_iff_lt, hm, if_true]; exact List.mem_cons_self)).1
      exact wrapped_offset hwf hi hnw (fun _ _ => rfl) rfl (by simp only; omega) hspot h1
    · intro hfit fuel
      exact LoopInv.rounds hwf hi hfull (by omega) hfit fuel
        ⟨fun _ _ => rfl, rfl, Nat.zero_add _, rfl, hsz, hspot⟩
  · rw [if_neg hov]
    constructor
    · intro h
      exact absurd h (unclamped_escapes hwf hi hfull (by omega) hn (by omega)
        (min n (byteLen k.globalIO.bytes (k.fileArray io).inode - (k.fileArray io).filePos) + 1)
        (fun _ _ => rfl) rfl (Nat.zero_add _) (by simp only [entered]; omega) (Nat.zero_le _))
    · rintro ⟨hcon, -⟩
      exact absurd hcon hov

end Call

/-- iolit_read and iolit_write have memcpy copy what is left of the literal, and fs_read and
fs_write ask only for the file's own bytes, exactly when the position plus the
length does not wrap (and, for a file, the data blocks start below 2 ^ 32). -/
theorem transfers_inside_iff (n : Nat) (hn : n < 2 ^ 64) :
    (∀ (iol : Lit) (addr buf : Nat), iol.pos ≤ iol.size → iol.size < 2 ^ 64 →
      (iol.readCopy addr buf n = some ⟨buf, addr + iol.pos, min n (iol.size - iol.pos)⟩ ↔
        iol.pos + n < 2 ^ 64) ∧
      (iol.writeCopy addr buf n = some ⟨addr + iol.pos, buf, min n (iol.size - iol.pos)⟩ ↔
        iol.pos + n < 2 ^ 64)) ∧
    ∀ (k : Globals Disk) (io : Fin 32) (loc : Locals) (buf : Nat → UInt8), WellFormed k.globalIO →
      Opened k.globalIO (k.fileArray io) (k.fileArray io).inode → loc.blockSpot.toNat < 2 ^ 32 →
      (RequestsInside (readChunk FlatDisk.ops) loc k io buf n ↔ Fits k io n) ∧
      (RequestsInside (writeChunk FlatDisk.ops) loc k io buf n ↔ Fits k io n) := by
  constructor
  · intro iol addr buf hp hs
    have hpos : ¬ iol.pos > iol.size := by omega
    rw [← Lit.clamp_iff hp hs hn]
    constructor
    · rw [Lit.readCopy, if_neg hpos]
      simp
    · rw [Lit.writeCopy, if_neg hpos]
      simp
  · intro k io loc buf hwf ho hspot
    exact ⟨requestsInside_iff hwf ho (fullChunk_read hwf ho.inode_lt) hn hspot,
      requestsInside_iff hwf ho (fullChunk_write hwf ho.inode_lt) hn hspot⟩

section OneFile

open KfsRun

/-- The file of one byte, read to its end. -/
def atEnd : Globals Disk := (oneFileState 1).setFile 0 ⟨true, 1, 1, 1, 0, 1⟩

theorem transfers_inside_oneFile :
    Lit.readCopy ⟨[1, 2, 3, 4], 1⟩ 100 200 9 = some ⟨200, 101, 3⟩ ∧
      RequestsInside (readChunk FlatDisk.ops) ⟨0, 0, 0⟩ (oneFileState 1) 0 (fun _ => 0) 9 :=
  have hv := @oneFileState_valid 1 (by decide) (by decide)
  ⟨(((transfers_inside_iff 9 (by decide)).1 ⟨[1, 2, 3, 4], 1⟩ 100 200 (by decide) (by decide)).1).mpr (by decide),
    (((transfers_inside_iff 9 (by decide)).2 (oneFileState 1) 0 ⟨0, 0, 0⟩ (fun _ => 0) hv.image
      (hv.opened 0 (by simp [KfsRun.IsOpen, oneFileState])) (by decide)).1).mpr
      ⟨by decide, fun _ => by decide +kernel⟩⟩

/-- One byte before the end of a literal, and at the end of a file, a length of
2 ^ 64 - 1 wraps: memcpy is called for all of it, and a block is asked for. -/
theorem transfers_wrap_fails :
    Lit.readCopy ⟨[1, 2, 3, 4], 3⟩ 100 200 (2 ^ 64 - 1) ≠ some ⟨200, 103, 1⟩ ∧
      ¬ RequestsInside (readChunk FlatDisk.ops) ⟨0, 0, 0⟩ atEnd 0 (fun _ => 0) (2 ^ 64 - 1) := by
  refine ⟨by decide +kernel, fun h => ?_⟩
  have h1 := (h 1 _ (by
    rw [rounds, if_pos (by decide +kernel)]
    exact List.mem_cons_self)).2.2
  exact absurd h1 (by decide +kernel)

end OneFile

end RiscvKernel.TransferBounds
