import RiscvKernel.Kfs

namespace RiscvKernel.KfsFile

open Io Lib.Bytes SleepLock FlatDisk Kfs

section Image

variable (img : Nat → UInt8)

def numInodes : Nat := le32 img 4

def byteLen (i : Nat) : Nat := le32 img (4096 + i * 4096)

def blockNo (i b : Nat) : Nat := le32 img (4096 + i * 4096 + (4 + b * 4))

/-- Where byte p of a file lies in the image. -/
def dataOff (i p : Nat) : Nat := 4096 + 4096 * numInodes img + 4096 * blockNo img i (p / 4096) + p % 4096

def fileAt (i p : Nat) : UInt8 := img (dataOff img i p)

def fileContents (i : Nat) : List UInt8 := readAt (fileAt img i) 0 (byteLen img i)

end Image

/-- The inodes and the data blocks in use lie on the device, and no data block
belongs to two places. -/
structure WellFormed (d : Disk) : Prop where
  inodes : 4096 + 4096 * numInodes d.bytes ≤ d.size
  len_le : ∀ i < numInodes d.bytes, byteLen d.bytes i ≤ 1023 * 4096
  inRange : ∀ i < numInodes d.bytes, ∀ b, b * 4096 < byteLen d.bytes i →
    4096 + 4096 * numInodes d.bytes + 4096 * blockNo d.bytes i b + 4096 ≤ d.size
  noShare : ∀ i < numInodes d.bytes, ∀ j < numInodes d.bytes, ∀ b c, b * 4096 < byteLen d.bytes i →
    c * 4096 < byteLen d.bytes j → blockNo d.bytes i b = blockNo d.bytes j c → i = j ∧ b = c

/-- The same boot block and inodes. -/
def MetaEq (img img' : Nat → UInt8) : Prop := ∀ a, a < 4096 + 4096 * numInodes img → img' a = img a

section Meta

variable {img img' : Nat → UInt8}

theorem le32_congr {a : Nat} (h : ∀ x, a ≤ x → x < a + 4 → img' x = img x) : le32 img' a = le32 img a := by
  rw [le32, le32, readAt_congr h]

theorem le32_zero {a : Nat} (h : ∀ x, a ≤ x → x < a + 4 → img x = 0) : le32 img a = 0 := by
  rw [@le32_congr (fun _ => 0) _ _ h]
  rfl

theorem le32_lt (img : Nat → UInt8) (a : Nat) : le32 img a < 2 ^ 32 := by
  have := leNat_lt (readAt img a 4)
  rw [readAt_length] at this
  exact this

theorem MetaEq.numInodes (h : MetaEq img img') : numInodes img' = numInodes img :=
  le32_congr fun x _ _ => h x (by omega)

theorem MetaEq.byteLen (h : MetaEq img img') {i : Nat} (hi : i < KfsFile.numInodes img) :
    byteLen img' i = byteLen img i :=
  le32_congr fun x _ _ => h x (by omega)

theorem MetaEq.blockNo (h : MetaEq img img') {i b : Nat} (hi : i < KfsFile.numInodes img) (hb : b < 1023) :
    blockNo img' i b = blockNo img i b :=
  le32_congr fun x _ _ => h x (by omega)

theorem MetaEq.dataOff (h : MetaEq img img') {i p : Nat} (hi : i < KfsFile.numInodes img)
    (hp : p < 1023 * 4096) : dataOff img' i p = dataOff img i p := by
  rw [KfsFile.dataOff, KfsFile.dataOff, h.numInodes, h.blockNo hi (by omega)]

theorem MetaEq.refl (img : Nat → UInt8) : MetaEq img img := fun _ _ => rfl

theorem MetaEq.trans {img'' : Nat → UInt8} (h : MetaEq img img') (h' : MetaEq img' img'') : MetaEq img img'' := by
  intro a ha
  rw [h' a (by rw [h.numInodes]; exact ha), h a ha]

theorem WellFormed.congr {d d' : Disk} (h : WellFormed d) (hm : MetaEq d.bytes d'.bytes)
    (hs : d'.size = d.size) : WellFormed d' := by
  have hb : ∀ i < numInodes d.bytes, ∀ b, b * 4096 < byteLen d.bytes i →
      blockNo d'.bytes i b = blockNo d.bytes i b := by
    intro i hi b hb
    have := h.len_le i hi
    exact hm.blockNo hi (by omega)
  constructor
  · rw [hm.numInodes, hs]
    exact h.inodes
  · intro i hi
    rw [hm.numInodes] at hi
    rw [hm.byteLen hi]
    exact h.len_le i hi
  · intro i hi b hlt
    rw [hm.numInodes] at hi
    rw [hm.byteLen hi] at hlt
    rw [hm.numInodes, hs, hb i hi b hlt]
    exact h.inRange i hi b hlt
  · intro i hi j hj b c hlt hlt' he
    rw [hm.numInodes] at hi hj
    rw [hm.byteLen hi] at hlt
    rw [hm.byteLen hj] at hlt'
    rw [hb i hi b hlt, hb j hj c hlt'] at he
    exact h.noShare i hi j hj b c hlt hlt' he

end Meta

section Data

variable {d : Disk} {i j p q : Nat}

/-- The bytes of a file within one block are contiguous. -/
theorem dataOff_add (img : Nat → UInt8) (i : Nat) (h : p % 4096 + q < 4096) :
    dataOff img i (p + q) = dataOff img i p + q := by
  have hdiv : (p + q) / 4096 = p / 4096 := by omega
  have hmod : (p + q) % 4096 = p % 4096 + q := by omega
  rw [dataOff, dataOff, hdiv, hmod]
  omega

theorem readAt_dataOff (img : Nat → UInt8) (i : Nat) {n : Nat} (h : p % 4096 + n ≤ 4096) :
    readAt img (dataOff img i p) n = readAt (fileAt img i) p n := by
  refine List.map_congr_left fun k hk => ?_
  have := List.mem_range.mp hk
  rw [fileAt, dataOff_add img i (by omega)]

theorem WellFormed.dataOff_end (h : WellFormed d) (hi : i < numInodes d.bytes) (hp : p < byteLen d.bytes i) :
    dataOff d.bytes i p + (4096 - p % 4096) ≤ d.size := by
  have := h.inRange i hi (p / 4096) (by omega)
  rw [dataOff]
  omega

theorem WellFormed.dataOff_inj (h : WellFormed d) (hi : i < numInodes d.bytes) (hj : j < numInodes d.bytes)
    (hp : p < byteLen d.bytes i) (hq : q < byteLen d.bytes j) (he : dataOff d.bytes i p = dataOff d.bytes j q) :
    i = j ∧ p = q := by
  rw [dataOff, dataOff] at he
  obtain ⟨rfl, hb⟩ := h.noShare i hi j hj (p / 4096) (q / 4096) (by omega) (by omega) (by omega)
  exact ⟨rfl, by omega⟩

end Data

theorem overlay_four {old : Nat} {bs : List UInt8} (h : old < 2 ^ 32) (hb : bs.length = 4) :
    overlay old bs = leNat bs := by
  have hdiv : old / 256 ^ 4 = 0 := Nat.div_eq_of_lt (by omega)
  rw [overlay, hb, hdiv]
  omega

theorem toInt_of_lt {n : Nat} (h : n < 2 ^ 31) : toInt n = n := by
  rw [toInt, BitVec.toInt_ofNat', Int.bmod_eq_of_le (by omega) (by omega)]

theorem toInt64_of_lt {n : Nat} (h : n < 2 ^ 63) : (BitVec.ofNat 64 n).toInt = n := by
  rw [BitVec.toInt_ofNat', Int.bmod_eq_of_le (by omega) (by omega)]

theorem blockNumOff_of_lt {i b : Nat} (hi : i < 2 ^ 32) (hb : b < 1023) :
    blockNumOff i (toInt b) = 4096 + i * 4096 + (4 + b * 4) := by
  rw [blockNumOff, toInt_of_lt (by omega)]
  omega

section Loop

variable {d0 d : Disk} {i : Nat} {chunk : Chunk Disk} {t : Transfer Disk}

/-- How much of a transfer of which n bytes are left goes to the block of position p. -/
def part (p n : Nat) : Nat := if 4096 - p % 4096 ≤ n then 4096 - p % 4096 else n

theorem part_pos {p n : Nat} (h : 0 < n) : 0 < part p n := by
  unfold part
  split <;> omega

theorem part_le {p n : Nat} : part p n ≤ n := by
  unfold part
  split <;> omega

theorem part_le_block {p n : Nat} : p % 4096 + part p n ≤ 4096 := by
  unfold part
  split <;> omega

/-- The device as a round leaves it to the transfer: the block number has been
looked up, and the seek to the data has been tried. -/
def sought (d0 : Disk) (i p : Nat) (d : Disk) : Disk :=
  (ioseek FlatDisk.ops { d with pos := 4096 + i * 4096 + (4 + p / 4096 * 4) + 4 } (dataOff d0.bytes i p)).2

/-- A round looks up the block and then asks for the part of the data inside it. -/
theorem ask_eq (hino : 4096 + 4096 * numInodes d0.bytes ≤ d0.size) (hlen : byteLen d0.bytes i ≤ 1023 * 4096)
    (hm : MetaEq d0.bytes t.io.bytes) (hs : t.io.size = d0.size) (hi : i < numInodes d0.bytes)
    (hnw : 4096 * (numInodes d0.bytes + 1) < 2 ^ 32) (hp : t.filePos < byteLen d0.bytes i) (hb : t.blockSpot < 2 ^ 32) :
    (ask FlatDisk.ops (numInodes d0.bytes) i t).io = sought d0 i t.filePos t.io ∧
      (ask FlatDisk.ops (numInodes d0.bytes) i t).spot = blockNo d0.bytes i (t.filePos / 4096) := by
  have hN : i < 2 ^ 32 := Nat.lt_trans hi (le32_lt d0.bytes 4)
  have hspot := le32_lt d0.bytes (4096 + i * 4096 + (4 + t.filePos / 4096 * 4))
  have hno : leNat (readAt t.io.bytes (4096 + i * 4096 + (4 + t.filePos / 4096 * 4)) 4) =
      blockNo d0.bytes i (t.filePos / 4096) := hm.blockNo hi (by omega)
  have hoff : ((4096 + 4096 * numInodes d0.bytes) % 2 ^ 32 + 4096 * blockNo d0.bytes i (t.filePos / 4096) +
      t.filePos % 4096) % 2 ^ 64 = dataOff d0.bytes i t.filePos := by
    rw [dataOff]
    change blockNo d0.bytes i (t.filePos / 4096) < 2 ^ 32 at hspot
    omega
  unfold ask
  rw [blockNumOff_of_lt hN (by omega), ioseek_ops (by omega)]
  simp only
  rw [ioread_ops (by simp only; omega)]
  simp only
  rw [overlay_four hb (readAt_length _ _ _), hno, hoff, sought]
  exact ⟨rfl, rfl⟩

/-- One round transfers as much of the part of the data inside its block as the
device gives. -/
theorem blockStep_eq (hino : 4096 + 4096 * numInodes d0.bytes ≤ d0.size) (hlen : byteLen d0.bytes i ≤ 1023 * 4096)
    (hm : MetaEq d0.bytes t.io.bytes) (hs : t.io.size = d0.size) (hi : i < numInodes d0.bytes)
    (hnw : 4096 * (numInodes d0.bytes + 1) < 2 ^ 32) (hn : 0 < t.n) (hp : t.filePos + t.n ≤ byteLen d0.bytes i)
    (hc : t.count ≤ t.filePos) (hb : t.blockSpot < 2 ^ 32) (hfd : t.fd.fileSize = byteLen d0.bytes i)
    {m : Nat} {buf' : Nat → UInt8} {d' : Disk} (hm' : m ≤ part t.filePos t.n)
    (hch : chunk t.count (part t.filePos t.n) t.buf (sought d0 i t.filePos t.io) = ((m : Int), buf', d')) :
    blockStep FlatDisk.ops chunk (numInodes d0.bytes) i t =
      { io := d', buf := buf', fd := { t.fd with filePos := t.filePos + m }, filePos := t.filePos + m
        n := t.n - m, count := t.count + m, blockSpot := blockNo d0.bytes i (t.filePos / 4096) } := by
  have hpl : part t.filePos t.n ≤ t.n := part_le
  obtain ⟨hio, hspot⟩ := ask_eq hino hlen hm hs hi hnw (by omega) hb
  have hleft : ((m : Int) % 2 ^ 64).toNat = m := by omega
  have hpos : (t.filePos + m) % 2 ^ 64 = t.filePos + m := Nat.mod_eq_of_lt (by omega)
  have hset : (fsIoctl t.fd .setpos (t.filePos + m)).2.2 = { t.fd with filePos := t.filePos + m } := by
    simp only [fsIoctl, fsSetpos]
    rw [if_neg (by omega)]
  have hcnt : (t.count + m) % 2 ^ 64 = t.count + m := Nat.mod_eq_of_lt (by omega)
  have hrest : (t.n + (2 ^ 64 - m)) % 2 ^ 64 = t.n - m := by omega
  have hans : answer FlatDisk.ops chunk (numInodes d0.bytes) i t = ((m : Int), buf', d') := by
    rw [answer, hio]
    exact hch
  rw [blockStep_received, hans, received]
  simp only [hleft, hpos, hset, hcnt, hrest, hspot]

theorem WellFormed.sought (hwf : WellFormed d0) (hi : i < numInodes d0.bytes) {p : Nat} (hp : p < byteLen d0.bytes i)
    (hs : d.size = d0.size) : sought d0 i p d = { d with pos := dataOff d0.bytes i p } := by
  have hend := hwf.dataOff_end hi hp
  rw [KfsFile.sought, ioseek_ops (by simp only; omega)]

/-- The loop carries whatever relation between count, buffer and disk each
transfer inside a block keeps up. -/
theorem blockLoop_run (hwf : WellFormed d0) (hi : i < numInodes d0.bytes) {pos m : Nat}
    (hnw : 0 < m → 4096 * (numInodes d0.bytes + 1) < 2 ^ 32) (hpos : pos + m ≤ byteLen d0.bytes i)
    {Q : Nat → (Nat → UInt8) → Disk → Prop}
    (hQ : ∀ count want buf d, Q count buf d → d.pos = dataOff d0.bytes i (pos + count) → d.size = d0.size →
      MetaEq d0.bytes d.bytes → 0 < want → count + want ≤ m → (pos + count) % 4096 + want ≤ 4096 →
      ∃ buf' d', chunk count want buf d = ((want : Int), buf', d') ∧ Q (count + want) buf' d' ∧
        d'.size = d0.size ∧ MetaEq d0.bytes d'.bytes)
    (hQp : ∀ count buf d p, Q count buf d → Q count buf { d with pos := p })
    (hm : MetaEq d0.bytes t.io.bytes) (hs : t.io.size = d0.size) (hc : t.count + t.n = m)
    (hp : t.filePos = pos + t.count) (hfp : t.fd.filePos = t.filePos)
    (hfd : t.fd.fileSize = byteLen d0.bytes i) (hb : t.blockSpot < 2 ^ 32) (hq : Q t.count t.buf t.io) :
    ∃ fuel t', blockLoop FlatDisk.ops chunk (numInodes d0.bytes) i fuel t = some t' ∧ t'.count = m ∧
      t'.fd = { t.fd with filePos := pos + m } ∧ Q m t'.buf t'.io ∧ t'.io.size = d0.size ∧
      MetaEq d0.bytes t'.io.bytes := by
  induction hk : t.n using Nat.strongRecOn generalizing t with
  | ind k ih =>
      by_cases h0 : t.n > 0
      · have hpart := part_pos (p := t.filePos) h0
        have hle := part_le (p := t.filePos) (n := t.n)
        obtain ⟨buf', d', hch, hq', hs', hm'⟩ := hQ t.count (part t.filePos t.n) t.buf
          { t.io with pos := dataOff d0.bytes i t.filePos } (hQp _ _ _ _ hq) (by rw [hp]) hs hm hpart
          (by omega) (by rw [← hp]; exact part_le_block)
        rw [← hwf.sought hi (by omega) hs] at hch
        have hstep := blockStep_eq hwf.inodes (hwf.len_le i hi) hm hs hi (hnw (by omega)) h0 (by omega) (by omega) hb
          hfd (Nat.le_refl _) hch
        obtain ⟨fuel, t', he, hcount, hfd', hrest⟩ := ih (t.n - part t.filePos t.n) (by omega)
          (t := blockStep FlatDisk.ops chunk (numInodes d0.bytes) i t)
          (by rw [hstep]; exact hm') (by rw [hstep]; exact hs') (by rw [hstep]; simp only; omega)
          (by rw [hstep]; simp only; omega) (by rw [hstep]) (by rw [hstep]; exact hfd)
          (by rw [hstep]; exact le32_lt _ _) (by rw [hstep]; exact hq') (by rw [hstep])
        refine ⟨fuel + 1, t', ?_, hcount, ?_, hrest⟩
        · rw [blockLoop, if_pos h0, he]
        · rw [hfd', hstep]
      · have hcm : t.count = m := by omega
        refine ⟨1, t, ?_, hcm, ?_, hcm ▸ hq, hs, hm⟩
        · rw [blockLoop, if_neg h0]
        · rw [← hcm, ← hp, ← hfp]

end Loop

section Call

variable {k : Globals Disk} {io : Fin 32} {i n self : Nat} {loc : Locals} {buf : Nat → UInt8}

/-- An entry of the table that belongs to the open file with inode i. -/
structure Opened (d : Disk) (fd : FileDesc) (i : Nat) : Prop where
  inode : fd.inode = i
  inode_lt : i < numInodes d.bytes
  fileSize : fd.fileSize = byteLen d.bytes i
  filePos_le : fd.filePos ≤ byteLen d.bytes i

/-- The variables of the loop when it is entered. -/
def entered (k : Globals Disk) (io : Fin 32) (loc : Locals) (buf : Nat → UInt8) (m : Nat) : Transfer Disk where
  io := { k.globalIO with pos := 4096 + (k.fileArray io).inode * 4096 + 4 }
  buf := buf
  fd := k.fileArray io
  filePos := (k.fileArray io).filePos
  n := m
  count := 0
  blockSpot := loc.blockSpot.toNat

/-- Up to the loop fs_read and fs_write only look up the number of inodes and the
length of the file. -/
theorem fsTransfer_eq (chunk : Chunk Disk) (fuel : Nat)
    (hino : 4096 + 4096 * numInodes k.globalIO.bytes ≤ k.globalIO.size) (hlock : k.kfsLock = lockInit)
    (ho : Opened k.globalIO (k.fileArray io) i) (hov : (k.fileArray io).filePos + n < 2 ^ 64) {m : Nat}
    (hmin : m = min n (byteLen k.globalIO.bytes i - (k.fileArray io).filePos)) :
    fsTransfer FlatDisk.ops chunk fuel loc self k io buf n =
      (blockLoop FlatDisk.ops chunk (numInodes k.globalIO.bytes) i fuel (entered k io loc buf m)).map (fun t =>
        ((BitVec.ofNat 64 t.count).toInt, t.buf,
          { k.setFile io t.fd with kfsLock := lockInit, globalIO := t.io })) := by
  obtain ⟨rfl, hi, hsz, hle⟩ := ho
  have hN := le32_lt k.globalIO.bytes 4
  have hlb := le32_lt k.globalIO.bytes (4096 + (k.fileArray io).inode * 4096)
  have hi32 : (k.fileArray io).inode < 2 ^ 32 := Nat.lt_trans hi hN
  have hclamp : (if ((k.fileArray io).filePos + n) % 2 ^ 64 > byteLen k.globalIO.bytes (k.fileArray io).inode then
      (byteLen k.globalIO.bytes (k.fileArray io).inode + (2 ^ 64 - (k.fileArray io).filePos)) % 2 ^ 64 else n) = m := by
    change byteLen k.globalIO.bytes (k.fileArray io).inode < 2 ^ 32 at hlb
    rw [hmin]
    split <;> omega
  have hseek := @ioseek_ops k.globalIO 4 (by omega)
  have hread := ioread_ops (d := { k.globalIO with pos := 4 }) (n := 4) (by simp only; omega)
  have hseek' := @ioseek_ops { k.globalIO with pos := 4 + 4 }
    (4096 + (k.fileArray io).inode * 4096) (by simp only; omega)
  have hread' := ioread_ops (d := { k.globalIO with pos := 4096 + (k.fileArray io).inode * 4096 }) (n := 4)
    (by simp only; omega)
  have hnum : overlay loc.numInodes.toNat (readAt k.globalIO.bytes 4 4) = numInodes k.globalIO.bytes :=
    overlay_four loc.numInodes.toNat_lt (readAt_length _ _ _)
  have hlenB : overlay loc.lengthB.toNat (readAt k.globalIO.bytes (4096 + (k.fileArray io).inode * 4096) 4) =
    byteLen k.globalIO.bytes (k.fileArray io).inode :=
    overlay_four loc.lengthB.toNat_lt (readAt_length _ _ _)
  have hmod : (4096 + (k.fileArray io).inode * 4096) % 2 ^ 64 = 4096 + (k.fileArray io).inode * 4096 :=
    Nat.mod_eq_of_lt (by omega)
  unfold fsTransfer
  rw [hlock, lockAcquire_lockInit]
  simp only [Option.bind_eq_bind, Option.bind_some, hseek, hread, hmod, hseek', hread', hnum, hlenB, fsIoctl,
    fsGetpos]
  rw [if_neg (by simp), hclamp, Option.map_eq_bind]
  rfl

theorem fsTransfer_run {chunk : Chunk Disk} (hwf : WellFormed k.globalIO) (hlock : k.kfsLock = lockInit)
    (ho : Opened k.globalIO (k.fileArray io) i) (hov : (k.fileArray io).filePos + n < 2 ^ 64)
    (hb : loc.blockSpot.toNat < 2 ^ 32) {pos m : Nat} (hpos : pos = (k.fileArray io).filePos)
    (hmin : m = min n (byteLen k.globalIO.bytes i - pos))
    (hnw : 0 < m → 4096 * (numInodes k.globalIO.bytes + 1) < 2 ^ 32)
    {Q : Nat → (Nat → UInt8) → Disk → Prop}
    (hQ : ∀ count want buf d, Q count buf d → d.pos = dataOff k.globalIO.bytes i (pos + count) →
      d.size = k.globalIO.size → MetaEq k.globalIO.bytes d.bytes → 0 < want → count + want ≤ m →
      (pos + count) % 4096 + want ≤ 4096 →
      ∃ buf' d', chunk count want buf d = ((want : Int), buf', d') ∧ Q (count + want) buf' d' ∧
        d'.size = k.globalIO.size ∧ MetaEq k.globalIO.bytes d'.bytes)
    (hQp : ∀ count buf d p, Q count buf d → Q count buf { d with pos := p })
    (hq : Q 0 buf k.globalIO) :
    ∃ fuel buf' d', fsTransfer FlatDisk.ops chunk fuel loc self k io buf n =
        some ((m : Int), buf', { k.setFile io { k.fileArray io with filePos := pos + m } with
          kfsLock := lockInit, globalIO := d' }) ∧
      Q m buf' d' ∧ d'.size = k.globalIO.size ∧ MetaEq k.globalIO.bytes d'.bytes := by
  have hlen := hwf.len_le i ho.inode_lt
  have hle := ho.filePos_le
  obtain ⟨fuel, t', he, hcount, hfd, hq', hs', hm'⟩ := @blockLoop_run _ _ chunk
    (entered k io loc buf m) hwf ho.inode_lt pos m hnw (by omega) _ hQ hQp (MetaEq.refl _) rfl
    (Nat.zero_add _) (by rw [hpos]; rfl) rfl ho.fileSize hb (hQp _ _ _ _ hq)
  refine ⟨fuel, t'.buf, t'.io, ?_, hq', hs', hm'⟩
  rw [fsTransfer_eq chunk fuel hwf.inodes hlock ho hov (hpos ▸ hmin), he, Option.map_some, hfd, hcount,
    toInt64_of_lt (by omega)]
  rfl

/-- The first count bytes from pos on have been read to buf. -/
def ReadSoFar (d0 : Disk) (i pos : Nat) (buf : Nat → UInt8) (count : Nat) (b : Nat → UInt8) (d : Disk) : Prop :=
  d.bytes = d0.bytes ∧ b = writeAt buf 0 (readAt (fileAt d0.bytes i) pos count)

theorem readChunk_soFar {d0 d : Disk} {b : Nat → UInt8} {pos count want : Nat} (hwf : WellFormed d0)
    (hi : i < numInodes d0.bytes) (h : ReadSoFar d0 i pos buf count b d)
    (hp : d.pos = dataOff d0.bytes i (pos + count)) (hs : d.size = d0.size) (hm : MetaEq d0.bytes d.bytes)
    (hw : 0 < want) (hle : pos + (count + want) ≤ byteLen d0.bytes i) (hblk : (pos + count) % 4096 + want ≤ 4096) :
    ∃ b' d', readChunk FlatDisk.ops count want b d = ((want : Int), b', d') ∧
      ReadSoFar d0 i pos buf (count + want) b' d' ∧ d'.size = d0.size ∧ MetaEq d0.bytes d'.bytes := by
  obtain ⟨hd, rfl⟩ := h
  have hend := hwf.dataOff_end hi (p := pos + count) (by omega)
  have happ := writeAt_append buf 0 (readAt (fileAt d0.bytes i) pos count)
    (readAt (fileAt d0.bytes i) (pos + count) want)
  rw [readAt_length, Nat.zero_add] at happ
  rw [readChunk, ioread_ops (by omega)]
  refine ⟨_, _, rfl, ⟨hd, ?_⟩, hs, hm⟩
  simp only
  rw [hd, hp, readAt_dataOff _ _ hblk, happ, readAt_add]

/-- fs_read stores the bytes of the file from its position on. -/
theorem fsRead_run (hwf : WellFormed k.globalIO) (hlock : k.kfsLock = lockInit)
    (ho : Opened k.globalIO (k.fileArray io) i) (hov : (k.fileArray io).filePos + n < 2 ^ 64)
    (hb : loc.blockSpot.toNat < 2 ^ 32) {pos m : Nat} (hpos : pos = (k.fileArray io).filePos)
    (hmin : m = min n (byteLen k.globalIO.bytes i - pos))
    (hnw : 0 < m → 4096 * (numInodes k.globalIO.bytes + 1) < 2 ^ 32) :
    ∃ fuel d', fsRead FlatDisk.ops fuel loc self k io buf n =
        some ((m : Int), writeAt buf 0 (readAt (fileAt k.globalIO.bytes i) pos m),
          { k.setFile io { k.fileArray io with filePos := pos + m } with
            kfsLock := lockInit, globalIO := d' }) ∧
      d'.bytes = k.globalIO.bytes ∧ d'.size = k.globalIO.size := by
  have hle := ho.filePos_le
  obtain ⟨fuel, buf', d', he, ⟨hd, rfl⟩, hs, -⟩ := @fsTransfer_run _ _ _ _ self _ buf
    (readChunk FlatDisk.ops) hwf hlock ho hov hb _ _ hpos hmin hnw (ReadSoFar k.globalIO i pos buf)
    (fun _ _ _ _ h hp hs hm hw hc => readChunk_soFar hwf ho.inode_lt h hp hs hm hw (by omega))
    (fun _ _ _ _ h => h) ⟨rfl, (writeAt_nil _ _).symm⟩
  exact ⟨fuel, d', he, hd, hs⟩

/-- The first count bytes of buf have been written from pos on, and nothing else. -/
structure WrittenSoFar (d0 : Disk) (i pos : Nat) (buf : Nat → UInt8) (count : Nat) (b : Nat → UInt8)
    (d : Disk) : Prop where
  buffer : b = buf
  inside : ∀ q < count, d.bytes (dataOff d0.bytes i (pos + q)) = buf q
  outside : ∀ a, (∀ q < count, a ≠ dataOff d0.bytes i (pos + q)) → d.bytes a = d0.bytes a

theorem writeChunk_soFar {d0 d : Disk} {b : Nat → UInt8} {pos count want : Nat} (hwf : WellFormed d0)
    (hi : i < numInodes d0.bytes) (h : WrittenSoFar d0 i pos buf count b d)
    (hp : d.pos = dataOff d0.bytes i (pos + count)) (hs : d.size = d0.size) (hm : MetaEq d0.bytes d.bytes)
    (hw : 0 < want) (hle : pos + (count + want) ≤ byteLen d0.bytes i) (hblk : (pos + count) % 4096 + want ≤ 4096) :
    ∃ b' d', writeChunk FlatDisk.ops count want b d = ((want : Int), b', d') ∧
      WrittenSoFar d0 i pos buf (count + want) b' d' ∧ d'.size = d0.size ∧ MetaEq d0.bytes d'.bytes := by
  obtain ⟨rfl, hin, hout⟩ := h
  have hend := hwf.dataOff_end hi (p := pos + count) (by omega)
  have hoff : ∀ q < want, dataOff d0.bytes i (pos + (count + q)) = dataOff d0.bytes i (pos + count) + q := by
    intro q hq
    rw [← Nat.add_assoc, dataOff_add _ _ (by omega)]
  rw [writeChunk, iowrite_ops (by rw [readAt_length]; omega), readAt_length]
  refine ⟨_, _, rfl, ⟨rfl, ?_, ?_⟩, hs, ?_⟩
  · intro q hq
    simp only [hp]
    by_cases hlt : q < count
    · rw [writeAt_outside, hin q hlt]
      rw [readAt_length]
      by_contra hcon
      obtain ⟨-, heq⟩ := hwf.dataOff_inj hi hi (p := pos + q)
        (q := pos + (count + (dataOff d0.bytes i (pos + q) - dataOff d0.bytes i (pos + count))))
        (by omega) (by omega) (by rw [hoff _ (by omega)]; omega)
      omega
    · obtain ⟨r, rfl⟩ := Nat.exists_eq_add_of_le (Nat.not_lt.mp hlt)
      rw [hoff r (by omega), writeAt_inside (by simp; omega), readAt_getElem]
  · intro a ha
    simp only [hp]
    rw [writeAt_outside, hout a (fun q hq => ha q (by omega))]
    rw [readAt_length]
    by_contra hcon
    refine ha (count + (a - dataOff d0.bytes i (pos + count))) (by omega) ?_
    rw [hoff _ (by omega)]
    omega
  · intro a ha
    simp only [hp]
    rw [writeAt_outside, hm a ha]
    rw [dataOff]
    omega

/-- fs_write replaces exactly the bytes of the file from its position on. -/
theorem fsWrite_run (hwf : WellFormed k.globalIO) (hlock : k.kfsLock = lockInit)
    (ho : Opened k.globalIO (k.fileArray io) i) (hov : (k.fileArray io).filePos + n < 2 ^ 64)
    (hb : loc.blockSpot.toNat < 2 ^ 32) {pos m : Nat} (hpos : pos = (k.fileArray io).filePos)
    (hmin : m = min n (byteLen k.globalIO.bytes i - pos))
    (hnw : 0 < m → 4096 * (numInodes k.globalIO.bytes + 1) < 2 ^ 32) :
    ∃ fuel d', fsWrite FlatDisk.ops fuel loc self k io buf n =
        some ((m : Int), buf, { k.setFile io { k.fileArray io with filePos := pos + m } with
          kfsLock := lockInit, globalIO := d' }) ∧
      WrittenSoFar k.globalIO i pos buf m buf d' ∧ d'.size = k.globalIO.size ∧
      MetaEq k.globalIO.bytes d'.bytes := by
  have hle := ho.filePos_le
  obtain ⟨fuel, buf', d', he, hw, hs, hm⟩ := @fsTransfer_run _ _ _ _ self _ buf
    (writeChunk FlatDisk.ops) hwf hlock ho hov hb _ _ hpos hmin hnw (WrittenSoFar k.globalIO i pos buf)
    (fun _ _ _ _ h hp hs hm hw hc => writeChunk_soFar hwf ho.inode_lt h hp hs hm hw (by omega))
    (fun _ _ _ _ h => ⟨h.buffer, h.inside, h.outside⟩) ⟨rfl, by simp, fun _ _ => rfl⟩
  obtain rfl := hw.buffer
  exact ⟨fuel, d', he, hw, hs, hm⟩

end Call

end RiscvKernel.KfsFile
