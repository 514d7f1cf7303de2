import RiscvKernel.FlatDisk
import RiscvKernel.SleepLock

namespace RiscvKernel.Kfs

open Io Lib.Bytes SleepLock

variable {σ : Type}

scoped instance neZeroSlot : NeZero 32 := ⟨by decide⟩

/-! Layout of an image: boot block, inodes and data blocks of 4096 bytes each. -/

def le32 (mem : Nat → UInt8) (a : Nat) : Nat := leNat (readAt mem a 4)

/-- Offset of dir_entries[x] in the boot block. -/
def dentryOff (x : Nat) : Nat := 64 + 64 * x

def dentryInode (boot : Nat → UInt8) (x : Nat) : Nat := le32 boot (dentryOff x + 32)

/-- struct file_desc_t; ops says whether io_intf.ops points to the operations of
the file system. -/
structure FileDesc where
  ops : Bool
  refcnt : Nat
  filePos : Nat
  fileSize : Nat
  inode : Nat
  flags : Nat
  deriving DecidableEq, Repr

def FileDesc.zero : FileDesc := ⟨false, 0, 0, 0, 0, 0⟩

/-- The globals of kfs.c. boot is the memory from the boot block on, as the
search in fs_open runs past its end. -/
structure Globals (σ : Type) where
  boot : Nat → UInt8
  fileArray : Fin 32 → FileDesc
  intSpot : Fin 32
  globalIO : σ
  kfsLock : Lock

/-- The object that the calls go to. -/
abbrev Globals.device (k : Globals σ) : σ := k.globalIO

def Globals.setFile (k : Globals σ) (i : Fin 32) (fd : FileDesc) : Globals σ :=
  { k with fileArray := Function.update k.fileArray i fd }

/-- Store bs over the low bytes of a variable. -/
def overlay (old : Nat) (bs : List UInt8) : Nat := leNat bs + old / 256 ^ bs.length * 256 ^ bs.length

def fsMount (dev : IoOps σ) (boot : Nat → UInt8) (intSpot : Fin 32) (blkio : σ) : Int × Globals σ :=
  let r := ioread dev blkio 4096
  (if r.1 = 4096 then 0 else -eio,
    { boot := writeAt boot 0 r.2.1, fileArray := fun _ => FileDesc.zero, intSpot
      globalIO := r.2.2, kfsLock := lockInit })

/-- strcmp of a string with the characters from p on; char is unsigned here. -/
def strcmp : List UInt8 → (Nat → UInt8) → Nat → Int
  | [], s2, p => if s2 p = 0 then 0 else -1
  | c :: cs, s2, p =>
      if c = s2 p ∧ c ≠ 0 then strcmp cs s2 (p + 1)
      else if c < s2 p then -1
      else if s2 p < c then 1
      else 0

def findDentry (boot : Nat → UInt8) (name : List UInt8) : Option Nat :=
  (List.range 64).find? (fun x => strcmp name boot (dentryOff x) = 0)

def findSlot (fileArray : Fin 32 → FileDesc) : Option (Fin 32) :=
  (List.finRange 32).find? (fun y => (fileArray y).flags = 0)

/-- What fs_open finds in memory it has not initialised: spot, none when it is
no index of the table, and the pointer whose low half takes the file length. -/
structure OpenLocals where
  spot : Option (Fin 32)
  readSize : UInt64

/-- fs_open: its result, the entry behind *ioptr and the new state; none when an
entry outside the table is written or a missing read is called. -/
def fsOpen (dev : IoOps σ) (loc : OpenLocals) (k : Globals σ) (name : List UInt8) :
    Option (Int × Option (Fin 32) × Globals σ) := do
  let some x := findDentry k.boot name | return (-einval, none, k)
  let tempIndex := BitVec.ofNat 32 (dentryInode k.boot x)
  let spot := (findSlot k.fileArray).or loc.spot
  let s := ioseek dev k.globalIO ((4096 + tempIndex * 4096).signExtend 64).toNat
  if s.1 ≠ 0 then return (-ebusy, none, { k with globalIO := s.2 })
  let read ← dev.read
  let r := read s.2 4
  let k := { k with globalIO := r.2.2 }
  if r.1 ≠ 4 then return (-ebadfmt, none, k)
  let spot ← spot
  let fd : FileDesc := {
    ops := true, refcnt := ((k.fileArray spot).refcnt + 1) % 2 ^ 32, filePos := 0
    fileSize := overlay loc.readSize.toNat r.2.1, inode := (tempIndex.signExtend 64).toNat, flags := 1 }
  return (0, some spot, { k.setFile spot fd with intSpot := spot })

/-- fs_close: frees the entry of the file opened last. -/
def fsClose (k : Globals σ) (io : Fin 32) : Globals σ :=
  let k := k.setFile io { k.fileArray io with ops := false }
  k.setFile k.intSpot { k.fileArray k.intSpot with flags := 0 }

def ioclose (k : Globals σ) (io : Fin 32) : Globals σ :=
  let k := k.setFile io { k.fileArray io with refcnt := ((k.fileArray io).refcnt + (2 ^ 32 - 1)) % 2 ^ 32 }
  if (k.fileArray io).refcnt = 0 then fsClose k io else k

/-- Conversion of an unsigned value to int. -/
def toInt (n : Nat) : Int := (BitVec.ofNat 32 n).toInt

def fsGetlen (fd : FileDesc) : Int × Nat × FileDesc := (toInt fd.fileSize, fd.fileSize, fd)

def fsGetpos (fd : FileDesc) : Int × Nat × FileDesc := (toInt fd.filePos, fd.filePos, fd)

def fsSetpos (fd : FileDesc) (newPos : Nat) : Int × Nat × FileDesc :=
  if newPos > fd.fileSize then (-eio, newPos, fd) else (0, newPos, { fd with filePos := newPos })

def fsGetblksz (fd : FileDesc) : Int × Nat × FileDesc := (4096, 4096, fd)

def fsIoctl (fd : FileDesc) : Ioctl → Nat → Int × Nat × FileDesc
  | .getlen, _ => fsGetlen fd
  | .getpos, _ => fsGetpos fd
  | .setpos, arg => fsSetpos fd arg
  | .getblksz, _ => fsGetblksz fd
  | _, arg => (0, arg, fd)

/-- The uninitialised locals of fs_read and fs_write. -/
structure Locals where
  numInodes : UInt32
  lengthB : UInt32
  blockSpot : UInt64

/-- The variables of the loops of fs_read and fs_write. -/
structure Transfer (σ : Type) where
  io : σ
  buf : Nat → UInt8
  fd : FileDesc
  filePos : Nat
  n : Nat
  count : Nat
  blockSpot : Nat

/-- The transfer of want bytes between the device and the buffer from count on. -/
abbrev Chunk (σ : Type) := (count want : Nat) → (Nat → UInt8) → σ → Int × (Nat → UInt8) × σ

def readChunk (dev : IoOps σ) : Chunk σ := fun count want buf io =>
  let r := ioread dev io want
  (r.1, writeAt buf count r.2.1, r.2.2)

def writeChunk (dev : IoOps σ) : Chunk σ := fun count want buf io =>
  let r := iowrite dev io (readAt buf count want)
  (r.1, buf, r.2)

/-- Offset of data_block_num[blockNum] of an inode, where blockNum is an int. -/
def blockNumOff (inodeNum : Nat) (blockNum : Int) : Nat :=
  ((4096 + inodeNum * 4096 + (4 + blockNum * 4)) % 2 ^ 64).toNat

/-- One round of the loop of fs_read or fs_write. numInodes is a 32-bit value, so
the offset of the data blocks is computed in 32 bits. -/
def blockStep (dev : IoOps σ) (chunk : Chunk σ) (numInodes inodeNum : Nat) (t : Transfer σ) : Transfer σ :=
  let s := ioseek dev t.io (blockNumOff inodeNum (toInt (t.filePos / 4096)))
  let r := ioread dev s.2 4
  let blockSpot := overlay t.blockSpot r.2.1
  let s := ioseek dev r.2.2
    (((4096 + 4096 * numInodes) % 2 ^ 32 + 4096 * blockSpot + t.filePos % 4096) % 2 ^ 64)
  let leftInBlock := 4096 - t.filePos % 4096
  let c := chunk t.count (if leftInBlock ≤ t.n then leftInBlock else t.n) t.buf s.2
  let leftAfter := (c.1 % 2 ^ 64).toNat
  let filePos := (t.filePos + leftAfter) % 2 ^ 64
  { io := c.2.2, buf := c.2.1, fd := (fsIoctl t.fd .setpos filePos).2.2, filePos,
    n := (t.n + (2 ^ 64 - leftAfter)) % 2 ^ 64, count := (t.count + leftAfter) % 2 ^ 64, blockSpot }

/-- What a round asks of the device: the device at the transfer of data, the
length of it, and the block number held then; seeks are the results of the two
seeks and lookup that of the read between them. -/
structure Ask (σ : Type) where
  io : σ
  want : Nat
  spot : Nat
  seeks : Int × Int
  lookup : Int

def ask (dev : IoOps σ) (numInodes inodeNum : Nat) (t : Transfer σ) : Ask σ :=
  let s := ioseek dev t.io (blockNumOff inodeNum (toInt (t.filePos / 4096)))
  let r := ioread dev s.2 4
  let blockSpot := overlay t.blockSpot r.2.1
  let s' := ioseek dev r.2.2
    (((4096 + 4096 * numInodes) % 2 ^ 32 + 4096 * blockSpot + t.filePos % 4096) % 2 ^ 64)
  let leftInBlock := 4096 - t.filePos % 4096
  ⟨s'.2, if leftInBlock ≤ t.n then leftInBlock else t.n, blockSpot, (s.1, s'.1), r.1⟩

/-- The variables after the transfer of data returned v. -/
def received (t : Transfer σ) (a : Ask σ) (v : Int × (Nat → UInt8) × σ) : Transfer σ :=
  let leftAfter := (v.1 % 2 ^ 64).toNat
  let filePos := (t.filePos + leftAfter) % 2 ^ 64
  { io := v.2.2, buf := v.2.1, fd := (fsIoctl t.fd .setpos filePos).2.2, filePos,
    n := (t.n + (2 ^ 64 - leftAfter)) % 2 ^ 64, count := (t.count + leftAfter) % 2 ^ 64, blockSpot := a.spot }

/-- What the transfer of data returns in a round. -/
def answer (dev : IoOps σ) (chunk : Chunk σ) (numInodes inodeNum : Nat) (t : Transfer σ) :
    Int × (Nat → UInt8) × σ :=
  chunk t.count (ask dev numInodes inodeNum t).want t.buf (ask dev numInodes inodeNum t).io

theorem blockStep_received (dev : IoOps σ) (chunk : Chunk σ) (numInodes inodeNum : Nat) (t : Transfer σ) :
    blockStep dev chunk numInodes inodeNum t =
      received t (ask dev numInodes inodeNum t) (answer dev chunk numInodes inodeNum t) := rfl

/-- The loop itself: none when the rounds do not end within fuel. -/
def blockLoop (dev : IoOps σ) (chunk : Chunk σ) (numInodes inodeNum : Nat) :
    Nat → Transfer σ → Option (Transfer σ)
  | 0, _ => none
  | fuel + 1, t =>
      if t.n > 0 then blockLoop dev chunk numInodes inodeNum fuel (blockStep dev chunk numInodes inodeNum t)
      else some t

/-- The common body of fs_read and fs_write: the value returned, the caller's
buffer and the new state, none when the caller sleeps for the lock or the loop
does not end. -/
def fsTransfer (dev : IoOps σ) (chunk : Chunk σ) (fuel : Nat) (loc : Locals) (self : Nat) (k : Globals σ)
    (io : Fin 32) (buf : Nat → UInt8) (n : Nat) : Option (Int × (Nat → UInt8) × Globals σ) := do
  let kfsLock ← lockAcquire k.kfsLock self
  let fd := k.fileArray io
  let s := ioseek dev k.globalIO 4
  let r := ioread dev s.2 4
  let numInodes := overlay loc.numInodes.toNat r.2.1
  let s := ioseek dev r.2.2 ((4096 + fd.inode * 4096) % 2 ^ 64)
  if s.1 ≠ 0 then return (-ebadfmt, buf, { k with kfsLock, globalIO := s.2 })
  let r := ioread dev s.2 4
  let lengthB := overlay loc.lengthB.toNat r.2.1
  let filePos := (fsIoctl fd .getpos 0).2.1
  let n := if (filePos + n) % 2 ^ 64 > lengthB then (lengthB + (2 ^ 64 - filePos)) % 2 ^ 64 else n
  let t ← blockLoop dev chunk numInodes fd.inode fuel ⟨r.2.2, buf, fd, filePos, n, 0, loc.blockSpot.toNat⟩
  return ((BitVec.ofNat 64 t.count).toInt, t.buf, { k.setFile io t.fd with kfsLock := lockRelease kfsLock, globalIO := t.io })

def fsRead (dev : IoOps σ) : Nat → Locals → Nat → Globals σ → Fin 32 → (Nat → UInt8) → Nat →
    Option (Int × (Nat → UInt8) × Globals σ) :=
  fsTransfer dev (readChunk dev)

def fsWrite (dev : IoOps σ) : Nat → Locals → Nat → Globals σ → Fin 32 → (Nat → UInt8) → Nat →
    Option (Int × (Nat → UInt8) × Globals σ) :=
  fsTransfer dev (writeChunk dev)

theorem blockLoop_mono {dev : IoOps σ} {chunk : Chunk σ} {numInodes inodeNum fuel fuel' : Nat}
    {t t' : Transfer σ} (h : blockLoop dev chunk numInodes inodeNum fuel t = some t') (hf : fuel ≤ fuel') :
    blockLoop dev chunk numInodes inodeNum fuel' t = some t' := by
  induction fuel generalizing t fuel' with
  | zero => simp [blockLoop] at h
  | succ fuel ih =>
      obtain ⟨e, rfl⟩ := Nat.exists_eq_add_of_le hf
      rw [Nat.add_right_comm, blockLoop]
      rw [blockLoop] at h
      split at h
      · rw [if_pos ‹_›]
        exact ih h (Nat.le_add_right _ _)
      · rwa [if_neg ‹_›]

/-- A transfer that ends does not depend on the fuel. -/
theorem fsTransfer_mono {dev : IoOps σ} {chunk : Chunk σ} {fuel fuel' : Nat} {loc : Locals} {self : Nat}
    {k : Globals σ} {io : Fin 32} {buf : Nat → UInt8} {n : Nat} {r : Int × (Nat → UInt8) × Globals σ}
    (h : fsTransfer dev chunk fuel loc self k io buf n = some r) (hf : fuel ≤ fuel') :
    fsTransfer dev chunk fuel' loc self k io buf n = some r := by
  unfold fsTransfer at h ⊢
  simp only [Option.bind_eq_bind, Option.bind_eq_some_iff] at h ⊢
  obtain ⟨lk, hlk, h⟩ := h
  refine ⟨lk, hlk, ?_⟩
  split at h
  · rw [if_pos ‹_›]
    exact h
  · rw [if_neg ‹_›]
    simp only [Option.bind_eq_some_iff] at h ⊢
    obtain ⟨t, ht, h⟩ := h
    exact ⟨t, blockLoop_mono ht hf, h⟩

end RiscvKernel.Kfs
