import RiscvKernel.KfsFile

namespace RiscvKernel.KfsRounds

open Io Lib.Bytes SleepLock FlatDisk Kfs KfsFile

variable {σ : Type}

/-- The variables at the start of each of the first rounds. -/
def rounds (dev : IoOps σ) (chunk : Chunk σ) (numInodes inodeNum : Nat) : Nat → Transfer σ → List (Transfer σ)
  | 0, _ => []
  | fuel + 1, t =>
      if t.n > 0 then t :: rounds dev chunk numInodes inodeNum fuel (blockStep dev chunk numInodes inodeNum t)
      else []

/-- What fs_read and fs_write have when they reach the loop: the result of the
seek they check, those of the calls before the loop that they do not (the first
seek and the two reads), the number of inodes and the variables. -/
structure Entry (σ : Type) where
  seek : Int
  unchecked : Int × Int × Int
  numInodes : Nat
  start : Transfer σ
  failed : σ

def fsEnter (dev : IoOps σ) (loc : Locals) (k : Globals σ) (io : Fin 32) (buf : Nat → UInt8) (n : Nat) :
    Entry σ :=
  let fd := k.fileArray io
  let s := ioseek dev k.globalIO 4
  let r := ioread dev s.2 4
  let numInodes := overlay loc.numInodes.toNat r.2.1
  let s' := ioseek dev r.2.2 ((4096 + fd.inode * 4096) % 2 ^ 64)
  let r' := ioread dev s'.2 4
  let lengthB := overlay loc.lengthB.toNat r'.2.1
  let filePos := (fsIoctl fd .getpos 0).2.1
  let n := if (filePos + n) % 2 ^ 64 > lengthB then (lengthB + (2 ^ 64 - filePos)) % 2 ^ 64 else n
  ⟨s'.1, (s.1, r.1, r'.1), numInodes, ⟨r'.2.2, buf, fd, filePos, n, 0, loc.blockSpot.toNat⟩, s'.2⟩

theorem fsTransfer_enter (dev : IoOps σ) (chunk : Chunk σ) (fuel : Nat) (loc : Locals) (self : Nat)
    (k : Globals σ) (io : Fin 32) (buf : Nat → UInt8) (n : Nat) :
    fsTransfer dev chunk fuel loc self k io buf n = (lockAcquire k.kfsLock self).bind fun kfsLock =>
      if (fsEnter dev loc k io buf n).seek ≠ 0 then
        some (-ebadfmt, buf, { k with kfsLock, globalIO := (fsEnter dev loc k io buf n).failed })
      else
        (blockLoop dev chunk (fsEnter dev loc k io buf n).numInodes (k.fileArray io).inode fuel
          (fsEnter dev loc k io buf n).start).map fun t =>
            ((BitVec.ofNat 64 t.count).toInt, t.buf,
              { k.setFile io t.fd with kfsLock := lockRelease kfsLock, globalIO := t.io }) := by
  unfold fsTransfer fsEnter
  simp only [Option.bind_eq_bind, Option.map_eq_bind]
  rfl

section Disk

variable {d0 d : Disk} {i p want : Nat} {t : Transfer Disk}

/-- A seek on a disk changes nothing but its position. -/
theorem ioseek_disk (d : Disk) (pos : Nat) : ∃ q, (ioseek FlatDisk.ops d pos).2 = { d with pos := q } := by
  simp only [ioseek, ioctl, FlatDisk.ops, ctl, setpos]
  split_ifs
  · exact ⟨d.pos, rfl⟩
  · exact ⟨pos, rfl⟩

theorem ioread_disk (d : Disk) (n : Nat) : ∃ q, (ioread FlatDisk.ops d n).2.2 = { d with pos := q } :=
  ⟨_, rfl⟩

theorem ask_disk (N i : Nat) (t : Transfer Disk) :
    ∃ q, (ask FlatDisk.ops N i t).io = { t.io with pos := q } := by
  obtain ⟨q1, h1⟩ := ioseek_disk t.io (blockNumOff i (toInt (t.filePos / 4096)))
  obtain ⟨q2, h2⟩ := ioread_disk (ioseek FlatDisk.ops t.io (blockNumOff i (toInt (t.filePos / 4096)))).2 4
  simp only [ask]
  obtain ⟨q3, h3⟩ := ioseek_disk (ioread FlatDisk.ops (ioseek FlatDisk.ops t.io
    (blockNumOff i (toInt (t.filePos / 4096)))).2 4).2.2
    (((4096 + 4096 * N) % 2 ^ 32 + 4096 * overlay t.blockSpot (ioread FlatDisk.ops (ioseek FlatDisk.ops t.io
      (blockNumOff i (toInt (t.filePos / 4096)))).2 4).2.1 + t.filePos % 4096) % 2 ^ 64)
  exact ⟨q3, by rw [h3, h2, h1]⟩

/-- The chunk transfers all it is asked for where a block in use holds it, and
leaves the boot block and the inodes alone. -/
def FullChunk (d0 : Disk) (i : Nat) (chunk : Chunk Disk) : Prop :=
  ∀ count want buf d p, d.pos = dataOff d0.bytes i p → d.size = d0.size → MetaEq d0.bytes d.bytes →
    p < byteLen d0.bytes i → p % 4096 + want ≤ 4096 →
    ∃ buf' d', chunk count want buf d = ((want : Int), buf', d') ∧ d'.size = d0.size ∧ MetaEq d0.bytes d'.bytes

theorem fullChunk_read (hwf : WellFormed d0) (hi : i < numInodes d0.bytes) :
    FullChunk d0 i (readChunk FlatDisk.ops) := by
  intro count want buf d p hpos hs hm hp hw
  have hend := hwf.dataOff_end hi hp
  rw [readChunk, ioread_ops (by omega)]
  exact ⟨_, _, rfl, hs, hm⟩

theorem fullChunk_write (hwf : WellFormed d0) (hi : i < numInodes d0.bytes) :
    FullChunk d0 i (writeChunk FlatDisk.ops) := by
  intro count want buf d p hpos hs hm hp hw
  have hend := hwf.dataOff_end hi hp
  rw [writeChunk, iowrite_ops (by rw [readAt_length]; omega), readAt_length]
  refine ⟨_, _, rfl, hs, fun a ha => ?_⟩
  simp only
  rw [writeAt_outside, hm a ha]
  rw [hpos, dataOff]
  omega

end Disk

end RiscvKernel.KfsRounds
