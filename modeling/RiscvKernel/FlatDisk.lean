import RiscvKernel.Io
import RiscvKernel.Lib.Bytes

namespace RiscvKernel.FlatDisk

open Io Lib.Bytes

/-- What a block device is for: an array of bytes with a position. -/
structure Disk where
  bytes : Nat → UInt8
  size : Nat
  pos : Nat

def read (d : Disk) (n : Nat) : Int × List UInt8 × Disk :=
  let m := min n (d.size - d.pos)
  (m, readAt d.bytes d.pos m, { d with pos := d.pos + m })

def write (d : Disk) (bs : List UInt8) : Int × Disk :=
  let m := min bs.length (d.size - d.pos)
  (m, { d with bytes := writeAt d.bytes d.pos (bs.take m), pos := d.pos + m })

def setpos (d : Disk) (pos : Nat) : Int × Disk :=
  if d.size < pos then (-einval, d) else (0, { d with pos })

def ctl (d : Disk) : Ioctl → Nat → Int × Nat × Disk
  | .getlen, _ => (0, d.size, d)
  | .getpos, _ => (0, d.pos, d)
  | .setpos, pos => ((setpos d pos).1, pos, (setpos d pos).2)
  | _, arg => (-enotsup, arg, d)

def ops : IoOps Disk := ⟨some read, some write, some ctl⟩

variable {d : Disk}

theorem ioseek_ops {pos : Nat} (h : pos ≤ d.size) : ioseek ops d pos = (0, { d with pos }) := by
  simp [ioseek, ioctl, ops, ctl, setpos, Nat.not_lt.mpr h]

theorem ioread_ops {n : Nat} (h : d.pos + n ≤ d.size) :
    ioread ops d n = ((n : Int), readAt d.bytes d.pos n, { d with pos := d.pos + n }) := by
  have hm : min n (d.size - d.pos) = n := by omega
  simp only [ioread, ops, read, hm]

theorem iowrite_ops {bs : List UInt8} (h : d.pos + bs.length ≤ d.size) :
    iowrite ops d bs = ((bs.length : Int), { d with bytes := writeAt d.bytes d.pos bs, pos := d.pos + bs.length }) := by
  have hm : min bs.length (d.size - d.pos) = bs.length := by omega
  simp only [iowrite, ops]
  rw [iowriteLoop]
  by_cases h0 : 0 < bs.length
  · have hw : write d (bs.drop 0) =
        ((bs.length : Int), { d with bytes := writeAt d.bytes d.pos bs, pos := d.pos + bs.length }) := by
      simp only [write, List.drop_zero, hm, List.take_length]
    rw [if_pos h0, hw]
    simp only
    rw [if_neg (by omega), if_neg (by omega), iowriteLoop, if_neg (by simp)]
    simp
  · have hnil : bs = [] := List.eq_nil_of_length_eq_zero (by omega)
    simp [hnil]

end RiscvKernel.FlatDisk
