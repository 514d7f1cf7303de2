import RiscvKernel.KfsRun

namespace RiscvKernel.UserIoctl

open Io Lib.Bytes FlatDisk Kfs KfsFile KfsRun

def userStartVma : Nat := 0xC0000000

/-- The uint64_t at a. -/
def cell (mem : Nat → UInt8) (a : Nat) : Nat := leNat (readAt mem a 8)

/-- sysioctl on the file io of the table: its result, the user's memory and the new state. The
function of the file works on variables of the kernel, on the position that ioseek was given or
on the argument of the call itself. -/
def sysioctl (k : Globals Disk) (mem : Nat → UInt8) (io : Fin 32) (cmd : Ioctl) (arg : Nat) :
    Int × (Nat → UInt8) × Globals Disk :=
  if cmd = .setlen then
    let r := fsIoctl (k.fileArray io) .setpos (cell mem arg)
    (r.1, mem, k.setFile io r.2.2)
  else
    let r := fsIoctl (k.fileArray io) cmd arg
    (r.1, mem, k.setFile io r.2.2)

/-- sysread on the file io of the table: its result, the user's memory and the new state. -/
def sysread (fuel : Nat) (loc : Locals) (tp : Nat) (k : Globals Disk) (mem : Nat → UInt8) (io : Fin 32) (buf n : Nat) :
    Option (Int × (Nat → UInt8) × Globals Disk) := do
  let r ← fsRead FlatDisk.ops fuel loc tp k io (fun x => mem (buf + x)) n
  let val := (BitVec.ofInt 32 r.1).toInt
  return (if val < 0 then -eio else val, fun y => if buf ≤ y then r.2.1 (y - buf) else mem y, r.2.2)

/-- The bytes of an open file. -/
def contents (k : Globals Disk) (io : Fin 32) : List UInt8 := fileContents k.globalIO.bytes (k.fileArray io).inode

/-- What the user sees of an open file after a seek to p with result. -/
structure Seeked (k : Globals Disk) (mem : Nat → UInt8) (io : Fin 32) (b p len : Nat) : Prop where
  getpos : cell (sysioctl k mem io .getpos b).2.1 b = p
  getlen : cell (sysioctl k mem io .getlen b).2.1 b = len
  read : ∀ loc tp buf n, ∃ fuel mem' k', sysread fuel loc tp k mem io buf n = some (((min n (len - p) : Nat) : Int), mem', k') ∧
    readAt mem' buf (min n (len - p)) = ((contents k io).drop p).take (min n (len - p))

/-- IOCTL_SETPOS with the position in the user's cell a, and what follows with the cell b. -/
structure ActsOnArg (k : Globals Disk) (mem : Nat → UInt8) (io : Fin 32) (a b : Nat) : Prop where
  inside : cell mem a ≤ (k.fileArray io).fileSize → (sysioctl k mem io .setpos a).1 = 0 ∧
    Seeked (sysioctl k mem io .setpos a).2.2 (sysioctl k mem io .setpos a).2.1 io b (cell mem a) (k.fileArray io).fileSize
  beyond : (k.fileArray io).fileSize < cell mem a → (sysioctl k mem io .setpos a).1 < 0 ∧
    ((sysioctl k mem io .setpos a).2.2.fileArray io).filePos = (k.fileArray io).filePos

variable {k : Globals Disk} {mem : Nat → UInt8} {io : Fin 32} {a b : Nat}

theorem fileSize_lt_user (hv : Valid k) (ho : IsOpen k io) : (k.fileArray io).fileSize < userStartVma := by
  obtain ⟨-, hlt, hsize, -⟩ := hv.opened io ho
  have hle := hv.image.len_le _ hlt
  rw [hsize]
  unfold userStartVma
  omega

/-- The position is the address of the cell, which is beyond every file. -/
theorem sysioctl_setpos (hv : Valid k) (ho : IsOpen k io) (ha : userStartVma ≤ a) :
    sysioctl k mem io .setpos a = (-eio, mem, k) := by
  have hlt : a > (k.fileArray io).fileSize := Nat.lt_of_lt_of_le (fileSize_lt_user hv ho) ha
  have hset : fsSetpos (k.fileArray io) a = (-eio, a, k.fileArray io) := if_pos hlt
  have hsame : k.setFile io (k.fileArray io) = k := by rw [Globals.setFile, Function.update_eq_self]
  rw [sysioctl, if_neg (by decide)]
  simp only [fsIoctl, hset, hsame]

/-- IOCTL_SETPOS does with a user's position what it should if and only if the position is
beyond the end of the file. -/
theorem actsOnArg_iff (hv : Valid k) (ho : IsOpen k io) (ha : userStartVma ≤ a) (b : Nat) :
    ActsOnArg k mem io a b ↔ (k.fileArray io).fileSize < cell mem a := by
  have hset : sysioctl k mem io .setpos a = (-eio, mem, k) := sysioctl_setpos hv ho ha
  constructor
  · intro h
    by_contra hle
    have hr := (h.inside (Nat.le_of_not_lt hle)).1
    rw [hset] at hr
    exact absurd hr (by decide : -eio ≠ 0)
  · intro hlt
    refine ⟨fun hle => absurd hlt (Nat.not_lt_of_le hle), fun _ => ?_⟩
    rw [hset]
    exact ⟨(by decide : -eio < 0), rfl⟩

/-- The user's memory of a program that seeks to 5. -/
def memWithFive (x : Nat) : UInt8 := if x = userStartVma then 5 else 0

theorem actsOnArg_five : cell memWithFive userStartVma = 5 ∧
    ActsOnArg (oneFileState 1) memWithFive 0 userStartVma (userStartVma + 8) := by
  have hcell : cell memWithFive userStartVma = 5 := by decide +kernel
  refine ⟨hcell, (actsOnArg_iff (oneFileState_valid (by decide) (by decide)) ?_ (Nat.le_refl _) _).mpr ?_⟩
  · simp [KfsRun.IsOpen, oneFileState]
  · rw [hcell]
    decide

/-- A seek to the start of an open file of one byte. -/
theorem not_actsOnArg_zero : Valid (oneFileState 1) ∧ IsOpen (oneFileState 1) 0 ∧
    ¬ ActsOnArg (oneFileState 1) (fun _ => 0) 0 userStartVma (userStartVma + 8) := by
  refine ⟨oneFileState_valid (by decide) (by decide), by simp [KfsRun.IsOpen, oneFileState], fun h => ?_⟩
  have hcell : cell (fun _ => 0) userStartVma = 0 := by decide +kernel
  have hr := (h.inside (by rw [hcell]; exact Nat.zero_le _)).1
  revert hr
  decide +kernel

end RiscvKernel.UserIoctl
