import RiscvKernel.TransferBounds

namespace RiscvKernel.Uninitialised

open Io Lib.Bytes SleepLock FlatDisk Kfs KfsFile KfsRounds TransferBounds

/-- Where a round seeks for its data and how much it asks for. -/
def directed (N i : Nat) (t : Transfer Disk) : Nat × Nat :=
  (((4096 + 4096 * N) % 2 ^ 32 + 4096 * (ask FlatDisk.ops N i t).spot + t.filePos % 4096) % 2 ^ 64,
    (ask FlatDisk.ops N i t).want)

/-- What can be seen of a call: the value returned, the position and the size of
the file afterwards, and what is asked for in the rounds up to fuel. -/
def observed (chunk : Chunk Disk) (self : Nat) (k : Globals Disk) (io : Fin 32) (buf : Nat → UInt8) (n fuel : Nat)
    (loc : Locals) : Option (Int × Nat × Nat) × List (Nat × Nat) :=
  ((fsTransfer FlatDisk.ops chunk fuel loc self k io buf n).map fun r =>
      (r.1, (r.2.2.fileArray io).filePos, (r.2.2.fileArray io).fileSize),
    (rounds FlatDisk.ops chunk (fsEnter FlatDisk.ops loc k io buf n).numInodes (k.fileArray io).inode fuel
      (fsEnter FlatDisk.ops loc k io buf n).start).map
        (directed (fsEnter FlatDisk.ops loc k io buf n).numInodes (k.fileArray io).inode))

/-- Whatever two runs find in the uninitialised locals, they look the same. -/
def Independent (chunk : Chunk Disk) (self : Nat) (k : Globals Disk) (io : Fin 32) (buf : Nat → UInt8) (n : Nat) :
    Prop :=
  ∀ fuel loc loc', observed chunk self k io buf n fuel loc = observed chunk self k io buf n fuel loc'

/-- A read of at most four bytes leaves the upper half of blockSpot. -/
theorem overlay_upper {bs : List UInt8} (h : bs.length ≤ 4) : overlay (2 ^ 32) bs = overlay 0 bs + 2 ^ 32 := by
  have hdvd : 256 ^ bs.length ∣ 2 ^ 32 := by
    rw [show (2 ^ 32 : Nat) = 256 ^ 4 by decide]
    exact Nat.pow_dvd_pow 256 h
  rw [overlay, overlay, Nat.div_mul_cancel hdvd, Nat.zero_div, Nat.zero_mul, Nat.add_zero]

theorem ioread_length_le (d : Disk) (n : Nat) : (ioread FlatDisk.ops d n).2.1.length ≤ n := by
  simp only [ioread, FlatDisk.ops, FlatDisk.read, readAt_length]
  omega

section Call

variable {k : Globals Disk} {io : Fin 32} {i n self : Nat} {buf : Nat → UInt8} {chunk : Chunk Disk}

theorem directed_ne (N i : Nat) (t : Transfer Disk) :
    directed N i { t with blockSpot := 0 } ≠ directed N i { t with blockSpot := 2 ^ 32 } := by
  intro h
  have hx := congrArg Prod.fst h
  simp only [directed, ask] at hx
  rw [overlay_upper (ioread_length_le _ 4)] at hx
  omega

theorem independent_iff (hwf : WellFormed k.globalIO) (ho : Opened k.globalIO (k.fileArray io) i)
    (hl : (lockAcquire k.kfsLock self).isSome) (hn : n < 2 ^ 64) :
    Independent chunk self k io buf n ↔
      n = 0 ∨ (k.fileArray io).filePos = byteLen k.globalIO.bytes i ∧ (k.fileArray io).filePos + n < 2 ^ 64 := by
  have henter (loc : Locals) := @fsEnter_disk k io i n loc buf hwf.inodes ho hn _ rfl
  have hle := ho.filePos_le
  generalize hm : (if (k.fileArray io).filePos + n < 2 ^ 64 then
    min n (byteLen k.globalIO.bytes i - (k.fileArray io).filePos) else n) = m at henter
  have hzero : m = 0 ↔ n = 0 ∨
      (k.fileArray io).filePos = byteLen k.globalIO.bytes i ∧ (k.fileArray io).filePos + n < 2 ^ 64 := by
    rw [← hm]
    split_ifs <;> omega
  rw [← hzero]
  constructor
  · intro h
    by_contra hne
    have h1 := congrArg Prod.snd (h 1 ⟨0, 0, 0⟩ ⟨0, 0, 2 ^ 32⟩)
    have hr (loc : Locals) : rounds FlatDisk.ops chunk (numInodes k.globalIO.bytes) (k.fileArray io).inode 1
        (entered k io loc buf m) = [entered k io loc buf m] := by
      rw [rounds, if_pos (show (entered k io loc buf m).n > 0 from Nat.pos_of_ne_zero hne)]
      rfl
    simp only [observed, (henter _).2.1, (henter _).2.2, hr, List.map_cons, List.map_nil, List.cons.injEq,
      and_true] at h1
    exact directed_ne _ _ (entered k io ⟨0, 0, 0⟩ buf m) h1
  · intro hm0 fuel loc loc'
    obtain ⟨lk, hlk⟩ := Option.isSome_iff_exists.mp hl
    subst hm0
    have hrounds (loc : Locals) : rounds FlatDisk.ops chunk (numInodes k.globalIO.bytes) (k.fileArray io).inode fuel
        (entered k io loc buf 0) = [] := by
      cases fuel <;> rfl
    simp only [observed, fsTransfer_enter, hlk, Option.bind_some, (henter _).1, (henter _).2.1, (henter _).2.2,
      hrounds, ne_eq, not_true_eq_false, if_false, Option.map_map]
    cases fuel with
    | zero => simp only [blockLoop, Option.map_none]
    | succ fuel => simp only [blockLoop, entered, gt_iff_lt, Nat.lt_irrefl, if_false, Option.map_some,
        Function.comp_apply]

end Call

section Open

variable {k : Globals Disk} {name : List UInt8}

/-- Where fs_open seeks for an inode: the offset is computed in an int. -/
def inodeSeek (boot : Nat → UInt8) (x : Nat) : Nat :=
  ((4096 + BitVec.ofNat 32 (dentryInode boot x) * 4096).signExtend 64).toNat

theorem findSlot_eq_none (fa : Fin 32 → FileDesc) : findSlot fa = none ↔ ¬ ∃ y, (fa y).flags = 0 := by
  simp [findSlot]

/-- Without its inode on the device fs_open fails before it needs an entry. -/
theorem fsOpen_short {x : Nat} (hx : findDentry k.boot name = some x)
    (hs : k.globalIO.size < inodeSeek k.boot x + 4) :
    ∃ r, ∀ loc, fsOpen FlatDisk.ops loc k name = some r := by
  have hoff : ((4096 + BitVec.ofNat 32 (dentryInode k.boot x) * 4096).signExtend 64).toNat =
    inodeSeek k.boot x := rfl
  by_cases hsize : k.globalIO.size < inodeSeek k.boot x
  · have hseek : (ioseek FlatDisk.ops k.globalIO (inodeSeek k.boot x)).1 ≠ 0 := by
      simp only [ioseek, ioctl, FlatDisk.ops, ctl, setpos, if_pos hsize]
      decide
    refine ⟨(-ebusy, none, { k with globalIO := (ioseek FlatDisk.ops k.globalIO (inodeSeek k.boot x)).2 }), fun loc => ?_⟩
    simp only [fsOpen, hx, hoff]
    rw [if_pos hseek]
    rfl
  · have hread : (FlatDisk.read { k.globalIO with pos := inodeSeek k.boot x } 4).1 ≠ 4 := by
      simp only [FlatDisk.read]
      omega
    refine ⟨(-ebadfmt, none,
      { k with globalIO := (FlatDisk.read { k.globalIO with pos := inodeSeek k.boot x } 4).2.2 }), fun loc => ?_⟩
    simp only [fsOpen, hx, hoff, @ioseek_ops k.globalIO (inodeSeek k.boot x) (by omega)]
    simp only [FlatDisk.ops, Option.bind_eq_bind, Option.bind_some, ne_eq, not_true_eq_false, if_false]
    rw [if_pos hread]
    rfl

theorem fsOpen_free {y : Fin 32} (hy : findSlot k.fileArray = some y) (readSize : UInt64)
    (spot spot' : Option (Fin 32)) :
    fsOpen FlatDisk.ops ⟨spot, readSize⟩ k name = fsOpen FlatDisk.ops ⟨spot', readSize⟩ k name := by
  simp only [fsOpen, hy, Option.some_or]

/-- With its inode on the device and no free entry it writes to the entry spot. -/
theorem fsOpen_full {x : Nat} (hx : findDentry k.boot name = some x)
    (hs : inodeSeek k.boot x + 4 ≤ k.globalIO.size) (hfull : findSlot k.fileArray = none) (readSize : UInt64) :
    fsOpen FlatDisk.ops ⟨none, readSize⟩ k name = none ∧
      fsOpen FlatDisk.ops ⟨some 0, readSize⟩ k name ≠ none := by
  have hoff : ((4096 + BitVec.ofNat 32 (dentryInode k.boot x) * 4096).signExtend 64).toNat =
    inodeSeek k.boot x := rfl
  have hread : (FlatDisk.read { k.globalIO with pos := inodeSeek k.boot x } 4).1 = 4 := by
    simp only [FlatDisk.read]
    omega
  constructor <;>
  · simp only [fsOpen, hx, hoff, @ioseek_ops k.globalIO (inodeSeek k.boot x) (by omega)]
    simp only [FlatDisk.ops, Option.bind_eq_bind, Option.bind_some, ne_eq, not_true_eq_false, if_false, hread, hfull]
    simp

/-- fs_open reads spot uninitialised exactly when it has found the name and its
inode but no entry of the table is free. -/
theorem fsOpen_independent_iff (k : Globals Disk) (readSize : UInt64) (name : List UInt8) :
    (∀ spot spot', fsOpen FlatDisk.ops ⟨spot, readSize⟩ k name = fsOpen FlatDisk.ops ⟨spot', readSize⟩ k name) ↔
      (∃ y, (k.fileArray y).flags = 0) ∨
        ∀ x, findDentry k.boot name = some x → k.globalIO.size < inodeSeek k.boot x + 4 := by
  cases hx : findDentry k.boot name with
  | none => simp [fsOpen, hx]
  | some x =>
      by_cases hs : k.globalIO.size < inodeSeek k.boot x + 4
      · obtain ⟨r, hr⟩ := fsOpen_short hx hs
        constructor
        · intro _
          right
          intro x' hx'
          obtain rfl := Option.some.inj hx'
          exact hs
        · intro _ spot spot'
          rw [hr, hr]
      · constructor
        · intro h
          left
          by_contra hnone
          obtain ⟨h0, h1⟩ := fsOpen_full hx (Nat.not_lt.mp hs) ((findSlot_eq_none _).mpr hnone) readSize
          exact h1 ((h (some 0) none).trans h0)
        · rintro (hfree | hall) spot spot'
          · cases hslot : findSlot k.fileArray with
            | none => exact absurd hfree ((findSlot_eq_none _).mp hslot)
            | some y => exact fsOpen_free hslot readSize spot spot'
          · exact absurd (hall x rfl) hs

end Open

/-- fs_read and fs_write do not depend on their uninitialised locals exactly when
they transfer nothing, and fs_open exactly when an entry of the table is free or
it fails before it needs one. -/
theorem file_io_independent_iff (k : Globals Disk) (hwf : WellFormed k.globalIO) :
    (∀ (io : Fin 32) (self : Nat) (buf : Nat → UInt8) (n : Nat),
      Opened k.globalIO (k.fileArray io) (k.fileArray io).inode → (lockAcquire k.kfsLock self).isSome → n < 2 ^ 64 →
      let nothing := n = 0 ∨ (k.fileArray io).filePos = byteLen k.globalIO.bytes (k.fileArray io).inode ∧
        (k.fileArray io).filePos + n < 2 ^ 64
      (Independent (readChunk FlatDisk.ops) self k io buf n ↔ nothing) ∧
        (Independent (writeChunk FlatDisk.ops) self k io buf n ↔ nothing)) ∧
    ∀ readSize name,
      (∀ spot spot', fsOpen FlatDisk.ops ⟨spot, readSize⟩ k name = fsOpen FlatDisk.ops ⟨spot', readSize⟩ k name) ↔
        (∃ y, (k.fileArray y).flags = 0) ∨
          ∀ x, findDentry k.boot name = some x → k.globalIO.size < inodeSeek k.boot x + 4 :=
  ⟨fun _ _ _ _ ho hl hn => ⟨independent_iff hwf ho hl hn, independent_iff hwf ho hl hn⟩,
    fun readSize name => fsOpen_independent_iff k readSize name⟩

section OneFile

open KfsRun

theorem file_io_independent_oneFile :
    Independent (readChunk FlatDisk.ops) 3 (oneFileState 1) 0 (fun _ => 0) 0 :=
  have hv := @oneFileState_valid 1 (by decide) (by decide)
  (((file_io_independent_iff (oneFileState 1) hv.image).1 0 3 (fun _ => 0) 0
    (hv.opened 0 (by simp [KfsRun.IsOpen, oneFileState])) (by decide) (by decide)).1).mpr (Or.inl rfl)

/-- With one in the upper half of blockSpot the seek for the only byte of the file
fails, and what is read comes from the inode. -/
theorem file_io_uninitialised_fails :
    (fsRead FlatDisk.ops 2 ⟨0, 0, 0⟩ 3 (oneFileState 1) 0 (fun _ => 0) 1).map (fun r => (r.1, r.2.1 0)) =
        some (1, 7) ∧
      (fsRead FlatDisk.ops 2 ⟨0, 0, 2 ^ 32⟩ 3 (oneFileState 1) 0 (fun _ => 0) 1).map (fun r => (r.1, r.2.1 0)) =
        some (1, 0) := by
  decide +kernel

end OneFile

end RiscvKernel.Uninitialised
