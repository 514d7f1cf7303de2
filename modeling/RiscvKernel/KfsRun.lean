import RiscvKernel.KfsFile

namespace RiscvKernel.KfsRun

open Io Lib.Bytes SleepLock FlatDisk Kfs KfsFile

/-- What the file system is for: byte arrays of fixed length by inode number, and
a position in one of them for each entry of the table. -/
@[ext] structure Files where
  contents : Nat → List UInt8
  inode : Fin 32 → Nat
  pos : Fin 32 → Nat

/-- A call on an open file; loc is what fs_read and fs_write find in their
uninitialised locals, buf the memory at the buffer. -/
inductive Op
  | read (loc : Locals) (io : Fin 32) (buf : Nat → UInt8) (n : Nat)
  | write (loc : Locals) (io : Fin 32) (buf : Nat → UInt8) (n : Nat)
  | setpos (io : Fin 32) (pos : Nat)

def Op.io : Op → Fin 32
  | .read _ io _ _ | .write _ io _ _ | .setpos io _ => io

/-- The value a call returns and the memory at its buffer afterwards. -/
abbrev Result := Int × Option (Nat → UInt8)

def kfsOp (fuel self : Nat) (k : Globals Disk) : Op → Option (Result × Globals Disk)
  | .read loc io buf n =>
      (fsRead FlatDisk.ops fuel loc self k io buf n).map (fun r => ((r.1, some r.2.1), r.2.2))
  | .write loc io buf n =>
      (fsWrite FlatDisk.ops fuel loc self k io buf n).map (fun r => ((r.1, some r.2.1), r.2.2))
  | .setpos io pos =>
      let r := fsIoctl (k.fileArray io) .setpos pos
      some ((r.1, none), k.setFile io r.2.2)

def kfsRun (fuel self : Nat) : Globals Disk → List Op → Option (List Result × Globals Disk)
  | k, [] => some ([], k)
  | k, op :: ops => do
      let (r, k) ← kfsOp fuel self k op
      let (rs, k) ← kfsRun fuel self k ops
      return (r :: rs, k)

section Files

variable (s : Files)

def Files.count (io : Fin 32) (n : Nat) : Nat := min n ((s.contents (s.inode io)).length - s.pos io)

def Files.seek (io : Fin 32) (p : Nat) : Files := { s with pos := Function.update s.pos io p }

def Files.step : Op → Result × Files
  | .read _ io buf n =>
      (((s.count io n : Int),
          some (writeAt buf 0 (((s.contents (s.inode io)).drop (s.pos io)).take (s.count io n)))),
        s.seek io (s.pos io + s.count io n))
  | .write _ io buf n =>
      (((s.count io n : Int), some buf),
        { s.seek io (s.pos io + s.count io n) with
          contents := Function.update s.contents (s.inode io)
            (splice (s.contents (s.inode io)) (s.pos io) (readAt buf 0 (s.count io n))) })
  | .setpos io pos =>
      if (s.contents (s.inode io)).length < pos then ((-eio, none), s) else ((0, none), s.seek io pos)

def Files.run : Files → List Op → List Result × Files
  | s, [] => ([], s)
  | s, op :: ops => ((s.step op).1 :: ((s.step op).2.run ops).1, ((s.step op).2.run ops).2)

/-- A property of each step of a run, in the state before it. -/
def Files.Along (P : Files → Op → Prop) : Files → List Op → Prop
  | _, [] => True
  | s, op :: ops => P s op ∧ Files.Along P (s.step op).2 ops

/-- Calls whose position plus length fits into 64 bits, with the upper half of
blockSpot zero. -/
def Files.Admissible : Op → Prop
  | .read loc io _ n | .write loc io _ n => loc.blockSpot.toNat < 2 ^ 32 ∧ s.pos io + n < 2 ^ 64
  | .setpos _ _ => True

/-- Calls that transfer nothing or find the offset of the data blocks below 2 ^ 32. -/
def Files.OffsetFits (inodes : Nat) : Op → Prop
  | .read _ io _ n | .write _ io _ n => 0 < s.count io n → 4096 * (inodes + 1) < 2 ^ 32
  | .setpos _ _ => True

end Files

/-- The files of the image on the device, and the positions in the table. -/
def filesOf (k : Globals Disk) : Files where
  contents i := if i < numInodes k.globalIO.bytes then fileContents k.globalIO.bytes i else []
  inode io := (k.fileArray io).inode
  pos io := (k.fileArray io).filePos

def IsOpen (k : Globals Disk) (io : Fin 32) : Prop := (k.fileArray io).flags ≠ 0

/-- A state between calls: a well-formed image, and a position inside the file
for every open file. -/
structure Valid (k : Globals Disk) : Prop where
  image : WellFormed k.globalIO
  lock : k.kfsLock = lockInit
  opened : ∀ io, IsOpen k io → Opened k.globalIO (k.fileArray io) (k.fileArray io).inode

/-- The run answers as the byte arrays do and leaves their contents and positions,
with the boot block and the inodes unchanged. -/
def Refines (self : Nat) (k : Globals Disk) (ops : List Op) : Prop :=
  ∃ fuel k', kfsRun fuel self k ops = some (((filesOf k).run ops).1, k') ∧
    filesOf k' = ((filesOf k).run ops).2 ∧ Valid k' ∧ MetaEq k.globalIO.bytes k'.globalIO.bytes

section Step

variable {k k' : Globals Disk} {io : Fin 32} {self n : Nat}

theorem fileContents_length (img : Nat → UInt8) (i : Nat) : (fileContents img i).length = byteLen img i :=
  readAt_length _ _ _

theorem filesOf_contents (hv : Valid k) (ho : IsOpen k io) :
    (filesOf k).contents ((filesOf k).inode io) = fileContents k.globalIO.bytes (k.fileArray io).inode :=
  if_pos (hv.opened io ho).inode_lt

theorem filesOf_count (hv : Valid k) (ho : IsOpen k io) :
    (filesOf k).count io n =
      min n (byteLen k.globalIO.bytes (k.fileArray io).inode - (k.fileArray io).filePos) := by
  rw [Files.count, filesOf_contents hv ho, fileContents_length]
  rfl

/-- The part of a valid state that does not depend on which bytes the files hold. -/
theorem Valid.setPos (hv : Valid k) (ho : IsOpen k io) {p : Nat} {d' : Disk}
    (hp : p ≤ byteLen k.globalIO.bytes (k.fileArray io).inode) (hm : MetaEq k.globalIO.bytes d'.bytes)
    (hs : d'.size = k.globalIO.size) :
    Valid { k.setFile io { k.fileArray io with filePos := p } with kfsLock := lockInit, globalIO := d' } := by
  refine ⟨hv.image.congr hm hs, rfl, fun j hj => ?_⟩
  simp only [IsOpen, Globals.setFile] at hj ⊢
  by_cases hji : j = io
  · subst hji
    obtain ⟨hi, hlt, hsz, -⟩ := hv.opened j ho
    rw [Function.update_self]
    exact ⟨rfl, by rw [hm.numInodes]; exact hlt, by rw [hm.byteLen hlt]; exact hsz, by rw [hm.byteLen hlt]; exact hp⟩
  · rw [Function.update_of_ne hji] at hj ⊢
    obtain ⟨hi, hlt, hsz, hle⟩ := hv.opened j hj
    exact ⟨rfl, by rw [hm.numInodes]; exact hlt, by rw [hm.byteLen hlt]; exact hsz, by rw [hm.byteLen hlt]; exact hle⟩

theorem isOpen_setPos {p : Nat} {d' : Disk} {lk : Lock} (j : Fin 32) :
    IsOpen { k.setFile io { k.fileArray io with filePos := p } with kfsLock := lk, globalIO := d' } j ↔
      IsOpen k j := by
  simp only [IsOpen, Globals.setFile]
  by_cases hj : j = io
  · subst hj
    rw [Function.update_self]
  · rw [Function.update_of_ne hj]

theorem filesOf_setPos {p : Nat} {d' : Disk} {lk : Lock} (hm : MetaEq k.globalIO.bytes d'.bytes) :
    filesOf { k.setFile io { k.fileArray io with filePos := p } with kfsLock := lk, globalIO := d' } =
      { (filesOf k).seek io p with
        contents := fun i => if i < numInodes k.globalIO.bytes then fileContents d'.bytes i else [] } := by
  simp only [filesOf, Globals.setFile, Files.seek, hm.numInodes, Files.mk.injEq, true_and]
  constructor
  · funext j
    by_cases hj : j = io
    · subst hj
      rw [Function.update_self]
    · rw [Function.update_of_ne hj]
  · funext j
    by_cases hj : j = io
    · subst hj
      rw [Function.update_self, Function.update_self]
    · rw [Function.update_of_ne hj, Function.update_of_ne hj]

/-- After a write the file holds the spliced bytes and every other file its own. -/
theorem fileContents_written {d d' : Disk} {i pos m : Nat} {buf : Nat → UInt8} (hwf : WellFormed d)
    (hi : i < numInodes d.bytes) (hle : pos + m ≤ byteLen d.bytes i) (hw : WrittenSoFar d i pos buf m buf d')
    (hm : MetaEq d.bytes d'.bytes) {j : Nat} (hj : j < numInodes d.bytes) :
    fileContents d'.bytes j =
      Function.update (fileContents d.bytes) i (splice (fileContents d.bytes i) pos (readAt buf 0 m)) j := by
  have hlen := hwf.len_le j hj
  have hat : ∀ p < byteLen d.bytes j, fileAt d'.bytes j p = d'.bytes (dataOff d.bytes j p) := by
    intro p hp
    rw [fileAt, hm.dataOff hj (by omega)]
  by_cases hji : j = i
  · subst hji
    rw [Function.update_self, fileContents, fileContents, splice_readAt _ _ _ (by simpa using hle), hm.byteLen hj]
    refine readAt_congr fun p _ hp => ?_
    rw [hat p (by omega)]
    by_cases hin : pos ≤ p ∧ p < pos + m
    · obtain ⟨q, rfl⟩ := Nat.exists_eq_add_of_le hin.1
      rw [hw.inside q (by omega), Nat.zero_add, writeAt_inside (by simp; omega), readAt_getElem, Nat.zero_add]
    · rw [writeAt_outside (by simp; omega), hw.outside, fileAt]
      intro q hq he
      have := hwf.dataOff_inj hj hj (by omega) (by omega) he
      omega
  · rw [Function.update_of_ne hji, fileContents, fileContents, hm.byteLen hj]
    refine readAt_congr fun p _ hp => ?_
    rw [hat p (by omega), hw.outside, fileAt]
    intro q hq he
    exact hji (hwf.dataOff_inj hj hi (by omega) (by omega) he).1

/-- What a call does when it follows the byte arrays. -/
def StepRefines (self : Nat) (k : Globals Disk) (op : Op) (fuel : Nat) (k' : Globals Disk) : Prop :=
  kfsOp fuel self k op = some (((filesOf k).step op).1, k') ∧ filesOf k' = ((filesOf k).step op).2 ∧
    Valid k' ∧ MetaEq k.globalIO.bytes k'.globalIO.bytes ∧ ∀ io, IsOpen k' io ↔ IsOpen k io

theorem read_refines (hv : Valid k) (ho : IsOpen k io) {loc : Locals} {buf : Nat → UInt8}
    (ha : (filesOf k).Admissible (.read loc io buf n))
    (hf : (filesOf k).OffsetFits (numInodes k.globalIO.bytes) (.read loc io buf n)) :
    ∃ fuel k', StepRefines self k (.read loc io buf n) fuel k' := by
  have hop := hv.opened io ho
  have hle := hop.filePos_le
  have hcount := filesOf_count (n := n) hv ho
  obtain ⟨fuel, d', he, hd, hs⟩ := @fsRead_run _ _ _ _ self _ buf hv.image hv.lock hop ha.2 ha.1 _ _ rfl
    hcount hf
  have hm : MetaEq k.globalIO.bytes d'.bytes := by
    rw [hd]
    exact MetaEq.refl _
  refine ⟨fuel, _, ?_, ?_, hv.setPos ho (p := (k.fileArray io).filePos + (filesOf k).count io n) (by omega) hm hs,
    hm, isOpen_setPos⟩
  · simp only [kfsOp, he, Option.map_some, Files.step]
    rw [filesOf_contents hv ho, fileContents, readAt_drop_take _ (by simp only [filesOf] at *; omega), Nat.zero_add]
    rfl
  · rw [filesOf_setPos hm, hd]
    rfl

theorem write_refines (hv : Valid k) (ho : IsOpen k io) {loc : Locals} {buf : Nat → UInt8}
    (ha : (filesOf k).Admissible (.write loc io buf n))
    (hf : (filesOf k).OffsetFits (numInodes k.globalIO.bytes) (.write loc io buf n)) :
    ∃ fuel k', StepRefines self k (.write loc io buf n) fuel k' := by
  have hop := hv.opened io ho
  have hle := hop.filePos_le
  have hcount := filesOf_count (n := n) hv ho
  obtain ⟨fuel, d', he, hw, hs, hm⟩ := @fsWrite_run _ _ _ _ self _ buf hv.image hv.lock hop ha.2 ha.1
    _ _ rfl hcount hf
  refine ⟨fuel, _, ?_, ?_, hv.setPos ho (p := (k.fileArray io).filePos + (filesOf k).count io n) (by omega) hm hs,
    hm, isOpen_setPos⟩
  · simp only [kfsOp, he, Option.map_some, Files.step]
  · rw [filesOf_setPos hm]
    refine Files.ext ?_ rfl rfl
    funext j
    have hin : (filesOf k).inode io = (k.fileArray io).inode := rfl
    have hcj : (filesOf k).contents j =
      if j < numInodes k.globalIO.bytes then fileContents k.globalIO.bytes j else [] := rfl
    simp only [Files.step]
    rw [filesOf_contents hv ho, hin]
    by_cases hj : j < numInodes k.globalIO.bytes
    · rw [if_pos hj, fileContents_written hv.image hop.inode_lt (by omega) hw hm hj]
      by_cases hji : j = (k.fileArray io).inode
      · subst hji
        rw [Function.update_self, Function.update_self]
        rfl
      · rw [Function.update_of_ne hji, Function.update_of_ne hji, hcj, if_pos hj]
    · have hji : j ≠ (k.fileArray io).inode := fun h => hj (h ▸ hop.inode_lt)
      rw [if_neg hj, Function.update_of_ne hji, hcj, if_neg hj]

theorem setpos_refines (hv : Valid k) (ho : IsOpen k io) (pos : Nat) :
    ∃ fuel k', StepRefines self k (.setpos io pos) fuel k' := by
  have hop := hv.opened io ho
  have hlen : ((filesOf k).contents ((filesOf k).inode io)).length = (k.fileArray io).fileSize := by
    rw [filesOf_contents hv ho, fileContents_length, hop.fileSize]
  have hm := MetaEq.refl k.globalIO.bytes
  by_cases hp : (k.fileArray io).fileSize < pos
  · refine ⟨0, k, ?_, ?_, hv, hm, fun _ => Iff.rfl⟩
    · simp only [kfsOp, fsIoctl, fsSetpos, Files.step]
      rw [if_pos hp, if_pos (by rw [hlen]; exact hp), Globals.setFile, Function.update_eq_self]
    · simp only [Files.step]
      rw [if_pos (by rw [hlen]; exact hp)]
  · have hset : ({ k.setFile io { k.fileArray io with filePos := pos } with
        kfsLock := lockInit, globalIO := k.globalIO } : Globals Disk) =
        k.setFile io { k.fileArray io with filePos := pos } := by
      rw [← hv.lock]
      rfl
    refine ⟨0, k.setFile io { k.fileArray io with filePos := pos }, ?_, ?_, ?_, hm, ?_⟩
    · simp only [kfsOp, fsIoctl, fsSetpos, Files.step]
      rw [if_neg hp, if_neg (by rw [hlen]; exact hp)]
    · rw [← hset, filesOf_setPos hm]
      simp only [Files.step]
      rw [if_neg (by rw [hlen]; exact hp)]
      rfl
    · rw [← hset]
      exact hv.setPos ho (by have := hop.fileSize; omega) hm rfl
    · rw [← hset]
      exact isOpen_setPos

theorem kfsOp_refines (hv : Valid k) {op : Op} (ho : IsOpen k op.io) (ha : (filesOf k).Admissible op)
    (hf : (filesOf k).OffsetFits (numInodes k.globalIO.bytes) op) :
    ∃ fuel k', StepRefines self k op fuel k' := by
  cases op with
  | read loc io buf n => exact read_refines hv ho ha hf
  | write loc io buf n => exact write_refines hv ho ha hf
  | setpos io pos => exact setpos_refines hv ho pos

theorem kfsOp_mono {fuel fuel' : Nat} {op : Op} {r : Result × Globals Disk}
    (h : kfsOp fuel self k op = some r) (hf : fuel ≤ fuel') : kfsOp fuel' self k op = some r := by
  cases op with
  | read loc io buf n | write loc io buf n =>
      obtain ⟨x, hx, rfl⟩ := Option.map_eq_some_iff.mp h
      exact Option.map_eq_some_iff.mpr ⟨x, fsTransfer_mono hx hf, rfl⟩
  | setpos io pos => exact h

theorem kfsRun_cons {fuel : Nat} {op : Op} {ops : List Op} {rs : List Result} :
    kfsRun fuel self k (op :: ops) = some (rs, k') ↔
      ∃ r k₁ rs', kfsOp fuel self k op = some (r, k₁) ∧ kfsRun fuel self k₁ ops = some (rs', k') ∧
        rs = r :: rs' := by
  simp only [kfsRun, Option.bind_eq_bind, Option.bind_eq_some_iff]
  constructor
  · rintro ⟨⟨r, k₁⟩, hr, ⟨rs', k₂⟩, hrs, he⟩
    obtain ⟨rfl, rfl⟩ := Prod.mk.inj (Option.some.inj he)
    exact ⟨r, k₁, rs', hr, hrs, rfl⟩
  · rintro ⟨r, k₁, rs', hr, hrs, rfl⟩
    exact ⟨(r, k₁), hr, (rs', k'), hrs, rfl⟩

theorem kfsRun_mono {fuel fuel' : Nat} {ops : List Op} {rs : List Result}
    (h : kfsRun fuel self k ops = some (rs, k')) (hf : fuel ≤ fuel') :
    kfsRun fuel' self k ops = some (rs, k') := by
  induction ops generalizing k rs with
  | nil => exact h
  | cons op ops ih =>
      obtain ⟨r, k₁, rs', hr, hrs, rfl⟩ := kfsRun_cons.mp h
      exact kfsRun_cons.mpr ⟨r, k₁, rs', kfsOp_mono hr hf, ih hrs, rfl⟩

end Step

/-- Every run of calls on open files in which each transfer finds the offset of
the data blocks below 2 ^ 32 follows the byte arrays. -/
theorem kfsRun_refines (k : Globals Disk) (self : Nat) (ops : List Op) (hv : Valid k)
    (ho : ∀ op ∈ ops, IsOpen k op.io) (ha : (filesOf k).Along Files.Admissible ops)
    (hf : (filesOf k).Along (fun s => s.OffsetFits (numInodes k.globalIO.bytes)) ops) :
    Refines self k ops := by
  induction ops generalizing k with
  | nil => exact ⟨0, k, rfl, rfl, hv, MetaEq.refl _⟩
  | cons op ops ih =>
      obtain ⟨f₁, k₁, he₁, hs₁, hv₁, hm₁, ho₁⟩ := @kfsOp_refines _ self hv _ (ho op (by simp)) ha.1 hf.1
      obtain ⟨f₂, k₂, he₂, hs₂, hv₂, hm₂⟩ := ih k₁ hv₁ (fun o h => (ho₁ _).mpr (ho o (by simp [h])))
        (by rw [hs₁]; exact ha.2) (by rw [hs₁, hm₁.numInodes]; exact hf.2)
      rw [hs₁] at he₂ hs₂
      refine ⟨max f₁ f₂, k₂, ?_, hs₂, hv₂, hm₁.trans hm₂⟩
      exact kfsRun_cons.mpr ⟨_, k₁, _, kfsOp_mono he₁ (Nat.le_max_left _ _),
        kfsRun_mono he₂ (Nat.le_max_right _ _), rfl⟩

section OneFile

/-- An image with the given number of inodes and one file of one byte. -/
def oneFile (inodes a : Nat) : UInt8 :=
  if a = 0 ∨ a = 8 ∨ a = 4096 then 1
  else if 4 ≤ a ∧ a < 8 then UInt8.ofNat (inodes / 256 ^ (a - 4))
  else if a = 64 then 97
  else if a = 4096 + 4096 * inodes then 7
  else 0

/-- The file is open at its start. -/
def oneFileState (inodes : Nat) : Globals Disk where
  boot := oneFile inodes
  fileArray io := if io = 0 then ⟨true, 1, 0, 1, 0, 1⟩ else FileDesc.zero
  intSpot := 0
  globalIO := ⟨oneFile inodes, 4096 + 4096 * inodes + 4096, 0⟩
  kfsLock := lockInit

def readOne : List Op := [.read ⟨0, 0, 0⟩ 0 (fun _ => 0) 1]

variable {inodes : Nat}

theorem oneFile_numInodes (h : inodes < 2 ^ 32) : numInodes (oneFile inodes) = inodes := by
  simp [numInodes, le32, readAt, leNat, oneFile, List.range_succ]
  omega

theorem oneFile_zero {a : Nat} (h : 4096 < a) (ha : a ≠ 4096 + 4096 * inodes) : oneFile inodes a = 0 := by
  unfold oneFile
  rw [if_neg (by omega), if_neg (by omega), if_neg (by omega), if_neg ha]

theorem oneFile_byteLen {i : Nat} (hi : i < inodes) :
    byteLen (oneFile inodes) i = if i = 0 then 1 else 0 := by
  by_cases h : i = 0
  · have hz : ∀ x, 1 ≤ x → x < 4 → oneFile inodes (4096 + x) = 0 := fun x _ _ => oneFile_zero (by omega) (by omega)
    subst h
    simp [byteLen, le32, readAt, List.range_succ, leNat, hz 1, hz 2, hz 3]
    rfl
  · rw [if_neg h]
    exact le32_zero fun x _ _ => oneFile_zero (by omega) (by omega)

theorem oneFileState_valid (h0 : 0 < inodes) (h : inodes < 2 ^ 32) : Valid (oneFileState inodes) := by
  have hN : numInodes (oneFileState inodes).device.bytes = inodes := oneFile_numInodes h
  have hlen : ∀ i < inodes, byteLen (oneFileState inodes).device.bytes i = if i = 0 then 1 else 0 :=
    fun i hi => oneFile_byteLen hi
  have hzero : ∀ i < inodes, ∀ b, b * 4096 < byteLen (oneFileState inodes).device.bytes i → i = 0 ∧ b = 0 := by
    intro i hi b hb
    rw [hlen i hi] at hb
    split at hb <;> omega
  have hblk : blockNo (oneFileState inodes).device.bytes 0 0 = 0 :=
    le32_zero fun x _ _ => oneFile_zero (by omega) (by omega)
  constructor
  · constructor
    · rw [hN]
      exact Nat.le_add_right _ _
    · intro i hi
      rw [hN] at hi
      rw [hlen i hi]
      split <;> omega
    · intro i hi b hb
      rw [hN] at hi
      obtain ⟨rfl, rfl⟩ := hzero i hi b hb
      rw [hN, hblk]
      exact Nat.le_refl _
    · intro i hi j hj b c hb hc _
      rw [hN] at hi hj
      obtain ⟨rfl, rfl⟩ := hzero i hi b hb
      obtain ⟨rfl, rfl⟩ := hzero j hj c hc
      exact ⟨rfl, rfl⟩
  · rfl
  · intro io hio
    by_cases h' : io = 0
    · subst h'
      exact ⟨rfl, by rw [hN]; exact h0, (hlen 0 h0).symm, Nat.zero_le _⟩
    · simp [IsOpen, oneFileState, h', FileDesc.zero] at hio

theorem readOne_admissible (s : Files) (hs : s.pos 0 = 0) : s.Along Files.Admissible readOne :=
  ⟨⟨by decide, by rw [hs]; decide⟩, trivial⟩

theorem kfsRun_refines_oneFile : Refines 3 (oneFileState 1) readOne :=
  kfsRun_refines (oneFileState 1) 3 readOne (oneFileState_valid (by decide) (by decide))
    (by simp [readOne, IsOpen, Op.io, oneFileState]) (readOne_admissible _ rfl)
    ⟨fun _ => by decide +kernel, trivial⟩

/-- With 2 ^ 20 - 1 inodes the offset of the data blocks wraps to zero, and the
read returns a byte of the boot block. -/
theorem kfsRun_oneFile_wraps :
    Valid (oneFileState (2 ^ 20 - 1)) ∧ (∀ op ∈ readOne, IsOpen (oneFileState (2 ^ 20 - 1)) op.io) ∧
      (filesOf (oneFileState (2 ^ 20 - 1))).Along Files.Admissible readOne ∧
      ¬ Refines 3 (oneFileState (2 ^ 20 - 1)) readOne := by
  refine ⟨oneFileState_valid (by decide) (by decide), by simp [readOne, IsOpen, Op.io, oneFileState],
    readOne_admissible _ rfl, ?_⟩
  rintro ⟨fuel, k', he, -⟩
  have hcode : (kfsRun 2 3 (oneFileState (2 ^ 20 - 1)) readOne).map (fun r => r.1.map (fun x => x.2.map (· 0))) =
      some [some 1] := by decide +kernel
  have hspec : ((filesOf (oneFileState (2 ^ 20 - 1))).run readOne).1.map (fun x => x.2.map (· 0)) = [some 7] := by
    decide +kernel
  obtain ⟨⟨rs, k₂⟩, h₂, hrs⟩ := Option.map_eq_some_iff.mp hcode
  have heq := (kfsRun_mono he (Nat.le_max_left fuel 2)).symm.trans (kfsRun_mono h₂ (Nat.le_max_right fuel 2))
  obtain ⟨rfl, -⟩ := Prod.mk.inj (Option.some.inj heq)
  rw [hspec] at hrs
  exact absurd hrs (by decide)

end OneFile

end RiscvKernel.KfsRun
