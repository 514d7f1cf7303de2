import RiscvKernel.Mkfs

namespace RiscvKernel.RoundTrip

open Io Lib.Bytes SleepLock FlatDisk Kfs KfsFile Mkfs

section Image

variable (old : Nat → Nat → UInt8) (fs : List Input)

def image : Nat → UInt8 := ofList (blocks old fs).flatten

def imageDisk : Disk := ⟨image old fs, (blocks old fs).flatten.length, 0⟩

variable {old fs}

theorem imageDisk_size (h : ValidInputs fs) :
    (imageDisk old fs).size = 4096 + 4096 * fs.length + 4096 * writtenBefore fs fs.length := by
  have hlen := length_flatten_uniform (@blocks_uniform old _ h)
  rw [blocks_length] at hlen
  rw [imageDisk]
  simp only
  omega

/-- A part of a block of the image. -/
theorem readAt_image (h : ValidInputs fs) {b off n : Nat} {bs : List UInt8} (hb : (blocks old fs)[b]? = some bs)
    (hn : off + n ≤ 4096) : readAt (image old fs) (4096 * b + off) n = (bs.drop off).take n := by
  obtain ⟨hlt, rfl⟩ := List.getElem?_eq_some_iff.mp hb
  exact readAt_flatten (blocks_uniform h) hlt hn

theorem image_byte (h : ValidInputs fs) {b x : Nat} {bs : List UInt8} (hb : (blocks old fs)[b]? = some bs)
    (hx : x < 4096) : some (image old fs (4096 * b + x)) = bs[x]? := by
  have hr := @readAt_image _ _ h _ x 1 _ hb (by omega)
  have hlen : bs.length = 4096 := blocks_uniform h bs (List.mem_of_getElem? hb)
  have hcons : (bs.drop x).take 1 = [bs[x]] := by
    rw [List.drop_eq_getElem_cons (by omega), List.take_succ_cons, List.take_zero]
  rw [hcons] at hr
  have hhead : readAt (image old fs) (4096 * b + x) 1 = [image old fs (4096 * b + x)] := rfl
  rw [hhead] at hr
  rw [List.getElem?_eq_getElem (by omega)]
  exact congrArg some (List.singleton_inj.mp hr)

theorem numInodes_image (h : ValidInputs fs) : numInodes (image old fs) = fs.length := by
  have hr := @readAt_image old _ h 0 4 4 _ rfl (by omega)
  have hc := h.count
  rw [numInodes, le32]
  rw [Nat.mul_zero, Nat.zero_add] at hr
  rw [hr]
  have hlen : (dentries fs).length = fs.length := List.length_mapIdx
  simp only [bootBlock, leBytes, hlen]
  exact leNat_leBytes (by omega)

theorem byteLen_image (h : ValidInputs fs) {i : Nat} (hi : i < fs.length) :
    byteLen (image old fs) i = fs[i].contents.length := by
  have hb : (blocks old fs)[1 + i]? = some (inode (old i) (numbered fs i) fs[i].contents.length) := by
    rw [blocks_inode i hi, List.getElem?_eq_getElem hi, Option.map_some]
  have hr := @readAt_image _ _ h _ 0 4 _ hb (by omega)
  have hs := h.size fs[i] (List.getElem_mem hi)
  rw [byteLen, le32, show 4096 + i * 4096 = 4096 * (1 + i) + 0 by omega, hr]
  exact leNat_leBytes (by omega)

theorem numbered_lt (h : ValidInputs fs) (i : Nat) : numbered fs i ≤ 63 * 1023 := by
  have hle := @blocksBefore_le (fun f => numDataBlocksForFile f.contents.length) fs 1023
    (fun f hf => by have := h.size f hf; rw [numDataBlocksForFile]; omega) i
  exact Nat.le_trans hle (Nat.mul_le_mul_right _ h.count)

theorem blockNo_image (h : ValidInputs fs) {i b : Nat} (hi : i < fs.length)
    (hb : b < numDataBlocksForFile fs[i].contents.length) : blockNo (image old fs) i b = numbered fs i + b := by
  have hblk : (blocks old fs)[1 + i]? = some (inode (old i) (numbered fs i) fs[i].contents.length) := by
    rw [blocks_inode i hi, List.getElem?_eq_getElem hi, Option.map_some]
  have hs := h.size fs[i] (List.getElem_mem hi)
  have hn := numbered_lt h i
  have hb' : b < 1023 := by
    rw [numDataBlocksForFile] at hb
    omega
  have hr := @readAt_image _ _ h _ (4 + 4 * b) 4 _ hblk (by omega)
  rw [blockNo, le32, show 4096 + i * 4096 + (4 + b * 4) = 4096 * (1 + i) + (4 + 4 * b) by omega, hr,
    inode_blockNum hb, leNat_leBytes (by omega)]

theorem lt_numDataBlocks {i b : Nat} (hi : i < fs.length) (hb : b * 4096 < fs[i].contents.length) :
    b < numDataBlocksForFile fs[i].contents.length ∧ b < written fs[i] := by
  rw [numDataBlocksForFile, written]
  omega

/-- Blocks with one number belong to one place, whatever the sizes. -/
theorem numbered_inj {i j b c : Nat} (hi : i < fs.length) (hj : j < fs.length)
    (hb : b < numDataBlocksForFile fs[i].contents.length) (hc : c < numDataBlocksForFile fs[j].contents.length)
    (he : numbered fs i + b = numbered fs j + c) : i = j ∧ b = c := by
  have hnext : ∀ {i j b c : Nat} (hi : i < fs.length), b < numDataBlocksForFile fs[i].contents.length → i < j →
      numbered fs i + b < numbered fs j + c := by
    intro i j b c hi hb hlt
    have hmono := @blocksBefore_mono (fun f => numDataBlocksForFile f.contents.length) fs _ _ hlt
    rw [blocksBefore_succ hi] at hmono
    rw [numbered]
    omega
  rcases Nat.lt_trichotomy i j with hlt | rfl | hlt
  · have := hnext (c := c) hi hb hlt
    omega
  · exact ⟨rfl, by omega⟩
  · have := hnext (c := b) hj hc hlt
    omega

/-- No file with contents comes after a file whose size is a multiple of the
block size: mkfs counts one block more for such a file than it writes. -/
def NoGap (fs : List Input) : Prop := fs.Pairwise (fun f g => g.contents = [] ∨ f.contents.length % 4096 ≠ 0)

theorem numbered_eq_written (hg : NoGap fs) {i : Nat} (hi : i < fs.length) (hne : fs[i].contents ≠ []) :
    numbered fs i = writtenBefore fs i := by
  refine blocksBefore_congr fun f hf => ?_
  obtain ⟨j, hj, rfl⟩ := List.mem_iff_getElem.mp hf
  rw [List.length_take] at hj
  have hpair := List.pairwise_iff_getElem.mp hg j i (by omega) hi (by omega)
  rw [List.getElem_take, numDataBlocksForFile, written]
  have := hpair.resolve_left hne
  omega

theorem wellFormed_image (h : ValidInputs fs) (hg : NoGap fs) : WellFormed (imageDisk old fs) := by
  have hN : numInodes (imageDisk old fs).bytes = fs.length := numInodes_image h
  have hlen : ∀ i (hi : i < fs.length), byteLen (imageDisk old fs).bytes i = fs[i].contents.length :=
    fun i hi => byteLen_image h hi
  constructor
  · rw [hN, imageDisk_size h]
    exact Nat.le_add_right _ _
  · intro i hi
    rw [hN] at hi
    rw [hlen i hi]
    exact Nat.le_of_lt (h.size _ (List.getElem_mem hi))
  · intro i hi b hb
    rw [hN] at hi
    rw [hlen i hi] at hb
    obtain ⟨hnum, hwr⟩ := lt_numDataBlocks hi hb
    have hne : fs[i].contents ≠ [] := fun he => by simp [he] at hb
    have hno : blockNo (imageDisk old fs).bytes i b = numbered fs i + b := blockNo_image h hi hnum
    have hmono := @blocksBefore_mono written fs _ _ (Nat.succ_le_of_lt hi)
    rw [Nat.succ_eq_add_one, blocksBefore_succ hi] at hmono
    rw [hN, imageDisk_size h, hno, numbered_eq_written hg hi hne, writtenBefore]
    omega
  · intro i hi j hj b c hb hc he
    rw [hN] at hi hj
    rw [hlen i hi] at hb
    rw [hlen j hj] at hc
    have hb' := (lt_numDataBlocks hi hb).1
    have hc' := (lt_numDataBlocks hj hc).1
    have hbn : blockNo (imageDisk old fs).bytes i b = numbered fs i + b := blockNo_image h hi hb'
    have hcn : blockNo (imageDisk old fs).bytes j c = numbered fs j + c := blockNo_image h hj hc'
    rw [hbn, hcn] at he
    exact numbered_inj hi hj hb' hc' he

/-- Each byte of a file is found where its inode says. -/
theorem fileAt_image (h : ValidInputs fs) (hg : NoGap fs) {i p : Nat} (hi : i < fs.length)
    (hp : p < fs[i].contents.length) : fileAt (image old fs) i p = fs[i].contents[p] := by
  have hlt : p / 4096 * 4096 < fs[i].contents.length := by omega
  obtain ⟨hnum, hwr⟩ := lt_numDataBlocks hi hlt
  have hne : fs[i].contents ≠ [] := fun he => by simp [he] at hp
  have hblk := @blocks_data old _ _ _ hi hwr
  have hsome : p / 4096 < (addData zeroBlock fs[i].contents).length := by
    rw [addData_length]
    exact hwr
  rw [List.getElem?_eq_getElem hsome] at hblk
  have hbyte := image_byte h hblk (x := p % 4096) (by omega)
  have hget := @addData_getElem? zeroBlock fs[i].contents (p % 4096) (by omega) (p / 4096)
    (by omega)
  rw [List.getElem?_eq_getElem hsome, Option.bind_some, ← hbyte, Nat.div_add_mod, List.getElem?_eq_getElem hp] at hget
  rw [fileAt, dataOff, numInodes_image h, blockNo_image h hi hnum, numbered_eq_written hg hi hne,
    show 4096 + 4096 * fs.length + 4096 * (writtenBefore fs i + p / 4096) + p % 4096 =
      4096 * (1 + fs.length + (writtenBefore fs i + p / 4096)) + p % 4096 by omega]
  exact Option.some.inj hget

end Image

/-- strcmp against a terminated string in memory. -/
theorem strcmp_eq_zero_iff {mem : Nat → UInt8} {name str : List UInt8} {p : Nat} (hn : ∀ c ∈ name, c ≠ 0)
    (hs : ∀ c ∈ str, c ≠ 0) (hmem : readAt mem p str.length = str) (hend : mem (p + str.length) = 0) :
    strcmp name mem p = 0 ↔ name = str := by
  induction name generalizing str p with
  | nil =>
      cases str with
      | nil =>
          have : mem p = 0 := hend
          simp [strcmp, this]
      | cons d str =>
          rw [List.length_cons, readAt_succ] at hmem
          have hd : mem p = d := (List.cons.inj hmem).1
          simp [strcmp, hd, hs d (by simp)]
  | cons c name ih =>
      have hc := hn c (by simp)
      cases str with
      | nil =>
          have hp : mem p = 0 := hend
          have hlt : 0 < c := by
            rw [UInt8.lt_iff_toNat_lt]
            exact Nat.pos_of_ne_zero fun h => hc (UInt8.toNat_inj.mp h)
          simp [strcmp, hp, hc, hlt]
      | cons d str =>
          rw [List.length_cons, readAt_succ] at hmem
          obtain ⟨hd, htail⟩ := List.cons.inj hmem
          rw [strcmp, hd]
          by_cases hcd : c = d
          · subst hcd
            rw [if_pos ⟨rfl, hc⟩, ih (fun c h => hn c (by simp [h])) (fun c h => hs c (by simp [h])) htail
              (by rw [Nat.add_assoc, Nat.add_comm 1]; exact hend)]
            simp
          · rw [if_neg (fun h => hcd h.1)]
            have hne : ¬ (c < d) → d < c := by
              intro h
              rw [UInt8.lt_iff_toNat_lt] at h ⊢
              have : c.toNat ≠ d.toNat := fun h => hcd (UInt8.toNat_inj.mp h)
              omega
            by_cases hlt : c < d
            · simp [hlt, hcd]
            · simp [hlt, hne hlt, hcd]

section Mount

variable {old : Nat → Nat → UInt8} {fs : List Input}

/-- dir_entries[x] of the image. -/
theorem readAt_dentry (h : ValidInputs fs) {x : Nat} (hx : x < fs.length) :
    readAt (image old fs) (dentryOff x) 64 = dentry x (shortname fs[x].path) := by
  have hc := h.count
  have hr := @readAt_image old _ h 0 (dentryOff x) 64 _ rfl (by rw [dentryOff]; omega)
  have hlen := length_flatten_uniform (@dentries_uniform fs)
  have hn : (dentries fs).length = fs.length := List.length_mapIdx
  rw [Nat.mul_zero, Nat.zero_add] at hr
  rw [hr, dentryOff, bootBlock, List.append_assoc, ← List.drop_drop, List.drop_left' (by simp [leBytes]),
    List.drop_append_of_le_length (by omega), drop_flatten dentries_uniform,
    List.drop_eq_getElem_cons (by omega), List.flatten_cons, List.append_assoc]
  simp only [dentries, List.getElem_mapIdx]
  rw [List.take_left' (dentry_length _ _)]

/-- The boot block in memory after fs_mount. -/
def mounted (boot : Nat → UInt8) (img : Nat → UInt8) : Nat → UInt8 := writeAt boot 0 (readAt img 0 4096)

theorem mounted_apply (boot img : Nat → UInt8) {a : Nat} (h : a < 4096) : mounted boot img a = img a := by
  have hi : a < (readAt img 0 4096).length := by rw [readAt_length]; exact h
  have := writeAt_inside (d := boot) (a := 0) hi
  rw [Nat.zero_add, readAt_getElem, Nat.zero_add] at this
  exact this

theorem readAt_mounted (boot img : Nat → UInt8) {a n : Nat} (h : a + n ≤ 4096) :
    readAt (mounted boot img) a n = readAt img a n :=
  readAt_congr fun _ _ _ => mounted_apply _ _ (by omega)

theorem readAt_dentry_mounted (h : ValidInputs fs) (boot : Nat → UInt8) {x : Nat} (hx : x < fs.length) :
    readAt (mounted boot (image old fs)) (dentryOff x) 64 = dentry x (shortname fs[x].path) := by
  have := h.count
  rw [readAt_mounted _ _ (by rw [dentryOff]; omega), readAt_dentry h hx]

theorem dentry_terminated (i : Nat) {name : List UInt8} (h : name.length ≤ 31) :
    ∃ rest, dentry i name = name ++ 0 :: rest := by
  have hpad : List.replicate (32 - name.length) (0 : UInt8) = 0 :: List.replicate (31 - name.length) 0 := by
    rw [← List.replicate_succ]
    congr 1
    omega
  rw [dentry, strncpy, List.take_of_length_le (by omega), hpad, List.append_assoc, List.append_assoc]
  exact ⟨_, rfl⟩

theorem strcmp_dentry (h : ValidInputs fs) (boot : Nat → UInt8) {x : Nat} (hx : x < fs.length) {name : List UInt8}
    (hn : ∀ c ∈ name, c ≠ 0) :
    strcmp name (mounted boot (image old fs)) (dentryOff x) = 0 ↔ name = shortname fs[x].path := by
  obtain ⟨-, hlen⟩ := h.name_length fs[x] (List.getElem_mem hx)
  obtain ⟨rest, hrest⟩ := dentry_terminated x hlen
  have hd := @readAt_dentry_mounted old _ h boot _ hx
  rw [hrest] at hd
  obtain ⟨hname, hend⟩ := readAt_eq_append hd
  rw [List.length_cons, readAt_succ] at hend
  exact strcmp_eq_zero_iff hn (fun c hc => (h.name_chars _ (List.getElem_mem hx) c hc).1) hname
    (List.cons.inj hend).1

theorem findDentry_mounted (h : ValidInputs fs) (boot : Nat → UInt8) {i : Nat} (hi : i < fs.length) :
    findDentry (mounted boot (image old fs)) (shortname fs[i].path) = some i := by
  have hc := h.count
  have hn : ∀ c ∈ shortname fs[i].path, c ≠ 0 := fun c hc => (h.name_chars _ (List.getElem_mem hi) c hc).1
  rw [findDentry, List.find?_range_eq_some]
  refine ⟨?_, List.mem_range.mpr (by omega), fun j hj => ?_⟩
  · simpa using (strcmp_dentry h boot hi hn).mpr rfl
  · have hne : shortname fs[i].path ≠ shortname fs[j].path := by
      intro he
      have hnd := List.pairwise_iff_getElem.mp h.distinct j i (by simp; omega) (by simpa using hi) hj
      simp only [List.getElem_map] at hnd
      exact hnd he.symm
    simpa using fun he => hne ((@strcmp_dentry old _ h boot _ (Nat.lt_trans hj hi) _ hn).mp he)

theorem dentryInode_mounted (h : ValidInputs fs) (boot : Nat → UInt8) {i : Nat} (hi : i < fs.length) :
    dentryInode (mounted boot (image old fs)) i = i := by
  have hc := h.count
  have hr := readAt_drop_take (d := mounted boot (image old fs)) (a := dentryOff i) (n := 64) (m := 4) 32 (by omega)
  rw [readAt_dentry_mounted h boot hi, dentry, List.append_assoc,
    List.drop_left' (by simp [strncpy]; omega), List.take_left' (by rfl)] at hr
  rw [dentryInode, le32, ← hr, leNat_leBytes (by omega)]

/-- The state after fs_mount. -/
def mountedState (old : Nat → Nat → UInt8) (fs : List Input) (boot : Nat → UInt8) (intSpot : Fin 32) : Globals Disk where
  boot := mounted boot (image old fs)
  fileArray _ := FileDesc.zero
  intSpot := intSpot
  globalIO := { imageDisk old fs with pos := 4096 }
  kfsLock := lockInit

theorem fsMount_image (h : ValidInputs fs) (boot : Nat → UInt8) (intSpot : Fin 32) :
    fsMount FlatDisk.ops boot intSpot (imageDisk old fs) = (0, mountedState old fs boot intSpot) := by
  have hsz := @imageDisk_size old _ h
  have hpos : (imageDisk old fs).pos = 0 := rfl
  rw [fsMount, ioread_ops (by omega)]
  simp only [mountedState, mounted, hpos, Nat.zero_add]
  rw [if_pos (by rfl)]
  simp only [imageDisk]

/-- The entry fs_open makes for the i-th file. -/
def openedFile (fs : List Input) (i : Nat) : FileDesc where
  ops := true
  refcnt := 1
  filePos := 0
  fileSize := ((fs[i]?).map (·.contents.length)).getD 0
  inode := i
  flags := 1

def openedState (old : Nat → Nat → UInt8) (fs : List Input) (boot : Nat → UInt8) (i : Nat) : Globals Disk where
  boot := mounted boot (image old fs)
  fileArray := Function.update (fun _ => FileDesc.zero) 0 (openedFile fs i)
  intSpot := 0
  globalIO := { imageDisk old fs with pos := 4096 + i * 4096 + 4 }
  kfsLock := lockInit

theorem signExtend_toNat {x : BitVec 32} (h : x.toNat < 2 ^ 31) : (x.signExtend 64).toNat = x.toNat := by
  rw [BitVec.signExtend_eq_setWidth_of_msb_false (by rw [BitVec.msb_eq_false_iff_two_mul_lt]; omega),
    BitVec.toNat_setWidth, Nat.mod_eq_of_lt (by omega)]

theorem tempIndex_offset {i : Nat} (h : i < 63) :
    ((4096 + BitVec.ofNat 32 i * 4096).signExtend 64).toNat = 4096 + i * 4096 ∧
      ((BitVec.ofNat 32 i).signExtend 64).toNat = i := by
  have hoff : (4096 + BitVec.ofNat 32 i * 4096).toNat = 4096 + i * 4096 := by
    have hblk : (4096 : BitVec 32).toNat = 4096 := rfl
    simp only [BitVec.toNat_add, BitVec.toNat_mul, BitVec.toNat_ofNat, hblk]
    omega
  have hidx : (BitVec.ofNat 32 i).toNat = i := by
    rw [BitVec.toNat_ofNat]
    omega
  rw [signExtend_toNat (by omega), signExtend_toNat (by omega)]
  exact ⟨hoff, hidx⟩

theorem fsOpen_image (h : ValidInputs fs) (boot : Nat → UInt8) (intSpot : Fin 32) {loc : OpenLocals}
    (hloc : loc.readSize.toNat < 2 ^ 32) {i : Nat} (hi : i < fs.length) :
    fsOpen FlatDisk.ops loc (mountedState old fs boot intSpot) (shortname fs[i].path) =
      some (0, some 0, openedState old fs boot i) := by
  have hc := h.count
  have hs := h.size fs[i] (List.getElem_mem hi)
  have hsz := @imageDisk_size old _ h
  obtain ⟨hoff, hidx⟩ := tempIndex_offset (i := i) (by omega)
  have hseek := @ioseek_ops { imageDisk old fs with pos := 4096 } (4096 + i * 4096) (by simp only; omega)
  have hread : FlatDisk.read { imageDisk old fs with pos := 4096 + i * 4096 } 4 = _ := ioread_ops (by simp only; omega)
  have hlen : overlay loc.readSize.toNat (readAt (imageDisk old fs).bytes (4096 + i * 4096) 4) = fs[i].contents.length :=
    (overlay_four hloc (readAt_length _ _ _)).trans (byteLen_image h hi)
  have hslot : findSlot (fun _ => FileDesc.zero) = some 0 := by decide
  unfold fsOpen
  simp only [mountedState, findDentry_mounted h boot hi, dentryInode_mounted h boot hi, hoff, hseek, hidx, hslot]
  rw [if_neg (by simp)]
  simp only [FlatDisk.ops, Option.bind_eq_bind, Option.bind_some, hread, hlen, Option.some_or]
  rw [if_neg (by simp)]
  simp only [openedState, openedFile, Globals.setFile, List.getElem?_eq_getElem hi, Option.map_some, Option.getD_some]
  rfl

end Mount

/-- mkfs builds an image, fs_mount accepts it, and every file is found with its
length and its contents. -/
def RoundTrips (old : Nat → Nat → UInt8) (boot : Nat → UInt8) (intSpot : Fin 32) (oloc : OpenLocals) (loc : Locals)
    (self : Nat) (fs : List Input) : Prop :=
  ∃ bss k, mkfs old fs = some bss ∧
    fsMount FlatDisk.ops boot intSpot ⟨ofList bss.flatten, bss.flatten.length, 0⟩ = (0, k) ∧
    ∀ f ∈ fs, ∃ io k', fsOpen FlatDisk.ops oloc k (shortname f.path) = some (0, some io, k') ∧
      (∀ arg, fsIoctl (k'.fileArray io) .getlen arg =
        ((f.contents.length : Int), f.contents.length, k'.fileArray io)) ∧
      ∀ buf n, n < 2 ^ 64 → ∃ fuel k'', fsRead FlatDisk.ops fuel loc self k' io buf n =
        some (((min n f.contents.length : Nat) : Int), writeAt buf 0 (f.contents.take n), k'')

section RoundTrip

variable {old : Nat → Nat → UInt8} {fs : List Input}

theorem openedState_opened (h : ValidInputs fs) (boot : Nat → UInt8) {i : Nat} (hi : i < fs.length) :
    Opened (openedState old fs boot i).device ((openedState old fs boot i).fileArray 0) i := by
  have hN : numInodes (openedState old fs boot i).device.bytes = fs.length := numInodes_image h
  have hlen : byteLen (openedState old fs boot i).device.bytes i = fs[i].contents.length := byteLen_image h hi
  refine ⟨rfl, by rw [hN]; exact hi, ?_, Nat.zero_le _⟩
  rw [hlen]
  simp [openedState, openedFile, hi]

theorem fsRead_image (h : ValidInputs fs) (hg : NoGap fs) (boot : Nat → UInt8) {loc : Locals}
    (hloc : loc.blockSpot.toNat < 2 ^ 32) {self i n : Nat} (hi : i < fs.length) (hn : n < 2 ^ 64)
    (buf : Nat → UInt8) :
    ∃ fuel k', fsRead FlatDisk.ops fuel loc self (openedState old fs boot i) 0 buf n =
      some (((min n fs[i].contents.length : Nat) : Int), writeAt buf 0 (fs[i].contents.take n), k') := by
  have hc := h.count
  have hopen := @openedState_opened old _ h boot _ hi
  have hN : numInodes (openedState old fs boot i).device.bytes = fs.length := numInodes_image h
  have hlen : byteLen (openedState old fs boot i).device.bytes i = fs[i].contents.length := byteLen_image h hi
  have hwf : WellFormed (openedState old fs boot i).device :=
    (@wellFormed_image old _ h hg).congr (MetaEq.refl _) rfl
  have hpos : ((openedState old fs boot i).fileArray 0).filePos = 0 := rfl
  obtain ⟨fuel, d', he, -⟩ := @fsRead_run _ _ _ n self _ buf
    hwf rfl hopen (by omega) hloc 0 (min n fs[i].contents.length) rfl (by rw [hlen, Nat.sub_zero])
    (by rw [hN]; omega)
  have hbytes : readAt (fileAt (openedState old fs boot i).device.bytes i) 0 (min n fs[i].contents.length) =
      fs[i].contents.take n := by
    refine List.ext_getElem (by simp) fun p hp hp' => ?_
    rw [readAt_length] at hp
    rw [readAt_getElem, Nat.zero_add, List.getElem_take]
    exact fileAt_image h hg hi (by omega)
  rw [hbytes] at he
  exact ⟨fuel, _, he⟩

theorem roundTrips_of_noGap (h : ValidInputs fs) (hg : NoGap fs) (boot : Nat → UInt8) (intSpot : Fin 32)
    {oloc : OpenLocals} {loc : Locals} (holoc : oloc.readSize.toNat < 2 ^ 32)
    (hloc : loc.blockSpot.toNat < 2 ^ 32) (self : Nat) : RoundTrips old boot intSpot oloc loc self fs := by
  refine ⟨blocks old fs, mountedState old fs boot intSpot, mkfs_eq h, fsMount_image h boot intSpot, fun f hf => ?_⟩
  obtain ⟨i, hi, rfl⟩ := List.mem_iff_getElem.mp hf
  have hs := h.size _ hf
  refine ⟨0, openedState old fs boot i, fsOpen_image h boot intSpot holoc hi, fun arg => ?_, fun buf n hn => ?_⟩
  · simp only [fsIoctl, fsGetlen, openedState, Function.update_self, openedFile, List.getElem?_eq_getElem hi,
      Option.map_some, Option.getD_some]
    rw [toInt_of_lt (by omega)]
  · exact fsRead_image h hg boot hloc hi hn buf

end RoundTrip

section Gap

variable {old : Nat → Nat → UInt8} {fs : List Input} {i : Nat} {t : Transfer Disk}

/-- The loop of fs_read on the i-th file of an image, from position 0 on. -/
structure Reading (old : Nat → Nat → UInt8) (fs : List Input) (i len : Nat) (t : Transfer Disk) : Prop where
  bytes : t.io.bytes = image old fs
  size : t.io.size = (imageDisk old fs).size
  fileSize : t.fd.fileSize = len
  count : t.count = t.filePos
  rest : t.filePos + t.n = len
  blockSpot : t.blockSpot < 2 ^ 32

/-- A round reads what the device has at the place it was left at. -/
theorem Reading.step (h : ValidInputs fs) (hi : i < fs.length) (hr : Reading old fs i fs[i].contents.length t)
    (hn : 0 < t.n) {d1 : Disk} {m : Nat} (hd : sought (imageDisk old fs) i t.filePos t.io = d1)
    (hm : m = min (part t.filePos t.n) (d1.size - d1.pos)) :
    ∃ t', blockStep FlatDisk.ops (readChunk FlatDisk.ops) fs.length i t = t' ∧
      t'.filePos = t.filePos + m ∧ t'.n = t.n - m ∧ t'.buf = writeAt t.buf t.count (readAt d1.bytes d1.pos m) ∧
      Reading old fs i fs[i].contents.length t' := by
  have hc := h.count
  have hs := h.size fs[i] (List.getElem_mem hi)
  have hN : numInodes (imageDisk old fs).bytes = fs.length := numInodes_image h
  have hlen : byteLen (imageDisk old fs).bytes i = fs[i].contents.length := byteLen_image h hi
  have hsz := @imageDisk_size old _ h
  have hrest := hr.rest
  have hcount := hr.count
  have hpart := part_le (p := t.filePos) (n := t.n)
  have hmeta : MetaEq (imageDisk old fs).bytes t.io.bytes := by
    rw [hr.bytes]
    exact MetaEq.refl _
  have hbytes : d1.bytes = image old fs ∧ d1.size = (imageDisk old fs).size := by
    rw [← hd, sought]
    simp only [ioseek, Io.ioctl, FlatDisk.ops, FlatDisk.ctl, FlatDisk.setpos]
    split
    · exact ⟨hr.bytes, hr.size⟩
    · exact ⟨hr.bytes, hr.size⟩
  have hch : readChunk FlatDisk.ops t.count (part t.filePos t.n) t.buf (sought (imageDisk old fs) i t.filePos t.io) =
      ((m : Int), writeAt t.buf t.count (readAt d1.bytes d1.pos m), { d1 with pos := d1.pos + m }) := by
    rw [hd, hm]
    rfl
  have hstep := blockStep_eq (by rw [hN]; omega) (by rw [hlen]; omega) hmeta hr.size (by rw [hN]; exact hi)
    (by rw [hN]; omega) hn (by rw [hlen]; omega) (by omega) hr.blockSpot (by rw [hlen]; exact hr.fileSize)
    (by omega) hch
  rw [hN] at hstep
  refine ⟨_, hstep, rfl, rfl, rfl, hbytes.1, hbytes.2, hr.fileSize, ?_, ?_, le32_lt _ _⟩
  · simp only
    omega
  · simp only
    omega

theorem dataOff_image (h : ValidInputs fs) (hi : i < fs.length) {p : Nat} (hp : p < fs[i].contents.length) :
    dataOff (imageDisk old fs).bytes i p = 4096 + 4096 * fs.length + 4096 * (numbered fs i + p / 4096) + p % 4096 := by
  have hN : numInodes (imageDisk old fs).bytes = fs.length := numInodes_image h
  have hno : blockNo (imageDisk old fs).bytes i (p / 4096) = numbered fs i + p / 4096 :=
    blockNo_image h hi (lt_numDataBlocks hi (by omega)).1
  rw [dataOff, hN, hno]

/-- When the last file with contents is numbered by no more blocks too high than
it has, one of its blocks is looked for exactly at the end of the device: there
nothing is read, and the loop of fs_read does not end. -/
theorem blockLoop_stuck (h : ValidInputs fs) (hi : i < fs.length) {gap b : Nat}
    (hsize : (imageDisk old fs).size = 4096 + 4096 * fs.length + 4096 * (writtenBefore fs i + written fs[i]))
    (hgap : numbered fs i = writtenBefore fs i + gap) (hpos : 1 ≤ gap) (hb : b + gap ≤ written fs[i])
    (hr : Reading old fs i fs[i].contents.length t) (ht : t.filePos = 4096 * b) (fuel : Nat) :
    blockLoop FlatDisk.ops (readChunk FlatDisk.ops) fs.length i fuel t = none := by
  induction fuel generalizing t b with
  | zero => rfl
  | succ fuel ih =>
      have hlt : 4096 * b < fs[i].contents.length := by
        rw [written] at hb
        omega
      have hrest := hr.rest
      have hn : t.n > 0 := by omega
      have hoff : dataOff (imageDisk old fs).bytes i t.filePos =
          4096 + 4096 * fs.length + 4096 * (numbered fs i + b) := by
        rw [dataOff_image h hi (by omega), ht]
        omega
      have hs := hr.size
      have hsought : sought (imageDisk old fs) i t.filePos t.io =
          { t.io with pos := 4096 + 4096 * fs.length + 4096 * (numbered fs i + b) } := by
        rw [sought, hoff, ioseek_ops (by simp only; omega)]
      obtain ⟨t', hstep, hfp, -, -, hr'⟩ := hr.step h hi hn hsought rfl
      rw [blockLoop, if_pos hn, hstep]
      simp only at hfp
      by_cases hend : b + gap = written fs[i]
      · have hm : t.io.size - (4096 + 4096 * fs.length + 4096 * (numbered fs i + b)) = 0 := by omega
        rw [hm, Nat.min_zero, Nat.add_zero] at hfp
        exact ih hb hr' (hfp.trans ht)
      · have hpart : part t.filePos t.n = 4096 := by
          rw [written] at hb hend
          rw [part, if_pos (by omega)]
          omega
        rw [hpart] at hfp
        exact ih (b := b + 1) (by omega) hr' (by omega)

/-- What has been read stays in the buffer. -/
theorem blockLoop_keeps (h : ValidInputs fs) (hi : i < fs.length) (hr : Reading old fs i fs[i].contents.length t)
    {q fuel : Nat} (hq : q < t.count) {t' : Transfer Disk}
    (he : blockLoop FlatDisk.ops (readChunk FlatDisk.ops) fs.length i fuel t = some t') : t'.buf q = t.buf q := by
  induction fuel generalizing t with
  | zero => cases he
  | succ fuel ih =>
      rw [blockLoop] at he
      split at he
      · obtain ⟨t₁, hstep, hfp, -, hbuf, hr₁⟩ := hr.step h hi ‹_› rfl rfl
        have hc := hr.count
        have hc₁ := hr₁.count
        rw [hstep] at he
        rw [ih hr₁ (by omega) he, hbuf, writeAt_outside (.inl hq)]
      · rw [← Option.some.inj he]

/-- When it is numbered by more blocks too high, the seek fails and fs_read
returns bytes of the inode, among them one that mkfs never assigned. -/
theorem blockLoop_wrong (h : ValidInputs fs) (hi : i < fs.length) {gap : Nat}
    (hsize : (imageDisk old fs).size = 4096 + 4096 * fs.length + 4096 * (writtenBefore fs i + written fs[i]))
    (hgap : numbered fs i = writtenBefore fs i + gap) (hlt : written fs[i] < gap) (hne : fs[i].contents ≠ [])
    (hr : Reading old fs i fs[i].contents.length t) (ht : t.filePos = 0) {fuel : Nat} {t' : Transfer Disk}
    (he : blockLoop FlatDisk.ops (readChunk FlatDisk.ops) fs.length i fuel t = some t') :
    t'.buf (4 * (fs[i].contents.length / 4096)) =
      old i (4 + 4 * numDataBlocksForFile fs[i].contents.length) := by
  have hc := h.count
  have hle := numbered_le_written (Nat.le_of_lt hi)
  have hlen := List.length_pos_of_ne_nil hne
  have hnb : numDataBlocksForFile fs[i].contents.length = fs[i].contents.length / 4096 + 1 := rfl
  rw [written] at hlt
  have hrest := hr.rest
  have hn : t.n > 0 := by omega
  have hs := hr.size
  rw [written] at hsize
  have hpos : 4096 + i * 4096 + (4 + t.filePos / 4096 * 4) + 4 = 4096 * (1 + i) + 8 := by omega
  have hsought : sought (imageDisk old fs) i t.filePos t.io = { t.io with pos := 4096 * (1 + i) + 8 } := by
    rw [sought, hpos, dataOff_image h hi (by omega)]
    simp only [ioseek, Io.ioctl, FlatDisk.ops, FlatDisk.ctl, FlatDisk.setpos]
    rw [if_pos (by omega)]
  cases fuel with
  | zero => cases he
  | succ fuel =>
      obtain ⟨m, hmin⟩ : ∃ m, m = min (part t.filePos t.n) (t.io.size - (4096 * (1 + i) + 8)) := ⟨_, rfl⟩
      obtain ⟨t₁, hstep, hfp, -, hbuf, hr₁⟩ := hr.step h hi hn hsought hmin
      simp only at hbuf
      have hpart : 4 * (fs[i].contents.length / 4096) < part t.filePos t.n := by
        rw [part]
        split <;> omega
      have hm : 4 * (fs[i].contents.length / 4096) < m := by omega
      have hcount := hr.count
      have hcount₁ := hr₁.count
      have hblk : (blocks old fs)[1 + i]? = some (inode (old i) (numbered fs i) fs[i].contents.length) := by
        rw [blocks_inode i hi, List.getElem?_eq_getElem hi, Option.map_some]
      have hbyte := image_byte h hblk (x := 4 + 4 * numDataBlocksForFile fs[i].contents.length) (by omega)
      rw [inode_old (by omega)] at hbyte
      have hin := @writeAt_inside t.buf t.count (readAt t.io.bytes (4096 * (1 + i) + 8) m)
        (4 * (fs[i].contents.length / 4096)) (by rw [readAt_length]; exact hm)
      rw [blockLoop, if_pos hn, hstep] at he
      rw [blockLoop_keeps h hi hr₁ (by omega) he, hbuf]
      rw [readAt_getElem, hcount, ht, Nat.zero_add] at hin
      rw [hcount, ht, hin, hr.bytes, ← Option.some.inj hbyte]
      congr 1
      omega

/-- The last file with contents, when its blocks are numbered too high. -/
structure Misplaced (fs : List Input) (i : Nat) (hi : i < fs.length) : Prop where
  contents : fs[i].contents ≠ []
  last : ∀ f ∈ fs.drop (i + 1), f.contents = []
  gap : writtenBefore fs i < numbered fs i

theorem exists_misplaced (hg : ¬ NoGap fs) : ∃ i hi, Misplaced fs i hi := by
  classical
  rw [NoGap, List.pairwise_iff_getElem] at hg
  push Not at hg
  obtain ⟨j, k, hj, hk, hjk, hne, hmul⟩ := hg
  let P : Nat → Prop := fun i => ∃ hi : i < fs.length, fs[i].contents ≠ []
  have hPk : P k := ⟨hk, hne⟩
  obtain ⟨hi, hnei⟩ : P (Nat.findGreatest P fs.length) := Nat.findGreatest_spec (Nat.le_of_lt hk) hPk
  have hki : k ≤ Nat.findGreatest P fs.length := Nat.le_findGreatest (Nat.le_of_lt hk) hPk
  refine ⟨Nat.findGreatest P fs.length, hi, hnei, fun f hf => ?_, ?_⟩
  · obtain ⟨n, hn, rfl⟩ := List.mem_iff_getElem.mp hf
    rw [List.length_drop] at hn
    by_contra hcon
    rw [List.getElem_drop] at hcon
    exact Nat.findGreatest_is_greatest (P := P) (n := fs.length) (k := Nat.findGreatest P fs.length + 1 + n) (by omega)
      (by omega) ⟨by omega, hcon⟩
  · refine blocksBefore_lt (j := j) (fun f => ?_) (Nat.le_of_lt hi) (by omega) ?_
    · rw [numDataBlocksForFile, written]
      omega
    · simp only [numDataBlocksForFile, written]
      omega

theorem Misplaced.size (h : ValidInputs fs) {hi : i < fs.length} (hm : Misplaced fs i hi) :
    (imageDisk old fs).size = 4096 + 4096 * fs.length + 4096 * (writtenBefore fs i + written fs[i]) := by
  rw [imageDisk_size h, writtenBefore, blocksBefore_length (i := i + 1), blocksBefore_succ hi]
  intro f hf
  simp [written, hm.last f hf]

/-- A misplaced file is not read back, unless what mkfs left in the inode happens
to be the right byte. -/
theorem Misplaced.not_roundTrips (h : ValidInputs fs) {hi : i < fs.length} (hm : Misplaced fs i hi)
    (hold : ∀ c ∈ fs[i].contents[4 * (fs[i].contents.length / 4096)]?,
      writtenBefore fs i + written fs[i] < numbered fs i →
        old i (4 + 4 * numDataBlocksForFile fs[i].contents.length) ≠ c)
    (boot : Nat → UInt8) (intSpot : Fin 32) {oloc : OpenLocals} {loc : Locals}
    (holoc : oloc.readSize.toNat < 2 ^ 32) (hloc : loc.blockSpot.toNat < 2 ^ 32) (self : Nat) :
    ¬ RoundTrips old boot intSpot oloc loc self fs := by
  rintro ⟨bss, k, hmk, hmount, hfiles⟩
  have hs := h.size fs[i] (List.getElem_mem hi)
  have hsz := @imageDisk_size old _ h
  rw [mkfs_eq h] at hmk
  obtain rfl := Option.some.inj hmk
  have hmount' := (@fsMount_image old _ h boot intSpot).symm.trans hmount
  obtain rfl := (Prod.mk.inj hmount').2
  obtain ⟨io, k', hopen, -, hread⟩ := hfiles fs[i] (List.getElem_mem hi)
  rw [fsOpen_image h boot intSpot holoc hi] at hopen
  obtain ⟨hio, rfl⟩ := by simpa using hopen
  subst hio
  obtain ⟨fuel, k'', he⟩ := hread (fun _ => 0) fs[i].contents.length (by omega)
  have hopened := @openedState_opened old _ h boot _ hi
  have hN : numInodes (openedState old fs boot i).device.bytes = fs.length := numInodes_image h
  have hlen : byteLen (openedState old fs boot i).device.bytes i = fs[i].contents.length := byteLen_image h hi
  have hpos : ((openedState old fs boot i).fileArray 0).filePos = 0 := rfl
  have hsize : (openedState old fs boot i).device.size = (imageDisk old fs).size := rfl
  rw [fsRead, fsTransfer_eq (m := fs[i].contents.length) _ fuel (by rw [hN, hsize]; omega) rfl hopened (by omega)
    (by rw [hlen, hpos]; omega), hN] at he
  obtain ⟨t', ht', hres⟩ := Option.map_eq_some_iff.mp he
  have hr : Reading old fs i fs[i].contents.length
      (entered (openedState old fs boot i) 0 loc (fun _ => 0) fs[i].contents.length) :=
    ⟨rfl, rfl, by rw [← hlen]; exact hopened.fileSize, rfl, by simp [entered, hpos], hloc⟩
  have hlt := hm.gap
  by_cases hgap : writtenBefore fs i + written fs[i] < numbered fs i
  · have hbyte := @blockLoop_wrong _ _ _ _ h hi (numbered fs i - writtenBefore fs i) (hm.size h) (by omega) (by omega)
      hm.contents hr rfl _ _ ht'
    have hq : 4 * (fs[i].contents.length / 4096) < fs[i].contents.length := by
      have := List.length_pos_of_ne_nil hm.contents
      omega
    have hbuf : t'.buf = writeAt (fun _ => 0) 0 fs[i].contents := by
      rw [List.take_length] at hres
      exact (Prod.mk.inj (Prod.mk.inj hres).2).1
    have hin := writeAt_inside (d := fun _ => 0) (a := 0) hq
    rw [Nat.zero_add, ← hbuf, hbyte] at hin
    exact hold _ (List.getElem?_eq_getElem hq) hgap hin
  · have hnone := @blockLoop_stuck _ _ _ _ h hi (numbered fs i - writtenBefore fs i) 0 (hm.size h) (by omega)
      (by omega) (by omega) hr rfl fuel
    rw [hnone] at ht'
    cases ht'

end Gap

/-- Files come back from the image, whatever uninitialised memory held when it was
built, exactly when no file with contents follows one whose size is a multiple of
the block size. -/
theorem roundTrips_iff (fs : List Input) (h : ValidInputs fs) (boot : Nat → UInt8) (intSpot : Fin 32)
    (oloc : OpenLocals) (loc : Locals) (holoc : oloc.readSize.toNat < 2 ^ 32)
    (hloc : loc.blockSpot.toNat < 2 ^ 32) (self : Nat) :
    (∀ old, RoundTrips old boot intSpot oloc loc self fs) ↔ NoGap fs := by
  constructor
  · intro hall
    by_contra hg
    obtain ⟨i, hi, hm⟩ := exists_misplaced hg
    -- the byte left in the inode is chosen different from that of the file
    refine @Misplaced.not_roundTrips (fun _ _ => if fs[i].contents[4 * (fs[i].contents.length / 4096)]? = some 0
      then 1 else 0) _ _ h hi hm ?_ boot intSpot _ _ holoc hloc self (hall _)
    intro c hc _
    rw [Option.mem_def.mp hc]
    split
    · rename_i hz
      rw [Option.some.inj hz]
      decide
    · rename_i hz
      exact fun hz' => hz (by rw [hz'])
  · exact fun hg old => roundTrips_of_noGap h hg boot intSpot holoc hloc self

instance (fs : List Input) : Decidable (NoGap fs) :=
  inferInstanceAs (Decidable (fs.Pairwise (fun f g => g.contents = [] ∨ f.contents.length % 4096 ≠ 0)))

theorem roundTrips_iff_lastEmpty :
    RoundTrips (fun _ _ => 0) (fun _ => 0) 0 ⟨none, 0⟩ ⟨0, 0, 0⟩ 1 [⟨[98], [7]⟩, ⟨userBin ++ [97], []⟩] :=
  (roundTrips_iff [⟨[98], [7]⟩, ⟨userBin ++ [97], []⟩]
    ⟨by decide +kernel, by decide +kernel, by decide +kernel, by decide +kernel, by decide +kernel, by decide +kernel⟩
    (fun _ => 0) 0 ⟨none, 0⟩ ⟨0, 0, 0⟩ (by decide) (by decide) 1).mpr (by decide) _

/-- An empty file counts for a block but has none, so the file after it is looked
for one block too far. -/
theorem roundTrips_firstEmpty_fails :
    ValidInputs [⟨[97], []⟩, ⟨[98], [7]⟩] ∧
      ¬ RoundTrips (fun _ _ => 0) (fun _ => 0) 0 ⟨none, 0⟩ ⟨0, 0, 0⟩ 1 [⟨[97], []⟩, ⟨[98], [7]⟩] := by
  have hv : ValidInputs [⟨[97], []⟩, ⟨[98], [7]⟩] :=
    ⟨by decide +kernel, by decide +kernel, by decide +kernel, by decide +kernel, by decide +kernel, by decide +kernel⟩
  have hm : Misplaced [⟨[97], []⟩, ⟨[98], [7]⟩] 1 (by decide) := ⟨by decide, by decide, by decide⟩
  exact ⟨hv, hm.not_roundTrips hv (fun _ _ h => absurd h (by decide)) _ _ (by decide) (by decide) _⟩

end RiscvKernel.RoundTrip
