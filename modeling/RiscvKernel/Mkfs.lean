import RiscvKernel.KfsFile

namespace RiscvKernel.Mkfs

open Io Lib.Bytes FlatDisk Kfs KfsFile

/-- An argument of mkfs and the host file behind it. -/
structure Input where
  path : List UInt8
  contents : List UInt8

/-- The string ../user/bin/ -/
def upUserBin : List UInt8 := [46, 46, 47, 117, 115, 101, 114, 47, 98, 105, 110, 47]

/-- The string user/bin/ -/
def userBin : List UInt8 := [117, 115, 101, 114, 47, 98, 105, 110, 47]

def shortname (arg : List UInt8) : List UInt8 :=
  if arg.take 12 = upUserBin then arg.drop 12
  else if arg.take 9 = userBin then arg.drop 9
  else arg

def strncpy (s : List UInt8) (n : Nat) : List UInt8 := s.take n ++ List.replicate (n - s.length) 0

def dentry (inode : Nat) (name : List UInt8) : List UInt8 :=
  strncpy name 32 ++ leBytes inode ++ List.replicate 28 0

/-- The first loop of mkfs: none when the assertion on a name fails. -/
def addDentries : Nat → List Input → Option (List (List UInt8))
  | _, [] => some []
  | numberInodes, f :: fs => do
      if 47 ∈ shortname f.path then none
      let ds ← addDentries (numberInodes + 1) fs
      return dentry numberInodes (shortname f.path) :: ds

/-- struct boot_block_t after the first two loops. -/
def bootBlock (dentries : List (List UInt8)) (dataBlockIdx : Nat) : List UInt8 :=
  leBytes dentries.length ++ leBytes dentries.length ++ leBytes dataBlockIdx ++ List.replicate 52 0 ++
    dentries.flatten ++ List.replicate (64 * (63 - dentries.length)) 0

def numDataBlocksForFile (numBytes : Nat) : Nat := numBytes / 4096 + 1

/-- An element of inode_array; what the second loop does not assign is whatever
the array held before. -/
def inode (old : Nat → UInt8) (dataBlockIdx numBytes : Nat) : List UInt8 :=
  leBytes numBytes ++
    (List.range (numDataBlocksForFile numBytes)).flatMap (fun j => leBytes (dataBlockIdx + j)) ++
    readAt old (4 + 4 * numDataBlocksForFile numBytes) (4092 - 4 * numDataBlocksForFile numBytes)

/-- The second loop: inode_array and the final data_block_idx. -/
def addInodes (old : Nat → Nat → UInt8) : Nat → Nat → List Input → List (List UInt8) × Nat
  | _, dataBlockIdx, [] => ([], dataBlockIdx)
  | inodeIdx, dataBlockIdx, f :: fs =>
      let r := addInodes old (inodeIdx + 1) (dataBlockIdx + numDataBlocksForFile f.contents.length) fs
      (inode (old inodeIdx) dataBlockIdx f.contents.length :: r.1, r.2)

/-- The inner loop of the third: the blocks written for a file, where buf keeps
what the last read has not overwritten. -/
def addData (buf rest : List UInt8) : List (List UInt8) :=
  if rest = [] then []
  else
    let chunk := rest.take 4096
    let buf := chunk ++ buf.drop chunk.length
    buf :: addData buf (rest.drop 4096)
termination_by rest.length
decreasing_by
  have := List.length_pos_of_ne_nil ‹¬rest = []›
  rw [List.length_drop]
  omega

def zeroBlock : List UInt8 := List.replicate 4096 0

/-- The blocks of the image in the order in which mkfs writes them; none when an
assertion fails or a table overflows. -/
def mkfs (old : Nat → Nat → UInt8) (fs : List Input) : Option (List (List UInt8)) := do
  if 63 < fs.length ∨ ∃ f ∈ fs, 1023 < numDataBlocksForFile f.contents.length then none
  let dentries ← addDentries 0 fs
  let inodes := addInodes old 0 0 fs
  return bootBlock dentries inodes.2 ::
    (inodes.1 ++ fs.flatMap (fun f => addData zeroBlock f.contents))

section Sizes

/-- How many blocks mkfs writes for a file. -/
def written (f : Input) : Nat := (f.contents.length + 4095) / 4096

/-- The blocks of the files before the i-th, when each file has g many. -/
def blocksBefore (g : Input → Nat) (fs : List Input) (i : Nat) : Nat := ((fs.take i).map g).sum

/-- The number mkfs gives to the first block of the i-th file. -/
def numbered : List Input → Nat → Nat := blocksBefore (fun f => numDataBlocksForFile f.contents.length)

def writtenBefore : List Input → Nat → Nat := blocksBefore written

variable {g g' : Input → Nat} {fs : List Input} {i j : Nat}

theorem blocksBefore_succ (hi : i < fs.length) : blocksBefore g fs (i + 1) = blocksBefore g fs i + g fs[i] := by
  rw [blocksBefore, blocksBefore, List.take_add_one, List.getElem?_eq_getElem hi, List.map_append, List.sum_append]
  simp

theorem blocksBefore_mono (h : i ≤ j) : blocksBefore g fs i ≤ blocksBefore g fs j := by
  obtain ⟨k, rfl⟩ := Nat.exists_eq_add_of_le h
  simp [blocksBefore, List.take_add]

theorem blocksBefore_congr (h : ∀ f ∈ fs.take i, g f = g' f) : blocksBefore g fs i = blocksBefore g' fs i := by
  rw [blocksBefore, blocksBefore, List.map_congr_left h]

theorem blocksBefore_le {m : Nat} (h : ∀ f ∈ fs, g f ≤ m) (i : Nat) : blocksBefore g fs i ≤ fs.length * m := by
  have hle : ((fs.take i).map g).sum ≤ ((fs.take i).map g).length • m := by
    refine List.sum_le_card_nsmul _ m fun x hx => ?_
    obtain ⟨f, hf, rfl⟩ := List.mem_map.mp hx
    exact h f (List.mem_of_mem_take hf)
  refine Nat.le_trans hle (Nat.mul_le_mul_right _ ?_)
  simp

theorem blocksBefore_lt (h : ∀ f, g f ≤ g' f) (hi : i ≤ fs.length) (hj : j < i) (hlt : g fs[j] < g' fs[j]) :
    blocksBefore g fs i < blocksBefore g' fs i := by
  refine List.sum_lt_sum _ _ (fun f _ => h f) ⟨fs[j], ?_, hlt⟩
  exact List.mem_iff_getElem.mpr ⟨j, by rw [List.length_take]; omega, List.getElem_take⟩

theorem blocksBefore_length (h : ∀ f ∈ fs.drop i, g f = 0) : blocksBefore g fs fs.length = blocksBefore g fs i := by
  have hz : ((fs.drop i).map g).sum = 0 := by
    rw [List.map_congr_left h]
    simp
  have happ := congrArg (fun l => (l.map g).sum) (List.take_append_drop i fs)
  simp only [List.map_append, List.sum_append, hz] at happ
  rw [blocksBefore, List.take_length, blocksBefore]
  omega

theorem numbered_le_written (hi : i ≤ fs.length) : numbered fs i ≤ writtenBefore fs i + i := by
  induction i with
  | zero => simp [numbered, writtenBefore, blocksBefore]
  | succ i ih =>
      have := ih (by omega)
      rw [numbered, writtenBefore] at this ⊢
      rw [blocksBefore_succ hi, blocksBefore_succ hi, numDataBlocksForFile, written]
      omega

end Sizes

theorem addInodes_length (old : Nat → Nat → UInt8) (i idx : Nat) (fs : List Input) :
    (addInodes old i idx fs).1.length = fs.length := by
  induction fs generalizing i idx with
  | nil => rfl
  | cons f fs ih => simp [addInodes, ih]

theorem addInodes_getElem? (old : Nat → Nat → UInt8) (i idx : Nat) (fs : List Input) (j : Nat) :
    (addInodes old i idx fs).1[j]? =
      fs[j]?.map (fun f => inode (old (i + j)) (idx + numbered fs j) f.contents.length) := by
  induction fs generalizing i idx j with
  | nil => simp [addInodes]
  | cons f fs ih =>
      cases j with
      | zero => simp [addInodes, numbered, blocksBefore]
      | succ j =>
          simp only [addInodes, List.getElem?_cons_succ, ih]
          simp [numbered, blocksBefore, Nat.add_assoc, Nat.add_comm 1 j]

theorem inode_length {old : Nat → UInt8} {idx n : Nat} (h : n < 1023 * 4096) : (inode old idx n).length = 4096 := by
  have : numDataBlocksForFile n ≤ 1023 := by unfold numDataBlocksForFile; omega
  simp [inode, leBytes, List.length_flatMap]
  omega

/-- data_block_num[b] of an inode. -/
theorem inode_blockNum {old : Nat → UInt8} {idx n b : Nat} (hb : b < numDataBlocksForFile n) :
    ((inode old idx n).drop (4 + 4 * b)).take 4 = leBytes (idx + b) := by
  have huni : ∀ bs ∈ (List.range (numDataBlocksForFile n)).map (fun j => leBytes (idx + j)), bs.length = 4 := by
    intro bs hbs
    obtain ⟨j, -, rfl⟩ := List.mem_map.mp hbs
    rfl
  have hlen := length_flatten_uniform huni
  rw [List.length_map, List.length_range] at hlen
  rw [inode, List.flatMap_def, List.append_assoc, ← List.drop_drop, List.drop_left' (by rfl),
    List.drop_append_of_le_length (by omega), drop_flatten huni, List.drop_eq_getElem_cons (by simpa using hb),
    List.flatten_cons, List.append_assoc, List.take_left' (by simp [leBytes])]
  simp

/-- What mkfs leaves as it was in an inode follows the block numbers. -/
theorem inode_old {old : Nat → UInt8} {idx n : Nat} (hn : numDataBlocksForFile n < 1023) :
    (inode old idx n)[4 + 4 * numDataBlocksForFile n]? = some (old (4 + 4 * numDataBlocksForFile n)) := by
  have hlen : (leBytes n ++ (List.range (numDataBlocksForFile n)).flatMap (fun j => leBytes (idx + j))).length =
      4 + 4 * numDataBlocksForFile n := by
    simp [leBytes, List.length_flatMap]
    omega
  rw [inode, List.getElem?_append_right (by omega), hlen, Nat.sub_self, List.getElem?_eq_getElem (by simp; omega),
    readAt_getElem, Nat.add_zero]

theorem addData_length (buf rest : List UInt8) : (addData buf rest).length = (rest.length + 4095) / 4096 := by
  fun_induction addData buf rest with
  | case1 buf => simp
  | case2 buf rest hne chunk buf' ih =>
      have := List.length_pos_of_ne_nil hne
      rw [List.length_cons, ih, List.length_drop]
      omega

theorem addData_block_length {buf rest : List UInt8} (hb : buf.length = 4096) :
    ∀ bs ∈ addData buf rest, bs.length = 4096 := by
  fun_induction addData buf rest with
  | case1 buf => simp
  | case2 buf rest hne chunk buf' ih =>
      have hlen : buf'.length = 4096 := by
        simp [buf', chunk]
        omega
      intro bs hbs
      rcases List.mem_cons.mp hbs with rfl | hbs
      · exact hlen
      · exact ih hlen bs hbs

/-- The file is found in the blocks written for it. -/
theorem addData_getElem? {buf rest : List UInt8} {x : Nat} (hx : x < 4096) :
    ∀ b, 4096 * b + x < rest.length → (addData buf rest)[b]?.bind (·[x]?) = rest[4096 * b + x]? := by
  fun_induction addData buf rest with
  | case1 buf => simp
  | case2 buf rest hne chunk buf' ih =>
      intro b h
      cases b with
      | zero =>
          have hlt : x < chunk.length := by
            simp [chunk]
            omega
          simp only [List.getElem?_cons_zero, Option.bind_some, buf', List.getElem?_append_left hlt]
          simp [chunk, hx]
      | succ b =>
          rw [List.getElem?_cons_succ, ih b (by rw [List.length_drop]; omega), List.getElem?_drop]
          congr 1
          omega

theorem addDentries_some {fs : List Input} (h : ∀ f ∈ fs, 47 ∉ shortname f.path) (i : Nat) :
    addDentries i fs = some (fs.mapIdx (fun j f => dentry (i + j) (shortname f.path))) := by
  induction fs generalizing i with
  | nil => rfl
  | cons f fs ih =>
      simp only [addDentries, if_neg (h f (by simp)), ih (fun g hg => h g (by simp [hg])), Option.bind_eq_bind,
        Option.bind_some, List.mapIdx_cons, Nat.add_zero]
      simp [Nat.add_assoc, Nat.add_comm 1]

/-- What the arguments may be: up to 63 files with distinct names of at most 31
characters, each file small enough for an inode. -/
structure ValidInputs (fs : List Input) : Prop where
  nonempty : 1 ≤ fs.length
  count : fs.length ≤ 63
  name_length : ∀ f ∈ fs, 1 ≤ (shortname f.path).length ∧ (shortname f.path).length ≤ 31
  name_chars : ∀ f ∈ fs, ∀ c ∈ shortname f.path, c ≠ 0 ∧ c ≠ 47
  distinct : (fs.map (fun f => shortname f.path)).Nodup
  size : ∀ f ∈ fs, f.contents.length < 1023 * 4096

section Blocks

variable (old : Nat → Nat → UInt8) (fs : List Input)

def dentries : List (List UInt8) := fs.mapIdx (fun j f => dentry j (shortname f.path))

def dataBlocks : List (List UInt8) := fs.flatMap (fun f => addData zeroBlock f.contents)

def blocks : List (List UInt8) :=
  bootBlock (dentries fs) (addInodes old 0 0 fs).2 :: ((addInodes old 0 0 fs).1 ++ dataBlocks fs)

variable {old fs}

theorem mkfs_eq (h : ValidInputs fs) : mkfs old fs = some (blocks old fs) := by
  have hguard : ¬ (63 < fs.length ∨ ∃ f ∈ fs, 1023 < numDataBlocksForFile f.contents.length) := by
    rintro (hn | ⟨f, hf, hn⟩)
    · have := h.count
      omega
    · have := h.size f hf
      rw [numDataBlocksForFile] at hn
      omega
  rw [mkfs, if_neg hguard, addDentries_some (fun f hf hc => (h.name_chars f hf _ hc).2 rfl)]
  simp only [Option.bind_eq_bind, Option.bind_some, blocks, dentries, dataBlocks, Nat.zero_add]
  rfl

theorem dentry_length (i : Nat) (name : List UInt8) : (dentry i name).length = 64 := by
  simp [dentry, strncpy, leBytes]
  omega

theorem dentries_uniform : ∀ d ∈ dentries fs, d.length = 64 := by
  intro d hd
  obtain ⟨j, hj, rfl⟩ := List.mem_mapIdx.mp hd
  exact dentry_length _ _

theorem bootBlock_length (h : fs.length ≤ 63) (n : Nat) : (bootBlock (dentries fs) n).length = 4096 := by
  have hd : (dentries fs).flatten.length = 64 * fs.length := by
    rw [length_flatten_uniform dentries_uniform, dentries, List.length_mapIdx]
  have hn : (dentries fs).length = fs.length := List.length_mapIdx
  simp only [bootBlock, List.length_append, hd, hn, List.length_replicate, leBytes, List.length_cons,
    List.length_nil]
  omega

theorem blocks_uniform (h : ValidInputs fs) : ∀ bs ∈ blocks old fs, bs.length = 4096 := by
  intro bs hbs
  simp only [blocks, List.mem_cons, List.mem_append, dataBlocks, List.mem_flatMap] at hbs
  rcases hbs with rfl | hbs | ⟨f, hf, hbs⟩
  · exact bootBlock_length h.count _
  · obtain ⟨j, hj⟩ := List.getElem?_of_mem hbs
    rw [addInodes_getElem?] at hj
    obtain ⟨f, hf, rfl⟩ := Option.map_eq_some_iff.mp hj
    exact inode_length (h.size f (List.mem_of_getElem? hf))
  · exact addData_block_length List.length_replicate bs hbs

theorem dataBlocks_length : (dataBlocks fs).length = writtenBefore fs fs.length := by
  simp only [dataBlocks, List.length_flatMap, addData_length, writtenBefore, blocksBefore, List.take_length]
  rfl

theorem blocks_length : (blocks old fs).length = 1 + fs.length + writtenBefore fs fs.length := by
  simp only [blocks, List.length_cons, List.length_append, addInodes_length, dataBlocks_length]
  omega

theorem blocks_inode (i : Nat) :
    i < fs.length → (blocks old fs)[1 + i]? = fs[i]?.map (fun f => inode (old i) (numbered fs i) f.contents.length) := by
  intro hi
  rw [blocks, Nat.add_comm 1 i, List.getElem?_cons_succ, List.getElem?_append_left (by rw [addInodes_length]; exact hi),
    addInodes_getElem?, Nat.zero_add, Nat.zero_add]

theorem dataBlocks_getElem? {i b : Nat} (hi : i < fs.length) (hb : b < written fs[i]) :
    (dataBlocks fs)[writtenBefore fs i + b]? = (addData zeroBlock fs[i].contents)[b]? := by
  have hsum : writtenBefore fs i =
      (((fs.map (fun f => addData zeroBlock f.contents)).map List.length).take i).sum := by
    simp only [writtenBefore, blocksBefore, List.map_map, List.map_take]
    congr 2
    refine List.map_congr_left fun f _ => ?_
    simp only [Function.comp, addData_length, written]
  rw [dataBlocks, List.flatMap_def, hsum, ← List.getElem?_drop, List.drop_sum_flatten,
    List.drop_eq_getElem_cons (by simpa using hi), List.flatten_cons, List.getElem?_append_left]
  · simp
  · simpa [addData_length, written] using hb

theorem blocks_data {i b : Nat} (hi : i < fs.length) (hb : b < written fs[i]) :
    (blocks old fs)[1 + fs.length + (writtenBefore fs i + b)]? =
      (addData zeroBlock fs[i].contents)[b]? := by
  rw [blocks, Nat.add_assoc, Nat.add_comm 1, List.getElem?_cons_succ,
    List.getElem?_append_right (by rw [addInodes_length]; omega), addInodes_length, Nat.add_sub_cancel_left,
    dataBlocks_getElem? hi hb]

end Blocks

end RiscvKernel.Mkfs
