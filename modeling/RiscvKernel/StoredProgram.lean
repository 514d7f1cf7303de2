import RiscvKernel.FileSession
import RiscvKernel.ElfImage
import RiscvKernel.ExecFailure
import RiscvKernel.ElfBounds

namespace RiscvKernel.StoredProgram

open Io Lib.Bytes SleepLock FlatDisk Kfs KfsFile KfsRun KfsRounds Mkfs RoundTrip DiskView KfsStack FileSession
open ElfLoad (VmOps Outcome processExec)
open Vioblk (VioblkDevice hardware)
open Literal (iolitOps)

variable {σ μ : Type}

/-! Programs that are loaded from the file system. -/

section Rounds

variable {d0 : Disk} {i pos m : Nat} {chunk : Chunk Disk} {t : Transfer Disk} (hwf : WellFormed d0)
  (hi : i < numInodes d0.bytes)
include hwf hi

theorem blockStep_n (hfull : FullChunk d0 i chunk) (h : TransferBounds.LoopInv d0 i pos m t)
    (hnw : 4096 * (numInodes d0.bytes + 1) < 2 ^ 32) (hpos : pos + m ≤ byteLen d0.bytes i) (hn : 0 < t.n) :
    (blockStep FlatDisk.ops chunk (numInodes d0.bytes) i t).n < t.n := by
  have hle : part t.filePos t.n ≤ t.n := part_le
  have hblk : t.filePos % 4096 + part t.filePos t.n ≤ 4096 := part_le_block
  have hpart := part_pos (p := t.filePos) hn
  have hcn := h.n
  have hfp := h.filePos
  have hlt : t.filePos < byteLen d0.bytes i := by omega
  have hsought := hwf.sought hi hlt h.size
  obtain ⟨buf', d', hch, -, -⟩ := hfull t.count (part t.filePos t.n) t.buf (sought d0 i t.filePos t.io) t.filePos
    (by rw [hsought]) (by rw [hsought]; exact h.size) (by rw [hsought]; exact h.bytes) hlt hblk
  rw [blockStep_eq hwf.inodes (hwf.len_le i hi) h.bytes h.size hi hnw hn (by omega) (by omega) h.spot h.fileSize
    (Nat.le_refl _) hch]
  simp only
  omega

variable (pos) in
/-- Every round moves at least one byte. -/
theorem blockLoop_ends (hfull : FullChunk d0 i chunk) (hnw : 0 < m → 4096 * (numInodes d0.bytes + 1) < 2 ^ 32)
    (hpos : pos + m ≤ byteLen d0.bytes i) (fuel : Nat) (h : TransferBounds.LoopInv d0 i pos m t) (hfuel : t.n < fuel) :
    ∃ t', blockLoop FlatDisk.ops chunk (numInodes d0.bytes) i fuel t = some t' := by
  induction fuel generalizing t with
  | zero => exact absurd hfuel (Nat.not_lt_zero _)
  | succ fuel ih =>
      rw [blockLoop]
      by_cases h0 : t.n > 0
      · have hcn := h.n
        have hfit := hnw (by omega)
        have hless := blockStep_n hwf hi hfull h hfit hpos h0
        rw [if_pos h0]
        exact ih (h.step hwf hi hfull hfit hpos h0) (by omega)
      · rw [if_neg h0]
        exact ⟨t, rfl⟩

end Rounds

section Fuel

variable {k : Globals Disk} {io : Fin 32} {n self fuel : Nat} {loc : Locals} {buf : Nat → UInt8} {chunk : Chunk Disk}

theorem fsTransfer_ends (hv : Valid k) (ho : KfsRun.IsOpen k io) (hfull : FullChunk k.globalIO (k.fileArray io).inode chunk)
    (hn : (k.fileArray io).filePos + n < 2 ^ 64) (hspot : loc.blockSpot.toNat < 2 ^ 32)
    (hf : 0 < (filesOf k).count io n → 4096 * (numInodes k.globalIO.bytes + 1) < 2 ^ 32) (hfuel : 1023 * 4096 < fuel) :
    ∃ r, fsTransfer FlatDisk.ops chunk fuel loc self k io buf n = some r := by
  have hop := hv.opened io ho
  have hcount := filesOf_count (n := n) hv ho
  have hlen := hv.image.len_le _ hop.inode_lt
  have hle := hop.filePos_le
  obtain ⟨t', ht'⟩ := blockLoop_ends (k.fileArray io).filePos hv.image hop.inode_lt hfull hf
    (t := entered k io loc buf ((filesOf k).count io n)) (by omega) fuel
    ⟨fun _ _ => rfl, rfl, Nat.zero_add _, rfl, hop.fileSize, hspot⟩ (by simp only [entered]; omega)
  rw [fsTransfer_eq chunk fuel hv.image.inodes hv.lock hop hn hcount, ht']
  exact ⟨_, rfl⟩

/-- A step that follows the byte arrays does so with any fuel beyond the length of a file. -/
theorem kfsOp_refines_fuel (hv : Valid k) {op : Op} (ho : KfsRun.IsOpen k op.io) (ha : (filesOf k).Admissible op)
    (hf : (filesOf k).OffsetFits (numInodes k.globalIO.bytes) op) (hfuel : 1023 * 4096 < fuel) :
    ∃ k', StepRefines self k op fuel k' := by
  obtain ⟨f, k', he, hrest⟩ := @kfsOp_refines _ self hv _ ho ha hf
  have hends : ∃ r, kfsOp fuel self k op = some r := by
    cases op with
    | read loc io buf n =>
        have hop := hv.opened io ho
        obtain ⟨r, hr⟩ := fsTransfer_ends hv ho (fullChunk_read hv.image hop.inode_lt) ha.2 ha.1 hf hfuel
        exact ⟨_, Option.map_eq_some_iff.mpr ⟨r, hr, rfl⟩⟩
    | write loc io buf n =>
        have hop := hv.opened io ho
        obtain ⟨r, hr⟩ := fsTransfer_ends hv ho (fullChunk_write hv.image hop.inode_lt) ha.2 ha.1 hf hfuel
        exact ⟨_, Option.map_eq_some_iff.mpr ⟨r, hr, rfl⟩⟩
    | setpos io pos => exact ⟨_, rfl⟩
  obtain ⟨r, hr⟩ := hends
  have hsame := (kfsOp_mono he (Nat.le_max_left f fuel)).symm.trans (kfsOp_mono hr (Nat.le_max_right f fuel))
  exact ⟨k', by rw [hr, ← hsame], hrest⟩

end Fuel

/-- fs_io_ops of the entry io. What a call finds in its uninitialised locals may depend on the
state; none is a call that does not return. -/
def fileOps (dev : IoOps σ) (fuel : Nat) (loc : Globals σ → Locals) (self : Nat) (io : Fin 32) : IoOps (Option (Globals σ)) where
  read := some fun s n => match s.bind fun k => fsRead dev fuel (loc k) self k io (fun _ => 0) n with
    | some (r, buf, k) => (r, readAt buf 0 r.toNat, some k)
    | none => (0, [], none)
  write := some fun s bs => match s.bind fun k => fsWrite dev fuel (loc k) self k io (ofList bs) bs.length with
    | some (r, _, k) => (r, some k)
    | none => (0, none)
  ctl := some fun s cmd arg => match s with
    | some k => ((fsIoctl (k.fileArray io) cmd arg).1, (fsIoctl (k.fileArray io) cmd arg).2.1,
        some (k.setFile io (fsIoctl (k.fileArray io) cmd arg).2.2))
    | none => (0, arg, none)

section File

variable {dev : IoOps σ} {R : σ → Disk → Prop} {old : Nat → Nat → UInt8} {fs : List Input} {boot : Nat → UInt8}
  {loc : Globals σ → Locals} {io : Fin 32} {fuel self : Nat} {f : Input}

/-- The entry io is open for a file of these bytes, at position p. -/
structure FileAt (R : σ → Disk → Prop) (old : Nat → Nat → UInt8) (fs : List Input) (boot : Nat → UInt8) (io : Fin 32)
    (file : List UInt8) (k : Globals Disk) (s : σ) (p : Nat) : Prop where
  kept : Kept old fs boot k
  device : R s k.globalIO
  isOpen : KfsRun.IsOpen k io
  contents : (filesOf k).contents ((filesOf k).inode io) = file
  pos : (filesOf k).pos io = p

section Calls

variable (hd : Shows dev R) (h : ValidInputs fs) (hfuel : 1023 * 4096 < fuel) {file : List UInt8} {k : Globals Disk}
  {s : σ} {p n q : Nat} (hat : FileAt R old fs boot io file k s p)
include hd h hfuel hat

variable (self) in
theorem FileAt.call {op : Op} (hio : op.io = io) (ha : (filesOf k).Admissible op) :
    ∃ k' s', KfsStack.call dev fuel self (onGlobals k s) op = some (((filesOf k).step op).1, onGlobals k' s') ∧
      R s' k'.globalIO ∧ Kept old fs boot k' ∧ KfsRun.IsOpen k' io ∧ filesOf k' = ((filesOf k).step op).2 := by
  have hc := h.count
  have ho : KfsRun.IsOpen k op.io := by rw [hio]; exact hat.isOpen
  have hf : (filesOf k).OffsetFits (numInodes k.globalIO.bytes) op := by
    rw [hat.kept.numInodes h]
    cases op with
    | read | write => exact fun _ => by omega
    | setpos => trivial
  obtain ⟨k', hcode, hfiles, hv', hm, hopen⟩ := @kfsOp_refines_fuel _ self _ hat.kept.toValid _ ho ha hf hfuel
  obtain ⟨s', he, hR'⟩ := call_shows hd hat.kept.toValid ho ha hf hat.device ((call_flat _ _ _ _).trans hcode)
  exact ⟨k', s', he, hR', ⟨hv', (kfsOp_boot hcode).trans hat.kept.boot, hat.kept.unchanged.trans hm⟩,
    (hopen io).mpr hat.isOpen, hfiles⟩

variable (self) in
theorem FileAt.read (hsize : file.length < 2 ^ 32) (hspot : ∀ k, (loc k).blockSpot.toNat < 2 ^ 32) (hn : p + n ≤ file.length) :
    ∃ k' s', ioread (fileOps dev fuel loc self io) (some (onGlobals k s)) n =
        ((n : Int), (file.drop p).take n, some (onGlobals k' s')) ∧ FileAt R old fs boot io file k' s' (p + n) := by
  have hpos := hat.pos
  have hcount : (filesOf k).count io n = n := by
    rw [Files.count, hat.contents, hpos]
    omega
  obtain ⟨k', s', he, hR', hkept, hopen, hfiles⟩ := @FileAt.call _ _ _ _ _ _ _ _ self hd h hfuel _ _ _ _ hat
    (.read (loc (onGlobals k s)) io (fun _ => 0) n) rfl ⟨hspot _, by rw [hpos]; omega⟩
  obtain ⟨⟨r, buf, K⟩, hx, hr⟩ := Option.map_eq_some_iff.mp he
  simp only [Files.step, hcount, hat.contents, hpos, Prod.mk.injEq, Option.some.injEq] at hr hfiles
  obtain ⟨⟨rfl, rfl⟩, rfl⟩ := hr
  have hlen : ((file.drop p).take n).length = n := by
    rw [List.length_take, List.length_drop]
    omega
  have hback := readAt_writeAt (fun _ => 0) 0 ((file.drop p).take n)
  rw [hlen] at hback
  refine ⟨k', s', ?_, hkept, hR', hopen, ?_, ?_⟩
  · simp only [ioread, fileOps, Option.bind_some, hx, Int.toNat_natCast, hback]
  · rw [hfiles]
    exact hat.contents
  · rw [hfiles]
    simp [Files.seek]

variable (loc self) in
theorem FileAt.seek (hq : q ≤ file.length) :
    ∃ k' s', ioseek (fileOps dev fuel loc self io) (some (onGlobals k s)) q = (0, some (onGlobals k' s')) ∧
      FileAt R old fs boot io file k' s' q := by
  obtain ⟨k', s', he, hR', hkept, hopen, hfiles⟩ := @FileAt.call _ _ _ _ _ _ _ _ self hd h hfuel _ _ _ _ hat
    (.setpos io q) rfl trivial
  simp only [Files.step, hat.contents, if_neg (Nat.not_lt.mpr hq)] at he hfiles
  simp only [KfsStack.call, Option.some.injEq, Prod.mk.injEq] at he
  obtain ⟨⟨hr, -⟩, hk⟩ := he
  refine ⟨k', s', ?_, hkept, hR', hopen, ?_, ?_⟩
  · simp only [ioseek, ioctl, fileOps, hr, hk]
  · rw [hfiles]
    exact hat.contents
  · rw [hfiles]
    simp [Files.seek]

end Calls

/-- A file of the mounted image is an object that reads as the bytes given to mkfs. -/
theorem seekable_file (hd : Shows dev R) (h : ValidInputs fs) (hf : f ∈ fs) (hloc : ∀ k, (loc k).blockSpot.toNat < 2 ^ 32)
    (hfuel : 1023 * 4096 < fuel) :
    ElfImage.Seekable (fileOps dev fuel loc self io) f.contents fun s p =>
      ∃ k s', s = some (onGlobals k s') ∧ FileAt R old fs boot io f.contents k s' p := by
  have hsize := h.size f hf
  refine ⟨by omega, ?_, ?_, ?_⟩
  · rintro s p ⟨k, s', rfl, hat⟩
    refine ⟨k, s', ?_, hat⟩
    simp only [ioctl, fileOps, fsIoctl, fsGetpos]
    rw [Globals.setFile, Function.update_eq_self]
  · rintro s p q ⟨k, s', rfl, hat⟩ hq
    obtain ⟨k', s'', he, hat'⟩ := FileAt.seek loc self hd h hfuel hat hq
    rw [he]
    exact ⟨Int.le_refl 0, k', s'', rfl, hat'⟩
  · rintro s p n ⟨k, s', rfl, hat⟩ hn
    obtain ⟨k', s'', he, hat'⟩ := FileAt.read self hd h hfuel hat (by omega) hloc hn
    rw [he]
    exact ⟨rfl, rfl, k', s'', rfl, hat'⟩

end File

/-- The first file opened after a mount. -/
theorem fileAt_opened {R : σ → Disk → Prop} {old : Nat → Nat → UInt8} {fs : List Input} (boot : Nat → UInt8) {s : σ}
    {i : Nat} (h : ValidInputs fs) (hg : NoGap fs) (intSpot : Fin 32) (hi : i < fs.length)
    (hR : R s (opening (mountedState old fs boot intSpot) 0 i fs[i].contents.length).device) :
    FileAt R old fs boot 0 fs[i].contents (opening (mountedState old fs boot intSpot) 0 i fs[i].contents.length) s 0 := by
  have hdesk := congrArg Desk.files (deskOf_opening (mountedState old fs boot intSpot) 0 i fs[i].contents.length)
  rw [deskOf_mounted h hg] at hdesk
  have hfiles : filesOf (opening (mountedState old fs boot intSpot) 0 i fs[i].contents.length) = _ := hdesk
  refine ⟨(kept_mounted h hg intSpot).opening h hi, hR, ?_, ?_, ?_⟩
  · simp [KfsRun.IsOpen, opening, Globals.setFile]
  · rw [hfiles]
    simp [Desk.place, Desk.start, List.getElem?_eq_getElem hi]
  · rw [hfiles]
    simp [Desk.place]

/-- How a call ends, without the object that was read. -/
def userState : Outcome σ μ → Outcome Unit μ
  | .user usp upc _ m => .user usp upc () m
  | .returned r => .returned r

section Exec

variable {ops : IoOps σ} {vm : VmOps μ} {At : σ → Nat → Prop} {file : List UInt8} {st : ElfLoad.Locals} {exeEntry : BitVec 64}
  {s : σ} {m : μ}

/-- process_exec of any object that reads as an executable. -/
theorem processExec_file (hf : ElfImage.Seekable ops file At) (hs : At s 0) (hx : ElfImage.Executable file 0) :
    (processExec ops vm st exeEntry s m).map userState =
      (ElfScan.loadAll vm (vm.unmapAndFreeUser m)
        ((ElfImage.loads file (ElfImage.elfHeader file 0)).map (ElfImage.segmentOf file))).map fun m' =>
          .user PageOwnership.userEnd (ElfImage.elfHeader file 0).eEntry () m' := by
  obtain ⟨hsegs, hresult, hentry⟩ := @ElfImage.scan_file _ _ _ _ st _ _ hf hs hx
  rw [ExecFailure.processExec_scan, hsegs, hresult, hentry, Option.map_map, if_neg (by decide)]
  rfl

end Exec

/-- A program that mkfs put on a disk runs as it would from memory: fs_mount and fs_open of its
name succeed, and process_exec of the open file leaves the memory, the stack pointer and the entry
that it leaves for the program's bytes. What elf_load finds in its local variables does not matter; of
those of fs_open and fs_read, readSize and blockSpot are below 2^32. -/
theorem exec_stored (vm : VmOps μ) (old : Nat → Nat → UInt8) (fs : List Input) (h : ValidInputs fs) (hg : NoGap fs)
    (bss : List (List UInt8)) (hmk : mkfs old fs = some bss) (f : Input) (hf : f ∈ fs)
    (hx : ElfImage.Executable f.contents 0) (blksz self : Nat) (v : VioblkDevice (Nat → UInt8))
    (hv : Idle blksz v ⟨ofList bss.flatten, bss.flatten.length, 0⟩) (boot : Nat → UInt8) (intSpot : Fin 32)
    (oloc : OpenLocals) (holoc : oloc.readSize.toNat < 2 ^ 32)
    (loc : Globals (Option (VioblkDevice (Nat → UInt8))) → Locals) (hloc : ∀ k, (loc k).blockSpot.toNat < 2 ^ 32)
    (fuel : Nat) (hfuel : 1023 * 4096 < fuel) (st st' : ElfLoad.Locals) (exeEntry exeEntry' : BitVec 64) (m : μ) :
    ∃ k k' io, fsMount (vioblkOps (hardware blksz) self) boot intSpot (some v) = (0, k) ∧
      fsOpen (vioblkOps (hardware blksz) self) oloc k (shortname f.path) = some (0, some io, k') ∧
      (processExec (fileOps (vioblkOps (hardware blksz) self) fuel loc self io) vm st exeEntry (some k') m).map userState =
        (processExec iolitOps vm st' exeEntry' ⟨f.contents, 0⟩ m).map userState := by
  have hd := shows_vioblk blksz self
  have hsize := h.size f hf
  rw [mkfs_eq h] at hmk
  obtain rfl := Option.some.inj hmk
  obtain ⟨s₁, hmount, hR₁⟩ := @fsMount_shows _ old fs boot _ _ hd (some v) h intSpot ⟨v, rfl, hv⟩
  obtain ⟨i, hi, rfl⟩ := List.mem_iff_getElem.mp hf
  have hkept := @kept_mounted old fs boot h hg intSpot
  have hslot : findSlot (fun _ => FileDesc.zero) = some 0 := by decide
  obtain ⟨s₂, hopen, hR₂⟩ := fsOpen_kept hd h hkept hi hslot holoc hR₁
  have hat := fileAt_opened (R := fun s d => ∃ v, s = some v ∧ Idle blksz v d) boot h hg intSpot hi hR₂
  have hlt : fs[i].contents.length < 2 ^ 63 := by omega
  refine ⟨_, _, 0, hmount, hopen, ?_⟩
  rw [processExec_file (seekable_file hd h hf hloc hfuel) ⟨_, s₂, rfl, hat⟩ hx,
    processExec_file (ElfImage.seekable_literal hlt) ⟨rfl, rfl⟩ hx]

open ElfBounds ElfImage SegmentOverlap in
theorem exec_stored_bss : ∃ bss k k' io, mkfs (fun _ _ => 0) [⟨[98], bssExe 6⟩] = some bss ∧
    fsMount (vioblkOps (hardware 512) 3) (fun _ => 0) 0 (some (sectors (ofList bss.flatten))) = (0, k) ∧
    fsOpen (vioblkOps (hardware 512) 3) ⟨none, 0⟩ k [98] = some (0, some io, k') ∧
    (processExec (fileOps (vioblkOps (hardware 512) 3) 4190209 (fun _ => ⟨0, 0, 0⟩) 3 io) traceVm sampleLocals 0 (some k') []).map
        userState =
      (processExec iolitOps traceVm sampleLocals 7 ⟨bssExe 6, 0⟩ []).map userState := by
  generalize (fun _ _ => 0 : Nat → Nat → UInt8) = old
  have h : ValidInputs [⟨[98], bssExe 6⟩] :=
    ⟨by decide, by decide, by decide +kernel, by decide +kernel, by decide +kernel, by decide +kernel⟩
  obtain ⟨bss, hbss⟩ : ∃ bss, blocks old [⟨[98], bssExe 6⟩] = bss := ⟨_, rfl⟩
  have hmk : mkfs old [⟨[98], bssExe 6⟩] = some bss := by rw [mkfs_eq h, hbss]
  have hlen : bss.flatten.length = 24 * 512 := by
    rw [← hbss]
    exact (@imageDisk_size old _ h).trans (by decide +kernel)
  have hidle := idle_sectors (ofList bss.flatten)
  rw [← hlen] at hidle
  obtain ⟨k, k', io, hmount, hopen, hexec⟩ := exec_stored traceVm old [⟨[98], bssExe 6⟩] h (by decide +kernel) bss hmk
    ⟨[98], bssExe 6⟩ (by simp)
    (bssExe_executable (by decide +kernel) (by decide +kernel) (by decide +kernel) bssExe_loads (by decide)) 512 3 _ hidle
    (fun _ => 0) 0 ⟨none, 0⟩ (by decide) (fun _ => ⟨0, 0, 0⟩) (fun _ => by decide) 4190209 (by decide) sampleLocals sampleLocals 0 7 []
  exact ⟨bss, k, k', io, hmk, hmount, hopen, hexec⟩

end RiscvKernel.StoredProgram
