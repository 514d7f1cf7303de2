import RiscvKernel.KfsStack
import RiscvKernel.RoundTrip

namespace RiscvKernel.FileSession

open Vioblk (VioblkDevice hardware)
open Literal (Lit iolitOps)
open Io Lib.Bytes SleepLock FlatDisk Kfs KfsFile KfsRun Mkfs RoundTrip DiskView KfsStack

variable {σ : Type}

/-! Files given to mkfs, used through a mounted device. -/

inductive Event
  | open (loc : OpenLocals) (name : List UInt8)
  | call (op : Op)

/-- The value returned, the entry behind a new descriptor and the memory at the buffer of a
transfer. -/
structure Answer where
  value : Int
  io : Option (Fin 32)
  buf : Option (Nat → UInt8)

def answerEvent (dev : IoOps σ) (fuel self : Nat) (k : Globals σ) : Event → Option (Answer × Globals σ)
  | .open loc name => (fsOpen dev loc k name).map fun r => (⟨r.1, r.2.1, none⟩, r.2.2)
  | .call op => (call dev fuel self k op).map fun r => (⟨r.1.1, none, r.1.2⟩, r.2)

def session (dev : IoOps σ) (fuel self : Nat) : Globals σ → List Event → Option (List Answer × Globals σ)
  | k, [] => some ([], k)
  | k, ev :: evs => do
      let (a, k) ← answerEvent dev fuel self k ev
      let (as, k) ← session dev fuel self k evs
      return (a :: as, k)

section Monotone

variable {dev : IoOps σ} {fuel fuel' self : Nat} {k k' : Globals σ} {ev : Event} {evs : List Event}

theorem session_cons {as : List Answer} :
    session dev fuel self k (ev :: evs) = some (as, k') ↔
      ∃ a k₁ as', answerEvent dev fuel self k ev = some (a, k₁) ∧ session dev fuel self k₁ evs = some (as', k') ∧
        as = a :: as' := by
  simp only [session, Option.bind_eq_bind, Option.bind_eq_some_iff]
  constructor
  · rintro ⟨⟨a, k₁⟩, ha, ⟨as', k₂⟩, has, he⟩
    obtain ⟨rfl, rfl⟩ := Prod.mk.inj (Option.some.inj he)
    exact ⟨a, k₁, as', ha, has, rfl⟩
  · rintro ⟨a, k₁, as', ha, has, rfl⟩
    exact ⟨(a, k₁), ha, (as', k'), has, rfl⟩

theorem answerEvent_mono {r : Answer × Globals σ} (h : answerEvent dev fuel self k ev = some r) (hf : fuel ≤ fuel') :
    answerEvent dev fuel' self k ev = some r := by
  cases ev with
  | «open» loc name => exact h
  | call op =>
      obtain ⟨x, hx, rfl⟩ := Option.map_eq_some_iff.mp h
      exact Option.map_eq_some_iff.mpr ⟨x, call_mono hx hf, rfl⟩

theorem session_mono {as : List Answer} (h : session dev fuel self k evs = some (as, k')) (hf : fuel ≤ fuel') :
    session dev fuel' self k evs = some (as, k') := by
  induction evs generalizing k as with
  | nil => exact h
  | cons ev evs ih =>
      obtain ⟨a, k₁, as', ha, has, rfl⟩ := session_cons.mp h
      exact session_cons.mpr ⟨a, k₁, as', answerEvent_mono ha hf, ih has, rfl⟩

end Monotone

/-- What a session works on: the files as byte arrays, and which entries are in use. -/
@[ext] structure Desk where
  files : Files
  used : Fin 32 → Bool

def Desk.free (t : Desk) : Option (Fin 32) := (List.finRange 32).find? fun io => !t.used io

/-- Entry io stands for file i, from its start. -/
def Desk.place (t : Desk) (io : Fin 32) (i : Nat) : Desk where
  files := { t.files with inode := Function.update t.files.inode io i, pos := Function.update t.files.pos io 0 }
  used := Function.update t.used io true

section Desk

variable (fs : List Input)

def fileNo (name : List UInt8) : Option Nat := fs.findIdx? fun f => shortname f.path = name

def Desk.start : Desk := ⟨⟨fun i => ((fs[i]?).map (·.contents)).getD [], fun _ => 0, fun _ => 0⟩, fun _ => false⟩

def Desk.step (t : Desk) : Event → Answer × Desk
  | .open _ name =>
      match fileNo fs name, t.free with
      | some i, some io => (⟨0, some io, none⟩, t.place io i)
      | _, _ => (⟨-einval, none, none⟩, t)
  | .call op => (⟨(t.files.step op).1.1, none, (t.files.step op).1.2⟩, { t with files := (t.files.step op).2 })

def Desk.run (t : Desk) : List Event → List Answer × Desk
  | [] => ([], t)
  | ev :: evs => ((t.step fs ev).1 :: ((t.step fs ev).2.run evs).1, ((t.step fs ev).2.run evs).2)

/-- Files that exist are opened while an entry is free, and calls are on open files. -/
def Desk.Allowed (t : Desk) : Event → Prop
  | .open loc name => loc.readSize.toNat < 2 ^ 32 ∧ fileNo fs name ≠ none ∧ t.free ≠ none
  | .call op => t.used op.io = true ∧ t.files.Admissible op

def Desk.Along (t : Desk) : List Event → Prop
  | [] => True
  | ev :: evs => t.Allowed fs ev ∧ (t.step fs ev).2.Along evs

end Desk

def deskOf (k : Globals Disk) : Desk := ⟨filesOf k, fun io => (k.fileArray io).flags ≠ 0⟩

/-- A valid state on a device that was mounted with the image of fs. -/
structure Kept (old : Nat → Nat → UInt8) (fs : List Input) (boot : Nat → UInt8) (k : Globals Disk) : Prop
    extends Valid k where
  boot : k.boot = mounted boot (RoundTrip.image old fs)
  unchanged : MetaEq (RoundTrip.image old fs) k.globalIO.bytes

section Open

variable {old : Nat → Nat → UInt8} {fs : List Input} {boot : Nat → UInt8} {k : Globals Disk} {i self : Nat} {io : Fin 32}

theorem deskOf_free : (deskOf k).free = findSlot k.fileArray := by
  refine congrArg (fun p => (List.finRange 32).find? p) (funext fun io => ?_)
  simp [deskOf]

theorem fileNo_shortname (h : ValidInputs fs) (hi : i < fs.length) : fileNo fs (shortname fs[i].path) = some i := by
  refine List.findIdx?_eq_some_iff_getElem.mpr ⟨hi, by simp, fun j hj => ?_⟩
  have hne := List.pairwise_iff_getElem.mp h.distinct j i (by simp; omega) (by simpa using hi) hj
  simp only [List.getElem_map] at hne
  simpa using hne

theorem fileNo_some {name : List UInt8} (h : fileNo fs name ≠ none) :
    ∃ (i : Nat) (hi : i < fs.length), shortname fs[i].path = name := by
  obtain ⟨i, he⟩ := Option.ne_none_iff_exists'.mp h
  obtain ⟨hi, hp, -⟩ := List.findIdx?_eq_some_iff_getElem.mp he
  exact ⟨i, hi, by simpa using hp⟩

/-- The table and the device after an open. -/
def opening (k : Globals Disk) (io : Fin 32) (i len : Nat) : Globals Disk :=
  { k.setFile io ⟨true, ((k.fileArray io).refcnt + 1) % 2 ^ 32, 0, len, i, 1⟩ with
    intSpot := io, globalIO := { k.globalIO with pos := 4096 + i * 4096 + 4 } }

theorem Kept.numInodes (hk : Kept old fs boot k) (h : ValidInputs fs) : numInodes k.globalIO.bytes = fs.length := by
  rw [hk.unchanged.numInodes, numInodes_image h]

theorem Kept.byteLen (hk : Kept old fs boot k) (h : ValidInputs fs) (hi : i < fs.length) :
    byteLen k.globalIO.bytes i = fs[i].contents.length := by
  rw [hk.unchanged.byteLen (by rw [numInodes_image h]; exact hi), byteLen_image h hi]

theorem Kept.opening (hk : Kept old fs boot k) (h : ValidInputs fs) (hi : i < fs.length) :
    Kept old fs boot (opening k io i fs[i].contents.length) := by
  refine ⟨⟨hk.image.congr (MetaEq.refl _) rfl, hk.lock, fun j hj => ?_⟩, hk.boot, hk.unchanged⟩
  by_cases hji : j = io
  · subst hji
    simp only [FileSession.opening, Globals.setFile, Function.update_self]
    exact ⟨rfl, by rw [hk.numInodes h]; exact hi, (hk.byteLen h hi).symm, Nat.zero_le _⟩
  · have hopen : IsOpen k j := by
      simpa [KfsRun.IsOpen, FileSession.opening, Globals.setFile, Function.update_of_ne hji] using hj
    simp only [FileSession.opening, Globals.setFile, Function.update_of_ne hji]
    obtain ⟨-, hlt, hsz, hle⟩ := hk.opened j hopen
    exact ⟨rfl, hlt, hsz, hle⟩

theorem deskOf_opening (k : Globals Disk) (io : Fin 32) (i len : Nat) :
    deskOf (opening k io i len) = (deskOf k).place io i := by
  refine Desk.ext (Files.ext rfl ?_ ?_) ?_
  all_goals
    funext j
    by_cases hj : j = io
    · subst hj
      simp [deskOf, filesOf, opening, Globals.setFile, Desk.place]
    · simp [deskOf, filesOf, opening, Globals.setFile, Desk.place, hj]

theorem fsTransfer_boot {chunk : Chunk Disk} {fuel n : Nat} {loc : Locals} {buf : Nat → UInt8}
    {r : Int × (Nat → UInt8) × Globals Disk}
    (he : fsTransfer FlatDisk.ops chunk fuel loc self k io buf n = some r) : r.2.2.boot = k.boot := by
  rw [KfsRounds.fsTransfer_enter] at he
  obtain ⟨lk, -, he⟩ := Option.bind_eq_some_iff.mp he
  split at he
  · obtain rfl := Option.some.inj he
    rfl
  · obtain ⟨t, -, rfl⟩ := Option.map_eq_some_iff.mp he
    rfl

theorem kfsOp_boot {fuel : Nat} {op : Op} {r : Result} {k' : Globals Disk} (he : kfsOp fuel self k op = some (r, k')) :
    k'.boot = k.boot := by
  cases op with
  | read loc io buf n | write loc io buf n =>
      obtain ⟨x, hx, hr⟩ := Option.map_eq_some_iff.mp he
      obtain rfl := congrArg Prod.snd hr
      exact fsTransfer_boot hx
  | setpos io pos =>
      obtain rfl := congrArg Prod.snd (Option.some.inj he)
      rfl

theorem kept_mounted (h : ValidInputs fs) (hg : NoGap fs) (intSpot : Fin 32) : Kept old fs boot (mountedState old fs boot intSpot) := by
  have hbytes : (mountedState old fs boot intSpot).device.bytes = RoundTrip.image old fs := rfl
  have hsize : (mountedState old fs boot intSpot).device.size = (imageDisk old fs).size := rfl
  have hm : MetaEq (RoundTrip.image old fs) (mountedState old fs boot intSpot).device.bytes := by
    rw [hbytes]
    exact MetaEq.refl _
  exact ⟨⟨(@wellFormed_image old _ h hg).congr hm hsize, rfl, fun io hio => absurd rfl hio⟩, by rw [mountedState], hm⟩

/-- The files of a fresh image are those given to mkfs. -/
theorem deskOf_mounted (h : ValidInputs fs) (hg : NoGap fs) (intSpot : Fin 32) :
    deskOf (mountedState old fs boot intSpot) = Desk.start fs := by
  have hN : numInodes (mountedState old fs boot intSpot).device.bytes = fs.length := numInodes_image h
  refine Desk.ext (Files.ext (funext fun i => ?_) rfl rfl) (funext fun io => ?_)
  · simp only [deskOf, filesOf, Desk.start, hN]
    by_cases hi : i < fs.length
    · have hlen : KfsFile.byteLen (mountedState old fs boot intSpot).device.bytes i = fs[i].contents.length :=
        byteLen_image h hi
      rw [if_pos hi, List.getElem?_eq_getElem hi, Option.map_some, Option.getD_some, fileContents, hlen]
      refine List.ext_getElem (readAt_length _ _ _) fun p hp hp' => ?_
      rw [readAt_getElem, Nat.zero_add]
      exact fileAt_image h hg hi hp'
    · rw [if_neg hi, List.getElem?_eq_none (by omega)]
      rfl
  · simp [deskOf, mountedState, FileDesc.zero, Desk.start]

section Device

variable {dev : IoOps σ} {R : σ → Disk → Prop} (hd : Shows dev R) {s : σ}
include hd

theorem fsOpen_kept (h : ValidInputs fs) (hk : Kept old fs boot k) (hi : i < fs.length)
    (hspot : findSlot k.fileArray = some io) {loc : OpenLocals} (hloc : loc.readSize.toNat < 2 ^ 32) (hR : R s k.globalIO) :
    ∃ s', fsOpen dev loc (onGlobals k s) (shortname fs[i].path) =
        some (0, some io, onGlobals (opening k io i fs[i].contents.length) s') ∧
      R s' (opening k io i fs[i].contents.length).device := by
  have hc := h.count
  have hino := hk.image.inodes
  rw [hk.numInodes h] at hino
  obtain ⟨hoff, hidx⟩ := tempIndex_offset (i := i) (by omega)
  obtain ⟨s₁, he₁, hR₁⟩ := hd.seek s k.globalIO (4096 + i * 4096) hR (by omega)
  obtain ⟨s₂, he₂, hR₂⟩ := hd.read s₁ _ 4 hR₁ (by decide) (by simp only; omega)
  obtain ⟨read, hread⟩ := Option.isSome_iff_exists.mp hd.reads
  rw [ioread, hread] at he₂
  simp only at he₂
  have hlen : overlay loc.readSize.toNat (readAt k.globalIO.bytes (4096 + i * 4096) 4) = fs[i].contents.length :=
    (overlay_four hloc (readAt_length _ _ _)).trans (hk.byteLen h hi)
  have hboot : (onGlobals k s).boot = mounted boot (image old fs) := hk.boot
  have hfile : (onGlobals k s).fileArray = k.fileArray := rfl
  have hio : Globals.globalIO (onGlobals k s) = s := rfl
  refine ⟨s₂, ?_, hR₂⟩
  unfold fsOpen
  rw [hboot, findDentry_mounted h boot hi]
  simp only [dentryInode_mounted h boot hi, hoff, hidx, hfile, hio, hspot, he₁]
  rw [if_neg (by simp), hread]
  simp only [Option.bind_eq_bind, Option.bind_some, he₂, hlen, Option.some_or]
  rw [if_neg (by simp)]
  simp only [FileSession.opening, onGlobals, Globals.setFile, hk.boot]
  rfl

theorem answerEvent_refines (h : ValidInputs fs) (hk : Kept old fs boot k) {ev : Event}
    (ha : (deskOf k).Allowed fs ev) (hR : R s k.globalIO) :
    ∃ fuel k' s', answerEvent dev fuel self (onGlobals k s) ev = some (((deskOf k).step fs ev).1, onGlobals k' s') ∧
      R s' k'.globalIO ∧ Kept old fs boot k' ∧ deskOf k' = ((deskOf k).step fs ev).2 := by
  cases ev with
  | «open» loc name =>
      obtain ⟨hloc, hname, hfree⟩ := ha
      obtain ⟨i, hi, rfl⟩ := fileNo_some hname
      obtain ⟨io, hio⟩ := Option.ne_none_iff_exists'.mp hfree
      obtain ⟨s', he, hR'⟩ := fsOpen_kept hd h hk hi (deskOf_free.symm.trans hio) hloc hR
      have hstep : (deskOf k).step fs (.open loc (shortname fs[i].path)) = (⟨0, some io, none⟩, (deskOf k).place io i) := by
        simp only [Desk.step, fileNo_shortname h hi, hio]
      rw [hstep]
      exact ⟨0, _, s', Option.map_eq_some_iff.mpr ⟨_, he, rfl⟩, hR', hk.opening h hi, deskOf_opening _ _ _ _⟩
  | call op =>
      have hc := h.count
      have ho : KfsRun.IsOpen k op.io := by simpa [deskOf, KfsRun.IsOpen] using ha.1
      have hf : (filesOf k).OffsetFits (numInodes k.globalIO.bytes) op := by
        rw [hk.numInodes h]
        cases op with
        | read | write => exact fun _ => by omega
        | setpos => trivial
      obtain ⟨fuel, k', s', he, hR', hstep⟩ := call_refines hd hk.toValid ho ha.2 hf hR
      obtain ⟨hcode, hfiles, hv', hm, hopen⟩ := hstep
      refine ⟨fuel, k', s', Option.map_eq_some_iff.mpr ⟨_, he, rfl⟩, hR', ⟨hv', ?_, hk.unchanged.trans hm⟩, ?_⟩
      · exact (kfsOp_boot hcode).trans hk.boot
      · refine Desk.ext hfiles (funext fun io => ?_)
        have hio := hopen io
        simp only [KfsRun.IsOpen] at hio
        simp only [deskOf, hio, Desk.step]

theorem session_refines (h : ValidInputs fs) (hk : Kept old fs boot k) {evs : List Event}
    (ha : (deskOf k).Along fs evs) (hR : R s k.globalIO) :
    ∃ fuel k' s', session dev fuel self (onGlobals k s) evs = some (((deskOf k).run fs evs).1, onGlobals k' s') ∧
      R s' k'.globalIO ∧ Kept old fs boot k' ∧ deskOf k' = ((deskOf k).run fs evs).2 := by
  induction evs generalizing k s with
  | nil => exact ⟨0, k, s, rfl, hR, hk, rfl⟩
  | cons ev evs ih =>
      obtain ⟨f₁, k₁, s₁, he₁, hR₁, hk₁, hs₁⟩ := @answerEvent_refines _ _ _ _ _ self _ _ hd s h hk _ ha.1 hR
      obtain ⟨f₂, k₂, s₂, he₂, hR₂, hk₂, hs₂⟩ := ih hk₁ (by rw [hs₁]; exact ha.2) hR₁
      rw [hs₁] at he₂ hs₂
      refine ⟨max f₁ f₂, k₂, s₂, ?_, hR₂, hk₂, hs₂⟩
      exact session_cons.mpr ⟨_, onGlobals k₁ s₁, _, answerEvent_mono he₁ (Nat.le_max_left _ _),
        session_mono he₂ (Nat.le_max_right _ _), rfl⟩

/-- fs_mount of a device that shows the image. -/
theorem fsMount_shows (h : ValidInputs fs) (intSpot : Fin 32) (hR : R s (imageDisk old fs)) :
    ∃ s', fsMount dev boot intSpot s = (0, onGlobals (mountedState old fs boot intSpot) s') ∧
      R s' (mountedState old fs boot intSpot).device := by
  have hsz := @imageDisk_size old _ h
  have hpos : (imageDisk old fs).pos = 0 := rfl
  obtain ⟨s', he, hR'⟩ := hd.read s _ 4096 hR (by decide) (by omega)
  refine ⟨s', ?_, hR'⟩
  rw [fsMount, he]
  simp only [hpos, mountedState, mounted, onGlobals]
  rw [if_pos (by rfl)]
  simp only [imageDisk]

end Device

end Open

section Contents

variable {img : Nat → UInt8} {d : Disk} {i : Nat}

/-- The files of an image depend only on the bytes that the device has. -/
theorem fileContents_congr (hwf : WellFormed d) (hi : i < numInodes d.bytes) (h : ∀ a < d.size, img a = d.bytes a) :
    fileContents img i = fileContents d.bytes i := by
  have hino := hwf.inodes
  have hm : MetaEq d.bytes img := fun a ha => h a (by omega)
  have hlen := hwf.len_le i hi
  rw [fileContents, fileContents, hm.byteLen hi]
  refine readAt_congr fun p _ hp => ?_
  have hend := hwf.dataOff_end hi (p := p) (by omega)
  rw [fileAt, fileAt, hm.dataOff hi (by omega)]
  exact h _ (by omega)

end Contents

section Main

variable {old : Nat → Nat → UInt8} {fs : List Input} {boot : Nat → UInt8} {intSpot : Fin 32} {self : Nat} {evs : List Event}
  {dev : IoOps σ} {R : σ → Disk → Prop}

/-- A session on a freshly mounted image, and the files it leaves on the device. -/
theorem session_mounted (hd : Shows dev R) (h : ValidInputs fs) (hg : NoGap fs) (ha : (Desk.start fs).Along fs evs)
    {s : σ} (hR : R s (imageDisk old fs)) :
    ∃ fuel k k' d, fsMount dev boot intSpot s = (0, k) ∧
      session dev fuel self k evs = some (((Desk.start fs).run fs evs).1, k') ∧ R k'.globalIO d ∧ WellFormed d ∧
      numInodes d.bytes = fs.length ∧
      ∀ i < fs.length, fileContents d.bytes i = ((Desk.start fs).run fs evs).2.files.contents i := by
  obtain ⟨s₁, hmount, hR₁⟩ := @fsMount_shows σ old fs boot _ _ hd s h intSpot hR
  rw [← @deskOf_mounted old fs boot h hg intSpot] at ha ⊢
  obtain ⟨fuel, k', s', he, hR', hk', hdesk⟩ := @session_refines σ old fs boot _ self _ _ hd s₁ h
    (kept_mounted h hg intSpot) evs ha hR₁
  refine ⟨fuel, _, _, k'.globalIO, hmount, he, hR', hk'.image, hk'.numInodes h, fun i hi => ?_⟩
  rw [← hdesk]
  simp only [deskOf, filesOf]
  rw [if_pos (by rw [hk'.numInodes h]; exact hi)]

end Main

/-- Files given to mkfs, on a block device or in memory: fs_mount accepts the image, any session
of opens, reads, writes and seeks answers as byte arrays do, and the device ends up holding what
was written. -/
theorem sessions_on_image (old : Nat → Nat → UInt8) (fs : List Input) (h : ValidInputs fs) (hg : NoGap fs)
    (bss : List (List UInt8)) (hmk : mkfs old fs = some bss) (boot : Nat → UInt8) (intSpot : Fin 32) (self : Nat)
    (evs : List Event) (ha : (Desk.start fs).Along fs evs) :
    (∀ blksz v, Idle blksz v ⟨ofList bss.flatten, bss.flatten.length, 0⟩ → ∃ fuel k k' v',
      fsMount (vioblkOps (hardware blksz) self) boot intSpot (some v) = (0, k) ∧
      session (vioblkOps (hardware blksz) self) fuel self k evs = some (((Desk.start fs).run fs evs).1, k') ∧
      k'.globalIO = some v' ∧
      ∀ i < fs.length, fileContents v'.disk i = ((Desk.start fs).run fs evs).2.files.contents i) ∧
    ∃ fuel k k', fsMount iolitOps boot intSpot ⟨bss.flatten, 0⟩ = (0, k) ∧
      session iolitOps fuel self k evs = some (((Desk.start fs).run fs evs).1, k') ∧
      ∀ i < fs.length, fileContents (ofList k'.globalIO.buf) i = ((Desk.start fs).run fs evs).2.files.contents i := by
  rw [mkfs_eq h] at hmk
  obtain rfl := Option.some.inj hmk
  constructor
  · intro blksz v hv
    obtain ⟨fuel, k, k', d, hmount, he, ⟨v', hv', hidle⟩, -, -, hfiles⟩ := @session_mounted _ old fs boot intSpot self evs
      _ _ (shows_vioblk blksz self) h hg ha _ ⟨v, rfl, hv⟩
    refine ⟨fuel, k, k', v', hmount, he, hv', fun i hi => ?_⟩
    rw [← hfiles i hi, hidle.eq_diskOf]
    rfl
  · have hc := h.count
    have hsize := @imageDisk_size old _ h
    have hblocks : blocksBefore written fs fs.length ≤ fs.length * 1023 :=
      blocksBefore_le (fun f hf => by have := h.size f hf; rw [written]; omega) fs.length
    have hle : fs.length * 1023 ≤ 63 * 1023 := Nat.mul_le_mul_right _ hc
    have hholds : Holds ⟨(blocks old fs).flatten, 0⟩ (imageDisk old fs) := by
      refine ⟨?_, rfl, Nat.zero_le _, by rw [writtenBefore] at hsize; omega⟩
      simp only [imageDisk, RoundTrip.image]
      rw [readAt_ofList (by omega), List.drop_zero, List.take_length]
    obtain ⟨fuel, k, k', d, hmount, he, hR, hwf, hN, hfiles⟩ := @session_mounted _ old fs boot intSpot self evs
      _ _ shows_literal h hg ha _ hholds
    refine ⟨fuel, k, k', hmount, he, fun i hi => ?_⟩
    rw [← hfiles i hi]
    refine fileContents_congr hwf (by rw [hN]; exact hi) fun a ha => ?_
    have hlen : (readAt d.bytes 0 d.size).length = d.size := readAt_length _ _ _
    rw [ofList, hR.buf, List.getD_eq_getElem _ _ (by omega), readAt_getElem, Nat.zero_add]

section OneByte

/-- The file b of one byte is opened twice, written through one entry and read through the other. -/
def openTwice : List Event :=
  [.open ⟨none, 0⟩ [98], .open ⟨none, 0⟩ [98], .call (.write ⟨0, 0, 0⟩ 1 (fun _ => 9) 5), .call (.read ⟨0, 0, 0⟩ 0 (fun _ => 0) 5),
    .call (.setpos 0 2)]

theorem sessions_on_image_openTwice :
    ∃ bss fuel k k' as v', mkfs (fun _ _ => 0) [⟨[98], [7]⟩] = some bss ∧
      fsMount (vioblkOps (hardware 512) 3) (fun _ => 0) 0 (some (sectors (ofList bss.flatten))) = (0, k) ∧
      session (vioblkOps (hardware 512) 3) fuel 3 k openTwice = some (as, k') ∧
      as.map (·.value) = [0, 0, 1, 1, -eio] ∧ k'.globalIO = some v' ∧ fileContents v'.disk 0 = [9] := by
  generalize (fun _ _ => 0 : Nat → Nat → UInt8) = old
  have h : ValidInputs [⟨[98], [7]⟩] :=
    ⟨by decide, by decide, by decide +kernel, by decide +kernel, by decide +kernel, by decide +kernel⟩
  obtain ⟨bss, hbss⟩ : ∃ bss, blocks old [⟨[98], [7]⟩] = bss := ⟨_, rfl⟩
  have hmk : mkfs old [⟨[98], [7]⟩] = some bss := by rw [mkfs_eq h, hbss]
  have hlen : bss.flatten.length = 24 * 512 := by
    rw [← hbss]
    exact @imageDisk_size old _ h
  have hidle := idle_sectors (ofList bss.flatten)
  rw [← hlen] at hidle
  obtain ⟨hdev, -⟩ := sessions_on_image old [⟨[98], [7]⟩] h (by decide) bss hmk (fun _ => 0) 0 3
    openTwice ⟨⟨by decide, by decide, by decide⟩, ⟨by decide, by decide, by decide⟩, ⟨by decide, by decide, by decide⟩,
      ⟨by decide, by decide, by decide⟩, ⟨by decide, trivial⟩, trivial⟩
  obtain ⟨fuel, k, k', v', hmount, he, hv', hfiles⟩ := hdev 512 _ hidle
  exact ⟨bss, fuel, k, k', _, v', hmk, hmount, he, by decide, hv', (hfiles 0 (by decide)).trans (by decide)⟩

end OneByte

end RiscvKernel.FileSession
