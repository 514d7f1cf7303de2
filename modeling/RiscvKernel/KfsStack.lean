import RiscvKernel.DiskView
import RiscvKernel.TransferBounds

namespace RiscvKernel.KfsStack

open Vioblk (VioblkDevice hardware)
open Io Lib.Bytes SleepLock FlatDisk Kfs KfsFile KfsRun KfsRounds DiskView

variable {σ τ : Type}

/-! The file system over a device that shows a flat disk. -/

/-- The same variables with another device. -/
def onTransfer (t : Transfer σ) (io : τ) : Transfer τ := ⟨io, t.buf, t.fd, t.filePos, t.n, t.count, t.blockSpot⟩

def onGlobals (k : Globals σ) (s : τ) : Globals τ := ⟨k.boot, k.fileArray, k.intSpot, s, k.kfsLock⟩

/-- A call on the file system over any device. -/
def call (dev : IoOps σ) (fuel self : Nat) (k : Globals σ) : Op → Option (Result × Globals σ)
  | .read loc io buf n => (fsRead dev fuel loc self k io buf n).map fun r => ((r.1, some r.2.1), r.2.2)
  | .write loc io buf n => (fsWrite dev fuel loc self k io buf n).map fun r => ((r.1, some r.2.1), r.2.2)
  | .setpos io pos =>
      let r := fsIoctl (k.fileArray io) .setpos pos
      some ((r.1, none), k.setFile io r.2.2)

theorem call_flat (fuel self : Nat) (k : Globals Disk) (op : Op) : call FlatDisk.ops fuel self k op = kfsOp fuel self k op := by
  cases op with
  | read | write | setpos => rfl

def callRun (dev : IoOps σ) (fuel self : Nat) : Globals σ → List Op → Option (List Result × Globals σ)
  | k, [] => some ([], k)
  | k, op :: ops => do
      let (r, k) ← call dev fuel self k op
      let (rs, k) ← callRun dev fuel self k ops
      return (r :: rs, k)

theorem callRun_cons {dev : IoOps σ} {fuel self : Nat} {k k' : Globals σ} {op : Op} {ops : List Op} {rs : List Result} :
    callRun dev fuel self k (op :: ops) = some (rs, k') ↔
      ∃ r k₁ rs', call dev fuel self k op = some (r, k₁) ∧ callRun dev fuel self k₁ ops = some (rs', k') ∧ rs = r :: rs' := by
  simp only [callRun, Option.bind_eq_bind, Option.bind_eq_some_iff]
  constructor
  · rintro ⟨⟨r, k₁⟩, hr, ⟨rs', k₂⟩, hrs, he⟩
    obtain ⟨rfl, rfl⟩ := Prod.mk.inj (Option.some.inj he)
    exact ⟨r, k₁, rs', hr, hrs, rfl⟩
  · rintro ⟨r, k₁, rs', hr, hrs, rfl⟩
    exact ⟨(r, k₁), hr, (rs', k'), hrs, rfl⟩

theorem call_mono {dev : IoOps σ} {fuel fuel' self : Nat} {k : Globals σ} {op : Op} {r : Result × Globals σ}
    (h : call dev fuel self k op = some r) (hf : fuel ≤ fuel') : call dev fuel' self k op = some r := by
  cases op with
  | read loc io buf n | write loc io buf n =>
      obtain ⟨x, hx, rfl⟩ := Option.map_eq_some_iff.mp h
      exact Option.map_eq_some_iff.mpr ⟨x, fsTransfer_mono hx hf, rfl⟩
  | setpos io pos => exact h

theorem callRun_mono {dev : IoOps σ} {fuel fuel' self : Nat} {k k' : Globals σ} {ops : List Op} {rs : List Result}
    (h : callRun dev fuel self k ops = some (rs, k')) (hf : fuel ≤ fuel') : callRun dev fuel' self k ops = some (rs, k') := by
  induction ops generalizing k rs with
  | nil => exact h
  | cons op ops ih =>
      obtain ⟨r, k₁, rs', hr, hrs, rfl⟩ := callRun_cons.mp h
      exact callRun_cons.mpr ⟨r, k₁, rs', call_mono hr hf, ih hrs, rfl⟩

/-- The chunk transfers inside the disk as the other one does on it. -/
def ChunkShows (R : σ → Disk → Prop) (chunk : Chunk σ) (chunk' : Chunk Disk) : Prop :=
  ∀ count want buf s d, R s d → 0 < want → d.pos + want ≤ d.size →
    ∃ s', chunk count want buf s = ((chunk' count want buf d).1, (chunk' count want buf d).2.1, s') ∧
      R s' (chunk' count want buf d).2.2

section Device

variable {dev : IoOps σ} {R : σ → Disk → Prop} (hd : Shows dev R)
include hd

theorem chunkShows_read : ChunkShows R (readChunk dev) (readChunk FlatDisk.ops) := by
  intro count want buf s d hR hw hle
  obtain ⟨s', he, hR'⟩ := hd.read s d want hR hw hle
  simp only [readChunk, he, ioread_ops hle]
  exact ⟨s', rfl, hR'⟩

theorem chunkShows_write : ChunkShows R (writeChunk dev) (writeChunk FlatDisk.ops) := by
  intro count want buf s d hR hw hle
  have hlen := readAt_length buf count want
  have hle' : d.pos + (readAt buf count want).length ≤ d.size := by rw [hlen]; exact hle
  obtain ⟨s', he, hR'⟩ := hd.write s d (readAt buf count want) hR (List.ne_nil_of_length_pos (by omega)) hle'
  simp only [writeChunk, he, iowrite_ops hle']
  exact ⟨s', rfl, hR'⟩

section Loop

variable {d0 : Disk} {i pos m : Nat} {chunk : Chunk σ} {chunk' : Chunk Disk} {t : Transfer Disk} {s : σ}
  (hwf : WellFormed d0) (hi : i < numInodes d0.bytes)
include hwf hi

theorem ask_shows (h : TransferBounds.LoopInv d0 i pos m t) (hnw : 4096 * (numInodes d0.bytes + 1) < 2 ^ 32)
    (hpos : pos + m ≤ byteLen d0.bytes i) (hn : 0 < t.n) (hR : R s t.io) :
    ∃ s', ask dev (numInodes d0.bytes) i (onTransfer t s) =
        ⟨s', (ask FlatDisk.ops (numInodes d0.bytes) i t).want, (ask FlatDisk.ops (numInodes d0.bytes) i t).spot,
          (ask FlatDisk.ops (numInodes d0.bytes) i t).seeks, (ask FlatDisk.ops (numInodes d0.bytes) i t).lookup⟩ ∧
      R s' (ask FlatDisk.ops (numInodes d0.bytes) i t).io := by
  have hfp := h.filePos
  have hcn := h.n
  have hlen := hwf.len_le i hi
  have hino := hwf.inodes
  have hs := h.size
  have hlt : t.filePos < byteLen d0.bytes i := by omega
  have hend := hwf.dataOff_end hi hlt
  have hN : numInodes d0.bytes < 2 ^ 32 := le32_lt d0.bytes 4
  have hspot : blockNo d0.bytes i (t.filePos / 4096) < 2 ^ 32 := le32_lt _ _
  have hoff := @blockNumOff_of_lt i (t.filePos / 4096) (by omega) (by omega)
  have hno : leNat (readAt t.io.bytes (4096 + i * 4096 + (4 + t.filePos / 4096 * 4)) 4) =
      blockNo d0.bytes i (t.filePos / 4096) := h.bytes.blockNo hi (by omega)
  have hdata : ((4096 + 4096 * numInodes d0.bytes) % 2 ^ 32 + 4096 * blockNo d0.bytes i (t.filePos / 4096) +
      t.filePos % 4096) % 2 ^ 64 = dataOff d0.bytes i t.filePos := by
    rw [dataOff]
    omega
  have hpos₁ : 4096 + i * 4096 + (4 + t.filePos / 4096 * 4) ≤ t.io.size := by omega
  obtain ⟨⟨bytes, size, q⟩, hdisk⟩ : ∃ d, t.io = d := ⟨_, rfl⟩
  rw [hdisk] at hs hno hR hpos₁
  obtain ⟨s₁, he₁, hR₁⟩ := hd.seek s _ _ hR hpos₁
  obtain ⟨s₂, he₂, hR₂⟩ := hd.read s₁ _ 4 hR₁ (by decide) (by simp only at hs ⊢; omega)
  obtain ⟨s₃, he₃, hR₃⟩ := hd.seek s₂ _ (dataOff d0.bytes i t.filePos) hR₂ (by simp only at hs ⊢; omega)
  simp only at he₁ he₂ he₃ hR₃ hno hs
  have hseek₁ := @ioseek_ops ⟨bytes, size, q⟩ _ hpos₁
  have hread := @ioread_ops ⟨bytes, size, 4096 + i * 4096 + (4 + t.filePos / 4096 * 4)⟩ 4 (by simp only; omega)
  have hseek := @ioseek_ops ⟨bytes, size, 4096 + i * 4096 + (4 + t.filePos / 4096 * 4) + 4⟩
    (dataOff d0.bytes i t.filePos) (by simp only; omega)
  simp only at hseek₁ hread hseek
  refine ⟨s₃, ?_, ?_⟩
  · simp only [ask, onTransfer, hdisk, hoff, he₁, hseek₁, he₂, hread, overlay_four h.spot (readAt_length _ _ _), hno, hdata,
      he₃, hseek]
    rfl
  · simp only [ask, hdisk, hoff, hseek₁, hread, overlay_four h.spot (readAt_length _ _ _), hno, hdata, hseek]
    exact hR₃

omit hd in
/-- A round asks for bytes that the disk has. -/
theorem ask_fits (h : TransferBounds.LoopInv d0 i pos m t) (hnw : 4096 * (numInodes d0.bytes + 1) < 2 ^ 32)
    (hpos : pos + m ≤ byteLen d0.bytes i) (hn : 0 < t.n) :
    (ask FlatDisk.ops (numInodes d0.bytes) i t).io.pos + (ask FlatDisk.ops (numInodes d0.bytes) i t).want ≤
      (ask FlatDisk.ops (numInodes d0.bytes) i t).io.size := by
  have hcn := h.n
  have hs := h.size
  have hend := hwf.dataOff_end hi (p := pos + t.count) (by omega)
  have hwant : (ask FlatDisk.ops (numInodes d0.bytes) i t).want = part t.filePos t.n := rfl
  have hblk : t.filePos % 4096 + part t.filePos t.n ≤ 4096 := part_le_block
  rw [h.ask hwf hi hnw hpos hn, hwant, ← h.filePos]
  rw [← h.filePos] at hend
  simp only
  omega

theorem blockStep_shows (hchunk : ChunkShows R chunk chunk') (h : TransferBounds.LoopInv d0 i pos m t)
    (hnw : 4096 * (numInodes d0.bytes + 1) < 2 ^ 32) (hpos : pos + m ≤ byteLen d0.bytes i) (hn : 0 < t.n)
    (hR : R s t.io) :
    ∃ s', blockStep dev chunk (numInodes d0.bytes) i (onTransfer t s) =
        onTransfer (blockStep FlatDisk.ops chunk' (numInodes d0.bytes) i t) s' ∧
      R s' (blockStep FlatDisk.ops chunk' (numInodes d0.bytes) i t).io := by
  obtain ⟨s₁, hask, hR₁⟩ := ask_shows hd hwf hi h hnw hpos hn hR
  have hwant : 0 < (ask FlatDisk.ops (numInodes d0.bytes) i t).want := part_pos hn
  obtain ⟨s₂, hans, hR₂⟩ := hchunk t.count _ t.buf s₁ _ hR₁ hwant (ask_fits hwf hi h hnw hpos hn)
  refine ⟨s₂, ?_, ?_⟩
  · rw [blockStep_received, blockStep_received, answer, hask]
    simp only [onTransfer, hans, received, answer]
  · rw [blockStep_received]
    exact hR₂

theorem blockLoop_shows (hchunk : ChunkShows R chunk chunk') (hfull : FullChunk d0 i chunk')
    (hnw : 0 < m → 4096 * (numInodes d0.bytes + 1) < 2 ^ 32) (hpos : pos + m ≤ byteLen d0.bytes i) (fuel : Nat)
    {t' : Transfer Disk} (h : TransferBounds.LoopInv d0 i pos m t) (hR : R s t.io)
    (he : blockLoop FlatDisk.ops chunk' (numInodes d0.bytes) i fuel t = some t') :
    ∃ s', blockLoop dev chunk (numInodes d0.bytes) i fuel (onTransfer t s) = some (onTransfer t' s') ∧ R s' t'.io := by
  induction fuel generalizing t s with
  | zero => exact absurd he (by simp [blockLoop])
  | succ fuel ih =>
      have hn : (onTransfer t s).n = t.n := rfl
      rw [blockLoop] at he
      rw [blockLoop, hn]
      by_cases h0 : t.n > 0
      · have hcn := h.n
        have hfit := hnw (by omega)
        obtain ⟨s₁, hstep, hR₁⟩ := blockStep_shows hd hwf hi hchunk h hfit hpos h0 hR
        rw [if_pos h0] at he
        rw [if_pos h0, hstep]
        exact ih (h.step hwf hi hfull hfit hpos h0) hR₁ he
      · rw [if_neg h0] at he
        obtain rfl := Option.some.inj he
        rw [if_neg h0]
        exact ⟨s, rfl, hR⟩

end Loop

section Call

variable {k : Globals Disk} {io : Fin 32} {i n m self : Nat} {loc : Locals} {buf : Nat → UInt8} {s : σ}
  {chunk : Chunk σ} {chunk' : Chunk Disk}

/-- The variables at the loop of fs_read or fs_write on the device. -/
theorem fsEnter_shows (hino : 4096 + 4096 * numInodes k.globalIO.bytes ≤ k.globalIO.size)
    (ho : Opened k.globalIO (k.fileArray io) i) (hR : R s k.globalIO) :
    ∃ s', (fsEnter dev loc (onGlobals k s) io buf n).seek = (fsEnter FlatDisk.ops loc k io buf n).seek ∧
      (fsEnter dev loc (onGlobals k s) io buf n).numInodes = (fsEnter FlatDisk.ops loc k io buf n).numInodes ∧
      (fsEnter dev loc (onGlobals k s) io buf n).start = onTransfer (fsEnter FlatDisk.ops loc k io buf n).start s' ∧
      R s' (fsEnter FlatDisk.ops loc k io buf n).start.io := by
  obtain ⟨rfl, hi, hsz, hle⟩ := ho
  have hN : numInodes k.globalIO.bytes < 2 ^ 32 := le32_lt k.globalIO.bytes 4
  have hmod : (4096 + (k.fileArray io).inode * 4096) % 2 ^ 64 = 4096 + (k.fileArray io).inode * 4096 :=
    Nat.mod_eq_of_lt (by omega)
  have hfd : (onGlobals k s).fileArray = k.fileArray := rfl
  obtain ⟨⟨bytes, size, q⟩, hdisk⟩ : ∃ d, k.globalIO = d := ⟨_, rfl⟩
  rw [hdisk] at hR hino hi
  simp only at hino hi
  obtain ⟨s₁, he₁, hR₁⟩ := hd.seek s _ 4 hR (by simp only; omega)
  obtain ⟨s₂, he₂, hR₂⟩ := hd.read s₁ _ 4 hR₁ (by decide) (by simp only; omega)
  obtain ⟨s₃, he₃, hR₃⟩ := hd.seek s₂ _ (4096 + (k.fileArray io).inode * 4096) hR₂ (by simp only; omega)
  obtain ⟨s₄, he₄, hR₄⟩ := hd.read s₃ _ 4 hR₃ (by decide) (by simp only; omega)
  have hseek₁ := @ioseek_ops ⟨bytes, size, q⟩ 4 (by simp only; omega)
  have hread₁ := @ioread_ops ⟨bytes, size, 4⟩ 4 (by simp only; omega)
  have hseek₂ := @ioseek_ops ⟨bytes, size, 4 + 4⟩ (4096 + (k.fileArray io).inode * 4096) (by simp only; omega)
  have hread₂ := @ioread_ops ⟨bytes, size, 4096 + (k.fileArray io).inode * 4096⟩ 4 (by simp only; omega)
  have hs : Globals.globalIO (onGlobals k s) = s := rfl
  simp only at he₂ he₃ he₄ hR₄ hseek₁ hread₁ hseek₂ hread₂
  refine ⟨s₄, ?_, ?_, ?_, ?_⟩
  · simp only [fsEnter, hfd, hdisk, hmod, hs, he₁, he₂, he₃, hseek₁, hread₁, hseek₂]
  · simp only [fsEnter, hs, hdisk, he₁, he₂, hseek₁, hread₁]
  · simp only [fsEnter, hfd, hdisk, hmod, hs, he₁, he₂, he₃, he₄, hseek₁, hread₁, hseek₂, hread₂, onTransfer]
  · simp only [fsEnter, hdisk, hmod, hseek₁, hread₁, hseek₂, hread₂]
    exact hR₄

theorem fsTransfer_shows (hchunk : ChunkShows R chunk chunk') (hwf : WellFormed k.globalIO)
    (hfull : FullChunk k.globalIO i chunk') (hlock : k.kfsLock = lockInit)
    (ho : Opened k.globalIO (k.fileArray io) i) (hn : (k.fileArray io).filePos + n < 2 ^ 64)
    (hspot : loc.blockSpot.toNat < 2 ^ 32) (hm : m = min n (byteLen k.globalIO.bytes i - (k.fileArray io).filePos))
    (hnw : 0 < m → 4096 * (numInodes k.globalIO.bytes + 1) < 2 ^ 32) (hR : R s k.globalIO) {fuel : Nat}
    {r : Int × (Nat → UInt8) × Globals Disk}
    (he : fsTransfer FlatDisk.ops chunk' fuel loc self k io buf n = some r) :
    ∃ s', fsTransfer dev chunk fuel loc self (onGlobals k s) io buf n = some (r.1, r.2.1, onGlobals r.2.2 s') ∧
      R s' r.2.2.device := by
  obtain ⟨hseek, hnum, hstart⟩ := @TransferBounds.fsEnter_disk k io i n loc buf hwf.inodes ho (by omega) m
    (by rw [if_pos hn]; exact hm)
  obtain ⟨s₁, hseek', hnum', hstart', hR₁⟩ := @fsEnter_shows _ _ _ hd k io i n loc buf s hwf.inodes ho hR
  rw [fsTransfer_enter, hseek, hnum, hstart, hlock] at he
  obtain ⟨lk, hlk, he⟩ := Option.bind_eq_some_iff.mp he
  rw [if_neg (not_not_intro rfl)] at he
  obtain ⟨t', hloop, rfl⟩ := Option.map_eq_some_iff.mp he
  have hinv : TransferBounds.LoopInv k.globalIO i (k.fileArray io).filePos m (entered k io loc buf m) :=
    ⟨fun _ _ => rfl, rfl, Nat.zero_add _, rfl, ho.fileSize, hspot⟩
  have hle := ho.filePos_le
  have hino : (onGlobals k s).fileArray = k.fileArray := rfl
  have hk : (onGlobals k s).kfsLock = lockInit := hlock
  rw [hstart] at hR₁
  rw [ho.inode] at hloop
  obtain ⟨s₂, hloop', hR₂⟩ := blockLoop_shows hd hwf ho.inode_lt hchunk hfull hnw (by omega) fuel hinv hR₁ hloop
  refine ⟨s₂, ?_, hR₂⟩
  rw [fsTransfer_enter, hk, hlk, Option.bind_some, hseek', hnum', hstart', hseek, hnum, hstart, if_neg (not_not_intro rfl),
    hino, ho.inode, hloop']
  rfl

/-- A call that follows the byte arrays on the disk follows them on the device. -/
theorem call_shows (hv : Valid k) {op : Op} (ho : IsOpen k op.io) (ha : (filesOf k).Admissible op)
    (hf : (filesOf k).OffsetFits (numInodes k.globalIO.bytes) op) (hR : R s k.globalIO) {fuel : Nat}
    {r : Result × Globals Disk} (he : call FlatDisk.ops fuel self k op = some r) :
    ∃ s', call dev fuel self (onGlobals k s) op = some (r.1, onGlobals r.2 s') ∧ R s' r.2.device := by
  cases op with
  | read loc io buf n =>
      have hop := hv.opened io ho
      obtain ⟨x, hx, rfl⟩ := Option.map_eq_some_iff.mp he
      obtain ⟨s', hs', hR'⟩ := fsTransfer_shows hd (chunkShows_read hd) hv.image
        (fullChunk_read hv.image hop.inode_lt) hv.lock hop ha.2 ha.1 (filesOf_count hv ho) hf hR hx
      exact ⟨s', Option.map_eq_some_iff.mpr ⟨_, hs', rfl⟩, hR'⟩
  | write loc io buf n =>
      have hop := hv.opened io ho
      obtain ⟨x, hx, rfl⟩ := Option.map_eq_some_iff.mp he
      obtain ⟨s', hs', hR'⟩ := fsTransfer_shows hd (chunkShows_write hd) hv.image
        (fullChunk_write hv.image hop.inode_lt) hv.lock hop ha.2 ha.1 (filesOf_count hv ho) hf hR hx
      exact ⟨s', Option.map_eq_some_iff.mpr ⟨_, hs', rfl⟩, hR'⟩
  | setpos io pos =>
      obtain rfl := Option.some.inj he
      exact ⟨s, rfl, hR⟩

/-- What a call on an open file does on the device. -/
theorem call_refines (hv : Valid k) {op : Op} (ho : IsOpen k op.io) (ha : (filesOf k).Admissible op)
    (hf : (filesOf k).OffsetFits (numInodes k.globalIO.bytes) op) (hR : R s k.globalIO) :
    ∃ fuel k' s', call dev fuel self (onGlobals k s) op = some (((filesOf k).step op).1, onGlobals k' s') ∧
      R s' k'.globalIO ∧ StepRefines self k op fuel k' := by
  obtain ⟨fuel, k', hstep⟩ := @kfsOp_refines _ self hv _ ho ha hf
  obtain ⟨s', he, hR'⟩ := call_shows hd hv ho ha hf hR ((call_flat _ _ _ _).trans hstep.1)
  exact ⟨fuel, k', s', he, hR', hstep⟩

theorem callRun_refines (ops : List Op) (hv : Valid k) (ho : ∀ op ∈ ops, IsOpen k op.io)
    (ha : (filesOf k).Along Files.Admissible ops)
    (hf : (filesOf k).Along (fun s => s.OffsetFits (numInodes k.globalIO.bytes)) ops) (hR : R s k.globalIO) :
    ∃ fuel k' s', callRun dev fuel self (onGlobals k s) ops = some (((filesOf k).run ops).1, onGlobals k' s') ∧
      R s' k'.globalIO ∧ filesOf k' = ((filesOf k).run ops).2 ∧ Valid k' ∧
      MetaEq k.globalIO.bytes k'.globalIO.bytes := by
  induction ops generalizing k s with
  | nil => exact ⟨0, k, s, rfl, hR, rfl, hv, MetaEq.refl _⟩
  | cons op ops ih =>
      obtain ⟨f₁, k₁, s₁, he₁, hR₁, -, hs₁, hv₁, hm₁, ho₁⟩ := call_refines hd hv (ho op (by simp)) ha.1 hf.1 hR
      obtain ⟨f₂, k₂, s₂, he₂, hR₂, hs₂, hv₂, hm₂⟩ := ih hv₁ (fun o h => (ho₁ _).mpr (ho o (by simp [h])))
        (by rw [hs₁]; exact ha.2) (by rw [hs₁, hm₁.numInodes]; exact hf.2) hR₁
      rw [hs₁] at he₂ hs₂
      refine ⟨max f₁ f₂, k₂, s₂, ?_, hR₂, hs₂, hv₂, hm₁.trans hm₂⟩
      exact callRun_cons.mpr ⟨_, onGlobals k₁ s₁, _, call_mono he₁ (Nat.le_max_left _ _),
        callRun_mono he₂ (Nat.le_max_right _ _), rfl⟩

end Call

end Device

/-- Calls on open files over the block device driver answer as byte arrays do, and what they
write is what the disk holds afterwards. -/
theorem callRun_vioblk (k : Globals (Option (VioblkDevice (Nat → UInt8)))) (v : VioblkDevice (Nat → UInt8)) (blksz self : Nat)
    (ops : List Op) (hk : k.globalIO = some v) (hidle : Idle blksz v (diskOf v)) (hv : Valid (onGlobals k (diskOf v)))
    (ho : ∀ op ∈ ops, IsOpen (onGlobals k (diskOf v)) op.io)
    (ha : (filesOf (onGlobals k (diskOf v))).Along Files.Admissible ops)
    (hf : (filesOf (onGlobals k (diskOf v))).Along (fun s => s.OffsetFits (numInodes v.disk)) ops) :
    ∃ fuel k' v', callRun (vioblkOps (hardware blksz) self) fuel self k ops =
        some (((filesOf (onGlobals k (diskOf v))).run ops).1, k') ∧
      k'.globalIO = some v' ∧ Idle blksz v' (diskOf v') ∧
      filesOf (onGlobals k' (diskOf v')) = ((filesOf (onGlobals k (diskOf v))).run ops).2 ∧
      Valid (onGlobals k' (diskOf v')) ∧ MetaEq v.disk v'.disk := by
  have hR : ∃ w, k.globalIO = some w ∧ Idle blksz w (diskOf v) := ⟨v, hk, hidle⟩
  obtain ⟨fuel, k', s', he, ⟨v', rfl, hidle'⟩, hfiles, hv', hm⟩ := @callRun_refines _ _ _ (shows_vioblk blksz self)
    (onGlobals k (diskOf v)) self k.globalIO ops hv ho ha hf hR
  have hdisk := hidle'.eq_diskOf
  have hsame : onGlobals (onGlobals k' (some v')) (diskOf v') = k' := by
    rw [← hdisk]
    rfl
  rw [hdisk] at hidle' hm
  exact ⟨fuel, onGlobals k' (some v'), v', he, rfl, hidle', by rw [hsame]; exact hfiles, by rw [hsame]; exact hv', hm⟩

theorem callRun_vioblk_sectors :
    ∃ fuel k' v', callRun (vioblkOps (hardware 512) 3) fuel 3 (onGlobals (oneFileState 1) (some (sectors (oneFile 1)))) readOne =
        some (((filesOf (oneFileState 1)).run readOne).1, k') ∧
      k'.globalIO = some v' ∧ (filesOf (onGlobals k' (diskOf v'))).pos 0 = 1 := by
  have hdisk : onGlobals (onGlobals (oneFileState 1) (some (sectors (oneFile 1)))) (diskOf (sectors (oneFile 1))) =
      oneFileState 1 := rfl
  obtain ⟨fuel, k', v', he, hv', -, hfiles, -⟩ := callRun_vioblk (onGlobals (oneFileState 1) (some (sectors (oneFile 1)))) _ 512 3
    readOne rfl (idle_sectors _) (by rw [hdisk]; exact oneFileState_valid (by decide) (by decide))
    (by simp [readOne, KfsRun.IsOpen, Op.io, oneFileState, onGlobals])
    (by rw [hdisk]; exact readOne_admissible _ rfl) ⟨fun _ => by decide +kernel, trivial⟩
  rw [hdisk] at he hfiles
  refine ⟨fuel, k', v', he, hv', ?_⟩
  rw [hfiles]
  decide +kernel

end RiscvKernel.KfsStack
