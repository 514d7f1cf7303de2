import RiscvKernel.Vioblk
import RiscvKernel.Literal

namespace RiscvKernel.DiskView

open Io Lib.Bytes SleepLock FlatDisk Vioblk Literal

/-! Devices that a file system can use like a flat disk. -/

/-- In the states that R relates to a disk, seeks to its bytes and transfers inside it go as
they do on the disk. -/
structure Shows {σ : Type} (dev : IoOps σ) (R : σ → Disk → Prop) : Prop where
  reads : dev.read.isSome
  seek : ∀ s d pos, R s d → pos ≤ d.size → ∃ s', ioseek dev s pos = (0, s') ∧ R s' { d with pos }
  read : ∀ s d n, R s d → 0 < n → d.pos + n ≤ d.size →
    ∃ s', ioread dev s n = ((n : Int), readAt d.bytes d.pos n, s') ∧ R s' { d with pos := d.pos + n }
  write : ∀ s d bs, R s d → bs ≠ [] → d.pos + bs.length ≤ d.size →
    ∃ s', iowrite dev s bs = ((bs.length : Int), s') ∧
      R s' { d with bytes := writeAt d.bytes d.pos bs, pos := d.pos + bs.length }

/-- A write operation that takes a whole buffer is called once for it. -/
theorem iowriteLoop_whole {σ : Type} {write : σ → List UInt8 → Int × σ} {s s' : σ} {bs : List UInt8}
    (hbs : bs ≠ []) (h : write s bs = ((bs.length : Int), s')) :
    iowriteLoop write bs 0 s = ((bs.length : Int), s') := by
  have hpos := List.length_pos_of_ne_nil hbs
  rw [iowriteLoop, if_pos hpos, List.drop_zero, h]
  simp only
  rw [if_neg (by omega), if_neg (by omega), iowriteLoop, if_neg (by simp)]
  simp

/-- Seeks and transfers of dev go as those of dev' on what g makes of its states, while Q holds,
which they keep. -/
structure RunsLike {σ τ : Type} (dev : IoOps σ) (dev' : IoOps τ) (g : σ → τ) (Q : σ → Prop) : Prop where
  reads : dev'.read.isSome → dev.read.isSome
  seek : ∀ s pos, Q s → ioseek dev' (g s) pos = ((ioseek dev s pos).1, g (ioseek dev s pos).2) ∧ Q (ioseek dev s pos).2
  read : ∀ s n, Q s → ioread dev' (g s) n = ((ioread dev s n).1, (ioread dev s n).2.1, g (ioread dev s n).2.2) ∧
    Q (ioread dev s n).2.2
  write : ∀ s bs, Q s → iowrite dev' (g s) bs = ((iowrite dev s bs).1, g (iowrite dev s bs).2) ∧ Q (iowrite dev s bs).2

theorem RunsLike.shows {σ τ : Type} {dev : IoOps σ} {dev' : IoOps τ} {g : σ → τ} {Q : σ → Prop} {R : τ → Disk → Prop}
    (h : RunsLike dev dev' g Q) (hR : Shows dev' R) : Shows dev fun s d => Q s ∧ R (g s) d := by
  refine ⟨h.reads hR.reads, ?_, ?_, ?_⟩
  · rintro s d pos ⟨hq, hr⟩ hpos
    obtain ⟨t, he, ht⟩ := hR.seek (g s) d pos hr hpos
    obtain ⟨hsame, hq'⟩ := h.seek s pos hq
    rw [hsame, Prod.mk.injEq] at he
    obtain ⟨hret, rfl⟩ := he
    exact ⟨_, Prod.ext hret rfl, hq', ht⟩
  · rintro s d n ⟨hq, hr⟩ hn hle
    obtain ⟨t, he, ht⟩ := hR.read (g s) d n hr hn hle
    obtain ⟨hsame, hq'⟩ := h.read s n hq
    rw [hsame, Prod.mk.injEq, Prod.mk.injEq] at he
    obtain ⟨hret, hbs, rfl⟩ := he
    exact ⟨_, Prod.ext hret (Prod.ext hbs rfl), hq', ht⟩
  · rintro s d bs ⟨hq, hr⟩ hbs hle
    obtain ⟨t, he, ht⟩ := hR.write (g s) d bs hr hbs hle
    obtain ⟨hsame, hq'⟩ := h.write s bs hq
    rw [hsame, Prod.mk.injEq] at he
    obtain ⟨hret, rfl⟩ := he
    exact ⟨_, Prod.ext hret rfl, hq', ht⟩

/-- A loop of writes that run alike runs alike. -/
theorem iowriteLoop_like {σ τ : Type} {write : σ → List UInt8 → Int × σ} {write' : τ → List UInt8 → Int × τ} {g : σ → τ}
    {Q : σ → Prop} (h : ∀ s bs, Q s → write' (g s) bs = ((write s bs).1, g (write s bs).2) ∧ Q (write s bs).2)
    (buf : List UInt8) (acc : Nat) (s : σ) (hq : Q s) :
    iowriteLoop write' buf acc (g s) = ((iowriteLoop write buf acc s).1, g (iowriteLoop write buf acc s).2) ∧
      Q (iowriteLoop write buf acc s).2 := by
  fun_induction iowriteLoop write buf acc s with
  | case1 acc s hlt cnt s' hw hneg =>
      obtain ⟨hsame, hq'⟩ := h s (buf.drop acc) hq
      rw [hw] at hsame hq'
      rw [iowriteLoop, if_pos hlt, hsame]
      exact ⟨if_pos hneg, hq'⟩
  | case2 acc s hlt s' hw hneg =>
      obtain ⟨hsame, hq'⟩ := h s (buf.drop acc) hq
      rw [hw] at hsame hq'
      rw [iowriteLoop, if_pos hlt, hsame]
      exact ⟨(if_neg hneg).trans (if_pos rfl), hq'⟩
  | case3 acc s hlt cnt s' hw hneg hzero ih =>
      obtain ⟨hsame, hq'⟩ := h s (buf.drop acc) hq
      rw [hw] at hsame hq'
      obtain ⟨hrest, hlast⟩ := ih hq'
      rw [iowriteLoop, if_pos hlt, hsame]
      refine ⟨(if_neg hneg).trans ((if_neg hzero).trans hrest), hlast⟩
  | case4 acc s hlt =>
      rw [iowriteLoop, if_neg hlt]
      exact ⟨rfl, hq⟩

section Driver

/-- vioblk_ioctl. -/
def vioblkIoctl {δ : Type} (self : Nat) (v : VioblkDevice δ) : Ioctl → Nat → Option (Int × Nat × VioblkDevice δ)
  | .getlen, _ => some (0, v.size, v)
  | .getpos, _ => some (0, v.pos, v)
  | .setpos, pos => (vioblkSetpos self v pos).map fun r => (r.1, pos, r.2)
  | .getblksz, _ => some (0, v.blksz, v)
  | _, arg => some (-enotsup, arg, v)

/-- vioblk_ops as thread self calls them; none is a call that sleeps for vio_lock, which nobody
is left to release. -/
def vioblkOps {δ : Type} (hw : Hardware δ) (self : Nat) : IoOps (Option (VioblkDevice δ)) where
  read := some fun s n => match s.bind (vioblkRead hw self · n) with
    | some (r, bs, v) => (r, bs, some v)
    | none => (0, [], none)
  write := some fun s bs => match s.bind (vioblkWrite hw self · bs) with
    | some (r, v) => (r, some v)
    | none => (0, none)
  ctl := some fun s cmd arg => match s.bind (vioblkIoctl self · cmd arg) with
    | some (r, arg, v) => (r, arg, some v)
    | none => (0, arg, none)

/-- An opened writable device between two calls, with a disk of units of the block size. -/
structure Idle (blksz : Nat) (v : VioblkDevice (Nat → UInt8)) (d : Disk) : Prop where
  tracks : Tracks v d
  lock : v.lock = lockInit
  blksz : v.blksz = blksz

theorem shows_vioblk (blksz self : Nat) :
    Shows (vioblkOps (hardware blksz) self) fun s d => ∃ v, s = some v ∧ Idle blksz v d := by
  refine ⟨rfl, ?_, ?_, ?_⟩
  · rintro s d pos ⟨v, rfl, ht, hl, rfl⟩ hpos
    obtain ⟨v', he, ht', hl', hz'⟩ := vioblkSetpos_tracks ht hl self (ht.size ▸ hpos)
    have hset : setpos d pos = (0, { d with pos }) := if_neg (Nat.not_lt.mpr hpos)
    rw [hset] at he ht'
    refine ⟨some v', ?_, v', rfl, ht', hl', hz'⟩
    simp [ioseek, ioctl, vioblkOps, vioblkIoctl, he]
  · rintro s d n ⟨v, rfl, ht, hl, rfl⟩ hn hle
    obtain ⟨v', he, ht', hl', hz'⟩ := vioblkRead_tracks ht hl self hn
    have hread : FlatDisk.read d n = _ := ioread_ops hle
    rw [hread] at he ht'
    refine ⟨some v', ?_, v', rfl, ht', hl', hz'⟩
    simp [ioread, vioblkOps, he]
  · rintro s d bs ⟨v, rfl, ht, hl, rfl⟩ hbs hle
    obtain ⟨v', he, ht', hl', hz'⟩ := vioblkWrite_tracks ht hl self (List.length_pos_of_ne_nil hbs)
    have hmin : min bs.length (d.size - d.pos) = bs.length := by omega
    have hwrite : FlatDisk.write d bs = ((bs.length : Int),
        { d with bytes := writeAt d.bytes d.pos bs, pos := d.pos + bs.length }) := by
      simp only [FlatDisk.write, hmin, List.take_length]
    rw [hwrite] at he ht'
    refine ⟨some v', ?_, v', rfl, ht', hl', hz'⟩
    exact iowriteLoop_whole hbs (by simp [he])

/-- The disk that the driver shows. -/
def diskOf (v : VioblkDevice (Nat → UInt8)) : Disk := ⟨v.disk, v.size, v.pos⟩

theorem Idle.eq_diskOf {blksz : Nat} {v : VioblkDevice (Nat → UInt8)} {d : Disk} (h : Idle blksz v d) : d = diskOf v := by
  obtain ⟨bytes, size, pos⟩ := d
  have hb := h.tracks.bytes
  have hs := h.tracks.size
  have hp := h.tracks.pos
  simp only at hb hs hp
  rw [diskOf, hb, hs, hp]

/-- An opened device of 24 sectors. -/
def sectors (disk : Nat → UInt8) : VioblkDevice (Nat → UInt8) where
  opened := true
  readonly := false
  blksz := 512
  blksz_pos := by decide
  pos := 0
  size := 24 * 512
  blkcnt := 24
  availIdx := 0
  usedIdx := 0
  reqHeader := ⟨.tIn, 0⟩
  reqStatus := 0
  blkbuf := List.replicate 512 0
  lock := lockInit
  disk

theorem idle_sectors (disk : Nat → UInt8) : Idle 512 (sectors disk) ⟨disk, 24 * 512, 0⟩ :=
  ⟨⟨rfl, rfl, rfl, List.length_replicate, rfl, rfl, Nat.zero_le _, rfl⟩, rfl, rfl⟩

end Driver

section Buffer

/-- A literal whose buffer holds the bytes of the disk. -/
structure Holds (iol : Lit) (d : Disk) : Prop where
  buf : iol.buf = readAt d.bytes 0 d.size
  pos : iol.pos = d.pos
  pos_le : d.pos ≤ d.size
  size : d.size < 2 ^ 63

theorem Holds.length {iol : Lit} {d : Disk} (h : Holds iol d) : iol.size = d.size := by
  rw [Lit.size, h.buf, readAt_length]

theorem shows_literal : Shows iolitOps Holds := by
  refine ⟨rfl, ?_, ?_, ?_⟩
  · intro iol d pos h hpos
    have hlen := h.length
    refine ⟨{ iol with pos }, ?_, h.buf, rfl, hpos, h.size⟩
    simp [ioseek, ioctl, iolitOps, iolitCtl, hlen, Nat.not_lt.mpr hpos]
  · intro iol d n h hn hle
    have hlen := h.length
    have hpos := h.pos
    have hsize := h.size
    have hread : ioread iolitOps iol n = _ := iolitRead_eq (by omega) (by omega) (by omega)
    have hmin : min n (iol.size - iol.pos) = n := by omega
    rw [hmin, h.buf, hpos, readAt_drop_take _ hle, Nat.zero_add] at hread
    exact ⟨_, hread, rfl, rfl, hle, hsize⟩
  · intro iol d bs h hbs hle
    have hlen := h.length
    have hpos := h.pos
    have hsize := h.size
    have hclamp : iol.clamp bs.length = bs.length := by
      rw [Lit.clamp, Nat.mod_eq_of_lt (by omega)]
      split <;> omega
    have hbuf : iol.buf.take iol.pos ++ bs ++ iol.buf.drop (iol.pos + bs.length) =
        readAt (writeAt d.bytes d.pos bs) 0 d.size := by
      have hsplice := @splice_readAt 0 d.size d.bytes d.pos bs hle
      rw [splice, Nat.zero_add] at hsplice
      rw [h.buf, hpos, hsplice]
    have hwrite : iolitWrite iol bs = ((bs.length : Int),
        ⟨readAt (writeAt d.bytes d.pos bs) 0 d.size, d.pos + bs.length⟩) := by
      rw [iolitWrite, if_neg (by omega)]
      simp only [hclamp, List.take_length]
      rw [hbuf, hpos, Nat.mod_eq_of_lt (by omega), BitVec.toInt_eq_toNat_of_lt] <;>
        rw [BitVec.toNat_ofNat, Nat.mod_eq_of_lt (by omega)]
      omega
    exact ⟨_, iowriteLoop_whole hbs hwrite, rfl, rfl, hle, hsize⟩

end Buffer

end RiscvKernel.DiskView
