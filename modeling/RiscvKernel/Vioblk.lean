import RiscvKernel.FlatDisk
import RiscvKernel.SleepLock

namespace RiscvKernel.Vioblk

open Io Lib.Bytes SleepLock FlatDisk

variable {δ : Type}

inductive ReqType
  | tIn | tOut
  deriving DecidableEq, Repr

structure ReqHeader where
  type : ReqType
  sector : Nat
  deriving DecidableEq, Repr

/-- The device side of one request: the header, the length of the data
descriptor and the data buffer give the status byte and the new data buffer. -/
abbrev Hardware (δ : Type) := ReqHeader → Nat → List UInt8 → δ → UInt8 × List UInt8 × δ

def virtioBlkSOk : UInt8 := 0

/-- struct vioblk_device, with vio_lock and the state of the device behind it. -/
structure VioblkDevice (δ : Type) where
  opened : Bool
  readonly : Bool
  blksz : Nat
  blksz_pos : 0 < blksz
  pos : Nat
  size : Nat
  blkcnt : Nat
  availIdx : BitVec 16
  usedIdx : BitVec 16
  reqHeader : ReqHeader
  reqStatus : UInt8
  blkbuf : List UInt8
  lock : Lock
  disk : δ

/-- Fill in header and descriptors, make the request available and wait until
the device has used it. -/
def submit (hw : Hardware δ) (type : ReqType) (sector : Nat) (v : VioblkDevice δ) : VioblkDevice δ :=
  let r := hw ⟨type, sector⟩ v.blksz v.blkbuf v.disk
  { v with
    reqHeader := ⟨type, sector⟩, reqStatus := r.1, blkbuf := r.2.1, disk := r.2.2
    availIdx := v.availIdx + 1, usedIdx := v.availIdx + 1 }

def unlock (v : VioblkDevice δ) : VioblkDevice δ := { v with lock := lockRelease v.lock }

/-- How much of a request of which rest bytes are left fits into the block at pos. -/
def blockPart (v : VioblkDevice δ) (rest : Nat) : Nat :=
  if v.blksz - v.pos % v.blksz < rest then v.blksz - v.pos % v.blksz else rest

theorem blockPart_pos (v : VioblkDevice δ) {rest : Nat} (h : 0 < rest) : 0 < blockPart v rest := by
  have := Nat.mod_lt v.pos v.blksz_pos
  unfold blockPart
  split <;> omega

/-- The loop of vioblk_read; out collects what was copied to the caller. A
failed request returns with the lock still held. -/
def vioblkReadLoop (hw : Hardware δ) (bufsz total : Nat) (out : List UInt8) (v : VioblkDevice δ) :
    Int × List UInt8 × VioblkDevice δ :=
  if total < bufsz then
    if v.size ≤ v.pos then (total, out, unlock v)
    else
      let w := submit hw .tIn (v.pos / v.blksz) v
      if w.reqStatus ≠ virtioBlkSOk then (-eio, out, w)
      else
        vioblkReadLoop hw bufsz (total + blockPart v (bufsz - total))
          (out ++ (w.blkbuf.drop (v.pos % v.blksz)).take (blockPart v (bufsz - total)))
          { w with pos := v.pos + blockPart v (bufsz - total) }
  else (total, out, unlock v)
termination_by bufsz - total
decreasing_by
  have := @blockPart_pos _ v (bufsz - total) (by omega)
  omega

/-- vioblk_read: none when the caller sleeps for the lock. -/
def vioblkRead (hw : Hardware δ) (self : Nat) (v : VioblkDevice δ) (bufsz : Nat) :
    Option (Int × List UInt8 × VioblkDevice δ) := do
  let lock ← lockAcquire v.lock self
  let v := { v with lock }
  if bufsz = 0 then return (0, [], v)
  if v.opened = false then return (-1, [], v)
  return vioblkReadLoop hw bufsz 0 [] v

/-- When less than a whole block is written, vioblk_write first reads the block
into the bounce buffer; the error is a failed read. -/
def fetchBlock (hw : Hardware δ) (toWrite : Nat) (v : VioblkDevice δ) :
    Except (VioblkDevice δ) (VioblkDevice δ) :=
  if v.pos % v.blksz ≠ 0 ∨ toWrite ≠ v.blksz then
    let w := submit hw .tIn (v.pos / v.blksz) v
    if w.reqStatus ≠ virtioBlkSOk then .error w else .ok w
  else .ok v

def vioblkWriteLoop (hw : Hardware δ) (buf : List UInt8) (total : Nat) (v : VioblkDevice δ) :
    Int × VioblkDevice δ :=
  if total < buf.length then
    if v.size ≤ v.pos then (total, unlock v)
    else
      let toWrite := blockPart v (buf.length - total)
      match fetchBlock hw toWrite v with
      | .error w => (-eio, w)
      | .ok w =>
          let merged := splice w.blkbuf (v.pos % v.blksz) ((buf.drop total).take toWrite)
          let u := submit hw .tOut (v.pos / v.blksz) { w with blkbuf := merged }
          if u.reqStatus ≠ virtioBlkSOk then (-eio, u)
          else vioblkWriteLoop hw buf (total + toWrite) { u with pos := v.pos + toWrite }
  else (total, unlock v)
termination_by buf.length - total
decreasing_by
  have := @blockPart_pos _ v (buf.length - total) (by omega)
  omega

def vioblkWrite (hw : Hardware δ) (self : Nat) (v : VioblkDevice δ) (buf : List UInt8) :
    Option (Int × VioblkDevice δ) := do
  let lock ← lockAcquire v.lock self
  let v := { v with lock }
  if v.opened = false then return (-1, v)
  if v.readonly then return (-enotsup, v)
  if buf.length = 0 then return (0, v)
  return vioblkWriteLoop hw buf 0 v

/-- vioblk_setpos: a position past the end returns with the lock still held. -/
def vioblkSetpos (self : Nat) (v : VioblkDevice δ) (pos : Nat) : Option (Int × VioblkDevice δ) := do
  let lock ← lockAcquire v.lock self
  let v := { v with lock }
  if v.size < pos then return (-einval, v)
  return (0, unlock { v with pos })

/-- A device that completes every request and counts header sectors in units of
its own: a read fills the data buffer, a write stores it. -/
def hardware (unit : Nat) : Hardware (Nat → UInt8)
  | ⟨.tIn, sector⟩, len, _, disk => (virtioBlkSOk, readAt disk (sector * unit) len, disk)
  | ⟨.tOut, sector⟩, len, buf, disk => (virtioBlkSOk, buf, writeAt disk (sector * unit) (buf.take len))

/-- The driver and the flat disk it implements, for an opened writable device. -/
structure Tracks (v : VioblkDevice (Nat → UInt8)) (d : Disk) : Prop where
  opened : v.opened = true
  writable : v.readonly = false
  blocks : v.size = v.blkcnt * v.blksz
  buffer : v.blkbuf.length = v.blksz
  size : d.size = v.size
  pos : d.pos = v.pos
  pos_le : v.pos ≤ v.size
  bytes : d.bytes = v.disk

section Block

variable (v : VioblkDevice δ)

/-- The rest of the block at a position inside the device lies inside it. -/
theorem blockPart_le (rest : Nat) (hb : v.size = v.blkcnt * v.blksz) (hp : v.pos < v.size) :
    v.pos + blockPart v rest ≤ v.size := by
  have hmod := Nat.div_add_mod' v.pos v.blksz
  have hlt := Nat.mod_lt v.pos v.blksz_pos
  have hq : v.pos / v.blksz < v.blkcnt := by
    rw [Nat.div_lt_iff_lt_mul v.blksz_pos, ← hb]
    exact hp
  have hle : (v.pos / v.blksz + 1) * v.blksz ≤ v.size := by
    rw [hb]
    exact Nat.mul_le_mul_right _ hq
  rw [Nat.succ_mul] at hle
  unfold blockPart
  split <;> omega

theorem blockPart_le_rest (rest : Nat) : blockPart v rest ≤ rest := by
  unfold blockPart
  split <;> omega

theorem blockPart_le_block (rest : Nat) : v.pos % v.blksz + blockPart v rest ≤ v.blksz := by
  have := Nat.mod_lt v.pos v.blksz_pos
  unfold blockPart
  split <;> omega

end Block

section Tracks

variable {v : VioblkDevice (Nat → UInt8)} {d : Disk}

theorem Tracks.unlock (h : Tracks v d) : Tracks (unlock v) d := ⟨h.1, h.2, h.3, h.4, h.5, h.6, h.7, h.8⟩

/-- A block read brings the block at pos into the bounce buffer. -/
theorem Tracks.fetch (h : Tracks v d) : Tracks (submit (hardware v.blksz) .tIn (v.pos / v.blksz) v) d :=
  ⟨h.opened, h.writable, h.blocks, readAt_length _ _ _, h.size, h.pos, h.pos_le, h.bytes⟩

theorem Tracks.fetch_part (h : Tracks v d) (rest : Nat) :
    ((submit (hardware v.blksz) .tIn (v.pos / v.blksz) v).blkbuf.drop (v.pos % v.blksz)).take
      (blockPart v rest) = readAt d.bytes d.pos (blockPart v rest) := by
  have hle := blockPart_le_block v rest
  simp only [submit, hardware]
  rw [readAt_drop_take _ hle, Nat.div_add_mod', h.bytes, h.pos]

theorem Tracks.advance (h : Tracks v d) {n : Nat} (hn : v.pos + n ≤ v.size) :
    Tracks { v with pos := v.pos + n } { d with pos := d.pos + n } :=
  ⟨h.opened, h.writable, h.blocks, h.buffer, h.size, by simp [h.pos], hn, h.bytes⟩

theorem vioblkReadLoop_tracks (h : Tracks v d) (bufsz total : Nat) (out : List UInt8)
    (ht : total ≤ bufsz) :
    ∃ v' m, m = min (bufsz - total) (d.size - d.pos) ∧
      vioblkReadLoop (hardware v.blksz) bufsz total out v =
        (((total + m : Nat) : Int), out ++ readAt d.bytes d.pos m, v') ∧
      Tracks v' { d with pos := d.pos + m } ∧ v'.lock = lockInit ∧ v'.blksz = v.blksz := by
  induction hk : bufsz - total using Nat.strongRecOn generalizing total out v d with
  | ind k ih =>
      rw [vioblkReadLoop]
      by_cases hlt : total < bufsz
      · rw [if_pos hlt]
        by_cases hend : v.size ≤ v.pos
        · have hm : min k (d.size - d.pos) = 0 := by
            have := h.size; have := h.pos; omega
          refine ⟨unlock v, 0, hm.symm, ?_, h.unlock, rfl, rfl⟩
          rw [if_pos hend, readAt_zero, List.append_nil, Nat.add_zero]
        · have hpart := blockPart_le v k h.blocks (by omega)
          have hpos := @blockPart_pos _ v k (by omega)
          have hrest := blockPart_le_rest v k
          obtain ⟨v', m, hm, he, ht', hl, hz⟩ := ih (k - blockPart v k) (by omega)
            (h.fetch.advance (n := blockPart v k) hpart) (total + blockPart v k)
            (out ++ readAt d.bytes d.pos (blockPart v k)) (by omega) (by omega)
          refine ⟨v', blockPart v k + m, ?_, ?_, ?_, hl, hz⟩
          · have := h.size; have := h.pos
            simp only at hm
            omega
          · rw [if_neg hend, hk, readAt_add, ← List.append_assoc, ← Nat.add_assoc]
            simp only [h.fetch_part]
            exact he
          · rw [← Nat.add_assoc]
            exact ht'
      · have hm : min k (d.size - d.pos) = 0 := by omega
        refine ⟨unlock v, 0, hm.symm, ?_, h.unlock, rfl, rfl⟩
        rw [if_neg hlt, readAt_zero, List.append_nil, Nat.add_zero]

/-- Merging bytes into the block at pos and storing the block changes exactly
these bytes, whether the block was fetched before or is overwritten whole. -/
theorem Tracks.merge (h : Tracks v d) {rest : Nat} {bs : List UInt8} (hbs : bs.length = blockPart v rest) :
    ∃ w, fetchBlock (hardware v.blksz) (blockPart v rest) v = .ok w ∧ Tracks w d ∧
      w.blksz = v.blksz ∧ (splice w.blkbuf (v.pos % v.blksz) bs).length = v.blksz ∧
      writeAt w.disk (v.pos / v.blksz * v.blksz) (splice w.blkbuf (v.pos % v.blksz) bs) =
        writeAt d.bytes d.pos bs := by
  have hle := blockPart_le_block v rest
  rw [← hbs] at hle
  unfold fetchBlock
  by_cases hp : v.pos % v.blksz ≠ 0 ∨ blockPart v rest ≠ v.blksz
  · refine ⟨submit (hardware v.blksz) .tIn (v.pos / v.blksz) v, ?_, h.fetch, rfl, ?_, ?_⟩
    · rw [if_pos hp]; rfl
    · rw [splice_length (by rw [h.fetch.buffer]; exact hle), h.fetch.buffer]; rfl
    · simp only [submit, hardware]
      rw [writeAt_splice _ _ _ _ hle, Nat.div_add_mod', h.bytes, h.pos]
  · obtain ⟨h0, h1⟩ : v.pos % v.blksz = 0 ∧ blockPart v rest = v.blksz := by
      simpa [not_or] using hp
    have hmod := Nat.div_add_mod' v.pos v.blksz
    rw [h0, Nat.add_zero] at hmod
    refine ⟨v, if_neg hp, h, rfl, ?_, ?_⟩
    · rw [splice_length (by rw [h.buffer]; exact hle), h.buffer]
    · have hs : splice v.blkbuf (v.pos % v.blksz) bs = bs := by
        rw [h0, splice, Nat.zero_add, List.drop_eq_nil_of_le (by rw [h.buffer]; omega)]
        simp
      rw [hs, hmod, h.bytes, h.pos]

theorem Tracks.store (h : Tracks v d) {rest : Nat} {bs : List UInt8} (hbs : bs.length = blockPart v rest) :
    ∃ w, fetchBlock (hardware v.blksz) (blockPart v rest) v = .ok w ∧
      ∃ u, submit (hardware v.blksz) .tOut (v.pos / v.blksz)
          { w with blkbuf := splice w.blkbuf (v.pos % v.blksz) bs } = u ∧
        u.reqStatus = virtioBlkSOk ∧ u.blksz = v.blksz ∧ u.pos = v.pos ∧ u.size = v.size ∧
        Tracks u { d with bytes := writeAt d.bytes d.pos bs } := by
  obtain ⟨w, hw, htw, hz, hlen, hstore⟩ := h.merge hbs
  refine ⟨w, hw, _, rfl, rfl, hz, by rw [← h.pos, htw.pos]; rfl, by rw [← h.size, htw.size]; rfl, ?_⟩
  refine ⟨htw.opened, htw.writable, htw.blocks, hlen.trans hz.symm, htw.size, htw.pos, htw.pos_le, ?_⟩
  simp only [submit, hardware]
  rw [List.take_of_length_le (Nat.le_of_eq (by rw [hlen, hz])), hstore]

theorem vioblkWriteLoop_tracks (h : Tracks v d) (buf : List UInt8) (total : Nat) (ht : total ≤ buf.length) :
    ∃ v' m, m = min (buf.length - total) (d.size - d.pos) ∧
      vioblkWriteLoop (hardware v.blksz) buf total v = (((total + m : Nat) : Int), v') ∧
      Tracks v' { d with bytes := writeAt d.bytes d.pos ((buf.drop total).take m), pos := d.pos + m } ∧
      v'.lock = lockInit ∧ v'.blksz = v.blksz := by
  induction hk : buf.length - total using Nat.strongRecOn generalizing total v d with
  | ind k ih =>
      rw [vioblkWriteLoop]
      by_cases hlt : total < buf.length
      · rw [if_pos hlt]
        by_cases hend : v.size ≤ v.pos
        · have hm : min k (d.size - d.pos) = 0 := by
            have := h.size; have := h.pos; omega
          refine ⟨unlock v, 0, hm.symm, ?_, by simpa using h.unlock, rfl, rfl⟩
          rw [if_pos hend, Nat.add_zero]
        · have hpart := blockPart_le v k h.blocks (by omega)
          have hpos := @blockPart_pos _ v k (by omega)
          have hrest := blockPart_le_rest v k
          have hbs : ((buf.drop total).take (blockPart v k)).length = blockPart v k := by
            simp; omega
          obtain ⟨w, hw, u, hu, hok, hz, hup, hus, htu⟩ := h.store hbs
          obtain ⟨v', m, hm, he, ht', hl, hz'⟩ := ih (k - blockPart v k) (by omega)
            (htu.advance (n := blockPart v k) (by omega)) (total + blockPart v k) (by omega) (by omega)
          refine ⟨v', blockPart v k + m, ?_, ?_, ?_, hl, hz'.trans hz⟩
          · have := h.size; have := h.pos
            simp only at hm
            omega
          · have hhw : hardware u.blksz = hardware v.blksz := by rw [hz]
            simp only at he
            rw [hhw, hup] at he
            rw [if_neg hend, hk, ← Nat.add_assoc]
            simp only [hw, hu]
            rw [if_neg (by simp [hok])]
            exact he
          · simp only at ht'
            rw [← Nat.add_assoc, List.take_add, List.drop_drop, ← writeAt_append, hbs]
            exact ht'
      · have hm : min k (d.size - d.pos) = 0 := by omega
        refine ⟨unlock v, 0, hm.symm, ?_, by simpa using h.unlock, rfl, rfl⟩
        rw [if_neg hlt, Nat.add_zero]

theorem vioblkRead_tracks (h : Tracks v d) (hl : v.lock = lockInit) (self : Nat) {n : Nat} (hn : 1 ≤ n) :
    ∃ v', vioblkRead (hardware v.blksz) self v n =
        some ((FlatDisk.read d n).1, (FlatDisk.read d n).2.1, v') ∧
      Tracks v' (FlatDisk.read d n).2.2 ∧ v'.lock = lockInit ∧ v'.blksz = v.blksz := by
  have h' : Tracks { v with lock := ⟨self⟩ } d := ⟨h.1, h.2, h.3, h.4, h.5, h.6, h.7, h.8⟩
  obtain ⟨v', m, hm, he, ht, hl', hz⟩ := vioblkReadLoop_tracks h' n 0 [] (Nat.zero_le _)
  rw [Nat.sub_zero] at hm
  subst hm
  refine ⟨v', ?_, ht, hl', hz⟩
  rw [Nat.zero_add, List.nil_append] at he
  rw [vioblkRead, hl, lockAcquire_lockInit]
  simp only [Option.bind_eq_bind, Option.bind_some]
  rw [if_neg (Nat.ne_of_gt hn), if_neg (by simp [h.opened]), he]
  rfl

theorem vioblkWrite_tracks (h : Tracks v d) (hl : v.lock = lockInit) (self : Nat) {buf : List UInt8}
    (hn : 1 ≤ buf.length) :
    ∃ v', vioblkWrite (hardware v.blksz) self v buf = some ((FlatDisk.write d buf).1, v') ∧
      Tracks v' (FlatDisk.write d buf).2 ∧ v'.lock = lockInit ∧ v'.blksz = v.blksz := by
  have h' : Tracks { v with lock := ⟨self⟩ } d := ⟨h.1, h.2, h.3, h.4, h.5, h.6, h.7, h.8⟩
  obtain ⟨v', m, hm, he, ht, hl', hz⟩ := vioblkWriteLoop_tracks h' buf 0 (Nat.zero_le _)
  rw [Nat.sub_zero] at hm
  subst hm
  rw [List.drop_zero] at ht
  refine ⟨v', ?_, ht, hl', hz⟩
  rw [Nat.zero_add] at he
  rw [vioblkWrite, hl, lockAcquire_lockInit]
  simp only [Option.bind_eq_bind, Option.bind_some]
  rw [if_neg (by simp [h.opened]), if_neg (by simp [h.writable]), if_neg (Nat.ne_of_gt hn), he]
  rfl

theorem vioblkSetpos_tracks (h : Tracks v d) (hl : v.lock = lockInit) (self : Nat) {pos : Nat}
    (hp : pos ≤ v.size) :
    ∃ v', vioblkSetpos self v pos = some ((setpos d pos).1, v') ∧
      Tracks v' (setpos d pos).2 ∧ v'.lock = lockInit ∧ v'.blksz = v.blksz := by
  have hd : ¬ d.size < pos := by rw [h.size]; omega
  refine ⟨{ v with pos, lock := lockInit }, ?_, ?_, rfl, rfl⟩
  · rw [vioblkSetpos, hl, lockAcquire_lockInit]
    simp only [Option.bind_eq_bind, Option.bind_some]
    rw [if_neg (Nat.not_lt.mpr hp), setpos, if_neg hd]
    rfl
  · rw [setpos, if_neg hd]
    exact ⟨h.opened, h.writable, h.blocks, h.buffer, h.size, rfl, hp, h.bytes⟩

end Tracks

inductive Op
  | read (n : Nat)
  | write (buf : List UInt8)
  | setpos (pos : Nat)

/-- The calls considered: transfers of at least one byte, seeks inside the device. -/
def Op.Valid (size : Nat) : Op → Prop
  | .read n => 1 ≤ n
  | .write buf => 1 ≤ buf.length
  | .setpos pos => pos ≤ size

/-- A call of the driver: the value returned and the bytes stored for the caller. -/
def vioblkOp (hw : Hardware δ) (self : Nat) (v : VioblkDevice δ) :
    Op → Option ((Int × List UInt8) × VioblkDevice δ)
  | .read n => (vioblkRead hw self v n).map (fun r => ((r.1, r.2.1), r.2.2))
  | .write buf => (vioblkWrite hw self v buf).map (fun r => ((r.1, []), r.2))
  | .setpos pos => (vioblkSetpos self v pos).map (fun r => ((r.1, []), r.2))

def diskOp (d : Disk) : Op → (Int × List UInt8) × Disk
  | .read n => (((FlatDisk.read d n).1, (FlatDisk.read d n).2.1), (FlatDisk.read d n).2.2)
  | .write buf => (((FlatDisk.write d buf).1, []), (FlatDisk.write d buf).2)
  | .setpos pos => (((setpos d pos).1, []), (setpos d pos).2)

def vioblkRun (hw : Hardware δ) (self : Nat) : VioblkDevice δ → List Op →
    Option (List (Int × List UInt8) × VioblkDevice δ)
  | v, [] => some ([], v)
  | v, op :: ops => do
      let (r, v) ← vioblkOp hw self v op
      let (rs, v) ← vioblkRun hw self v ops
      return (r :: rs, v)

def diskRun : Disk → List Op → List (Int × List UInt8) × Disk
  | d, [] => ([], d)
  | d, op :: ops => ((diskOp d op).1 :: (diskRun (diskOp d op).2 ops).1, (diskRun (diskOp d op).2 ops).2)

theorem vioblkOp_tracks {v : VioblkDevice (Nat → UInt8)} {d : Disk} (h : Tracks v d) (hl : v.lock = lockInit)
    (self : Nat) {op : Op} (hop : op.Valid v.size) :
    ∃ v', vioblkOp (hardware v.blksz) self v op = some ((diskOp d op).1, v') ∧
      Tracks v' (diskOp d op).2 ∧ v'.lock = lockInit ∧ v'.blksz = v.blksz := by
  cases op with
  | read n =>
      obtain ⟨v', he, ht⟩ := vioblkRead_tracks h hl self hop
      exact ⟨v', by simp [vioblkOp, diskOp, he], ht⟩
  | write buf =>
      obtain ⟨v', he, ht⟩ := vioblkWrite_tracks h hl self hop
      exact ⟨v', by simp [vioblkOp, diskOp, he], ht⟩
  | setpos pos =>
      obtain ⟨v', he, ht⟩ := vioblkSetpos_tracks h hl self hop
      exact ⟨v', by simp [vioblkOp, diskOp, he], ht⟩

theorem diskOp_size (d : Disk) (op : Op) : (diskOp d op).2.size = d.size := by
  cases op with
  | read n | write buf => rfl
  | setpos pos => simp only [diskOp, setpos]; split <;> rfl

/-- Over every sequence of calls the driver answers as the flat disk does and
leaves the same bytes and position, inside the device. -/
theorem vioblkRun_flat (v : VioblkDevice (Nat → UInt8)) (self : Nat) (ops : List Op)
    (hopen : v.opened = true ∧ v.readonly = false) (hlock : v.lock = lockInit)
    (hsize : v.size = v.blkcnt * v.blksz) (hbuf : v.blkbuf.length = v.blksz) (hpos : v.pos ≤ v.size)
    (hops : ∀ op ∈ ops, op.Valid v.size) :
    ∃ v', vioblkRun (hardware v.blksz) self v ops = some ((diskRun ⟨v.disk, v.size, v.pos⟩ ops).1, v') ∧
      v'.disk = (diskRun ⟨v.disk, v.size, v.pos⟩ ops).2.bytes ∧
      v'.pos = (diskRun ⟨v.disk, v.size, v.pos⟩ ops).2.pos ∧ v'.size = v.size ∧ v'.pos ≤ v'.size := by
  have key : ∀ (v : VioblkDevice (Nat → UInt8)) (d : Disk), Tracks v d → v.lock = lockInit →
      (∀ op ∈ ops, op.Valid v.size) →
      ∃ v', vioblkRun (hardware v.blksz) self v ops = some ((diskRun d ops).1, v') ∧
        Tracks v' (diskRun d ops).2 ∧ (diskRun d ops).2.size = d.size := by
    clear hops
    induction ops with
    | nil => exact fun v d h _ _ => ⟨v, rfl, h, rfl⟩
    | cons op ops ih =>
        intro v d h hl hops
        obtain ⟨w, he, ht, hl', hz⟩ := vioblkOp_tracks h hl self (hops op (by simp))
        have hsz : w.size = v.size := by rw [← ht.size, diskOp_size, h.size]
        obtain ⟨v', he', ht', hd⟩ := ih w _ ht hl' (fun o ho => hsz ▸ hops o (by simp [ho]))
        rw [hz] at he'
        exact ⟨v', by simp [vioblkRun, diskRun, he, he'], ht', hd.trans (diskOp_size d op)⟩
  obtain ⟨v', he, ht, hd⟩ := key v ⟨v.disk, v.size, v.pos⟩
    ⟨hopen.1, hopen.2, hsize, hbuf, rfl, rfl, hpos, rfl⟩ hlock hops
  exact ⟨v', he, ht.bytes.symm, ht.pos.symm, by rw [← ht.size, hd], ht.pos_le⟩

/-- Two blocks of two bytes. -/
def smallDevice : VioblkDevice (Nat → UInt8) where
  opened := true
  readonly := false
  blksz := 2
  blksz_pos := by decide
  pos := 1
  size := 4
  blkcnt := 2
  availIdx := 0
  usedIdx := 0
  reqHeader := ⟨.tIn, 0⟩
  reqStatus := 0
  blkbuf := [0, 0]
  lock := lockInit
  disk := fun a => if a < 4 then 7 else 0

theorem vioblkRun_flat_smallDevice :
    (diskRun ⟨smallDevice.disk, 4, 1⟩ [.write [1, 2, 3, 4], .setpos 0, .read 9]).1 =
        [(3, []), (0, []), (4, [7, 1, 2, 3])] ∧
      ∃ v', vioblkRun (hardware 2) 5 smallDevice [.write [1, 2, 3, 4], .setpos 0, .read 9] =
          some ((diskRun ⟨smallDevice.disk, 4, 1⟩ [.write [1, 2, 3, 4], .setpos 0, .read 9]).1, v') ∧
        v'.pos = 4 := by
  obtain ⟨v', he, -, hp, -⟩ := vioblkRun_flat smallDevice 5 [.write [1, 2, 3, 4], .setpos 0, .read 9]
    ⟨rfl, rfl⟩ rfl rfl rfl (by decide) (by simp [Op.Valid, smallDevice])
  exact ⟨by decide, v', he, hp⟩

end RiscvKernel.Vioblk
