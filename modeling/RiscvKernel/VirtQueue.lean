import RiscvKernel.KfsStack
import RiscvKernel.BlockSize
import RiscvKernel.Lib.Vring

namespace RiscvKernel.VirtQueue

open Io Lib.Bytes Lib.Vring SleepLock FlatDisk Vioblk Kfs KfsFile KfsRun DiskView KfsStack VirtioFeatures

/-! The request queue of vioblk.c in memory. In struct vioblk_device avail is at 88, used at 96,
desc at 112, req_header at 176 and req_status at 192; blkbuf is behind the 216 bytes of the
struct. -/

/-- The memory with the queue and the buffer in it, whose other members are those of VioblkDevice,
and the device: how many buffers it took, and its bytes. -/
structure Behind where
  mem : Mem
  last : Nat
  disk : Nat → UInt8

/-- The queue that virtio_attach_virtq names to the device. -/
def attached (dev : Nat) : Queue := ⟨dev + 112, dev + 88, dev + 96, 1⟩

/-- What vioblk_read stores for a request, and vioblk_write for one that fetches a block. -/
def prepareIn (dev sector blksz : Nat) : List Member :=
  [⟨176, 4, 0⟩, ⟨184, 8, sector⟩, ⟨180, 4, 0⟩,
    ⟨112, 8, dev + 128⟩, ⟨120, 4, 48⟩, ⟨124, 2, 4⟩, ⟨126, 2, 65535⟩,
    ⟨128, 8, dev + 176⟩, ⟨136, 4, 16⟩, ⟨140, 2, 1⟩, ⟨142, 2, 1⟩,
    ⟨144, 8, dev + 216⟩, ⟨152, 4, blksz⟩, ⟨156, 2, 3⟩, ⟨158, 2, 2⟩,
    ⟨160, 8, dev + 192⟩, ⟨168, 4, 1⟩, ⟨172, 2, 2⟩, ⟨174, 2, 65535⟩]

/-- What vioblk_write stores for a request: desc[3].next stays as it is. -/
def prepareOut (dev sector blksz : Nat) : List Member :=
  [⟨176, 4, 1⟩, ⟨184, 8, sector⟩, ⟨180, 4, 0⟩,
    ⟨112, 8, dev + 128⟩, ⟨120, 4, 48⟩, ⟨124, 2, 4⟩, ⟨126, 2, 0⟩,
    ⟨128, 8, dev + 176⟩, ⟨136, 4, 16⟩, ⟨140, 2, 1⟩, ⟨142, 2, 1⟩,
    ⟨144, 8, dev + 216⟩, ⟨152, 4, blksz⟩, ⟨156, 2, 1⟩, ⟨158, 2, 2⟩,
    ⟨160, 8, dev + 192⟩, ⟨168, 4, 1⟩, ⟨172, 2, 2⟩]

def prepare (type : ReqType) (dev sector blksz : Nat) : List Member :=
  match type with
  | .tIn => prepareIn dev sector blksz
  | .tOut => prepareOut dev sector blksz

/-- avail.ring[0] = 0 and avail.idx++. -/
def makeAvailable (m : Mem) (dev : Nat) : Mem :=
  let m := storeLe m (dev + 92) 2 0
  storeLe m (dev + 90) 2 ((loadLe m (dev + 90) 2 + 1) % 2 ^ 16)

/-- The request as the device finds it. What the driver changed in its buffer is stored with the
whole buffer. -/
def offered (dev : Nat) (header : ReqHeader) (blksz : Nat) (blkbuf : List UInt8) (m : Mem) : Mem :=
  makeAvailable (store (writeAt m (dev + 216) blkbuf) dev (prepare header.type dev header.sector blksz)) dev

/-- A request over the queue: the device is notified and serves it. It does not use a malformed
buffer. -/
def virtqueue (unit dev : Nat) : Hardware Behind := fun header blksz blkbuf b =>
  let m := offered dev header blksz blkbuf b.mem
  let b := match service (attached dev) (blockDevice unit) m b.last b.disk with
    | some (mem, last, disk) => ⟨mem, last, disk⟩
    | none => { b with mem := m }
  (b.mem (dev + 192), readAt b.mem (dev + 216) blksz, b)

section Request

variable {m : Mem} {dev sector blksz idx unit : Nat} {type : ReqType} {blkbuf : List UInt8} {b : Behind}

theorem prepare_apart : (prepare type dev sector blksz).Pairwise Member.Apart := by
  -- where the members are does not depend on what is stored in them
  cases type <;> exact of_decide_eq_true rfl

theorem prepare_fits (hs : sector < 2 ^ 64) (hb : blksz < 2 ^ 32) (hd : dev + 216 + blksz < 2 ^ 64) :
    ∀ f ∈ prepare type dev sector blksz, f.Fits := by
  cases type <;> simp only [prepare, prepareIn, prepareOut, Member.Fits, List.forall_mem_cons, List.not_mem_nil,
    IsEmpty.forall_iff, implies_true, and_true] <;> omega

theorem prepare_range {f : Member} (hf : f ∈ prepare type dev sector blksz) : 112 ≤ f.off ∧ f.off + f.size ≤ 192 := by
  have h : ∀ f ∈ prepare type dev sector blksz, 112 ≤ f.off ∧ f.off + f.size ≤ 192 := by
    cases type <;> simp [prepare, prepareIn, prepareOut]
  exact h f hf

/-- What the device looks at. -/
def request (type : ReqType) (dev sector blksz : Nat) : List Member :=
  [⟨176, 4, match type with | .tIn => 0 | .tOut => 1⟩, ⟨184, 8, sector⟩,
    ⟨112, 8, dev + 128⟩, ⟨120, 4, 48⟩, ⟨124, 2, 4⟩,
    ⟨128, 8, dev + 176⟩, ⟨136, 4, 16⟩, ⟨140, 2, 1⟩, ⟨142, 2, 1⟩,
    ⟨144, 8, dev + 216⟩, ⟨152, 4, blksz⟩, ⟨156, 2, match type with | .tIn => 3 | .tOut => 1⟩, ⟨158, 2, 2⟩,
    ⟨160, 8, dev + 192⟩, ⟨168, 4, 1⟩, ⟨172, 2, 2⟩]

theorem request_subset : request type dev sector blksz ⊆ prepare type dev sector blksz := by
  intro f hf
  cases type <;> fin_cases hf <;> simp [prepare, prepareIn, prepareOut]

/-- The device finds a header, the data and a status byte behind an indirect descriptor. -/
theorem buffer_of_reads (h : Reads m dev (request type dev sector blksz)) :
    buffer m (dev + 112) 1 0 = some [⟨dev + 176, 16, false⟩, ⟨dev + 216, blksz, type = .tIn⟩, ⟨dev + 192, 1, true⟩] := by
  simp only [Reads, request, List.forall_mem_cons] at h
  obtain ⟨-, -, haddr0, hlen0, hflags0, haddr1, hlen1, hflags1, hnext1, haddr2, hlen2, hflags2, hnext2, haddr3, hlen3,
    hflags3, -⟩ := h
  have hheader : desc m (dev + 128) 0 = ⟨dev + 176, 16, 1, 1⟩ := by
    simp only [desc, Nat.mul_zero, Nat.add_assoc, Nat.reduceAdd, haddr1, hlen1, hflags1, hnext1]
  have hdata : (desc m (dev + 128) 1).addr = dev + 216 ∧ (desc m (dev + 128) 1).len = blksz ∧
      (desc m (dev + 128) 1).next = 2 ∧ (desc m (dev + 128) 1).flags = if type = .tIn then 3 else 1 := by
    simp only [desc, Nat.mul_one, Nat.add_assoc, Nat.reduceAdd, haddr2, hlen2, hflags2, hnext2]
    cases type <;> simp
  have hstatus : (desc m (dev + 128) 2).addr = dev + 192 ∧ (desc m (dev + 128) 2).len = 1 ∧
      (desc m (dev + 128) 2).flags = 2 := by
    simp only [desc, Nat.reduceMul, Nat.add_assoc, Nat.reduceAdd, haddr3, hlen3, hflags3, and_self]
  obtain ⟨haddr, hlen, hnext, hflags⟩ := hdata
  obtain ⟨haddr', hlen', hflags'⟩ := hstatus
  have hhead : buffer m (dev + 112) 1 0 = chain m (dev + 128) 3 3 0 := by
    simp only [buffer, desc, Nat.mul_zero, Nat.add_assoc, Nat.reduceAdd, haddr0, hlen0, hflags0, Desc.indirect]
    exact if_pos (by decide)
  have hlast : chain m (dev + 128) 3 1 2 = some [⟨dev + 192, 1, true⟩] := by
    rw [chain, if_neg (by decide)]
    simp only [Desc.hasNext, Desc.write, haddr', hlen', hflags']
    rfl
  have hmiddle : chain m (dev + 128) 3 2 1 = some [⟨dev + 216, blksz, type = .tIn⟩, ⟨dev + 192, 1, true⟩] := by
    rw [chain, if_neg (by decide)]
    simp only [Desc.hasNext, Desc.write, haddr, hlen, hnext, hflags, hlast]
    cases type <;> rfl
  rw [hhead, chain, if_neg (by decide)]
  simp only [hheader, Desc.hasNext, Desc.write, hmiddle]
  rfl

/-! makeAvailable changes only the available ring. -/

theorem makeAvailable_loadLe {a n : Nat} (h : a + n ≤ dev + 90 ∨ dev + 94 ≤ a) : loadLe (makeAvailable m dev) a n = loadLe m a n := by
  rw [makeAvailable, loadLe_storeLe_of_disjoint (by omega), loadLe_storeLe_of_disjoint (by omega)]

theorem makeAvailable_readAt {a n : Nat} (h : a + n ≤ dev + 90 ∨ dev + 94 ≤ a) :
    readAt (makeAvailable m dev) a n = readAt m a n := by
  rw [makeAvailable, readAt_storeLe_of_disjoint (by omega), readAt_storeLe_of_disjoint (by omega)]

theorem makeAvailable_outside {x : Nat} (h : x < dev + 90 ∨ dev + 94 ≤ x) : makeAvailable m dev x = m x := by
  rw [makeAvailable, storeLe_outside (by omega), storeLe_outside (by omega)]

theorem makeAvailable_ring (m : Mem) (dev : Nat) : loadLe (makeAvailable m dev) (dev + 92) 2 = 0 := by
  rw [makeAvailable, loadLe_storeLe_of_disjoint (by omega), loadLe_storeLe (by decide)]

theorem makeAvailable_idx (m : Mem) (dev : Nat) :
    loadLe (makeAvailable m dev) (dev + 90) 2 = (loadLe m (dev + 90) 2 + 1) % 2 ^ 16 := by
  rw [makeAvailable, loadLe_storeLe (by omega), loadLe_storeLe_of_disjoint (by omega)]

/-- Between two requests the driver and the device agree on how many there were. -/
structure Settled (dev idx : Nat) (b : Behind) : Prop where
  avail : loadLe b.mem (dev + 90) 2 = idx
  used : loadLe b.mem (dev + 98) 2 = idx
  last : b.last = idx

/-- The part of the memory that requests change. -/
def Inside (dev blksz x : Nat) : Prop := dev + 88 ≤ x ∧ x < dev + 216 + blksz

/-- What the device finds when it is notified. -/
structure Offered (dev idx : Nat) (header : ReqHeader) (blksz : Nat) (blkbuf : List UInt8) (m m' : Mem) : Prop where
  buffer : Lib.Vring.buffer m' (dev + 112) 1 0 =
    some [⟨dev + 176, 16, false⟩, ⟨dev + 216, blksz, header.type = .tIn⟩, ⟨dev + 192, 1, true⟩]
  type : loadLe m' (dev + 176) 4 = match header.type with | .tIn => 0 | .tOut => 1
  sector : loadLe m' (dev + 184) 8 = header.sector
  data : readAt m' (dev + 216) blksz = blkbuf
  ring : loadLe m' (dev + 92) 2 = 0
  avail : loadLe m' (dev + 90) 2 = (idx + 1) % 2 ^ 16
  used : loadLe m' (dev + 98) 2 = idx
  outside : ∀ x, ¬ Inside dev blksz x → m' x = m x

theorem offered_spec {header : ReqHeader} (h : Settled dev idx b) (hs : header.sector < 2 ^ 64) (hb : blksz < 2 ^ 32)
    (hd : dev + 216 + blksz < 2 ^ 64) (hlen : blkbuf.length = blksz) :
    Offered dev idx header blksz blkbuf b.mem (offered dev header blksz blkbuf b.mem) := by
  have hreads : Reads (offered dev header blksz blkbuf b.mem) dev (request header.type dev header.sector blksz) := by
    have hstored := @store_reads (writeAt b.mem (dev + 216) blkbuf) dev _ (@prepare_apart dev header.sector blksz header.type)
      (prepare_fits hs hb hd)
    refine (hstored.congr fun f hf => makeAvailable_loadLe ?_).mono request_subset
    have := prepare_range hf
    omega
  have hkeep {a n : Nat} (ha : a + n ≤ dev + 112) : loadLe (store (writeAt b.mem (dev + 216) blkbuf) dev
      (prepare header.type dev header.sector blksz)) a n = loadLe b.mem a n := by
    rw [loadLe_store_of_disjoint, loadLe_writeAt_of_disjoint (by omega)]
    intro f hf
    have := prepare_range hf
    omega
  refine ⟨buffer_of_reads hreads, hreads _ (List.mem_cons_self ..), hreads ⟨184, 8, header.sector⟩ ?_, ?_, makeAvailable_ring _ _,
    ?_, ?_, ?_⟩
  · simp [request]
  · rw [offered, makeAvailable_readAt (by omega), readAt_store_of_disjoint, ← hlen, readAt_writeAt]
    intro f hf
    have := prepare_range hf
    omega
  · rw [offered, makeAvailable_idx, hkeep (by omega), h.avail]
  · rw [offered, makeAvailable_loadLe (by omega), hkeep (by omega), h.used]
  · intro x hx
    rw [Inside] at hx
    rw [offered, makeAvailable_outside (by omega), store_outside, writeAt_outside (by omega)]
    intro f hf
    have := prepare_range hf
    omega

/-- The device serves the request at once, and the driver stops waiting. -/
theorem virtqueue_spec {header : ReqHeader} (h : Settled dev idx b) (hs : header.sector < 2 ^ 64) (hb : blksz < 2 ^ 32)
    (hd : dev + 216 + blksz < 2 ^ 64) (hlen : blkbuf.length = blksz) :
    ∃ b', virtqueue unit dev header blksz blkbuf b = (virtioBlkSOk, (hardware unit header blksz blkbuf b.disk).2.1, b') ∧
      b'.disk = (hardware unit header blksz blkbuf b.disk).2.2 ∧ Settled dev ((idx + 1) % 2 ^ 16) b' ∧
      ∀ x, ¬ Inside dev blksz x → b'.mem x = b.mem x := by
  have hoff := offered_spec h hs hb hd hlen
  have hidx : (idx + 1) % 2 ^ 16 ≠ idx := by
    have hlt := loadLe_lt b.mem (dev + 90) 2
    rw [h.avail] at hlt
    omega
  have hserve {m' : Mem} {disk : Nat → UInt8} {len : Nat} (hw : blockDevice unit (offered dev header blksz blkbuf b.mem)
      [⟨dev + 176, 16, false⟩, ⟨dev + 216, blksz, header.type = .tIn⟩, ⟨dev + 192, 1, true⟩] b.disk = some (m', disk, len)) :
      virtqueue unit dev header blksz blkbuf b = (m' (dev + 192), readAt m' (dev + 216) blksz,
        ⟨(attached dev).complete m' idx 0 len, (idx + 1) % 2 ^ 16, disk⟩) := by
    have hs := service_single (q := attached dev) rfl (hoff.avail.trans_ne hidx) hoff.ring hoff.buffer hw
    rw [virtqueue, h.last, hs]
    simp only
    rw [complete_outside, complete_readAt] <;> simp [attached, Nat.mod_one]
  -- Whatever the device does, it ends with the status byte; sent are the bytes before.
  have hfinish {sent : Mem} {disk : Nat → UInt8} {len : Nat} (hw : blockDevice unit (offered dev header blksz blkbuf b.mem)
      [⟨dev + 176, 16, false⟩, ⟨dev + 216, blksz, header.type = .tIn⟩, ⟨dev + 192, 1, true⟩] b.disk =
        some (writeAt sent (dev + 192) [0], disk, len))
      (havail : loadLe sent (dev + 90) 2 = (idx + 1) % 2 ^ 16) (hout : ∀ x, ¬ Inside dev blksz x → sent x = b.mem x) :
      ∃ b', virtqueue unit dev header blksz blkbuf b = (virtioBlkSOk, readAt sent (dev + 216) blksz, b') ∧ b'.disk = disk ∧
        Settled dev ((idx + 1) % 2 ^ 16) b' ∧ ∀ x, ¬ Inside dev blksz x → b'.mem x = b.mem x := by
    refine ⟨⟨(attached dev).complete (writeAt sent (dev + 192) [0]) idx 0 len, (idx + 1) % 2 ^ 16, disk⟩,
      (hserve hw).trans ?_, rfl, ⟨?_, complete_usedIdx, rfl⟩, ?_⟩
    · rw [readAt_writeAt_of_disjoint (by rw [List.length_singleton]; omega), writeAt_singleton, Function.update_self]
      rfl
    · refine (complete_loadLe ?_).trans ((loadLe_writeAt_of_disjoint ?_).trans havail)
      · exact Or.inl (by simp [attached])
      · exact Or.inl (by omega)
    · intro x hx
      have hx' := hx
      rw [Inside] at hx'
      refine (complete_outside ?_).trans ((writeAt_outside ?_).trans (hout x hx))
      · simp only [attached, Nat.mod_one]
        omega
      · rw [List.length_singleton]
        omega
  obtain ⟨type, sector⟩ := header
  cases type with
  | tIn =>
      have hw := @blockDevice_read (offered dev ⟨.tIn, sector⟩ blksz blkbuf b.mem) b.disk (dev + 176) (dev + 216) blksz (dev + 192)
        unit hoff.type
      rw [← writeAt_singleton, hoff.sector] at hw
      have hdata := readAt_writeAt (offered dev ⟨.tIn, sector⟩ blksz blkbuf b.mem) (dev + 216) (readAt b.disk (sector * unit) blksz)
      rw [readAt_length] at hdata
      obtain ⟨b', he, hdisk, hs', hout⟩ := hfinish hw
        ((loadLe_writeAt_of_disjoint (Or.inl (by omega))).trans hoff.avail) fun x hx => by
          rw [← hoff.outside x hx]
          rw [Inside] at hx
          exact writeAt_outside (by rw [readAt_length]; omega)
      rw [hdata] at he
      exact ⟨b', he, hdisk, hs', hout⟩
  | tOut =>
      have hw := @blockDevice_write (offered dev ⟨.tOut, sector⟩ blksz blkbuf b.mem) b.disk (dev + 176) (dev + 216) blksz
        (dev + 192) unit hoff.type
      rw [← writeAt_singleton, hoff.sector, hoff.data] at hw
      obtain ⟨b', he, hdisk, hs', hout⟩ := hfinish hw hoff.avail hoff.outside
      rw [hoff.data] at he
      refine ⟨b', he, hdisk.trans ?_, hs', hout⟩
      rw [hardware, List.take_of_length_le (by omega)]

end Request

/-! The driver over one device and over another that does the same. -/

section Driver

variable {δ ε : Type} {hw : Hardware δ} {hw' : Hardware ε} {f : δ → ε} {P : VioblkDevice δ → Prop} {v : VioblkDevice δ}

def onDisk (f : δ → ε) (v : VioblkDevice δ) : VioblkDevice ε where
  opened := v.opened
  readonly := v.readonly
  blksz := v.blksz
  blksz_pos := v.blksz_pos
  pos := v.pos
  size := v.size
  blkcnt := v.blkcnt
  availIdx := v.availIdx
  usedIdx := v.usedIdx
  reqHeader := v.reqHeader
  reqStatus := v.reqStatus
  blkbuf := v.blkbuf
  lock := v.lock
  disk := f v.disk

/-! A call either sleeps for vio_lock or holds it. -/

section Calls

variable {self n pos : Nat} {lock : Lock} {buf : List UInt8}

theorem read_sleeps (hlock : lockAcquire v.lock self = none) : vioblkRead hw self v n = none := by
  rw [vioblkRead, hlock]
  rfl

theorem read_acquire (hlock : lockAcquire v.lock self = some lock) :
    vioblkRead hw self v n = some (if n = 0 then (0, [], { v with lock }) else if v.opened = false then (-1, [], { v with lock })
      else vioblkReadLoop hw n 0 [] { v with lock }) := by
  rw [vioblkRead, hlock]
  simp only [Option.bind_eq_bind, Option.bind_some]
  split
  · rfl
  · split <;> rfl

theorem write_sleeps (hlock : lockAcquire v.lock self = none) : vioblkWrite hw self v buf = none := by
  rw [vioblkWrite, hlock]
  rfl

theorem write_acquire (hlock : lockAcquire v.lock self = some lock) :
    vioblkWrite hw self v buf = some (if v.opened = false then (-1, { v with lock })
      else if v.readonly then (-enotsup, { v with lock }) else if buf.length = 0 then (0, { v with lock })
      else vioblkWriteLoop hw buf 0 { v with lock }) := by
  rw [vioblkWrite, hlock]
  simp only [Option.bind_eq_bind, Option.bind_some]
  split
  · rfl
  · split
    · rfl
    · split <;> rfl

theorem setpos_sleeps (hlock : lockAcquire v.lock self = none) : vioblkSetpos self v pos = none := by
  rw [vioblkSetpos, hlock]
  rfl

theorem setpos_acquire (hlock : lockAcquire v.lock self = some lock) :
    vioblkSetpos self v pos = some (if v.size < pos then (-einval, { v with lock })
      else (0, unlock { v with lock, pos })) := by
  rw [vioblkSetpos, hlock]
  simp only [Option.bind_eq_bind, Option.bind_some]
  split <;> rfl

end Calls

section Loop

variable {buf : List UInt8} {total : Nat} {u w : VioblkDevice δ}

theorem writeLoop_error (hlt : total < buf.length) (hend : ¬ v.size ≤ v.pos)
    (hf : fetchBlock hw (blockPart v (buf.length - total)) v = .error w) : vioblkWriteLoop hw buf total v = (-eio, w) := by
  rw [vioblkWriteLoop, if_pos hlt, if_neg hend]
  simp only
  rw [hf]

theorem writeLoop_ok (hlt : total < buf.length) (hend : ¬ v.size ≤ v.pos)
    (hf : fetchBlock hw (blockPart v (buf.length - total)) v = .ok w)
    (hu : submit hw .tOut (v.pos / v.blksz) { w with
      blkbuf := splice w.blkbuf (v.pos % v.blksz) ((buf.drop total).take (blockPart v (buf.length - total))) } = u) :
    vioblkWriteLoop hw buf total v = if u.reqStatus ≠ virtioBlkSOk then (-eio, u)
      else vioblkWriteLoop hw buf (total + blockPart v (buf.length - total))
        { u with pos := v.pos + blockPart v (buf.length - total) } := by
  rw [vioblkWriteLoop, if_pos hlt, if_neg hend]
  simp only
  rw [hf, ← hu]

end Loop

/-- In the states with P, which the driver keeps, requests go through hw as they go through hw'. -/
structure Implements (hw : Hardware δ) (hw' : Hardware ε) (f : δ → ε) (P : VioblkDevice δ → Prop) : Prop where
  request : ∀ type v sector, P v → sector < 2 ^ 64 →
    submit hw' type sector (onDisk f v) = onDisk f (submit hw type sector v) ∧ P (submit hw type sector v)
  size : ∀ v, P v → v.size < 2 ^ 64
  buffer : ∀ v, P v → v.blkbuf.length = v.blksz
  moved : ∀ v pos, P v → P { v with pos }
  locked : ∀ v lock, P v → P { v with lock }
  filled : ∀ v blkbuf, P v → blkbuf.length = v.blksz → P { v with blkbuf }

namespace Implements

/-- A request for the block at a position inside the device. -/
theorem block (h : Implements hw hw' f P) (type : ReqType) {w : VioblkDevice δ} (hv : P v) (hpos : v.pos < v.size) (hkept : P w) :
    submit hw' type ((onDisk f v).pos / (onDisk f v).blksz) (onDisk f w) = onDisk f (submit hw type (v.pos / v.blksz) w) ∧
      P (submit hw type (v.pos / v.blksz) w) :=
  h.request type w _ hkept (Nat.lt_of_le_of_lt (Nat.div_le_self _ _) (Nat.lt_trans hpos (h.size v hv)))

theorem readLoop (h : Implements hw hw' f P) (hv : P v) (bufsz total : Nat) (out : List UInt8) :
    vioblkReadLoop hw' bufsz total out (onDisk f v) = ((vioblkReadLoop hw bufsz total out v).1,
      (vioblkReadLoop hw bufsz total out v).2.1, onDisk f (vioblkReadLoop hw bufsz total out v).2.2) ∧
      P (vioblkReadLoop hw bufsz total out v).2.2 := by
  fun_induction vioblkReadLoop hw bufsz total out v with
  | case1 total out v hlt hend =>
      rw [vioblkReadLoop, if_pos hlt]
      exact ⟨if_pos hend, h.locked _ _ hv⟩
  | case2 total out v hlt hend w hstatus =>
      obtain ⟨heq, hw⟩ := h.block .tIn hv (by omega) hv
      rw [vioblkReadLoop, if_pos hlt]
      refine ⟨(if_neg hend).trans ?_, hw⟩
      rw [heq]
      exact if_pos hstatus
  | case3 total out v hlt hend w hstatus ih =>
      obtain ⟨heq, hw⟩ := h.block .tIn hv (by omega) hv
      obtain ⟨hrest, hlast⟩ := ih (h.moved _ _ hw)
      rw [vioblkReadLoop, if_pos hlt]
      refine ⟨(if_neg hend).trans ?_, hlast⟩
      rw [heq]
      exact (if_neg hstatus).trans hrest
  | case4 total out v hlt =>
      rw [vioblkReadLoop, if_neg hlt]
      exact ⟨rfl, h.locked _ _ hv⟩

theorem fetch_error (h : Implements hw hw' f P) (hv : P v) (hpos : v.pos < v.size) {n : Nat} {w : VioblkDevice δ}
    (hf : fetchBlock hw n v = .error w) : fetchBlock hw' n (onDisk f v) = .error (onDisk f w) ∧ P w := by
  obtain ⟨heq, hkept⟩ := h.block .tIn hv hpos hv
  rw [fetchBlock] at hf
  split at hf
  · rename_i hpart
    simp only at hf
    split at hf
    · rename_i hstatus
      cases hf
      refine ⟨?_, hkept⟩
      rw [fetchBlock, heq]
      exact (if_pos hpart).trans (if_pos hstatus)
    · cases hf
  · cases hf

theorem fetch_ok (h : Implements hw hw' f P) (hv : P v) (hpos : v.pos < v.size) {n : Nat} {w : VioblkDevice δ}
    (hf : fetchBlock hw n v = .ok w) : fetchBlock hw' n (onDisk f v) = .ok (onDisk f w) ∧ P w ∧ w.blksz = v.blksz := by
  obtain ⟨heq, hkept⟩ := h.block .tIn hv hpos hv
  rw [fetchBlock] at hf
  split at hf
  · rename_i hpart
    simp only at hf
    split at hf
    · cases hf
    · rename_i hstatus
      cases hf
      refine ⟨?_, hkept, rfl⟩
      rw [fetchBlock, heq]
      exact (if_pos hpart).trans (if_neg hstatus)
  · rename_i hpart
    cases hf
    exact ⟨if_neg hpart, hv, rfl⟩

theorem merged (h : Implements hw hw' f P) {w : VioblkDevice δ} (hkept : P w) (hz : w.blksz = v.blksz) {rest : Nat}
    {bs : List UInt8} : (splice w.blkbuf (v.pos % v.blksz) (bs.take (blockPart v rest))).length = w.blksz := by
  have hle := blockPart_le_block v rest
  have hlen := h.buffer w hkept
  have htake := List.length_take_le (blockPart v rest) bs
  rw [splice_length (by omega), hlen]

theorem writeLoop (h : Implements hw hw' f P) (hv : P v) (buf : List UInt8) (total : Nat) :
    vioblkWriteLoop hw' buf total (onDisk f v) =
      ((vioblkWriteLoop hw buf total v).1, onDisk f (vioblkWriteLoop hw buf total v).2) ∧ P (vioblkWriteLoop hw buf total v).2 := by
  fun_induction vioblkWriteLoop hw buf total v with
  | case1 total v hlt hend =>
      rw [vioblkWriteLoop, if_pos hlt]
      exact ⟨if_pos hend, h.locked _ _ hv⟩
  | case2 total v hlt hend n w hfetch =>
      obtain ⟨heq, hkept⟩ := h.fetch_error hv (by omega) hfetch
      exact ⟨@writeLoop_error _ _ (onDisk f v) buf total _ hlt hend heq, hkept⟩
  | case3 total v hlt hend n w hfetch merged u hstatus =>
      obtain ⟨heq, hkept, hz⟩ := h.fetch_ok hv (by omega) hfetch
      obtain ⟨hout, hlast⟩ := h.block .tOut hv (by omega) (h.filled w merged hkept (h.merged hkept hz))
      exact ⟨(@writeLoop_ok _ _ (onDisk f v) buf total _ _ hlt hend heq hout).trans (if_pos hstatus), hlast⟩
  | case4 total v hlt hend n w hfetch merged u hstatus ih =>
      obtain ⟨heq, hkept, hz⟩ := h.fetch_ok hv (by omega) hfetch
      obtain ⟨hout, hlast⟩ := h.block .tOut hv (by omega) (h.filled w merged hkept (h.merged hkept hz))
      obtain ⟨hrest, hend'⟩ := ih (h.moved _ _ hlast)
      exact ⟨(@writeLoop_ok _ _ (onDisk f v) buf total _ _ hlt hend heq hout).trans ((if_neg hstatus).trans hrest), hend'⟩
  | case5 total v hlt =>
      rw [vioblkWriteLoop, if_neg hlt]
      exact ⟨rfl, h.locked _ _ hv⟩

theorem read (h : Implements hw hw' f P) (hv : P v) (self n : Nat) :
    vioblkRead hw' self (onDisk f v) n = (vioblkRead hw self v n).map (fun r => (r.1, r.2.1, onDisk f r.2.2)) ∧
      ∀ r, vioblkRead hw self v n = some r → P r.2.2 := by
  cases hlock : lockAcquire v.lock self with
  | none =>
      rw [read_sleeps hlock, @read_sleeps _ hw' (onDisk f v) self n hlock]
      exact ⟨rfl, fun r hr => by cases hr⟩
  | some lock =>
      have hp := h.locked v lock hv
      rw [read_acquire hlock, @read_acquire _ hw' (onDisk f v) self n lock hlock]
      by_cases hn : n = 0
      · rw [if_pos hn, if_pos hn]
        exact ⟨rfl, fun r hr => by cases hr; exact hp⟩
      · rw [if_neg hn, if_neg hn]
        by_cases ho : v.opened = false
        · rw [if_pos ho]
          exact ⟨congrArg some (if_pos ho), fun r hr => by cases hr; exact hp⟩
        · obtain ⟨heq, hlast⟩ := h.readLoop hp n 0 []
          rw [if_neg ho]
          exact ⟨congrArg some ((if_neg ho).trans heq), fun r hr => by cases hr; exact hlast⟩

theorem write (h : Implements hw hw' f P) (hv : P v) (self : Nat) (buf : List UInt8) :
    vioblkWrite hw' self (onDisk f v) buf = (vioblkWrite hw self v buf).map (fun r => (r.1, onDisk f r.2)) ∧
      ∀ r, vioblkWrite hw self v buf = some r → P r.2 := by
  cases hlock : lockAcquire v.lock self with
  | none =>
      rw [write_sleeps hlock, @write_sleeps _ hw' (onDisk f v) self buf hlock]
      exact ⟨rfl, fun r hr => by cases hr⟩
  | some lock =>
      have hp := h.locked v lock hv
      rw [write_acquire hlock, @write_acquire _ hw' (onDisk f v) self lock buf hlock]
      by_cases ho : v.opened = false
      · rw [if_pos ho]
        exact ⟨congrArg some (if_pos ho), fun r hr => by cases hr; exact hp⟩
      · rw [if_neg ho]
        by_cases hr : v.readonly
        · rw [if_pos hr]
          exact ⟨congrArg some ((if_neg ho).trans (if_pos hr)), fun r hr => by cases hr; exact hp⟩
        · rw [if_neg hr]
          by_cases hn : buf.length = 0
          · rw [if_pos hn, if_pos hn]
            exact ⟨congrArg some ((if_neg ho).trans (if_neg hr)), fun r hr => by cases hr; exact hp⟩
          · obtain ⟨heq, hlast⟩ := h.writeLoop hp buf 0
            rw [if_neg hn, if_neg hn]
            exact ⟨congrArg some ((if_neg ho).trans ((if_neg hr).trans heq)), fun r hr => by cases hr; exact hlast⟩

theorem setpos (h : Implements hw hw' f P) (hv : P v) (self pos : Nat) :
    vioblkSetpos self (onDisk f v) pos = (vioblkSetpos self v pos).map (fun r => (r.1, onDisk f r.2)) ∧
      ∀ r, vioblkSetpos self v pos = some r → P r.2 := by
  cases hlock : lockAcquire v.lock self with
  | none =>
      rw [setpos_sleeps hlock, @setpos_sleeps _ (onDisk f v) self pos hlock]
      exact ⟨rfl, fun r hr => by cases hr⟩
  | some lock =>
      have hp := h.locked v lock hv
      rw [setpos_acquire hlock, @setpos_acquire _ (onDisk f v) self pos lock hlock]
      by_cases hend : v.size < pos
      · rw [if_pos hend]
        exact ⟨congrArg some (if_pos hend), fun r hr => by cases hr; exact hp⟩
      · rw [if_neg hend]
        exact ⟨congrArg some (if_neg hend), fun r hr => by cases hr; exact h.locked _ _ (h.moved _ pos hp)⟩

/-- The operations of the driver run alike over both devices. -/
theorem runsLike (h : Implements hw hw' f P) (self : Nat) :
    RunsLike (vioblkOps hw self) (vioblkOps hw' self) (Option.map (onDisk f)) (fun s => ∀ v, s = some v → P v) := by
  refine ⟨fun _ => rfl, ?_, ?_, ?_⟩
  · intro s pos hq
    cases s with
    | none => exact ⟨rfl, fun v hv => by cases hv⟩
    | some v =>
        obtain ⟨heq, hlast⟩ := h.setpos (hq v rfl) self pos
        cases hc : vioblkSetpos self v pos with
        | none =>
            rw [hc] at heq
            simp only [ioseek, ioctl, vioblkOps, vioblkIoctl, Option.map_some, Option.bind_some, heq, hc, Option.map_none]
            exact ⟨trivial, fun v hv => by cases hv⟩
        | some r =>
            rw [hc] at heq hlast
            simp only [ioseek, ioctl, vioblkOps, vioblkIoctl, Option.map_some, Option.bind_some, heq, hc]
            exact ⟨trivial, fun v hv => by cases hv; exact hlast r rfl⟩
  · intro s n hq
    cases s with
    | none => exact ⟨rfl, fun v hv => by cases hv⟩
    | some v =>
        obtain ⟨heq, hlast⟩ := h.read (hq v rfl) self n
        cases hc : vioblkRead hw self v n with
        | none =>
            rw [hc] at heq
            simp only [ioread, vioblkOps, Option.map_some, Option.bind_some, heq, hc, Option.map_none]
            exact ⟨trivial, fun v hv => by cases hv⟩
        | some r =>
            rw [hc] at heq hlast
            simp only [ioread, vioblkOps, Option.map_some, Option.bind_some, heq, hc]
            exact ⟨trivial, fun v hv => by cases hv; exact hlast r rfl⟩
  · intro s bs hq
    refine iowriteLoop_like (Q := fun s => ∀ v, s = some v → P v) ?_ bs 0 s hq
    intro s bs hq
    cases s with
    | none => exact ⟨rfl, fun v hv => by cases hv⟩
    | some v =>
        obtain ⟨heq, hlast⟩ := h.write (hq v rfl) self bs
        cases hc : vioblkWrite hw self v bs with
        | none =>
            rw [hc] at heq
            simp only [Option.map_some, Option.bind_some, heq, hc, Option.map_none]
            exact ⟨trivial, fun v hv => by cases hv⟩
        | some r =>
            rw [hc] at heq hlast
            simp only [Option.map_some, Option.bind_some, heq, hc]
            exact ⟨trivial, fun v hv => by cases hv; exact hlast r rfl⟩

end Implements

end Driver

section System

variable {dev unit : Nat} {m₀ : Mem} {v : VioblkDevice Behind}

/-- The driver between two requests over the queue; m₀ is the memory around the struct. -/
structure Queued (dev : Nat) (m₀ : Mem) (v : VioblkDevice Behind) : Prop where
  settled : Settled dev v.availIdx.toNat v.disk
  buffer : v.blkbuf.length = v.blksz
  blksz : v.blksz < 2 ^ 32
  size : v.size < 2 ^ 64
  fits : dev + 216 + v.blksz < 2 ^ 64
  outside : ∀ x, ¬ Inside dev v.blksz x → v.disk.mem x = m₀ x

theorem implements_virtqueue : Implements (virtqueue unit dev) (hardware unit) Behind.disk (Queued dev m₀) := by
  refine ⟨?_, fun v h => h.size, fun v h => h.buffer, fun v pos h => ⟨h.1, h.2, h.3, h.4, h.5, h.6⟩,
    fun v lock h => ⟨h.1, h.2, h.3, h.4, h.5, h.6⟩, fun v bs h hbs => ⟨h.1, hbs, h.3, h.4, h.5, h.6⟩⟩
  intro type v sector h hs
  obtain ⟨b, he, hdisk, hsettled, hout⟩ := @virtqueue_spec dev v.blksz v.availIdx.toNat unit v.blkbuf v.disk ⟨type, sector⟩
    h.settled hs h.blksz h.fits h.buffer
  have hstatus : (hardware unit ⟨type, sector⟩ v.blksz v.blkbuf v.disk.disk).1 = virtioBlkSOk := by cases type <;> rfl
  have hlen : (hardware unit ⟨type, sector⟩ v.blksz v.blkbuf v.disk.disk).2.1.length = v.blksz := by
    cases type with
    | tIn => exact readAt_length _ _ _
    | tOut => exact h.buffer
  constructor
  · simp only [submit, he, onDisk, hdisk, hstatus]
  · simp only [submit, he]
    refine ⟨?_, hlen, h.blksz, h.size, h.fits, fun x hx => (hout x hx).trans (h.outside x hx)⟩
    rw [BitVec.toNat_add]
    exact hsettled

/-- vioblk_attach clears the struct; the device took no buffer yet. -/
def attachBehind (m : Mem) (dev : Nat) (disk : Nat → UInt8) : Behind := ⟨writeAt m dev (List.replicate 216 0), 0, disk⟩

theorem loadLe_attach (m : Mem) {off n : Nat} (h : off + n ≤ 216) :
    loadLe (writeAt m dev (List.replicate 216 0)) (dev + off) n = 0 := by
  have hall := readAt_writeAt m dev (List.replicate 216 0)
  have hpart := readAt_drop_take (d := writeAt m dev (List.replicate 216 0)) (a := dev) off h
  rw [List.length_replicate] at hall
  rw [hall, List.drop_replicate, List.take_replicate] at hpart
  rw [loadLe, ← hpart]
  generalize min n (216 - off) = k
  induction k with
  | zero => rfl
  | succ k ih => rw [List.replicate_succ, leNat, ih]; rfl

/-- The disk that the driver shows. -/
def viewOf (v : VioblkDevice Behind) : Disk := diskOf (onDisk Behind.disk v)

section Attach

variable (enabled : Featset) (capacity blkSize : Nat) (h : 0 < blkSize) (m : Mem) (dev : Nat) (disk : Nat → UInt8)

/-- The device after vioblk_attach and vioblk_open; kmalloc put the struct at dev. -/
def openedAt : VioblkDevice Behind :=
  (BlockSize.vioblkOpen (BlockSize.vioblkDevice enabled capacity blkSize h (fun i => m (dev + 216 + i))
    (attachBehind m dev disk))).2

theorem openedAt_eq : openedAt enabled capacity blkSize h m dev disk =
    { BlockSize.vioblkDevice enabled capacity blkSize h (fun i => m (dev + 216 + i)) (attachBehind m dev disk) with
      opened := true } := by
  rw [openedAt, BlockSize.vioblkOpen, if_neg (by simp [BlockSize.vioblkDevice])]

theorem queued_openedAt (hb : BlockSize.attachBlksz enabled blkSize < 2 ^ 32)
    (hd : dev + 216 + BlockSize.attachBlksz enabled blkSize < 2 ^ 64) :
    Queued dev (attachBehind m dev disk).mem (openedAt enabled capacity blkSize h m dev disk) := by
  rw [openedAt_eq]
  exact ⟨⟨loadLe_attach m (by decide), loadLe_attach m (by decide), rfl⟩, readAt_length (fun i => m (dev + 216 + i)) 0 _, hb,
    Nat.mod_lt _ (by decide), hd, fun _ _ => rfl⟩

theorem viewOf_openedAt : viewOf (openedAt enabled capacity blkSize h m dev disk) =
    ⟨disk, capacity * BlockSize.attachBlksz enabled blkSize % 2 ^ 64, 0⟩ := by
  rw [openedAt_eq]
  rfl

theorem idle_openedAt (hc : capacity * BlockSize.attachBlksz enabled blkSize < 2 ^ 64) :
    Idle (BlockSize.attachBlksz enabled blkSize) (onDisk Behind.disk (openedAt enabled capacity blkSize h m dev disk))
      (viewOf (openedAt enabled capacity blkSize h m dev disk)) := by
  rw [viewOf_openedAt, openedAt_eq]
  exact ⟨⟨rfl, rfl, Nat.mod_eq_of_lt hc, readAt_length (fun i => m (dev + 216 + i)) 0 _, rfl, rfl, Nat.zero_le _, rfl⟩, rfl, rfl⟩

end Attach

/-- Over the queue the driver shows a flat disk. -/
theorem shows_virtqueue (blksz self dev : Nat) (m₀ : Mem) :
    Shows (vioblkOps (virtqueue blksz dev) self) fun s d =>
      (∀ v, s = some v → Queued dev m₀ v) ∧ ∃ v, s.map (onDisk Behind.disk) = some v ∧ Idle blksz v d :=
  (implements_virtqueue.runsLike self).shows (shows_vioblk blksz self)

/-- File operations over the queue are operations on arrays of bytes, and of the memory they
change only the queue and the buffer behind it; after each of them all requests are used. -/
theorem callRun_virtqueue (k : Globals (Option (VioblkDevice Behind))) (v : VioblkDevice Behind) (blksz self dev : Nat)
    (m₀ : Mem) (ops : List KfsRun.Op) (hk : k.globalIO = some v) (hq : Queued dev m₀ v)
    (hidle : Idle blksz (onDisk Behind.disk v) (viewOf v)) (hv : Valid (onGlobals k (viewOf v)))
    (ho : ∀ op ∈ ops, IsOpen (onGlobals k (viewOf v)) op.io)
    (ha : (filesOf (onGlobals k (viewOf v))).Along Files.Admissible ops)
    (hf : (filesOf (onGlobals k (viewOf v))).Along (fun s => s.OffsetFits (numInodes v.disk.disk)) ops) :
    ∃ fuel k' v', callRun (vioblkOps (virtqueue blksz dev) self) fuel self k ops =
        some (((filesOf (onGlobals k (viewOf v))).run ops).1, k') ∧
      k'.globalIO = some v' ∧ Queued dev m₀ v' ∧
      filesOf (onGlobals k' (viewOf v')) = ((filesOf (onGlobals k (viewOf v))).run ops).2 ∧
      Valid (onGlobals k' (viewOf v')) := by
  have hR : (∀ w, k.globalIO = some w → Queued dev m₀ w) ∧
      ∃ w, k.globalIO.map (onDisk Behind.disk) = some w ∧ Idle blksz w (viewOf v) := by
    rw [hk]
    exact ⟨fun w hw => by cases hw; exact hq, _, rfl, hidle⟩
  obtain ⟨fuel, k', s', he, ⟨hq', w, hw, hidle'⟩, hfiles, hv', -⟩ := @callRun_refines _ _ _ (shows_virtqueue blksz self dev m₀)
    (onGlobals k (viewOf v)) self k.globalIO ops hv ho ha hf hR
  obtain ⟨v', rfl, rfl⟩ := Option.map_eq_some_iff.mp hw
  have hdisk : _ = viewOf v' := hidle'.eq_diskOf
  have hsame : onGlobals (onGlobals k' (some v')) (viewOf v') = k' := by
    rw [← hdisk]
    rfl
  exact ⟨fuel, onGlobals k' (some v'), v', he, rfl, hq' v' rfl, by rw [hsame]; exact hfiles, by rw [hsame]; exact hv'⟩

theorem callRun_virtqueue_oneFile :
    ∃ fuel k' v', callRun (vioblkOps (virtqueue 512 4096) 3) fuel 3
        (onGlobals (oneFileState 1) (some (openedAt (fun _ => 0) 24 512 (by decide) (fun _ => 7) 4096 (oneFile 1)))) readOne =
          some (((filesOf (oneFileState 1)).run readOne).1, k') ∧
      k'.globalIO = some v' ∧ v'.disk.mem 0 = 7 ∧ (filesOf (onGlobals k' (viewOf v'))).pos 0 = 1 := by
  have hblksz : BlockSize.attachBlksz (fun _ => 0) 512 = 512 := by decide
  have hview := viewOf_openedAt (fun _ => 0) 24 512 (by decide) (fun _ => 7) 4096 (oneFile 1)
  have hq := queued_openedAt (fun _ => 0) 24 512 (by decide) (fun _ => 7) 4096 (oneFile 1) (by rw [hblksz]; decide)
    (by rw [hblksz]; decide)
  have hidle := idle_openedAt (fun _ => 0) 24 512 (by decide) (fun _ => 7) 4096 (oneFile 1) (by rw [hblksz]; decide)
  rw [hblksz] at hview hidle
  have hmem : ∀ x, x < 4096 → (attachBehind (fun _ => 7) 4096 (oneFile 1)).mem x = 7 := by
    intro x hx
    exact @writeAt_outside (fun _ => 7) 4096 (List.replicate 216 0) x (Or.inl hx)
  generalize openedAt (fun _ => 0) 24 512 (by decide) (fun _ => 7) 4096 (oneFile 1) = v at hview hq hidle
  generalize (attachBehind (fun _ => 7) 4096 (oneFile 1)).mem = m at hq hmem
  have hdisk : onGlobals (onGlobals (oneFileState 1) (some v)) (viewOf v) = oneFileState 1 := by
    rw [hview]
    rfl
  have hbytes : v.disk.disk = oneFile 1 := congrArg Disk.bytes hview
  obtain ⟨fuel, k', v', he, hv', hq', hfiles, -⟩ := callRun_virtqueue (onGlobals (oneFileState 1) (some v)) v 512 3 4096 m readOne
    rfl hq hidle (by rw [hdisk]; exact oneFileState_valid (by decide) (by decide))
    (by simp [readOne, KfsRun.IsOpen, Op.io, oneFileState, onGlobals])
    (by rw [hdisk]; exact readOne_admissible _ rfl)
    (by rw [hdisk, hbytes]; exact ⟨fun _ => by decide +kernel, trivial⟩)
  rw [hdisk] at he hfiles
  refine ⟨fuel, k', v', he, hv', (hq'.outside 0 (by rw [Inside]; omega)).trans (hmem 0 (by decide)), ?_⟩
  rw [hfiles]
  decide +kernel

end System

end RiscvKernel.VirtQueue
