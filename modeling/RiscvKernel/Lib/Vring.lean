import RiscvKernel.Lib.Bytes

/-! Split virtqueues in memory, and a block device that is driven through one. -/

namespace RiscvKernel.Lib.Vring

open Lib.Bytes

abbrev Mem := Nat → UInt8

/-- The n bytes of a number, least significant first. -/
def littleEndian : Nat → Nat → List UInt8
  | 0, _ => []
  | n + 1, v => UInt8.ofNat v :: littleEndian n (v / 256)

def loadLe (m : Mem) (a n : Nat) : Nat := leNat (readAt m a n)

def storeLe (m : Mem) (a n v : Nat) : Mem := writeAt m a (littleEndian n v)

section Fields

variable {m : Mem} {a b n k v : Nat} {bs : List UInt8}

@[simp] theorem littleEndian_length (n v : Nat) : (littleEndian n v).length = n := by
  induction n generalizing v with
  | zero => rfl
  | succ n ih => rw [littleEndian, List.length_cons, ih]

theorem leNat_littleEndian (h : v < 256 ^ n) : leNat (littleEndian n v) = v := by
  induction n generalizing v with
  | zero =>
      rw [Nat.pow_zero] at h
      rw [littleEndian, leNat]
      omega
  | succ n ih =>
      rw [Nat.pow_succ] at h
      rw [littleEndian, leNat, ih (Nat.div_lt_of_lt_mul (by rw [Nat.mul_comm]; exact h)), UInt8.toNat_ofNat']
      omega

theorem loadLe_storeLe (h : v < 256 ^ n) : loadLe (storeLe m a n v) a n = v := by
  have hread := readAt_writeAt m a (littleEndian n v)
  rw [littleEndian_length] at hread
  rw [loadLe, storeLe, hread, leNat_littleEndian h]

theorem loadLe_writeAt_of_disjoint (h : b + k ≤ a ∨ a + bs.length ≤ b) : loadLe (writeAt m a bs) b k = loadLe m b k := by
  rw [loadLe, loadLe, readAt_writeAt_of_disjoint h]

theorem loadLe_storeLe_of_disjoint (h : b + k ≤ a ∨ a + n ≤ b) : loadLe (storeLe m a n v) b k = loadLe m b k :=
  loadLe_writeAt_of_disjoint (by rw [littleEndian_length]; exact h)

theorem readAt_storeLe_of_disjoint (h : b + k ≤ a ∨ a + n ≤ b) : readAt (storeLe m a n v) b k = readAt m b k :=
  readAt_writeAt_of_disjoint (by rw [littleEndian_length]; exact h)

theorem storeLe_outside {x : Nat} (h : x < a ∨ a + n ≤ x) : storeLe m a n v x = m x :=
  writeAt_outside (by rw [littleEndian_length]; exact h)

theorem loadLe_lt (m : Mem) (a n : Nat) : loadLe m a n < 256 ^ n := by
  have h := leNat_lt (readAt m a n)
  rwa [readAt_length] at h

end Fields

/-! Records: a list of assignments to members that do not overlap. -/

structure Member where
  off : Nat
  size : Nat
  val : Nat

namespace Member

def Fits (f : Member) : Prop := f.val < 256 ^ f.size

def Apart (f g : Member) : Prop := f.off + f.size ≤ g.off ∨ g.off + g.size ≤ f.off

instance (f g : Member) : Decidable (f.Apart g) := inferInstanceAs (Decidable (_ ∨ _))

end Member

def store (m : Mem) (base : Nat) : List Member → Mem
  | [] => m
  | f :: fs => store (storeLe m (base + f.off) f.size f.val) base fs

def Reads (m : Mem) (base : Nat) (fs : List Member) : Prop := ∀ f ∈ fs, loadLe m (base + f.off) f.size = f.val

section Records

variable {m m' : Mem} {base b n : Nat} {f : Member} {fs gs : List Member}

theorem loadLe_store_of_disjoint (h : ∀ f ∈ fs, b + n ≤ base + f.off ∨ base + f.off + f.size ≤ b) :
    loadLe (store m base fs) b n = loadLe m b n := by
  induction fs generalizing m with
  | nil => rfl
  | cons f fs ih =>
      rw [store, ih (fun g hg => h g (List.mem_cons_of_mem _ hg)), loadLe_storeLe_of_disjoint (h f List.mem_cons_self)]

theorem readAt_store_of_disjoint (h : ∀ f ∈ fs, b + n ≤ base + f.off ∨ base + f.off + f.size ≤ b) :
    readAt (store m base fs) b n = readAt m b n := by
  induction fs generalizing m with
  | nil => rfl
  | cons f fs ih =>
      rw [store, ih (fun g hg => h g (List.mem_cons_of_mem _ hg)), readAt_storeLe_of_disjoint (h f List.mem_cons_self)]

theorem store_outside {x : Nat} (h : ∀ f ∈ fs, x < base + f.off ∨ base + f.off + f.size ≤ x) : store m base fs x = m x := by
  induction fs generalizing m with
  | nil => rfl
  | cons f fs ih =>
      rw [store, ih (fun g hg => h g (List.mem_cons_of_mem _ hg)), storeLe_outside (h f List.mem_cons_self)]

/-- Every assignment is there at the end. -/
theorem store_reads (hapart : fs.Pairwise Member.Apart) (hfit : ∀ f ∈ fs, f.Fits) : Reads (store m base fs) base fs := by
  induction fs generalizing m with
  | nil => exact fun f hf => by cases hf
  | cons f fs ih =>
      obtain ⟨hf, hfs⟩ := List.pairwise_cons.mp hapart
      intro g hg
      rcases List.mem_cons.mp hg with rfl | hg
      · have hkeep : loadLe (store (storeLe m (base + g.off) g.size g.val) base fs) (base + g.off) g.size =
            loadLe (storeLe m (base + g.off) g.size g.val) (base + g.off) g.size := by
          apply loadLe_store_of_disjoint
          intro f' hf'
          rcases hf f' hf' with h | h <;> omega
        rw [store, hkeep, loadLe_storeLe (hfit g List.mem_cons_self)]
      · exact ih hfs (fun g hg => hfit g (List.mem_cons_of_mem _ hg)) g hg

theorem Reads.mono (h : Reads m base fs) (hsub : gs ⊆ fs) : Reads m base gs := fun f hf => h f (hsub hf)

/-- Changes outside the members do not matter. -/
theorem Reads.congr (h : Reads m base fs) (hsame : ∀ f ∈ fs, loadLe m' (base + f.off) f.size = loadLe m (base + f.off) f.size) :
    Reads m' base fs :=
  fun f hf => (hsame f hf).trans (h f hf)

end Records

/-! Descriptors. -/

structure Desc where
  addr : Nat
  len : Nat
  flags : Nat
  next : Nat

def desc (m : Mem) (table i : Nat) : Desc :=
  ⟨loadLe m (table + 16 * i) 8, loadLe m (table + 16 * i + 8) 4, loadLe m (table + 16 * i + 12) 2, loadLe m (table + 16 * i + 14) 2⟩

namespace Desc

def hasNext (d : Desc) : Bool := d.flags.testBit 0

def write (d : Desc) : Bool := d.flags.testBit 1

def indirect (d : Desc) : Bool := d.flags.testBit 2

end Desc

/-- A piece of memory that the device may read, or write. -/
structure Segment where
  addr : Nat
  len : Nat
  write : Bool
  deriving DecidableEq

/-- The chain from descriptor i of a table on; none if it leaves the table or does not end. -/
def chain (m : Mem) (table size : Nat) : Nat → Nat → Option (List Segment)
  | 0, _ => none
  | fuel + 1, i =>
      if size ≤ i then none
      else
        let d := desc m table i
        if d.hasNext then (chain m table size fuel d.next).map (⟨d.addr, d.len, d.write⟩ :: ·)
        else some [⟨d.addr, d.len, d.write⟩]

/-- The buffer with the head i, which may be in a table of its own. -/
def buffer (m : Mem) (table size i : Nat) : Option (List Segment) :=
  let d := desc m table i
  if d.indirect then chain m d.addr (d.len / 16) (d.len / 16) 0 else chain m table size size i

/-- Where the driver put the queue. -/
structure Queue where
  desc : Nat
  avail : Nat
  used : Nat
  num : Nat

def Queue.availIdx (q : Queue) (m : Mem) : Nat := loadLe m (q.avail + 2) 2

def Queue.usedIdx (q : Queue) (m : Mem) : Nat := loadLe m (q.used + 2) 2

/-- What a device does with a buffer: none if it is malformed, else the memory, its own state
and the number of bytes written. -/
abbrev Serve (δ : Type) := Mem → List Segment → δ → Option (Mem × δ × Nat)

/-- The head of the buffer that is available after last others. -/
def Queue.head (q : Queue) (m : Mem) (last : Nat) : Nat := loadLe m (q.avail + 4 + 2 * (last % q.num)) 2

/-- The buffer with this head becomes the used one after last others. -/
def Queue.complete (q : Queue) (m : Mem) (last head len : Nat) : Mem :=
  let m := storeLe m (q.used + 4 + 8 * (last % q.num)) 4 head
  let m := storeLe m (q.used + 8 + 8 * (last % q.num)) 4 len
  storeLe m (q.used + 2) 2 ((last + 1) % 2 ^ 16)

/-- The device takes the next available buffer, if there is one, and returns it as used; last
counts the buffers that it took. -/
def service {δ : Type} (q : Queue) (serve : Serve δ) (m : Mem) (last : Nat) (s : δ) : Option (Mem × Nat × δ) :=
  if q.availIdx m = last then some (m, last, s)
  else do
    let segs ← buffer m q.desc q.num (q.head m last)
    let r ← serve m segs s
    return (q.complete r.1 last (q.head m last) r.2.2, (last + 1) % 2 ^ 16, r.2.1)

section Service

variable {q : Queue} {m m' : Mem} {a n last head len : Nat} {segs : List Segment}

/-- A queue of one buffer. -/
theorem service_single {δ : Type} {serve : Serve δ} {s s' : δ} (hnum : q.num = 1) (hidx : q.availIdx m ≠ last)
    (hring : loadLe m (q.avail + 4) 2 = 0) (hbuf : buffer m q.desc 1 0 = some segs)
    (hserve : serve m segs s = some (m', s', len)) :
    service q serve m last s = some (q.complete m' last 0 len, (last + 1) % 2 ^ 16, s') := by
  have hhead : q.head m last = 0 := by
    rw [Queue.head, hnum, Nat.mod_one]
    exact hring
  rw [service, if_neg hidx, hnum, hhead, hbuf, Option.bind_eq_bind, Option.bind_some, hserve]
  rfl

theorem complete_usedIdx : q.usedIdx (q.complete m last head len) = (last + 1) % 2 ^ 16 := by
  rw [Queue.usedIdx, Queue.complete, loadLe_storeLe (by omega)]

theorem complete_outside {x : Nat} (h : x < q.used + 2 ∨ q.used + 12 + 8 * (last % q.num) ≤ x) :
    q.complete m last head len x = m x := by
  rw [Queue.complete, storeLe_outside (by omega), storeLe_outside (by omega), storeLe_outside (by omega)]

theorem complete_loadLe (h : a + n ≤ q.used + 2 ∨ q.used + 12 + 8 * (last % q.num) ≤ a) :
    loadLe (q.complete m last head len) a n = loadLe m a n := by
  rw [Queue.complete, loadLe_storeLe_of_disjoint (by omega), loadLe_storeLe_of_disjoint (by omega),
    loadLe_storeLe_of_disjoint (by omega)]

theorem complete_readAt (h : a + n ≤ q.used + 2 ∨ q.used + 12 + 8 * (last % q.num) ≤ a) :
    readAt (q.complete m last head len) a n = readAt m a n := by
  rw [Queue.complete, readAt_storeLe_of_disjoint (by omega), readAt_storeLe_of_disjoint (by omega),
    readAt_storeLe_of_disjoint (by omega)]

end Service

/-! Block requests: a header of 16 bytes, data, and a status byte that is written last. -/

def readable (m : Mem) (segs : List Segment) : List UInt8 :=
  segs.flatMap fun s => if s.write then [] else readAt m s.addr s.len

def writable (segs : List Segment) : List Nat :=
  segs.flatMap fun s => if s.write then List.range' s.addr s.len else []

def storeAll (m : Mem) : List Nat → List UInt8 → Mem
  | a :: as, b :: bs => storeAll (Function.update m a b) as bs
  | _, _ => m

/-- The readable segments come before the writable ones. -/
def inOrder (segs : List Segment) : Bool := segs.Pairwise (fun s t => s.write → t.write)

/-- A disk that counts sectors in units of its own; how a request is cut into segments does not
matter. -/
def blockDevice (unit : Nat) : Serve (Nat → UInt8) := fun m segs disk =>
  let r := readable m segs
  match (writable segs).getLast? with
  | none => none
  | some status =>
      if inOrder segs = false ∨ r.length < 16 then none
      else if leNat (r.take 4) = 0 then
        let data := readAt disk (leNat ((r.drop 8).take 8) * unit) ((writable segs).length - 1)
        some (Function.update (storeAll m (writable segs).dropLast data) status 0, disk, (writable segs).length)
      else if leNat (r.take 4) = 1 then
        some (Function.update m status 0, writeAt disk (leNat ((r.drop 8).take 8) * unit) (r.drop 16), 1)
      else some (Function.update m status 2, disk, 1)

section Serve

variable {m : Mem} {disk : Nat → UInt8} {a h b n s unit : Nat}

theorem storeAll_range' (bs : List UInt8) : storeAll m (List.range' a bs.length) bs = writeAt m a bs := by
  induction bs generalizing m a with
  | nil =>
      rw [writeAt_nil]
      rfl
  | cons x bs ih =>
      have hcons : writeAt m a ([x] ++ bs) = writeAt (writeAt m a [x]) (a + 1) bs := (writeAt_append m a [x] bs).symm
      rw [List.length_cons, List.range'_succ, storeAll, ih, ← writeAt_singleton, ← hcons]
      rfl

theorem readAt_take {k : Nat} (h : k ≤ n) : (readAt m a n).take k = readAt m a k := by
  have hcut := readAt_drop_take (d := m) (a := a) (n := n) (m := k) 0 (by omega)
  rwa [List.drop_zero] at hcut

theorem blockDevice_read (htype : loadLe m h 4 = 0) :
    blockDevice unit m [⟨h, 16, false⟩, ⟨b, n, true⟩, ⟨s, 1, true⟩] disk =
      some (Function.update (writeAt m b (readAt disk (loadLe m (h + 8) 8 * unit) n)) s 0, disk, n + 1) := by
  have hwritable : writable [⟨h, 16, false⟩, ⟨b, n, true⟩, ⟨s, 1, true⟩] = List.range' b n ++ [s] := by
    simp [writable]
  have hreadable : readable m [⟨h, 16, false⟩, ⟨b, n, true⟩, ⟨s, 1, true⟩] = readAt m h 16 := by
    simp [readable]
  have hlen : (List.range' b n ++ [s]).length = n + 1 := by simp
  rw [loadLe] at htype
  have hstore := storeAll_range' (m := m) (a := b) (readAt disk (loadLe m (h + 8) 8 * unit) n)
  rw [readAt_length] at hstore
  rw [blockDevice, hwritable, hreadable, List.getLast?_concat]
  simp only
  rw [if_neg (by simp [inOrder]), readAt_take (by decide), readAt_drop_take 8 (by decide), hlen,
    List.dropLast_concat, if_pos htype, Nat.add_sub_cancel]
  exact congrArg some (congrArg (fun m => (Function.update m s 0, disk, n + 1)) hstore)

theorem blockDevice_write (htype : loadLe m h 4 = 1) :
    blockDevice unit m [⟨h, 16, false⟩, ⟨b, n, false⟩, ⟨s, 1, true⟩] disk =
      some (Function.update m s 0, writeAt disk (loadLe m (h + 8) 8 * unit) (readAt m b n), 1) := by
  have hwritable : writable [⟨h, 16, false⟩, ⟨b, n, false⟩, ⟨s, 1, true⟩] = [s] := by
    simp [writable]
  have hreadable : readable m [⟨h, 16, false⟩, ⟨b, n, false⟩, ⟨s, 1, true⟩] = readAt m h 16 ++ readAt m b n := by
    simp [readable]
  have htake {k : Nat} (hk : k ≤ 16) : (readAt m h 16 ++ readAt m b n).take k = readAt m h k := by
    rw [List.take_append_of_le_length (by rw [readAt_length]; exact hk), readAt_take hk]
  have hsector : ((readAt m h 16 ++ readAt m b n).drop 8).take 8 = readAt m (h + 8) 8 := by
    rw [List.drop_append_of_le_length (by rw [readAt_length]; decide),
      List.take_append_of_le_length (by simp), readAt_drop_take 8 (by decide)]
  have hdata : (readAt m h 16 ++ readAt m b n).drop 16 = readAt m b n := List.drop_left' (readAt_length _ _ _)
  rw [loadLe] at htype
  rw [blockDevice, hwritable, hreadable]
  simp only [List.getLast?_singleton]
  rw [if_neg (by simp [inOrder]), htake (by decide), hsector, hdata, if_neg (by rw [htype]; decide), if_pos htype]
  rfl

end Serve

end RiscvKernel.Lib.Vring
