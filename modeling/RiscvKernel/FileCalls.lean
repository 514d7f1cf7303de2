import RiscvKernel.StoredProgram
import RiscvKernel.FullTransfer
import RiscvKernel.UserIoctl
import RiscvKernel.KfsSlots
import RiscvKernel.Syscall

namespace RiscvKernel.FileCalls

open Vioblk (VioblkDevice hardware)
open Io Lib.Bytes SleepLock FlatDisk Kfs KfsFile KfsRun Mkfs RoundTrip DiskView KfsStack FileSession IoTable
open FullTransfer (fullLoop)
open UserIoctl (cell)
open Syscall (eaccess)
open StoredProgram (FileAt)

variable {σ : Type}

/-! The system calls of processes on files, from the descriptor tables down to the device. -/

/-- The globals of kfs.c, and the iotab of the process of each thread. -/
structure State (σ : Type) where
  kfs : Globals σ
  iotab : Nat → IoTab (Fin 32)

/-- The calls, with what fs_open, fs_read and fs_write find in their uninitialised locals; iowrite
may call fs_write at several offsets. -/
inductive Call
  | fsopen (loc : OpenLocals) (fd : Int) (name : List UInt8)
  | close (fd : Int)
  | read (loc : Locals) (fd : Int) (buf bufsz : Nat)
  | write (loc : Nat → Locals) (fd : Int) (buf len : Nat)
  | ioctl (fd : Int) (cmd : Ioctl) (arg : Nat)

/-- A call of a thread, and the memory of its process. -/
structure Event where
  tid : Nat
  mem : Nat → UInt8
  call : Call

/-- What a call returns, and the memory of the process afterwards. -/
abbrev Answer := Int × (Nat → UInt8)

def State.setEntry (s : State σ) (tid : Nat) (fd : Int) (io : Option (Fin 32)) : State σ :=
  { s with iotab := Function.update s.iotab tid (Function.update (s.iotab tid) fd io) }

section Code

variable (dev : IoOps σ) (fuel : Nat) (s : State σ) (tid : Nat) (mem : Nat → UInt8)

/-- The end of sysfsopen, for entry x of iotab. -/
def openAt (loc : OpenLocals) (x : Int) (name : List UInt8) : Option (Int × State σ) := do
  let (retVal, file, kfs) ← fsOpen dev loc s.kfs name
  if retVal ≠ 0 then return (-einval, { s with kfs })
  else return (x, ({ s with kfs } : State σ).setEntry tid x file)

def sysfsopen (loc : OpenLocals) (fd : Int) (name : List UInt8) : Option (Int × State σ) :=
  if 0 ≤ fd then openAt dev s tid loc fd name
  else
    match (findFree (fun x => processIomax ≤ x) (s.iotab tid) 17 0).2 with
    | some x => openAt dev s tid loc x name
    | none => some (-einval, s)

/-- In all these calls none is one that follows a null pointer or does not return. -/
def sysclose (fd : Int) : Option (Int × State σ) := do
  let io ← s.iotab tid fd
  if (s.kfs.fileArray io).ops then
    return (0, ({ s with kfs := ioclose s.kfs io } : State σ).setEntry tid fd none)
  else none

/-- The end of sysread and syswrite, where an int takes what ioread or iowrite returned. -/
def transferred (r : Int) : Int :=
  let val := (BitVec.ofInt 32 r).toInt
  if val < 0 then -eio else val

def sysread (loc : Locals) (fd : Int) (buf bufsz : Nat) : Option (Answer × State σ) :=
  match s.iotab tid fd with
  | none => some ((-eaccess, mem), s)
  | some io =>
      if (s.kfs.fileArray io).ops then do
        let (r, bytes, kfs) ← fsRead dev fuel loc tid s.kfs io (fun x => mem (buf + x)) bufsz
        return ((transferred r, fun y => if buf ≤ y then bytes (y - buf) else mem y), { s with kfs })
      else none

/-- The fs_write of the entry io that iowrite calls for the len bytes from offset off on. -/
def fileWrite (loc : Nat → Locals) (io : Fin 32) (buf : Nat) (k : Option (Globals σ)) (off len : Nat) :
    Int × Option (Globals σ) :=
  match k.bind fun k => fsWrite dev fuel (loc off) tid k io (fun x => mem (buf + off + x)) len with
  | some (r, _, k) => (r, some k)
  | none => (0, none)

def syswrite (loc : Nat → Locals) (fd : Int) (buf len : Nat) : Option (Int × State σ) :=
  match s.iotab tid fd with
  | none => some (-eaccess, s)
  | some io =>
      if (s.kfs.fileArray io).ops then do
        let (r, k) ← fullLoop (fileWrite dev fuel tid mem loc io buf) len fuel 0 (some s.kfs)
        let kfs ← k
        return (transferred r, { s with kfs })
      else none

/-- The argument of the file's function is a variable of the kernel, which holds the user's
position for IOCTL_SETLEN and the argument of the call itself for the others. -/
def sysioctl (fd : Int) (cmd : Ioctl) (arg : Nat) : Option (Int × State σ) := do
  let io ← s.iotab tid fd
  if (s.kfs.fileArray io).ops then
    let r := if cmd = .setlen then fsIoctl (s.kfs.fileArray io) .setpos (cell mem arg) else fsIoctl (s.kfs.fileArray io) cmd arg
    return (r.1, { s with kfs := s.kfs.setFile io r.2.2 })
  else none

end Code

def step (dev : Nat → IoOps σ) (fuel : Nat) (s : State σ) (ev : Event) : Option (Answer × State σ) :=
  match ev.call with
  | .fsopen loc fd name => (sysfsopen (dev ev.tid) s ev.tid loc fd name).map fun r => ((r.1, ev.mem), r.2)
  | .close fd => (sysclose s ev.tid fd).map fun r => ((r.1, ev.mem), r.2)
  | .read loc fd buf bufsz => sysread (dev ev.tid) fuel s ev.tid ev.mem loc fd buf bufsz
  | .write loc fd buf len => (syswrite (dev ev.tid) fuel s ev.tid ev.mem loc fd buf len).map fun r => ((r.1, ev.mem), r.2)
  | .ioctl fd cmd arg => (sysioctl s ev.tid ev.mem fd cmd arg).map fun r => ((r.1, ev.mem), r.2)

def run (dev : Nat → IoOps σ) (fuel : Nat) : State σ → List Event → Option (List Answer × State σ)
  | s, [] => some ([], s)
  | s, ev :: evs => do
      let (a, s) ← step dev fuel s ev
      let (as, s) ← run dev fuel s evs
      return (a :: as, s)

/-- What the calls are for: files of fixed length, and a file and a position in it for each
descriptor. used counts the entries of fileArray that are not free, last is the descriptor of the
file opened last, until that is closed. -/
structure View where
  contents : Nat → List UInt8
  desc : Nat → Int → Option (Nat × Nat)
  used : Nat
  last : Option (Nat × Int)

namespace View

variable (fs : List Input) (v : View) (tid : Nat) (mem : Nat → UInt8)

def start : View := ⟨fun i => ((fs[i]?).map (·.contents)).getD [], fun _ _ => none, 0, none⟩

def set (fd : Int) (d : Option (Nat × Nat)) : View :=
  { v with desc := Function.update v.desc tid (Function.update (v.desc tid) fd d) }

/-- The descriptor that an open takes: the one asked for, else the lowest free one. -/
def target (fd : Int) : Option Int :=
  if 0 ≤ fd then some fd else ((List.range 16).map Int.ofNat).find? fun x => (v.desc tid x).isNone

def opened (fd : Int) (name : List UInt8) : Int × View :=
  match fileNo fs name, v.target tid fd with
  | some i, some x => (x, { v.set tid x (some (i, 0)) with used := v.used + 1, last := some (tid, x) })
  | _, _ => (-einval, v)

/-- Closing the file opened last frees its entry, closing another does not. -/
def closed (fd : Int) : View :=
  { v.set tid fd none with used := if v.last = none then v.used else v.used - 1, last := none }

def seek (fd : Int) (d : Nat × Nat) (pos : Nat) : Int × View :=
  if (v.contents d.1).length < pos then (-eio, v) else (0, v.set tid fd (some (d.1, pos)))

/-- The bytes at a position of a file are replaced, and the position moves behind them. -/
def put (fd : Int) (d : Nat × Nat) (bs : List UInt8) : View :=
  { v.set tid fd (some (d.1, d.2 + bs.length)) with
    contents := Function.update v.contents d.1 (splice (v.contents d.1) d.2 bs) }

def ioctl (fd : Int) (d : Nat × Nat) (arg : Nat) : Ioctl → Int × View
  | .getlen => ((v.contents d.1).length, v)
  | .setlen => v.seek tid fd d (cell mem arg)
  | .getpos => (d.2, v)
  | .setpos => v.seek tid fd d arg
  | .flush => (0, v)
  | .getblksz => (4096, v)

def step (ev : Event) : Answer × View :=
  match ev.call with
  | .fsopen _ fd name => (((v.opened fs ev.tid fd name).1, ev.mem), (v.opened fs ev.tid fd name).2)
  | .close fd => ((0, ev.mem), v.closed ev.tid fd)
  | .read _ fd buf bufsz =>
      match v.desc ev.tid fd with
      | none => ((-eaccess, ev.mem), v)
      | some d =>
          let bs := ((v.contents d.1).drop d.2).take bufsz
          ((bs.length, writeAt ev.mem buf bs), v.set ev.tid fd (some (d.1, d.2 + bs.length)))
  | .write _ fd buf len =>
      match v.desc ev.tid fd with
      | none => ((-eaccess, ev.mem), v)
      | some d =>
          let n := min len ((v.contents d.1).length - d.2)
          ((n, ev.mem), v.put ev.tid fd d (readAt ev.mem buf n))
  | .ioctl fd cmd arg =>
      match v.desc ev.tid fd with
      | none => ((0, ev.mem), v)
      | some d => (((v.ioctl ev.tid ev.mem fd d arg cmd).1, ev.mem), (v.ioctl ev.tid ev.mem fd d arg cmd).2)

def run : View → List Event → List Answer × View
  | v, [] => ([], v)
  | v, ev :: evs => ((v.step fs ev).1 :: (run (v.step fs ev).2 evs).1, (run (v.step fs ev).2 evs).2)

/-- Opens go to a free descriptor while an entry is free, of files that exist or whose name is not
found; the file closed is the one opened last, or that one is closed already; positions do not
overflow; and ioctl is on open descriptors. -/
def Allowed (boot : Nat → UInt8) (ev : Event) : Prop :=
  match ev.call with
  | .fsopen loc fd name => loc.readSize.toNat < 2 ^ 32 ∧ v.used < 32 ∧ (fileNo fs name = none → findDentry boot name = none) ∧
      ∃ x, v.target ev.tid fd = some x ∧ InTable x
  | .close fd => InTable fd ∧ v.desc ev.tid fd ≠ none ∧ (v.last = none ∨ v.last = some (ev.tid, fd))
  | .read loc fd _ bufsz => InTable fd ∧ ∀ d ∈ v.desc ev.tid fd, loc.blockSpot.toNat < 2 ^ 32 ∧ d.2 + bufsz < 2 ^ 64
  | .write loc fd _ len => InTable fd ∧ ∀ d ∈ v.desc ev.tid fd, (∀ off, (loc off).blockSpot.toNat < 2 ^ 32) ∧ d.2 + len < 2 ^ 64
  | .ioctl fd _ _ => InTable fd ∧ v.desc ev.tid fd ≠ none

def Along (boot : Nat → UInt8) : View → List Event → Prop
  | _, [] => True
  | v, ev :: evs => v.Allowed fs boot ev ∧ Along boot (v.step fs ev).2 evs

end View

section Fields

variable {dev : IoOps σ} {fuel self n : Nat} {k k' : Globals σ} {t t' : Transfer σ}

theorem fsIoctl_setpos (fd : FileDesc) (p : Nat) : ∃ q, (fsIoctl fd .setpos p).2.2 = { fd with filePos := q } := by
  rw [fsIoctl, fsSetpos]
  split
  · exact ⟨fd.filePos, rfl⟩
  · exact ⟨p, rfl⟩

theorem blockLoop_fd {chunk : Chunk σ} {N i : Nat} (he : blockLoop dev chunk N i fuel t = some t') :
    ∃ q, t'.fd = { t.fd with filePos := q } := by
  induction fuel generalizing t with
  | zero => exact absurd he (by simp [blockLoop])
  | succ fuel ih =>
      rw [blockLoop] at he
      split at he
      · obtain ⟨q, hq⟩ := ih he
        obtain ⟨q', hq'⟩ : ∃ q', (blockStep dev chunk N i t).fd = { t.fd with filePos := q' } := by
          rw [blockStep_received]
          exact fsIoctl_setpos _ _
        exact ⟨q, by rw [hq, hq']⟩
      · obtain rfl := Option.some.inj he
        exact ⟨t.fd.filePos, rfl⟩

/-- A call on a file changes no entry but its own, and of that only the position. -/
theorem call_fields {op : Op} {r : Result} (he : KfsStack.call dev fuel self k op = some (r, k')) :
    (∃ q, k'.fileArray = Function.update k.fileArray op.io { k.fileArray op.io with filePos := q }) ∧ k'.intSpot = k.intSpot := by
  cases op with
  | read loc io buf n | write loc io buf n =>
      obtain ⟨x, hx, hr⟩ := Option.map_eq_some_iff.mp he
      obtain rfl := congrArg Prod.snd hr
      have hx : fsTransfer dev _ fuel loc self k io buf n = some x := hx
      rw [KfsRounds.fsTransfer_enter] at hx
      obtain ⟨lk, -, hx⟩ := Option.bind_eq_some_iff.mp hx
      split at hx
      · obtain rfl := Option.some.inj hx
        exact ⟨⟨(k.fileArray io).filePos, (Function.update_eq_self _ _).symm⟩, rfl⟩
      · obtain ⟨t', ht', rfl⟩ := Option.map_eq_some_iff.mp hx
        obtain ⟨q, hq⟩ := blockLoop_fd ht'
        refine ⟨⟨q, ?_⟩, rfl⟩
        simp only [Globals.setFile, hq]
        rfl
  | setpos io pos =>
      obtain rfl := congrArg Prod.snd (Option.some.inj he)
      obtain ⟨q, hq⟩ := fsIoctl_setpos (k.fileArray io) pos
      exact ⟨⟨q, congrArg (Function.update k.fileArray io) hq⟩, rfl⟩

end Fields

/-- The kernel's state, with the disk that the device shows, and what it stands for. -/
structure Inv (R : σ → Disk → Prop) (old : Nat → Nat → UInt8) (fs : List Input) (boot : Nat → UInt8) (s : State σ)
    (k : Globals Disk) (v : View) : Prop where
  kfs : ∃ d, s.kfs = onGlobals k d ∧ R d k.globalIO
  kept : Kept old fs boot k
  contents : v.contents = (filesOf k).contents
  desc : ∀ tid fd, InTable fd →
    v.desc tid fd = (s.iotab tid fd).map fun io => ((k.fileArray io).inode, (k.fileArray io).filePos)
  entry : ∀ tid fd io, InTable fd → s.iotab tid fd = some io →
    (k.fileArray io).flags ≠ 0 ∧ (k.fileArray io).ops = true ∧ (k.fileArray io).refcnt = 1
  distinct : ∀ tid fd tid' fd' io, InTable fd → InTable fd' → s.iotab tid fd = some io → s.iotab tid' fd' = some io →
    tid = tid' ∧ fd = fd'
  free : ∀ io, (k.fileArray io).flags = 0 → (k.fileArray io).refcnt = 0
  used : v.used = (Finset.univ.filter fun io => (k.fileArray io).flags ≠ 0).card
  last : ∀ tid fd, v.last = some (tid, fd) → InTable fd ∧ s.iotab tid fd = some k.intSpot
  closed : v.last = none → (k.fileArray k.intSpot).flags = 0

theorem transferred_natCast {n : Nat} (h : n < 2 ^ 31) : transferred n = n := by
  have hval : (BitVec.ofInt 32 (n : Int)).toInt = n := by
    rw [BitVec.ofInt_natCast, BitVec.toInt_eq_toNat_cond, BitVec.toNat_ofNat, Nat.mod_eq_of_lt (by omega), if_pos (by omega)]
  rw [transferred, hval]
  exact if_neg (by omega)

/-- The user's memory after a read into its buffer. -/
theorem writeAt_user (mem : Nat → UInt8) (buf : Nat) (bs : List UInt8) :
    (fun y => if buf ≤ y then writeAt (fun x => mem (buf + x)) 0 bs (y - buf) else mem y) = writeAt mem buf bs := by
  funext y
  by_cases hy : buf ≤ y
  · obtain ⟨x, rfl⟩ := Nat.exists_eq_add_of_le hy
    rw [if_pos hy, Nat.add_sub_cancel_left, writeAt, writeAt]
    simp
  · rw [if_neg hy, writeAt_outside (.inl (Nat.lt_of_not_le hy))]

/-- Writing nothing changes nothing. -/
theorem View.put_nil {v : View} {tid : Nat} {fd : Int} {d : Nat × Nat} (h : v.desc tid fd = some d) : v.put tid fd d [] = v := by
  rw [View.put, View.set, splice, List.append_nil, List.length_nil, Nat.add_zero, List.take_append_drop,
    Function.update_eq_self]
  rw [← h, Function.update_eq_self, Function.update_eq_self]

theorem View.put_length {v : View} {tid : Nat} {fd : Int} {d : Nat × Nat} {bs : List UInt8}
    (h : d.2 + bs.length ≤ (v.contents d.1).length) : ((v.put tid fd d bs).contents d.1).length = (v.contents d.1).length := by
  simp only [View.put, Function.update_self]
  exact splice_length h

theorem update_entry {β : Type} (tab : Nat → Int → β) (tid tid' : Nat) (fd fd' : Int) (x : β) :
    Function.update tab tid (Function.update (tab tid) fd x) tid' fd' = if tid' = tid ∧ fd' = fd then x else tab tid' fd' := by
  by_cases htid : tid' = tid
  · subst htid
    rw [Function.update_self, Function.update_apply]
    simp only [true_and]
  · rw [Function.update_of_ne htid, if_neg fun he => htid he.1]

theorem setEntry_iotab (s : State σ) (tid tid' : Nat) (fd fd' : Int) (io : Option (Fin 32)) :
    (s.setEntry tid fd io).iotab tid' fd' = if tid' = tid ∧ fd' = fd then io else s.iotab tid' fd' :=
  update_entry _ _ _ _ _ _

theorem setFile_self (k : Globals σ) (io : Fin 32) : k.setFile io (k.fileArray io) = k := by
  rw [Globals.setFile, Function.update_eq_self]

section Kept

variable {R : σ → Disk → Prop} {old : Nat → Nat → UInt8} {fs : List Input} {boot : Nat → UInt8} {s : State σ}
  {k k' : Globals Disk} {d d' : σ} {v : View} {tid : Nat} {fd : Int} {io : Fin 32}

/-- A change of the position of an open file. -/
theorem Inv.move (hi : Inv R old fs boot s k v) (hfd : InTable fd) (hio : s.iotab tid fd = some io) {q : Nat}
    (harr : k'.fileArray = Function.update k.fileArray io { k.fileArray io with filePos := q }) (hspot : k'.intSpot = k.intSpot)
    (hkept : Kept old fs boot k') (hR : R d' k'.globalIO) :
    Inv R old fs boot { s with kfs := onGlobals k' d' } k'
      { v.set tid fd (some ((k.fileArray io).inode, q)) with contents := (filesOf k').contents } := by
  have hflags : ∀ j, (k'.fileArray j).flags = (k.fileArray j).flags ∧ (k'.fileArray j).ops = (k.fileArray j).ops ∧
      (k'.fileArray j).refcnt = (k.fileArray j).refcnt := by
    intro j
    rw [harr]
    by_cases hj : j = io
    · rw [hj, Function.update_self]
      exact ⟨rfl, rfl, rfl⟩
    · rw [Function.update_of_ne hj]
      exact ⟨rfl, rfl, rfl⟩
  refine ⟨⟨d', rfl, hR⟩, hkept, rfl, fun tid' fd' hin => ?_, fun tid' fd' j hin hj => ?_, hi.distinct, fun j hj => ?_, ?_, ?_, ?_⟩
  · refine (update_entry v.desc tid tid' fd fd' _).trans ?_
    by_cases heq : tid' = tid ∧ fd' = fd
    · obtain ⟨rfl, rfl⟩ := heq
      rw [if_pos ⟨rfl, rfl⟩, hio, Option.map_some, harr, Function.update_self]
    · rw [if_neg heq, hi.desc tid' fd' hin]
      cases hj : s.iotab tid' fd' with
      | none => rfl
      | some j =>
          have hne : j ≠ io := fun he => heq (hi.distinct tid' fd' tid fd io hin hfd (he ▸ hj) hio)
          rw [Option.map_some, Option.map_some, harr, Function.update_of_ne hne]
  · obtain ⟨h₁, h₂, h₃⟩ := hflags j
    rw [h₁, h₂, h₃]
    exact hi.entry tid' fd' j hin hj
  · obtain ⟨h₁, -, h₃⟩ := hflags j
    rw [h₃]
    exact hi.free j (h₁ ▸ hj)
  · have hset : (Finset.univ.filter fun j => (k'.fileArray j).flags ≠ 0) =
        Finset.univ.filter fun j => (k.fileArray j).flags ≠ 0 :=
      Finset.filter_congr fun j _ => by rw [(hflags j).1]
    rw [hset]
    exact hi.used
  · rw [hspot]
    exact hi.last
  · rw [hspot, (hflags _).1]
    exact hi.closed

theorem Inv.desc_some (hi : Inv R old fs boot s k v) (hfd : InTable fd) (hio : s.iotab tid fd = some io) :
    v.desc tid fd = some ((k.fileArray io).inode, (k.fileArray io).filePos) := by
  rw [hi.desc tid fd hfd, hio, Option.map_some]

theorem Inv.desc_none (hi : Inv R old fs boot s k v) (hfd : InTable fd) (hio : s.iotab tid fd = none) : v.desc tid fd = none := by
  rw [hi.desc tid fd hfd, hio, Option.map_none]

theorem Inv.iotab_some (hi : Inv R old fs boot s k v) (hfd : InTable fd) (hne : v.desc tid fd ≠ none) :
    ∃ io, s.iotab tid fd = some io := by
  rw [hi.desc tid fd hfd, ne_eq, Option.map_eq_none_iff] at hne
  exact Option.ne_none_iff_exists'.mp hne

/-- An open file has its position inside, and less than 2 ^ 31 bytes. -/
theorem Inv.size (hi : Inv R old fs boot s k v) (hfd : InTable fd) (hio : s.iotab tid fd = some io) :
    (k.fileArray io).filePos ≤ (v.contents (k.fileArray io).inode).length ∧
      (v.contents (k.fileArray io).inode).length = (k.fileArray io).fileSize ∧ (k.fileArray io).fileSize < 2 ^ 31 := by
  have ho : KfsRun.IsOpen k io := (hi.entry tid fd io hfd hio).1
  obtain ⟨-, hlt, hsize, hle⟩ := hi.kept.opened io ho
  have hlen := hi.kept.image.len_le _ hlt
  have hcontents : v.contents (k.fileArray io).inode = fileContents k.globalIO.bytes (k.fileArray io).inode := by
    rw [hi.contents]
    exact filesOf_contents hi.kept.toValid ho
  rw [hcontents, fileContents_length, hsize]
  exact ⟨hle, rfl, by omega⟩

section Device

variable {dev : Nat → IoOps σ} {fuel : Nat} (hd : ∀ tid, Shows (dev tid) R) (h : ValidInputs fs) (hfuel : 1023 * 4096 < fuel)
include hd h hfuel

/-- A call on the file of a descriptor. -/
theorem Inv.call (hi : Inv R old fs boot s k v) (hfd : InTable fd) (hio : s.iotab tid fd = some io) (op : Op)
    (hop : op.io = io) (ha : (filesOf k).Admissible op) :
    ∃ k' d', KfsStack.call (dev tid) fuel tid s.kfs op = some (((filesOf k).step op).1, onGlobals k' d') ∧
      Inv R old fs boot { s with kfs := onGlobals k' d' } k'
        { v.set tid fd (some ((k.fileArray io).inode, ((filesOf k).step op).2.pos io)) with
          contents := ((filesOf k).step op).2.contents } := by
  obtain ⟨d, hkfs, hR⟩ := hi.kfs
  have hat : FileAt R old fs boot io ((filesOf k).contents ((filesOf k).inode io)) k d ((filesOf k).pos io) :=
    ⟨hi.kept, hR, (hi.entry tid fd io hfd hio).1, rfl, rfl⟩
  obtain ⟨k', d', he, hR', hkept, -, hfiles⟩ := hat.call tid (hd tid) h hfuel hop ha
  obtain ⟨⟨q, hq⟩, hspot⟩ := call_fields he
  refine ⟨k', d', by rw [hkfs]; exact he, ?_⟩
  have hq : k'.fileArray = Function.update k.fileArray io { k.fileArray io with filePos := q } := by
    rw [hop] at hq
    exact hq
  have hpos : ((filesOf k).step op).2.pos io = (k'.fileArray io).filePos := by
    rw [← hfiles]
    rfl
  rw [hpos, ← hfiles, hq, Function.update_self]
  exact hi.move hfd hio hq hspot hkept hR'

theorem Inv.read (hi : Inv R old fs boot s k v) {mem b : Nat → UInt8} {loc : Locals} {buf bufsz : Nat}
    (ha : v.Allowed fs b ⟨tid, mem, .read loc fd buf bufsz⟩) :
    ∃ s' k', step dev fuel s ⟨tid, mem, .read loc fd buf bufsz⟩ =
        some ((v.step fs ⟨tid, mem, .read loc fd buf bufsz⟩).1, s') ∧
      Inv R old fs boot s' k' (v.step fs ⟨tid, mem, .read loc fd buf bufsz⟩).2 := by
  obtain ⟨hfd, ha⟩ := ha
  cases hio : s.iotab tid fd with
  | none =>
      simp only [step, sysread, hio, View.step, hi.desc_none hfd hio]
      exact ⟨s, k, rfl, hi⟩
  | some io =>
      have hdesc := hi.desc_some hfd hio
      have hops := (hi.entry tid fd io hfd hio).2.1
      obtain ⟨hle, hlen, hsize⟩ := hi.size hfd hio
      obtain ⟨hspot, hlt⟩ := ha _ hdesc
      obtain ⟨k', d', he, hinv⟩ := hi.call hd h hfuel hfd hio (.read loc io (fun x => mem (buf + x)) bufsz) rfl
        ⟨hspot, hlt⟩
      obtain ⟨d, hkfs, -⟩ := hi.kfs
      have hfile : (s.kfs.fileArray io).ops = true := by rw [hkfs]; exact hops
      obtain ⟨⟨r, bytes, K⟩, hx, hr⟩ := Option.map_eq_some_iff.mp he
      have hin : (filesOf k).inode io = (k.fileArray io).inode := rfl
      have hpos : (filesOf k).pos io = (k.fileArray io).filePos := rfl
      simp only [Files.step, Prod.mk.injEq, Option.some.injEq, Files.count, hin, hpos, Files.seek, Function.update_self,
        ← hi.contents] at hr hinv
      obtain ⟨⟨rfl, rfl⟩, rfl⟩ := hr
      have hcount : (((v.contents (k.fileArray io).inode).drop (k.fileArray io).filePos).take bufsz).length =
          min bufsz ((v.contents (k.fileArray io).inode).length - (k.fileArray io).filePos) := by
        rw [List.length_take, List.length_drop]
      have htake : ((v.contents (k.fileArray io).inode).drop (k.fileArray io).filePos).take
            (min bufsz ((v.contents (k.fileArray io).inode).length - (k.fileArray io).filePos)) =
          ((v.contents (k.fileArray io).inode).drop (k.fileArray io).filePos).take bufsz := by
        rw [← List.length_drop, List.take_eq_take_iff]
        omega
      have hval := transferred_natCast (n := min bufsz ((v.contents (k.fileArray io).inode).length - (k.fileArray io).filePos))
        (by omega)
      refine ⟨{ s with kfs := onGlobals k' d' }, k', ?_, ?_⟩
      · simp only [step, sysread, hio, hfile, if_true, hx, View.step, hdesc, Option.bind_eq_bind, Option.bind_some, htake,
          hcount, hval, writeAt_user]
        rfl
      · simp only [View.step, hdesc, hcount]
        exact hinv

variable (mem : Nat → UInt8) (loc : Nat → Locals) (buf len : Nat)

theorem Inv.fileWrite (hi : Inv R old fs boot s k v) (hfd : InTable fd) (hio : s.iotab tid fd = some io)
    (hspot : ∀ off, (loc off).blockSpot.toNat < 2 ^ 32) (hlt : (k.fileArray io).filePos + len < 2 ^ 64) (off : Nat) {c : Nat}
    (hc : c = min len ((v.contents (k.fileArray io).inode).length - (k.fileArray io).filePos)) :
    ∃ k' d', FileCalls.fileWrite (dev tid) fuel tid mem loc io buf (some s.kfs) off len = ((c : Int), some (onGlobals k' d')) ∧
      Inv R old fs boot { s with kfs := onGlobals k' d' } k'
        (v.put tid fd ((k.fileArray io).inode, (k.fileArray io).filePos) (readAt mem (buf + off) c)) := by
  obtain ⟨k', d', he, hinv⟩ := hi.call hd h hfuel hfd hio
    (.write (loc off) io (fun x => mem (buf + off + x)) len) rfl ⟨hspot off, hlt⟩
  obtain ⟨⟨r, bytes, K⟩, hx, hr⟩ := Option.map_eq_some_iff.mp he
  have hin : (filesOf k).inode io = (k.fileArray io).inode := rfl
  have hpos : (filesOf k).pos io = (k.fileArray io).filePos := rfl
  have hread : readAt (fun x => mem (buf + off + x)) 0 c = readAt mem (buf + off) c := by
    simp [readAt]
  simp only [Files.step, Prod.mk.injEq, Option.some.injEq, Files.count, hin, hpos, Files.seek, Function.update_self,
    ← hi.contents, ← hc, hread] at hr hinv
  obtain ⟨⟨rfl, -⟩, rfl⟩ := hr
  refine ⟨k', d', ?_, ?_⟩
  · simp only [FileCalls.fileWrite, Option.bind_some, hx]
  · rw [View.put, readAt_length]
    exact hinv

/-- iowrite calls fs_write once more when the file ends before the buffer does. -/
theorem Inv.iowrite (hi : Inv R old fs boot s k v) (hfd : InTable fd) (hio : s.iotab tid fd = some io)
    (hspot : ∀ off, (loc off).blockSpot.toNat < 2 ^ 32) (hlt : (k.fileArray io).filePos + len < 2 ^ 64) (rounds : Nat) {c : Nat}
    (hc : c = min len ((v.contents (k.fileArray io).inode).length - (k.fileArray io).filePos)) (hrounds : 3 ≤ rounds) :
    ∃ k' d', fullLoop (FileCalls.fileWrite (dev tid) fuel tid mem loc io buf) len rounds 0 (some s.kfs) =
        some ((c : Int), some (onGlobals k' d')) ∧
      Inv R old fs boot { s with kfs := onGlobals k' d' } k'
        (v.put tid fd ((k.fileArray io).inode, (k.fileArray io).filePos) (readAt mem buf c)) := by
  obtain ⟨f, rfl⟩ : ∃ f, rounds = f + 3 := ⟨rounds - 3, by omega⟩
  obtain ⟨hle, hlen, hsize⟩ := hi.size hfd hio
  have hdesc := hi.desc_some hfd hio
  have hzero : (0 : BitVec 64).toNat = 0 := rfl
  rw [fullLoop, hzero]
  by_cases hn : 0 < len
  · obtain ⟨k₁, d₁, he₁, hi₁⟩ := hi.fileWrite hd h hfuel mem loc buf len hfd hio hspot hlt 0 hc
    rw [if_pos hn, Nat.sub_zero, he₁]
    simp only
    rw [if_neg (by omega)]
    by_cases hc₀ : c = 0
    · subst hc₀
      rw [if_pos Int.natCast_zero]
      exact ⟨k₁, d₁, rfl, hi₁⟩
    · have hacc : ((0 : BitVec 64) + BitVec.ofInt 64 (c : Int)).toNat = c := by
        rw [FullTransfer.toNat_add_ofInt (by omega) (by rw [hzero, FullTransfer.longMax]; omega), hzero, Nat.zero_add,
          Int.toNat_natCast]
      rw [if_neg (by omega), fullLoop, hacc]
      by_cases hmore : c < len
      · have hdesc₁ := hi₁.desc_some hfd hio
        simp only [View.put, View.set, Function.update_self, readAt_length, Option.some.injEq, Prod.mk.injEq] at hdesc₁
        obtain ⟨hin, hpos⟩ := hdesc₁
        have hlen₁ : ((v.put tid fd ((k.fileArray io).inode, (k.fileArray io).filePos) (readAt mem (buf + 0) c)).contents
            (k.fileArray io).inode).length = (v.contents (k.fileArray io).inode).length :=
          View.put_length (by rw [readAt_length]; simp only; omega)
        obtain ⟨k₂, d₂, he₂, hi₂⟩ := hi₁.fileWrite hd h hfuel mem loc buf (len - c) (c := 0) hfd hio hspot (by rw [← hpos]; omega) c (by rw [← hin, ← hpos, hlen₁]; omega)
        rw [if_pos hmore, he₂]
        simp only
        rw [if_neg (by omega), if_pos Int.natCast_zero, FullTransfer.toInt_of_le (by rw [hacc, FullTransfer.longMax]; omega),
          hacc]
        refine ⟨k₂, d₂, rfl, ?_⟩
        rw [readAt_zero, View.put_nil (hi₁.desc_some hfd hio)] at hi₂
        exact hi₂
      · rw [if_neg hmore, FullTransfer.toInt_of_le (by rw [hacc, FullTransfer.longMax]; omega), hacc]
        exact ⟨k₁, d₁, rfl, hi₁⟩
  · obtain rfl : len = 0 := by omega
    obtain rfl : c = 0 := by omega
    obtain ⟨d, hkfs, hR⟩ := hi.kfs
    rw [if_neg hn, readAt_zero, View.put_nil hdesc]
    refine ⟨k, d, by rw [hkfs]; rfl, ?_⟩
    rw [← hkfs]
    exact hi

variable {mem loc buf len}

theorem Inv.write (hi : Inv R old fs boot s k v) {b : Nat → UInt8} (ha : v.Allowed fs b ⟨tid, mem, .write loc fd buf len⟩) :
    ∃ s' k', step dev fuel s ⟨tid, mem, .write loc fd buf len⟩ =
        some ((v.step fs ⟨tid, mem, .write loc fd buf len⟩).1, s') ∧
      Inv R old fs boot s' k' (v.step fs ⟨tid, mem, .write loc fd buf len⟩).2 := by
  obtain ⟨hfd, ha⟩ := ha
  cases hio : s.iotab tid fd with
  | none =>
      simp only [step, syswrite, hio, View.step, hi.desc_none hfd hio]
      exact ⟨s, k, rfl, hi⟩
  | some io =>
      have hdesc := hi.desc_some hfd hio
      obtain ⟨hle, hlen, hsize⟩ := hi.size hfd hio
      obtain ⟨hspot, hlt⟩ := ha _ hdesc
      obtain ⟨d, hkfs, -⟩ := hi.kfs
      have hops : (s.kfs.fileArray io).ops = true := by rw [hkfs]; exact (hi.entry tid fd io hfd hio).2.1
      obtain ⟨k', d', he, hinv⟩ := hi.iowrite hd h hfuel mem loc buf len hfd hio hspot hlt fuel rfl (by omega)
      have hval := transferred_natCast (n := min len ((v.contents (k.fileArray io).inode).length - (k.fileArray io).filePos))
        (by omega)
      refine ⟨{ s with kfs := onGlobals k' d' }, k', ?_, ?_⟩
      · simp only [step, syswrite, hio, hops, if_true, View.step, hdesc, he, Option.bind_eq_bind, Option.bind_some, hval]
        rfl
      · simp only [View.step, hdesc]
        exact hinv

theorem Inv.seek (hi : Inv R old fs boot s k v) (hfd : InTable fd) (hio : s.iotab tid fd = some io) (pos : Nat) :
    (fsIoctl (s.kfs.fileArray io) .setpos pos).1 = (v.seek tid fd ((k.fileArray io).inode, (k.fileArray io).filePos) pos).1 ∧
      ∃ k', Inv R old fs boot { s with kfs := s.kfs.setFile io (fsIoctl (s.kfs.fileArray io) .setpos pos).2.2 } k'
        (v.seek tid fd ((k.fileArray io).inode, (k.fileArray io).filePos) pos).2 := by
  obtain ⟨k', d', he, hinv⟩ := hi.call hd h hfuel hfd hio (.setpos io pos) rfl trivial
  have hin : (filesOf k).inode io = (k.fileArray io).inode := rfl
  have hpos : (filesOf k).pos io = (k.fileArray io).filePos := rfl
  simp only [KfsStack.call, Option.some.injEq, Prod.mk.injEq] at he
  obtain ⟨hr, hk⟩ := he
  have hr : (fsIoctl (s.kfs.fileArray io) .setpos pos).1 = ((filesOf k).step (.setpos io pos)).1.1 := congrArg Prod.fst hr
  rw [hr, hk]
  simp only [Files.step, hin, ← hi.contents] at hinv ⊢
  rw [View.seek]
  by_cases hlt : (v.contents (k.fileArray io).inode).length < pos
  · simp only [if_pos hlt, hpos, ← hi.contents] at hinv ⊢
    refine ⟨trivial, k', ?_⟩
    have hsame : v.set tid fd (some ((k.fileArray io).inode, (k.fileArray io).filePos)) = v := by
      rw [View.set, ← hi.desc_some hfd hio, Function.update_eq_self, Function.update_eq_self]
    rw [hsame] at hinv
    exact hinv
  · simp only [if_neg hlt, Files.seek, Function.update_self, ← hi.contents] at hinv ⊢
    exact ⟨trivial, k', hinv⟩

theorem Inv.ioctl (hi : Inv R old fs boot s k v) {b : Nat → UInt8} {cmd : Ioctl} {arg : Nat}
    (ha : v.Allowed fs b ⟨tid, mem, .ioctl fd cmd arg⟩) :
    ∃ s' k', step dev fuel s ⟨tid, mem, .ioctl fd cmd arg⟩ =
        some ((v.step fs ⟨tid, mem, .ioctl fd cmd arg⟩).1, s') ∧
      Inv R old fs boot s' k' (v.step fs ⟨tid, mem, .ioctl fd cmd arg⟩).2 := by
  obtain ⟨hfd, hne⟩ := ha
  obtain ⟨io, hio⟩ := hi.iotab_some hfd hne
  have hdesc := hi.desc_some hfd hio
  obtain ⟨hle, hlen, hsize⟩ := hi.size hfd hio
  obtain ⟨d, hkfs, -⟩ := hi.kfs
  have hfile : s.kfs.fileArray io = k.fileArray io := by rw [hkfs]; rfl
  have hops : (s.kfs.fileArray io).ops = true := by rw [hfile]; exact (hi.entry tid fd io hfd hio).2.1
  have hint : ∀ n < 2 ^ 31, Kfs.toInt n = n := fun n hn => by
    rw [Kfs.toInt, BitVec.toInt_eq_toNat_cond, BitVec.toNat_ofNat, Nat.mod_eq_of_lt (by omega), if_pos (by omega)]
  have hsize' := hint _ hsize
  have hpos := hint (k.fileArray io).filePos (by omega)
  have hsame : ({ s with kfs := s.kfs.setFile io (k.fileArray io) } : State σ) = s := by rw [← hfile, setFile_self]
  simp only [step, sysioctl, hio, hops, if_true, View.step, hdesc, Option.bind_eq_bind, Option.bind_some]
  cases cmd with
  | getlen | getpos | flush | getblksz =>
      refine ⟨s, k, ?_, hi⟩
      simp [View.ioctl, fsIoctl, fsGetlen, fsGetpos, fsGetblksz, hfile, hlen, hsize', hpos, hsame]
  | setlen =>
      obtain ⟨hr, k', hinv⟩ := hi.seek hd h hfuel hfd hio (cell mem arg)
      exact ⟨_, k', by rw [if_pos rfl, hr]; rfl, hinv⟩
  | setpos =>
      obtain ⟨hr, k', hinv⟩ := hi.seek hd h hfuel hfd hio arg
      exact ⟨_, k', by rw [if_neg (by decide), hr]; rfl, hinv⟩

end Device

omit σ in
/-- The lowest free descriptor is the one that the loop of sysfsopen finds. -/
theorem target_findFree {iotab : IoTab (Fin 32)} (hdesc : ∀ fd, InTable fd → (v.desc tid fd = none ↔ iotab fd = none)) {x : Int}
    (hfd : ¬ 0 ≤ fd) (ht : v.target tid fd = some x) : (findFree (fun x => processIomax ≤ x) iotab 17 0).2 = some x := by
  rw [View.target, if_neg hfd, List.find?_map] at ht
  obtain ⟨n, hn, rfl⟩ := Option.map_eq_some_iff.mp ht
  obtain ⟨hnone, hmem, hbusy⟩ := List.find?_range_eq_some.mp hn
  have hlt := List.mem_range.mp hmem
  have hin : ∀ m : Nat, m < 16 → InTable (m : Int) := fun m hm => by unfold InTable processIomax; omega
  refine (findFree_lowest 17 (Int.natCast_nonneg n) ((hdesc n (hin n hlt)).mp (by simpa using hnone)) (by omega)
    fun m h₀ hm => ?_).1
  obtain ⟨j, rfl⟩ := Int.eq_ofNat_of_zero_le h₀
  have hj := hbusy j (by omega)
  refine ⟨fun hfree => ?_, by unfold processIomax; simp; omega⟩
  simp [(hdesc j (hin j (by omega))).mpr hfree] at hj

section Open

variable {x : Int} {len i : Nat}

/-- A free entry of fileArray is opened for a descriptor. -/
theorem Inv.place (hi : Inv R old fs boot s k v) (hx : InTable x) (hflags : (k.fileArray io).flags = 0)
    (hkept : Kept old fs boot (opening k io i len))
    (hR : R d' (opening k io i len).device) :
    Inv R old fs boot (({ s with kfs := onGlobals (opening k io i len) d' } : State σ).setEntry tid x (some io))
      (opening k io i len)
      { v.set tid x (some (i, 0)) with used := v.used + 1, last := some (tid, x) } := by
  have harr : (opening k io i len).fileArray =
      Function.update k.fileArray io ⟨true, ((k.fileArray io).refcnt + 1) % 2 ^ 32, 0, len, i, 1⟩ := rfl
  have hnew : ∀ tid' fd' j, InTable fd' → s.iotab tid' fd' = some j → j ≠ io := by
    rintro tid' fd' j hin hj rfl
    exact (hi.entry tid' fd' j hin hj).1 hflags
  refine ⟨⟨d', rfl, hR⟩, hkept, hi.contents, fun tid' fd' hin => ?_, fun tid' fd' j hin hj => ?_,
    fun tid₁ fd₁ tid₂ fd₂ j h₁ h₂ hj₁ hj₂ => ?_, fun j hj => ?_, ?_, fun tid' fd' hlast => ?_, fun hlast => ?_⟩
  · refine (update_entry v.desc tid tid' x fd' _).trans ?_
    rw [setEntry_iotab]
    by_cases heq : tid' = tid ∧ fd' = x
    · rw [if_pos heq, if_pos heq, Option.map_some, harr, Function.update_self]
    · rw [if_neg heq, if_neg heq, hi.desc tid' fd' hin]
      cases hj : s.iotab tid' fd' with
      | none => rfl
      | some j => rw [Option.map_some, Option.map_some, harr, Function.update_of_ne (hnew tid' fd' j hin hj)]
  · rw [setEntry_iotab] at hj
    split at hj
    · obtain rfl := Option.some.inj hj
      rw [harr, Function.update_self, hi.free io hflags]
      exact ⟨Nat.one_ne_zero, rfl, rfl⟩
    · rw [harr, Function.update_of_ne (hnew tid' fd' j hin hj)]
      exact hi.entry tid' fd' j hin hj
  · rw [setEntry_iotab] at hj₁ hj₂
    split at hj₁
    · rename_i he₁
      split at hj₂
      · rename_i he₂
        exact ⟨he₁.1.trans he₂.1.symm, he₁.2.trans he₂.2.symm⟩
      · exact absurd (Option.some.inj hj₁).symm (hnew tid₂ fd₂ j h₂ hj₂)
    · split at hj₂
      · exact absurd (Option.some.inj hj₂).symm (hnew tid₁ fd₁ j h₁ hj₁)
      · exact hi.distinct tid₁ fd₁ tid₂ fd₂ j h₁ h₂ hj₁ hj₂
  · rw [harr] at hj ⊢
    by_cases hjo : j = io
    · rw [hjo, Function.update_self] at hj
      exact absurd hj Nat.one_ne_zero
    · rw [Function.update_of_ne hjo] at hj ⊢
      exact hi.free j hj
  · have hins : (Finset.univ.filter fun j => ((opening k io i len).fileArray j).flags ≠ 0) =
        insert io (Finset.univ.filter fun j => (k.fileArray j).flags ≠ 0) := by
      ext j
      by_cases hjo : j = io
      · simp [harr, hjo]
      · simp [harr, hjo]
    rw [hins, Finset.card_insert_of_notMem (by simp [hflags]), ← hi.used]
  · obtain ⟨rfl, rfl⟩ := Prod.mk.inj (Option.some.inj hlast)
    refine ⟨hx, ?_⟩
    rw [setEntry_iotab, if_pos ⟨rfl, rfl⟩]
    rfl
  · cases hlast

/-- The end of ioclose on an entry with one reference, when the file opened last is this one or
is closed already. -/
theorem ioclose_fields {k : Globals σ} (hr : (k.fileArray io).refcnt = 1)
    (hlast : k.intSpot = io ∨ (k.fileArray k.intSpot).flags = 0) :
    ioclose k io = k.setFile io { k.fileArray io with
      ops := false, refcnt := 0, flags := if k.intSpot = io then 0 else (k.fileArray io).flags } := by
  by_cases heq : k.intSpot = io
  · subst heq
    simp [ioclose, Globals.setFile, hr, fsClose]
  · have hzero := hlast.resolve_left heq
    have hsame : { k.fileArray k.intSpot with flags := 0 } = k.fileArray k.intSpot := by rw [← hzero]
    simpa [ioclose, Globals.setFile, hr, fsClose, heq] using hsame

/-- The entry of a closed file. -/
def closing (k : Globals σ) (io : Fin 32) : Globals σ :=
  k.setFile io { k.fileArray io with
    ops := false, refcnt := 0, flags := if k.intSpot = io then 0 else (k.fileArray io).flags }

theorem Inv.shut (hi : Inv R old fs boot s k v) (hfd : InTable fd) (hio : s.iotab tid fd = some io)
    (hlast : v.last = none ∨ v.last = some (tid, fd)) :
    Inv R old fs boot (({ s with kfs := ioclose s.kfs io } : State σ).setEntry tid fd none) (closing k io) (v.closed tid fd) := by
  obtain ⟨d, hkfs, hR⟩ := hi.kfs
  obtain ⟨hflags, -, hrefcnt⟩ := hi.entry tid fd io hfd hio
  have hspot : v.last = some (tid, fd) → k.intSpot = io := fun he =>
    (Option.some.inj (hio.symm.trans (hi.last tid fd he).2)).symm
  have hother : v.last = none → k.intSpot ≠ io := fun he heq => hflags (heq ▸ hi.closed he)
  have hclose : ioclose s.kfs io = onGlobals (closing k io) d := by
    rw [hkfs]
    exact ioclose_fields hrefcnt (hlast.elim (fun he => .inr (hi.closed he)) fun he => .inl (hspot he))
  have harr : (closing k io).fileArray = Function.update k.fileArray io { k.fileArray io with
      ops := false, refcnt := 0, flags := if k.intSpot = io then 0 else (k.fileArray io).flags } := rfl
  have hnew : ∀ tid' fd' j, InTable fd' → ¬ (tid' = tid ∧ fd' = fd) → s.iotab tid' fd' = some j → j ≠ io := by
    rintro tid' fd' j hin hne hj rfl
    exact hne (hi.distinct tid' fd' tid fd j hin hfd hj hio)
  have hentry : ∀ tid' fd' j, (({ s with kfs := ioclose s.kfs io } : State σ).setEntry tid fd none).iotab tid' fd' = some j →
      ¬ (tid' = tid ∧ fd' = fd) ∧ s.iotab tid' fd' = some j := by
    intro tid' fd' j hj
    rw [setEntry_iotab] at hj
    split at hj
    · cases hj
    · exact ⟨‹_›, hj⟩
  refine ⟨⟨d, hclose, hR⟩, ⟨⟨hi.kept.image, hi.kept.lock, fun j hj => ?_⟩, hi.kept.boot, hi.kept.unchanged⟩, ?_,
    fun tid' fd' hin => ?_, fun tid' fd' j hin hj => ?_, fun tid₁ fd₁ tid₂ fd₂ j h₁ h₂ hj₁ hj₂ => ?_, fun j hj => ?_, ?_,
    fun tid' fd' hl => ?_, fun _ => ?_⟩
  · have hj : ((closing k io).fileArray j).flags ≠ 0 := hj
    rw [harr] at hj ⊢
    by_cases hjo : j = io
    · subst hjo
      obtain ⟨-, hlt, hsize, hle⟩ := hi.kept.opened j hflags
      rw [Function.update_self]
      exact ⟨rfl, hlt, hsize, hle⟩
    · rw [Function.update_of_ne hjo] at hj ⊢
      exact hi.kept.opened j hj
  · exact hi.contents
  · refine (update_entry v.desc tid tid' fd fd' _).trans ?_
    rw [setEntry_iotab]
    by_cases heq : tid' = tid ∧ fd' = fd
    · rw [if_pos heq, if_pos heq, Option.map_none]
    · rw [if_neg heq, if_neg heq, hi.desc tid' fd' hin]
      cases hj : s.iotab tid' fd' with
      | none => rfl
      | some j => rw [Option.map_some, Option.map_some, harr, Function.update_of_ne (hnew tid' fd' j hin heq hj)]
  · obtain ⟨hne, hj⟩ := hentry tid' fd' j hj
    rw [harr, Function.update_of_ne (hnew tid' fd' j hin hne hj)]
    exact hi.entry tid' fd' j hin hj
  · exact hi.distinct tid₁ fd₁ tid₂ fd₂ j h₁ h₂ (hentry tid₁ fd₁ j hj₁).2 (hentry tid₂ fd₂ j hj₂).2
  · rw [harr] at hj ⊢
    by_cases hjo : j = io
    · rw [hjo, Function.update_self]
    · rw [Function.update_of_ne hjo] at hj ⊢
      exact hi.free j hj
  · rcases hlast with hnone | hsome
    · have hsame : (Finset.univ.filter fun j => ((closing k io).fileArray j).flags ≠ 0) =
          Finset.univ.filter fun j => (k.fileArray j).flags ≠ 0 := by
        refine Finset.filter_congr fun j _ => ?_
        by_cases hjo : j = io
        · rw [hjo, harr, Function.update_self, if_neg (hother hnone)]
        · rw [harr, Function.update_of_ne hjo]
      rw [hsame, View.closed, if_pos hnone]
      exact hi.used
    · have herase : (Finset.univ.filter fun j => ((closing k io).fileArray j).flags ≠ 0) =
          (Finset.univ.filter fun j => (k.fileArray j).flags ≠ 0).erase io := by
        ext j
        by_cases hjo : j = io
        · simp [harr, hjo, hspot hsome]
        · simp [harr, hjo]
      rw [herase, Finset.card_erase_of_mem (by simp [hflags]), ← hi.used, View.closed, if_neg (by rw [hsome]; simp)]
  · cases hl
  · have hsame : (closing k io).intSpot = k.intSpot := rfl
    rw [hsame, harr]
    rcases hlast with hnone | hsome
    · rw [Function.update_of_ne (hother hnone)]
      exact hi.closed hnone
    · rw [hspot hsome, Function.update_self, if_pos rfl]

theorem Inv.close (dev : Nat → IoOps σ) (fuel : Nat) (hi : Inv R old fs boot s k v) {mem b : Nat → UInt8}
    (ha : v.Allowed fs b ⟨tid, mem, .close fd⟩) :
    ∃ s' k', step dev fuel s ⟨tid, mem, .close fd⟩ = some ((v.step fs ⟨tid, mem, .close fd⟩).1, s') ∧
      Inv R old fs boot s' k' (v.step fs ⟨tid, mem, .close fd⟩).2 := by
  obtain ⟨hfd, hne, hlast⟩ := ha
  obtain ⟨io, hio⟩ := hi.iotab_some hfd hne
  obtain ⟨d, hkfs, -⟩ := hi.kfs
  have hops : (s.kfs.fileArray io).ops = true := by rw [hkfs]; exact (hi.entry tid fd io hfd hio).2.1
  refine ⟨_, closing k io, ?_, hi.shut hfd hio hlast⟩
  simp only [step, sysclose, hio, hops, if_true, View.step, Option.bind_eq_bind, Option.bind_some]
  rfl

theorem Inv.fsopen {dev : Nat → IoOps σ} (hd : ∀ tid, Shows (dev tid) R) (h : ValidInputs fs) (fuel : Nat)
    (hi : Inv R old fs boot s k v) {mem : Nat → UInt8} {loc : OpenLocals} {name : List UInt8}
    (ha : v.Allowed fs (mounted boot (RoundTrip.image old fs)) ⟨tid, mem, .fsopen loc fd name⟩) :
    ∃ s' k', step dev fuel s ⟨tid, mem, .fsopen loc fd name⟩ =
        some ((v.step fs ⟨tid, mem, .fsopen loc fd name⟩).1, s') ∧
      Inv R old fs boot s' k' (v.step fs ⟨tid, mem, .fsopen loc fd name⟩).2 := by
  obtain ⟨hloc, hused, hname, x, ht, hx⟩ := ha
  obtain ⟨d, hkfs, hR⟩ := hi.kfs
  have hcode : sysfsopen (dev tid) s tid loc fd name = openAt (dev tid) s tid loc x name := by
    rw [sysfsopen]
    by_cases hfd : 0 ≤ fd
    · obtain rfl : fd = x := by simpa [View.target, hfd] using ht
      rw [if_pos hfd]
    · rw [if_neg hfd, target_findFree (fun fd' hin => ?_) hfd ht]
      rw [hi.desc tid fd' hin, Option.map_eq_none_iff]
  simp only [step, hcode, openAt, View.step, View.opened, ht]
  cases hno : fileNo fs name with
  | none =>
      have hfind : findDentry s.kfs.boot name = none := by
        rw [hkfs]
        exact (congrArg (findDentry · name) hi.kept.boot).trans (hname hno)
      have hopen : fsOpen (dev tid) loc s.kfs name = some (-einval, none, s.kfs) := by
        rw [fsOpen, hfind]
        rfl
      exact ⟨s, k, by rw [hopen]; rfl, hi⟩
  | some i =>
      obtain ⟨j, hj, rfl⟩ := fileNo_some (by rw [hno]; exact Option.some_ne_none i)
      obtain rfl := Option.some.inj ((fileNo_shortname h hj).symm.trans hno)
      obtain ⟨y, hy⟩ : ∃ y, (k.fileArray y).flags = 0 := by
        by_contra hall
        have hfull : (Finset.univ.filter fun io => (k.fileArray io).flags ≠ 0) = Finset.univ :=
          Finset.filter_true_of_mem fun io _ he => hall ⟨io, he⟩
        rw [hi.used, hfull, Finset.card_univ, Fintype.card_fin] at hused
        exact Nat.lt_irrefl 32 hused
      obtain ⟨io, hspot⟩ := KfsSlots.findSlot_isSome hy
      obtain ⟨d', he, hR'⟩ := fsOpen_kept (hd tid) h hi.kept hj hspot hloc hR
      refine ⟨_, _, ?_, hi.place hx (KfsSlots.findSlot_free hspot) (hi.kept.opening h hj) hR'⟩
      rw [hkfs, he]
      rfl

end Open

section Run

variable {dev : Nat → IoOps σ} {fuel : Nat} (hd : ∀ tid, Shows (dev tid) R) (h : ValidInputs fs) (hfuel : 1023 * 4096 < fuel)
include hd h hfuel

theorem Inv.step (hi : Inv R old fs boot s k v) {ev : Event} (ha : v.Allowed fs (mounted boot (RoundTrip.image old fs)) ev) :
    ∃ s' k', step dev fuel s ev = some ((v.step fs ev).1, s') ∧ Inv R old fs boot s' k' (v.step fs ev).2 := by
  obtain ⟨tid, mem, c⟩ := ev
  cases c with
  | fsopen loc fd name => exact hi.fsopen hd h fuel ha
  | close fd => exact hi.close dev fuel ha
  | read loc fd buf bufsz => exact hi.read hd h hfuel ha
  | write loc fd buf len => exact hi.write hd h hfuel ha
  | ioctl fd cmd arg => exact hi.ioctl hd h hfuel ha

theorem Inv.run (hi : Inv R old fs boot s k v) {evs : List Event}
    (ha : v.Along fs (mounted boot (RoundTrip.image old fs)) evs) :
    ∃ s' k', run dev fuel s evs = some ((v.run fs evs).1, s') ∧ Inv R old fs boot s' k' (v.run fs evs).2 := by
  induction evs generalizing s k v with
  | nil => exact ⟨s, k, rfl, hi⟩
  | cons ev evs ih =>
      obtain ⟨s₁, k₁, he₁, hi₁⟩ := hi.step hd h hfuel ha.1
      obtain ⟨s₂, k₂, he₂, hi₂⟩ := ih hi₁ ha.2
      refine ⟨s₂, k₂, ?_, hi₂⟩
      rw [FileCalls.run, he₁]
      simp only [Option.bind_eq_bind, Option.bind_some, he₂]
      rfl

end Run

end Kept

section TwoThreads

/-- Thread 1 reads through its lowest descriptor what thread 2 wrote through descriptor 3. -/
def twoThreads : List Event :=
  [⟨1, fun _ => 0, .fsopen ⟨none, 0⟩ (-1) [98]⟩, ⟨2, fun _ => 9, .fsopen ⟨none, 0⟩ 3 [98]⟩,
    ⟨2, fun _ => 9, .write (fun _ => ⟨0, 0, 0⟩) 3 100 5⟩, ⟨1, fun _ => 0, .read ⟨0, 0, 0⟩ 0 200 5⟩, ⟨2, fun _ => 9, .close 3⟩,
    ⟨1, fun _ => 0, .ioctl 0 .getpos 0⟩, ⟨1, fun _ => 0, .close 0⟩, ⟨1, fun _ => 0, .read ⟨0, 0, 0⟩ 0 200 5⟩]

end TwoThreads

end RiscvKernel.FileCalls
