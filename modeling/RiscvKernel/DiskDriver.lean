import RiscvKernel.DriverView
import RiscvKernel.Vioblk
import RiscvKernel.Kfs

namespace RiscvKernel.DiskDriver

open Thread Scheduler StepFrame DriverView Io Lib.Bytes Vioblk

/-- The conditions used_updated and those of vio_lock and kfs_lock. -/
def usedUpdated : Nat := 0
def vioLockCond : Nat := 1
def kfsLockCond : Nat := 2

/-- idx counters of a virtqueue are of type uint16_t. -/
def idxMod : Nat := 65536

/-- The functions of vioblk.c that take vio_lock, with their arguments. -/
inductive VioFn
  | read (bufsz : Nat)
  | write (buf : List UInt8)
  | setpos (pos : Option Nat)

/-- The part of a block that one round of the loops reads or writes. -/
structure Part where
  sector : Nat
  sectorOffset : Nat
  len : Nat

/-- What a request is for. -/
inductive Request
  | read (bufsz total : Nat) (part : Part) (out : List UInt8)
  | fetch (buf : List UInt8) (total : Nat) (part : Part)
  | write (buf : List UInt8) (total : Nat) (part : Part)

/-- The places in vioblk_read, vioblk_write and vioblk_setpos between which something else
can happen. -/
inductive VioStep
  | acquire (f : VioFn)
  | woken (f : VioFn)
  | start (f : VioFn)
  | readLoop (bufsz total : Nat) (out : List UInt8)
  | writeLoop (buf : List UInt8) (total : Nat)
  | writeFill (buf : List UInt8) (total : Nat) (part : Part)
  | submit (r : Request)
  | notify (r : Request)
  | waitDisable (r : Request)
  | waitTest (r : Request) (saved : Bool)
  | waitRestore (r : Request) (saved : Bool)
  | status (r : Request)
  | finish (r : Request)
  | release (ret : Int) (out : List UInt8)
  | return (ret : Int) (out : List UInt8)

/-- fs_read, or fs_write from a buffer. -/
inductive FsFn
  | read
  | write (src : Nat → UInt8)

/-- The arguments and the local variables of fs_read and fs_write. -/
structure FsVars where
  fn : FsFn
  io : Fin 32
  n : Nat
  numInodes : Nat
  lengthB : Nat
  blockSpot : Nat
  filePos : Nat
  count : Nat

/-- The places in fs_read and fs_write, each before or behind a call to the device. -/
inductive FsStep
  | acquire (v : FsVars)
  | woken (v : FsVars)
  | seekBoot (v : FsVars)
  | readInodes (v : FsVars)
  | seekInode (v : FsVars)
  | sought (v : FsVars)
  | length (v : FsVars)
  | loop (v : FsVars)
  | readSpot (v : FsVars)
  | seekData (v : FsVars)
  | transfer (v : FsVars)
  | put (v : FsVars) (acc : Nat)
  | putDone (v : FsVars) (acc : Nat)
  | moved (v : FsVars)
  | update (v : FsVars) (leftAfter : Int)
  | release (ret : Int)
  | return (ret : Int)

inductive DiskCall
  | vioblkRead (bufsz : Nat)
  | vioblkWrite (buf : List UInt8)
  | vioblkSetpos (pos : Option Nat)
  | fsRead (io : Fin 32) (n : Nat) (locals : Kfs.Locals)
  | fsWrite (io : Fin 32) (src : Nat → UInt8) (n : Nat) (locals : Kfs.Locals)
  | vio (s : VioStep) (back : Option FsStep)
  | fs (s : FsStep)
  | leave

/-- struct vioblk_device, the registers and the progress of the device behind it, the two
locks and the open files. ret and data hold what a function returned to each thread;
inside, vioHeld and kfsHeld say which threads are inside a function and which have taken a
lock and not given it back. -/
structure Disk where
  opened : Bool
  readonly : Bool
  blksz : Nat
  pos : Nat
  size : Nat
  blkbuf : Nat → UInt8
  reqHeader : ReqHeader
  reqStatus : UInt8
  availIdx : Nat
  usedIdx : Nat
  lastAvail : Nat
  busy : Bool
  interruptStatus : BitVec 32
  vioLock : Int
  kfsLock : Int
  fileArray : Fin 32 → Kfs.FileDesc
  ret : Ptr → Int
  data : Ptr → List UInt8
  inside : List Ptr
  vioHeld : Ptr → Bool
  kfsHeld : Ptr → Bool

namespace Disk

/-- What the block at pos has of a request of which rest bytes are left. -/
def part (d : Disk) (rest : Nat) : Part where
  sector := d.pos / d.blksz
  sectorOffset := d.pos % d.blksz
  len := if d.blksz - d.pos % d.blksz < rest then d.blksz - d.pos % d.blksz else rest

/-- Fill in the request header and the descriptors. -/
def prepare (d : Disk) (type : ReqType) (sector : Nat) : Disk := { d with reqHeader := ⟨type, sector⟩ }

def takeVio (d : Disk) (ctx : Ctx) : Disk :=
  { d with vioLock := ctx.tid, vioHeld := Function.update d.vioHeld ctx.tp true }

def takeKfs (d : Disk) (ctx : Ctx) : Disk :=
  { d with kfsLock := ctx.tid, kfsHeld := Function.update d.kfsHeld ctx.tp true }

def returns (d : Disk) (tp : Ptr) (ret : Int) (out : List UInt8) : Disk :=
  { d with ret := Function.update d.ret tp ret, data := Function.update d.data tp out }

end Disk

/-- What a step does: the calls it makes into thread.c, and where it goes on. -/
structure Step (α : Type) where
  dev : Disk
  sie : Bool
  calls : List (Call DiskCall)
  next : α

/-- One step inside a function of vioblk.c; none: it has returned. -/
def vioStep (ctx : Ctx) (d : Disk) : VioStep → Step (Option VioStep)
  | .acquire f =>
      if d.vioLock = -1 then ⟨d.takeVio ctx, ctx.sie, [], some (.start f)⟩
      else ⟨d, ctx.sie, [.conditionWait vioLockCond], some (.woken f)⟩
  | .woken f => ⟨d.takeVio ctx, ctx.sie, [], some (.start f)⟩
  | .start (.read bufsz) =>
      ⟨d, ctx.sie, [], some (if bufsz = 0 then .return 0 [] else if d.opened then .readLoop bufsz 0 [] else .return (-1) [])⟩
  | .start (.write buf) =>
      ⟨d, ctx.sie, [], some (if !d.opened then .return (-1) [] else if d.readonly then .return (-enotsup) []
        else if buf.isEmpty then .return 0 [] else .writeLoop buf 0)⟩
  | .start (.setpos pos) =>
      match pos with
      | some pos =>
          if d.size < pos then ⟨d, ctx.sie, [], some (.return (-einval) [])⟩
          else ⟨{ d with pos }, ctx.sie, [], some (.release 0 [])⟩
      | none => ⟨d, ctx.sie, [], some (.return (-einval) [])⟩
  | .readLoop bufsz total out =>
      if total < bufsz ∧ d.pos < d.size then
        let part := d.part (bufsz - total)
        ⟨d.prepare .tIn part.sector, ctx.sie, [], some (.submit (.read bufsz total part out))⟩
      else ⟨d, ctx.sie, [], some (.release total out)⟩
  | .writeLoop buf total =>
      if total < buf.length ∧ d.pos < d.size then
        let part := d.part (buf.length - total)
        if part.sectorOffset ≠ 0 ∨ part.len ≠ d.blksz then
          ⟨d.prepare .tIn part.sector, ctx.sie, [], some (.submit (.fetch buf total part))⟩
        else ⟨d, ctx.sie, [], some (.writeFill buf total part)⟩
      else ⟨d, ctx.sie, [], some (.release total [])⟩
  | .writeFill buf total part =>
      ⟨{ d with blkbuf := writeAt d.blkbuf part.sectorOffset ((buf.drop total).take part.len) }.prepare .tOut part.sector,
        ctx.sie, [], some (.submit (.write buf total part))⟩
  | .submit r => ⟨{ d with availIdx := (d.availIdx + 1) % idxMod }, ctx.sie, [], some (.notify r)⟩
  | .notify r => ⟨d, ctx.sie, [], some (.waitDisable r)⟩
  | .waitDisable r => ⟨d, false, [], some (.waitTest r ctx.sie)⟩
  | .waitTest r saved =>
      if d.availIdx ≠ d.usedIdx then ⟨d, ctx.sie, [.conditionWait usedUpdated], some (.waitTest r saved)⟩
      else ⟨d, ctx.sie, [], some (.waitRestore r saved)⟩
  | .waitRestore r saved => ⟨d, saved, [], some (.status r)⟩
  | .status r => ⟨d, ctx.sie, [], some (if d.reqStatus = virtioBlkSOk then .finish r else .return (-eio) [])⟩
  | .finish (.read bufsz total part out) =>
      ⟨{ d with pos := d.pos + part.len }, ctx.sie, [],
        some (.readLoop bufsz (total + part.len) (out ++ readAt d.blkbuf part.sectorOffset part.len))⟩
  | .finish (.fetch buf total part) => ⟨d, ctx.sie, [], some (.writeFill buf total part)⟩
  | .finish (.write buf total part) =>
      ⟨{ d with pos := d.pos + part.len }, ctx.sie, [], some (.writeLoop buf (total + part.len))⟩
  | .release ret out =>
      ⟨{ d with vioLock := -1, vioHeld := Function.update d.vioHeld ctx.tp false }, ctx.sie, [.conditionBroadcast vioLockCond],
        some (.return ret out)⟩
  | .return ret out => ⟨d.returns ctx.tp ret out, ctx.sie, [], none⟩

/-- Where fs_read and fs_write go on: at another place, in a call to the device, or at
their end. -/
inductive FsNext
  | go (s : FsStep)
  | call (f : VioFn) (back : FsStep)
  | done

/-- How much the current round of the loop moves. -/
def FsVars.want (v : FsVars) : Nat := if 4096 - v.filePos % 4096 ≤ v.n then 4096 - v.filePos % 4096 else v.n

def fsStep (ctx : Ctx) (d : Disk) : FsStep → Step FsNext
  | .acquire v =>
      if d.kfsLock = -1 then ⟨d.takeKfs ctx, ctx.sie, [], .go (.seekBoot v)⟩
      else ⟨d, ctx.sie, [.conditionWait kfsLockCond], .go (.woken v)⟩
  | .woken v => ⟨d.takeKfs ctx, ctx.sie, [], .go (.seekBoot v)⟩
  | .seekBoot v => ⟨d, ctx.sie, [], .call (.setpos (some 4)) (.readInodes v)⟩
  | .readInodes v => ⟨d, ctx.sie, [], .call (.read 4) (.seekInode v)⟩
  | .seekInode v =>
      ⟨d, ctx.sie, [], .call (.setpos (some ((4096 + (d.fileArray v.io).inode * 4096) % 2 ^ 64)))
        (.sought { v with numInodes := Kfs.overlay v.numInodes (d.data ctx.tp) })⟩
  | .sought v =>
      ⟨d, ctx.sie, [], if d.ret ctx.tp ≠ 0 then .go (.return (-ebadfmt)) else .call (.read 4) (.length v)⟩
  | .length v =>
      let lengthB := Kfs.overlay v.lengthB (d.data ctx.tp)
      let filePos := (d.fileArray v.io).filePos
      let n := if (filePos + v.n) % 2 ^ 64 > lengthB then (lengthB + (2 ^ 64 - filePos)) % 2 ^ 64 else v.n
      ⟨d, ctx.sie, [], .go (.loop { v with lengthB, filePos, n, count := 0 })⟩
  | .loop v =>
      ⟨d, ctx.sie, [], if v.n > 0 then
          .call (.setpos (some (Kfs.blockNumOff (d.fileArray v.io).inode (Kfs.toInt (v.filePos / 4096))))) (.readSpot v)
        else .go (.release (BitVec.ofNat 64 v.count).toInt)⟩
  | .readSpot v => ⟨d, ctx.sie, [], .call (.read 4) (.seekData v)⟩
  | .seekData v =>
      let blockSpot := Kfs.overlay v.blockSpot (d.data ctx.tp)
      ⟨d, ctx.sie, [], .call
        (.setpos (some (((4096 + 4096 * v.numInodes) % 2 ^ 32 + 4096 * blockSpot + v.filePos % 4096) % 2 ^ 64)))
        (.transfer { v with blockSpot })⟩
  | .transfer v =>
      match v.fn with
      | .read => ⟨d, ctx.sie, [], .call (.read v.want) (.moved v)⟩
      | .write _ => ⟨d, ctx.sie, [], .go (.put v 0)⟩
  | .put v acc =>
      match v.fn with
      | .read => ⟨d, ctx.sie, [], .go (.update v acc)⟩
      | .write src =>
          ⟨d, ctx.sie, [], if acc < v.want then .call (.write (readAt src (v.count + acc) (v.want - acc))) (.putDone v acc)
            else .go (.update v acc)⟩
  | .putDone v acc =>
      ⟨d, ctx.sie, [], .go (if d.ret ctx.tp < 0 then .update v (d.ret ctx.tp) else if d.ret ctx.tp = 0 then .update v acc
        else .put v (acc + (d.ret ctx.tp).toNat))⟩
  | .moved v => ⟨d, ctx.sie, [], .go (.update v (d.ret ctx.tp))⟩
  | .update v leftAfter =>
      let moved := (leftAfter % 2 ^ 64).toNat
      let filePos := (v.filePos + moved) % 2 ^ 64
      ⟨{ d with fileArray := Function.update d.fileArray v.io (Kfs.fsIoctl (d.fileArray v.io) .setpos filePos).2.2 },
        ctx.sie, [], .go (.loop { v with
          filePos, n := (v.n + (2 ^ 64 - moved)) % 2 ^ 64, count := (v.count + moved) % 2 ^ 64 })⟩
  | .release ret =>
      ⟨{ d with kfsLock := -1, kfsHeld := Function.update d.kfsHeld ctx.tp false }, ctx.sie, [.conditionBroadcast kfsLockCond],
        .go (.return ret)⟩
  | .return ret => ⟨d.returns ctx.tp ret [], ctx.sie, [], .done⟩

def fsVars (fn : FsFn) (io : Fin 32) (n : Nat) (locals : Kfs.Locals) : FsVars where
  fn
  io
  n
  numInodes := locals.numInodes.toNat
  lengthB := locals.lengthB.toNat
  blockSpot := locals.blockSpot.toNat
  filePos := 0
  count := 0

/-- The first step of a call. -/
def enter (ctx : Ctx) (d : Disk) (first : DiskCall) : Step DiskCall :=
  ⟨{ d with inside := ctx.tp :: d.inside }, ctx.sie, [], first⟩

/-- A function of vioblk.c goes on, or returns to the function of kfs.c that called it. -/
def goOn : Option VioStep → Option FsStep → DiskCall
  | some s, back => .vio s back
  | none, some f => .fs f
  | none, none => .leave

def goOnFs : FsNext → DiskCall
  | .go s => .fs s
  | .call f back => .vio (.acquire f) (some back)
  | .done => .leave

def callStep (ctx : Ctx) (d : Disk) : DiskCall → Step DiskCall
  | .vioblkRead bufsz => enter ctx d (.vio (.acquire (.read bufsz)) none)
  | .vioblkWrite buf => enter ctx d (.vio (.acquire (.write buf)) none)
  | .vioblkSetpos pos => enter ctx d (.vio (.acquire (.setpos pos)) none)
  | .fsRead io n locals => enter ctx d (.fs (.acquire (fsVars .read io n locals)))
  | .fsWrite io src n locals => enter ctx d (.fs (.acquire (fsVars (.write src) io n locals)))
  | .vio s back =>
      let r := vioStep ctx d s
      ⟨r.dev, r.sie, r.calls, goOn r.next back⟩
  | .fs s =>
      let r := fsStep ctx d s
      ⟨r.dev, r.sie, r.calls, goOnFs r.next⟩
  | .leave => ⟨d, ctx.sie, [], .leave⟩

def diskExec : DiskCall → Ctx → Disk → Effect Disk DiskCall
  | .leave, ctx, d => ⟨{ d with inside := d.inside.erase ctx.tp }, ctx.sie, ctx.satp, []⟩
  | i, ctx, d =>
      let r := callStep ctx d i
      ⟨r.dev, r.sie, ctx.satp, r.calls ++ [.dev r.next]⟩

/-- What the device does by itself. -/
inductive Device
  | take
  | complete (status : UInt8) (data : Nat → UInt8)
  | config

/-- The device takes an available request; it completes the one it has taken: it writes
data and status, increments used.idx and raises its interrupt; or its configuration
changes, which raises another interrupt. -/
def device : Device → Disk → Disk
  | .take, d =>
      if !d.busy ∧ d.lastAvail ≠ d.availIdx then { d with busy := true, lastAvail := (d.lastAvail + 1) % idxMod } else d
  | .complete status data, d =>
      if d.busy then
        { d with
          busy := false, reqStatus := status, usedIdx := (d.usedIdx + 1) % idxMod
          blkbuf := if d.reqHeader.type = .tIn then fun i => if i < d.blksz then data i else d.blkbuf i else d.blkbuf
          interruptStatus := d.interruptStatus ||| 1 }
      else d
  | .config, d => { d with interruptStatus := d.interruptStatus ||| 2 }

/-- vioblk_isr reads interrupt_status and acknowledges all it has read. -/
def vioblkIsr (d : Disk) : Disk × List Nat :=
  ({ d with interruptStatus := d.interruptStatus &&& ~~~d.interruptStatus },
    if d.interruptStatus &&& 1 ≠ 0 then [usedUpdated] else [])

/-- Threads that read and write files and the disk; when alone is set, one at a time. -/
def disk (alone : Bool) : Client Disk DiskCall Device where
  exec := diskExec
  entry
    | .vioblkRead _, _, d | .vioblkWrite _, _, d | .vioblkSetpos _, _, d | .fsRead _ _ _, _, d | .fsWrite _ _ _ _, _, d =>
        !alone || d.inside.isEmpty
    | _, _, _ => false
  ownCond n := n = usedUpdated ∨ n = vioLockCond ∨ n = kfsLockCond
  isr _ d := vioblkIsr d
  env := device
  mtag _ _ := 0

/-- A call at its first step. -/
def starts : DiskCall → Bool
  | .vioblkRead _ | .vioblkWrite _ | .vioblkSetpos _ | .fsRead _ _ _ | .fsWrite _ _ _ _ => true
  | _ => false

/-- After vioblk_attach and vioblk_open on a device of the given size. -/
def attached (size : Nat) (fileArray : Fin 32 → Kfs.FileDesc) : Disk where
  opened := true
  readonly := false
  blksz := 512
  pos := 0
  size
  blkbuf := fun _ => 0
  reqHeader := ⟨.tIn, 0⟩
  reqStatus := 0
  availIdx := 0
  usedIdx := 0
  lastAvail := 0
  busy := false
  interruptStatus := 0
  vioLock := -1
  kfsLock := -1
  fileArray
  ret := fun _ => 0
  data := fun _ => []
  inside := []
  vioHeld := fun _ => false
  kfsHeld := fun _ => false

def diskDiscipline : Discipline DiskCall where
  need
    | .vio (.waitTest _ _) _, b => b = false
    | _, _ => True
  out
    | .vio (.waitTest _ saved) _, _ | .vio (.waitRestore _ saved) _, _ => saved
    | _, b => b
  guarded n := n = usedUpdated

/-- The steps behind a call of condition_wait or condition_broadcast. -/
def rests : DiskCall → Prop
  | .vio (.woken _) _ | .vio (.waitTest _ _) _ | .vio (.return _ _) _ | .fs (.woken _) | .fs (.return _) => True
  | _ => False

section Rules

variable (ctx : Ctx) (d : Disk)

/-- What a step does with SIE and which calls it makes into thread.c. -/
structure Sound (i : DiskCall) (b : Bool) (next : DiskCall) (sie : Bool) : Prop where
  need : diskDiscipline.need next sie
  out : diskDiscipline.out next sie = diskDiscipline.out i b

inductive Calls (d : Disk) (i : DiskCall) (b : Bool) (next : DiskCall) (sie : Bool) : List (Call DiskCall) → Prop
  | none (sound : diskDiscipline.need i b → Sound i b next sie) : Calls d i b next sie []
  | wait (n : Nat) (tested : n = usedUpdated → d.availIdx ≠ d.usedIdx)
      (guard : diskDiscipline.need i b → n = usedUpdated → sie = false) (next_rests : rests next)
      (sound : diskDiscipline.need i b → Sound i b next sie) : Calls d i b next sie [.conditionWait n]
  | broadcast (n : Nat) (other : n ≠ usedUpdated) (next_rests : rests next)
      (sound : diskDiscipline.need i b → Sound i b next sie) : Calls d i b next sie [.conditionBroadcast n]

theorem vioStep_calls (s : VioStep) (back : Option FsStep) :
    Calls d (.vio s back) ctx.sie (goOn (vioStep ctx d s).next back) (vioStep ctx d s).sie (vioStep ctx d s).calls := by
  cases s with
  | acquire f =>
      simp only [vioStep]
      split
      · exact .none fun _ => ⟨trivial, rfl⟩
      · exact .wait _ (fun h => absurd h (by decide)) (fun _ h => absurd h (by decide)) trivial fun _ => ⟨trivial, rfl⟩
  | start f =>
      cases f with
      | read bufsz =>
          simp only [vioStep]
          split
          · exact .none fun _ => ⟨trivial, rfl⟩
          · split <;> exact .none fun _ => ⟨trivial, rfl⟩
      | write buf =>
          simp only [vioStep]
          split
          · exact .none fun _ => ⟨trivial, rfl⟩
          · split
            · exact .none fun _ => ⟨trivial, rfl⟩
            · split <;> exact .none fun _ => ⟨trivial, rfl⟩
      | setpos pos =>
          cases pos with
          | none => exact .none fun _ => ⟨trivial, rfl⟩
          | some pos =>
              simp only [vioStep]
              split <;> exact .none fun _ => ⟨trivial, rfl⟩
  | readLoop bufsz total out =>
      simp only [vioStep]
      split <;> exact .none fun _ => ⟨trivial, rfl⟩
  | writeLoop buf total =>
      simp only [vioStep]
      split
      · split <;> exact .none fun _ => ⟨trivial, rfl⟩
      · exact .none fun _ => ⟨trivial, rfl⟩
  | waitDisable r => exact .none fun _ => ⟨rfl, rfl⟩
  | waitTest r saved =>
      simp only [vioStep]
      split
      · exact .wait _ (fun _ => ‹_›) (fun hneed _ => hneed) trivial fun hneed => ⟨hneed, rfl⟩
      · exact .none fun _ => ⟨trivial, rfl⟩
  | status r =>
      simp only [vioStep]
      split <;> exact .none fun _ => ⟨trivial, rfl⟩
  | finish r => cases r <;> exact .none fun _ => ⟨trivial, rfl⟩
  | release ret out => exact .broadcast _ (by decide) trivial fun _ => ⟨trivial, rfl⟩
  | «return» ret out => cases back <;> exact .none fun _ => ⟨trivial, rfl⟩
  | _ => exact .none fun _ => ⟨trivial, rfl⟩

theorem fsStep_calls (s : FsStep) :
    Calls d (.fs s) ctx.sie (goOnFs (fsStep ctx d s).next) (fsStep ctx d s).sie (fsStep ctx d s).calls := by
  cases s with
  | acquire v =>
      simp only [fsStep]
      split
      · exact .none fun _ => ⟨trivial, rfl⟩
      · exact .wait _ (fun h => absurd h (by decide)) (fun _ h => absurd h (by decide)) trivial fun _ => ⟨trivial, rfl⟩
  | sought v | loop v | transfer v =>
      simp only [fsStep]
      split <;> exact .none fun _ => ⟨trivial, rfl⟩
  | put v acc =>
      simp only [fsStep]
      split
      · exact .none fun _ => ⟨trivial, rfl⟩
      · split <;> exact .none fun _ => ⟨trivial, rfl⟩
  | release ret => exact .broadcast _ (by decide) trivial fun _ => ⟨trivial, rfl⟩
  | _ => exact .none fun _ => ⟨trivial, rfl⟩

theorem callStep_calls (i : DiskCall) :
    Calls d i ctx.sie (callStep ctx d i).next (callStep ctx d i).sie (callStep ctx d i).calls := by
  cases i with
  | vio s back => exact vioStep_calls ctx d s back
  | fs s => exact fsStep_calls ctx d s
  | _ => exact .none fun _ => ⟨trivial, rfl⟩

theorem diskExec_eq {i : DiskCall} (hi : i ≠ .leave) :
    diskExec i ctx d =
      ⟨(callStep ctx d i).dev, (callStep ctx d i).sie, ctx.satp, (callStep ctx d i).calls ++ [.dev (callStep ctx d i).next]⟩ := by
  cases i with
  | leave => exact absurd rfl hi
  | _ => rfl

theorem disk_obeys (alone : Bool) : Obeys diskDiscipline (disk alone) := by
  refine ⟨fun i ctx s hneed => ?_, fun i ctx s he => ?_, fun n hn => ?_⟩
  · by_cases hi : i = .leave
    · subst hi
      rfl
    · simp only [disk, diskExec_eq ctx s hi]
      have hends (h : Sound i ctx.sie (callStep ctx s i).next (callStep ctx s i).sie) :
          Ends diskDiscipline (callStep ctx s i).sie [.call (.dev (callStep ctx s i).next)] (diskDiscipline.out i ctx.sie) :=
        ⟨h.need, .inr h.out⟩
      have hc := callStep_calls ctx s i
      generalize (callStep ctx s i).calls = calls at hc ⊢
      cases hc with
      | none sound => exact hends (sound hneed)
      | wait n tested guard next_rests sound =>
          refine ⟨fun m hm hg => guard hneed ?_, .inr (hends (sound hneed))⟩
          cases hm
          exact hg
      | broadcast n other next_rests sound =>
          refine ⟨fun m hm hg => other ?_, .inr (hends (sound hneed))⟩
          cases hm
          exact hg
  · cases i with
    | vio s back => cases he
    | _ => trivial
  · simp [disk, show n = usedUpdated from hn]

theorem push_cases (alone : Bool) (i : DiskCall) (ctx : Ctx) (d : Disk) : ((disk alone).exec i ctx d).push = [] ∨
    ∃ next sie calls, Calls d i ctx.sie next sie calls ∧ ((disk alone).exec i ctx d).push = calls ++ [.dev next] := by
  by_cases hi : i = .leave
  · subst hi
    exact .inl rfl
  · refine .inr ⟨_, _, _, callStep_calls ctx d i, ?_⟩
    simp only [disk, diskExec_eq ctx d hi]

theorem disk_rules (alone : Bool) : Rules (disk alone) diskDiscipline rests := by
  refine ⟨disk_obeys alone, fun i ctx s => ?_, fun i ctx s => ?_, fun i ctx s n hn => ?_⟩
  · rcases push_cases alone i ctx s with h | ⟨next, sie, calls, hc, h⟩ <;> rw [h]
    · exact Nat.zero_le _
    · cases hc <;> simp [devs]
  · rcases push_cases alone i ctx s with h | ⟨next, sie, calls, hc, h⟩ <;> rw [h]
    · intro j hj
      cases hj
    · intro j hj
      cases hc with
      | none sound => cases hj
      | wait n tested guard next_rests sound | broadcast n other next_rests sound =>
          obtain rfl := List.mem_singleton.mp hj
          exact next_rests
  · rcases push_cases alone i ctx s with h | ⟨next, sie, calls, hc, h⟩ <;> rw [h]
    · exact List.not_mem_nil
    · cases hc <;> simp

end Rules

section Frame

variable (ctx : Ctx) (d : Disk)

/-- A step of the thread tp between the first and the last of a call. -/
structure SameDevice (tp : Ptr) (d d' : Disk) : Prop where
  ret : ∀ p, p ≠ tp → d'.ret p = d.ret p
  inside : d'.inside = d.inside
  usedIdx : d'.usedIdx = d.usedIdx
  lastAvail : d'.lastAvail = d.lastAvail
  busy : d'.busy = d.busy
  interruptStatus : d'.interruptStatus = d.interruptStatus

structure VioFrame (tp : Ptr) (s : VioStep) (d d' : Disk) : Prop extends SameDevice tp d d' where
  kfsLock : d'.kfsLock = d.kfsLock
  kfsHeld : d'.kfsHeld = d.kfsHeld
  availIdx : (∀ r, s ≠ .submit r) → d'.availIdx = d.availIdx

structure FsFrame (tp : Ptr) (d d' : Disk) : Prop extends SameDevice tp d d' where
  vioLock : d'.vioLock = d.vioLock
  vioHeld : d'.vioHeld = d.vioHeld
  availIdx : d'.availIdx = d.availIdx

theorem vioStep_frame (s : VioStep) : VioFrame ctx.tp s d (vioStep ctx d s).dev := by
  cases s with
  | submit r => exact ⟨⟨fun _ _ => rfl, rfl, rfl, rfl, rfl, rfl⟩, rfl, rfl, fun h => absurd rfl (h r)⟩
  | acquire f | waitTest r saved | readLoop bufsz total out =>
      simp only [vioStep]
      split <;> exact ⟨⟨fun _ _ => rfl, rfl, rfl, rfl, rfl, rfl⟩, rfl, rfl, fun _ => rfl⟩
  | writeLoop buf total =>
      simp only [vioStep]
      split
      · split <;> exact ⟨⟨fun _ _ => rfl, rfl, rfl, rfl, rfl, rfl⟩, rfl, rfl, fun _ => rfl⟩
      · exact ⟨⟨fun _ _ => rfl, rfl, rfl, rfl, rfl, rfl⟩, rfl, rfl, fun _ => rfl⟩
  | start f =>
      cases f with
      | setpos pos =>
          cases pos with
          | none => exact ⟨⟨fun _ _ => rfl, rfl, rfl, rfl, rfl, rfl⟩, rfl, rfl, fun _ => rfl⟩
          | some pos =>
              simp only [vioStep]
              split <;> exact ⟨⟨fun _ _ => rfl, rfl, rfl, rfl, rfl, rfl⟩, rfl, rfl, fun _ => rfl⟩
      | _ => exact ⟨⟨fun _ _ => rfl, rfl, rfl, rfl, rfl, rfl⟩, rfl, rfl, fun _ => rfl⟩
  | finish r => cases r <;> exact ⟨⟨fun _ _ => rfl, rfl, rfl, rfl, rfl, rfl⟩, rfl, rfl, fun _ => rfl⟩
  | «return» ret out =>
      exact ⟨⟨fun p hp => Function.update_of_ne hp _ _, rfl, rfl, rfl, rfl, rfl⟩, rfl, rfl, fun _ => rfl⟩
  | _ => exact ⟨⟨fun _ _ => rfl, rfl, rfl, rfl, rfl, rfl⟩, rfl, rfl, fun _ => rfl⟩

theorem fsStep_frame (s : FsStep) : FsFrame ctx.tp d (fsStep ctx d s).dev := by
  cases s with
  | acquire v | transfer v | put v acc =>
      simp only [fsStep]
      split <;> exact ⟨⟨fun _ _ => rfl, rfl, rfl, rfl, rfl, rfl⟩, rfl, rfl, rfl⟩
  | «return» ret => exact ⟨⟨fun p hp => Function.update_of_ne hp _ _, rfl, rfl, rfl, rfl, rfl⟩, rfl, rfl, rfl⟩
  | _ => exact ⟨⟨fun _ _ => rfl, rfl, rfl, rfl, rfl, rfl⟩, rfl, rfl, rfl⟩

theorem starts_of_entry {alone : Bool} {i : DiskCall} (h : (disk alone).entry i ctx d = true) : starts i = true := by
  cases i <;> first | rfl | cases h

theorem callStep_inside (i : DiskCall) :
    (callStep ctx d i).dev.inside = if starts i then ctx.tp :: d.inside else d.inside := by
  cases i with
  | vio s back => exact (vioStep_frame ctx d s).inside
  | fs s => exact (fsStep_frame ctx d s).inside
  | _ => rfl

theorem starts_goOn (s : Option VioStep) (back : Option FsStep) : starts (goOn s back) = false := by
  cases s with
  | some s => rfl
  | none => cases back <;> rfl

theorem starts_next (i : DiskCall) : starts (callStep ctx d i).next = false := by
  cases i with
  | vio s back => exact starts_goOn _ _
  | fs s =>
      simp only [callStep]
      cases (fsStep ctx d s).next <;> rfl
  | _ => rfl

theorem job_exec (alone : Bool) (v : View Disk DiskCall) {i : DiskCall} {ctx : Ctx} (hi : i ≠ .leave) :
    (v.exec (disk alone) diskDiscipline i ctx).job = Function.update v.job v.tp (some (callStep ctx v.dev i).next) := by
  simp only [View.exec, disk, diskExec_eq ctx v.dev hi]
  refine congrArg (Function.update v.job v.tp) ?_
  have hc := callStep_calls ctx v.dev i
  generalize (callStep ctx v.dev i).calls = calls at hc
  cases hc <;> rfl

end Frame

end RiscvKernel.DiskDriver
