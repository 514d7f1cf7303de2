import RiscvKernel.KfsStack
import RiscvKernel.Lib.CriticalSection

namespace RiscvKernel.KfsConcurrent

open Vioblk (hardware)
open Io Lib.Bytes Lib.CriticalSection SleepLock FlatDisk Kfs KfsFile KfsRounds KfsRun KfsStack DiskView

variable {σ ι : Type}

/-! fs_read and fs_write of several threads: between two calls on the device, and before and after
each store to a file descriptor, other threads may run. lock_acquire puts a thread that finds
kfs_lock taken into condition_wait; lock_release wakes it, and it takes the lock without testing
it again. -/

/-- A call on globalIO. -/
def onDevice (f : σ → σ) (k : Globals σ) : Globals σ := { k with globalIO := f k.globalIO }

/-- The local variables of the loop. -/
structure Vars where
  buf : Nat → UInt8
  filePos : Nat
  n : Nat
  count : Nat
  blockSpot : Nat

/-- The loop of fs_read and fs_write on the entry io; none when it does not end within fuel. -/
def loopProg (dev : IoOps σ) (chunk : Chunk σ) (io : Fin 32) (numInodes inodeNum : Nat) :
    Nat → Vars → Prog (Globals σ) (Option Result)
  | 0, _ => .done none
  | fuel + 1, v =>
      if v.n > 0 then
        .act (onDevice fun s => (ioseek dev s (blockNumOff inodeNum (toInt (v.filePos / 4096)))).2) fun _ =>
        .act (onDevice fun s => (ioread dev s 4).2.2) fun k =>
        let blockSpot := overlay v.blockSpot (ioread dev k.globalIO 4).2.1
        let off := ((4096 + 4096 * numInodes) % 2 ^ 32 + 4096 * blockSpot + v.filePos % 4096) % 2 ^ 64
        .act (onDevice fun s => (ioseek dev s off).2) fun _ =>
        let leftInBlock := 4096 - v.filePos % 4096
        let want := if leftInBlock ≤ v.n then leftInBlock else v.n
        .act (onDevice fun s => (chunk v.count want v.buf s).2.2) fun k =>
        let c := chunk v.count want v.buf k.globalIO
        let leftAfter := (c.1 % 2 ^ 64).toNat
        let filePos := (v.filePos + leftAfter) % 2 ^ 64
        .act (fun k => k.setFile io (fsIoctl (k.fileArray io) .setpos filePos).2.2) fun _ =>
        loopProg dev chunk io numInodes inodeNum fuel
          ⟨c.2.1, filePos, (v.n + (2 ^ 64 - leftAfter)) % 2 ^ 64, (v.count + leftAfter) % 2 ^ 64, blockSpot⟩
      else .done (some ((BitVec.ofNat 64 v.count).toInt, some v.buf))

/-- fs_read and fs_write behind lock_acquire, up to lock_release; none also when -EBADFMT is
returned, with the lock held. -/
def transferProg (dev : IoOps σ) (chunk : Chunk σ) (fuel : Nat) (loc : Locals) (io : Fin 32) (buf : Nat → UInt8) (n : Nat) :
    Prog (Globals σ) (Option Result) :=
  .act (onDevice fun s => (ioseek dev s 4).2) fun _ =>
  .act (onDevice fun s => (ioread dev s 4).2.2) fun k =>
  let numInodes := overlay loc.numInodes.toNat (ioread dev k.globalIO 4).2.1
  let inodeNum := (k.fileArray io).inode
  let off := (4096 + inodeNum * 4096) % 2 ^ 64
  .act (onDevice fun s => (ioseek dev s off).2) fun k =>
  if (ioseek dev k.globalIO off).1 ≠ 0 then .done none
  else
    .act (onDevice fun s => (ioread dev s 4).2.2) fun k =>
    let lengthB := overlay loc.lengthB.toNat (ioread dev k.globalIO 4).2.1
    let filePos := (fsIoctl (k.fileArray io) .getpos 0).2.1
    let n := if (filePos + n) % 2 ^ 64 > lengthB then (lengthB + (2 ^ 64 - filePos)) % 2 ^ 64 else n
    loopProg dev chunk io numInodes inodeNum fuel ⟨buf, filePos, n, 0, loc.blockSpot.toNat⟩

/-- fs_ioctl with IOCTL_SETPOS, which does not take kfs_lock. -/
def setpos (io : Fin 32) (pos : Nat) (k : Globals σ) : Result × Globals σ :=
  let r := fsIoctl (k.fileArray io) .setpos pos
  ((r.1, none), k.setFile io r.2.2)

section Independence

variable {dev : IoOps σ} {chunk : Chunk σ} {io io' : Fin 32} {fuel n pos : Nat}

theorem setpos_fileArray (hio : io ≠ io') (k : Globals σ) : (setpos io' pos k).2.fileArray io = k.fileArray io :=
  Function.update_of_ne hio ..

theorem setFile_comm (hio : io ≠ io') (k : Globals σ) (fd fd' : FileDesc) :
    (k.setFile io fd).setFile io' fd' = (k.setFile io' fd').setFile io fd := by
  rw [Globals.setFile, Globals.setFile, Globals.setFile, Globals.setFile]
  exact congrArg (fun fa => { k with fileArray := fa }) (Function.update_comm hio.symm fd' fd k.fileArray).symm

/-- A store to the descriptor of another entry. -/
theorem setpos_indep (pos : Nat) (hio : io ≠ io') (k : Globals σ) (filePos : Nat) :
    let f := fun k : Globals σ => k.setFile io (fsIoctl (k.fileArray io) .setpos filePos).2.2
    (setpos io' pos (f k)).1 = (setpos io' pos k).1 ∧ (setpos io' pos (f k)).2 = f (setpos io' pos k).2 := by
  have hother : (k.setFile io (fsIoctl (k.fileArray io) .setpos filePos).2.2).fileArray io' = k.fileArray io' :=
    Function.update_of_ne hio.symm ..
  have hsame : (k.setFile io' (fsIoctl (k.fileArray io') .setpos pos).2.2).fileArray io = k.fileArray io :=
    Function.update_of_ne hio ..
  simp only [setpos, hother, hsame]
  exact ⟨trivial, setFile_comm hio k _ _⟩

/-- A call on one entry has nothing to do with the position of another one. -/
theorem loopProg_indep (hio : io ≠ io') {numInodes inodeNum : Nat} (v : Vars) :
    (loopProg dev chunk io numInodes inodeNum fuel v).Indep (setpos io' pos) := by
  induction fuel generalizing v with
  | zero => exact trivial
  | succ fuel ih =>
      rw [loopProg]
      split
      · intro k
        refine ⟨rfl, rfl, rfl, fun k => ⟨rfl, rfl, rfl, fun k =>
          ⟨rfl, rfl, rfl, fun k => ⟨rfl, rfl, rfl, fun k => ?_⟩⟩⟩⟩
        obtain ⟨hres, hstate⟩ := setpos_indep pos hio k _
        exact ⟨hres, hstate, rfl, ih _⟩
      · exact trivial

theorem transferProg_indep (hio : io ≠ io') (loc : Locals) (buf : Nat → UInt8) :
    (transferProg dev chunk fuel loc io buf n).Indep (setpos io' pos) := by
  intro k
  refine ⟨rfl, rfl, rfl, fun k => ⟨rfl, rfl, ?_, fun k => ⟨rfl, rfl, rfl, ?_⟩⟩⟩
  · simp only [setpos_fileArray hio]
    rfl
  · dsimp only
    split
    · exact trivial
    · refine fun k => ⟨rfl, rfl, ?_, loopProg_indep hio _⟩
      simp only [setpos_fileArray hio]
      rfl

end Independence

def takesLock : Op → Bool
  | .setpos _ _ => false
  | _ => true

def body (dev : IoOps σ) (fuel : Nat) : Op → Prog (Globals σ) (Option Result)
  | .read loc io buf n => transferProg dev (readChunk dev) fuel loc io buf n
  | .write loc io buf n => transferProg dev (writeChunk dev) fuel loc io buf n
  | .setpos _ _ => .done none

def atom : Op → Globals σ → Result × Globals σ
  | .setpos io pos, k => setpos io pos k
  | _, k => ((0, none), k)

theorem body_indep {dev : IoOps σ} {fuel : Nat} (op op' : Op) (hlocked : takesLock op = true)
    (hatom : takesLock op' = false) (hio : op.io ≠ op'.io) : (body dev fuel op).Indep (atom op') := by
  cases op' with
  | read | write => cases hatom
  | setpos io' pos =>
      cases op with
      | read loc io buf n | write loc io buf n => exact transferProg_indep hio loc buf
      | setpos => cases hlocked

/-- The open files, with kfs_lock around the calls that take it. -/
def openFiles (dev : IoOps σ) (fuel : Nat) : Object (Globals σ) Op Result where
  locked := takesLock
  body := body dev fuel
  atom := atom
  apart op op' := op.io ≠ op'.io
  indep := body_indep

section Alone

variable {dev : IoOps σ} {chunk : Chunk σ} {io : Fin 32} {fuel self n : Nat} {k k' : Globals σ} {b : Result}

theorem setFile_self (k : Globals σ) (io : Fin 32) (fd : FileDesc) : (k.setFile io fd).fileArray io = fd :=
  Function.update_self ..

/-- A loop that nobody interrupts is the loop of one step for each round. -/
theorem loopProg_result (k : Globals σ) (numInodes inodeNum : Nat) (v : Vars) :
    (loopProg dev chunk io numInodes inodeNum fuel v).result k =
      (blockLoop dev chunk numInodes inodeNum fuel
        ⟨k.globalIO, v.buf, k.fileArray io, v.filePos, v.n, v.count, v.blockSpot⟩).map fun t =>
          (((BitVec.ofNat 64 t.count).toInt, some t.buf), { k.setFile io t.fd with globalIO := t.io }) := by
  induction fuel generalizing k v with
  | zero => rfl
  | succ fuel ih =>
      rw [loopProg, blockLoop]
      by_cases hn : v.n > 0
      · rw [if_pos hn, if_pos hn]
        refine (ih _ _).trans ?_
        rw [setFile_self]
        simp only [Globals.setFile, onDevice, Function.update_idem]
        rfl
      · rw [if_neg hn, if_neg hn, Option.map_some, Globals.setFile, Function.update_eq_self]
        rfl

theorem transferProg_enter (k : Globals σ) (loc : Locals) (buf : Nat → UInt8) :
    (transferProg dev chunk fuel loc io buf n).result k =
      if (fsEnter dev loc k io buf n).seek ≠ 0 then none
      else
        (blockLoop dev chunk (fsEnter dev loc k io buf n).numInodes (k.fileArray io).inode fuel
          (fsEnter dev loc k io buf n).start).map fun t =>
            (((BitVec.ofNat 64 t.count).toInt, some t.buf), { k.setFile io t.fd with globalIO := t.io }) := by
  simp only [transferProg, Prog.result_act]
  split
  · rename_i hseek
    have hseek' : (fsEnter dev loc k io buf n).seek ≠ 0 := hseek
    rw [if_pos hseek']
    rfl
  · rename_i hseek
    have hseek' : ¬(fsEnter dev loc k io buf n).seek ≠ 0 := hseek
    rw [if_neg hseek']
    exact loopProg_result _ _ _ _

/-- A call that nobody interrupts is the call of one step, if that gives the lock back. -/
theorem transferProg_result (hlock : k.kfsLock = lockInit) (loc : Locals) (buf : Nat → UInt8) :
    (transferProg dev chunk fuel loc io buf n).result k = some (b, k') ↔
      (fsTransfer dev chunk fuel loc self k io buf n).map (fun r => ((r.1, some r.2.1), r.2.2)) = some (b, k') ∧
        k'.kfsLock = lockInit := by
  have hheld : (⟨self⟩ : Lock) ≠ lockInit := fun h => by
    have htid : (self : Int) = -1 := congrArg Lock.tid h
    omega
  rw [transferProg_enter, fsTransfer_enter, hlock, lockAcquire_lockInit, Option.bind_some]
  split
  · constructor
    · intro h
      cases h
    · rintro ⟨h, hfree⟩
      obtain ⟨rfl, rfl⟩ := Prod.mk.inj (Option.some.inj h)
      exact absurd hfree hheld
  · rw [Option.map_map]
    constructor
    · intro h
      obtain ⟨t, ht, he⟩ := Option.map_eq_some_iff.mp h
      obtain ⟨rfl, rfl⟩ := Prod.mk.inj he
      refine ⟨Option.map_eq_some_iff.mpr ⟨t, ht, ?_⟩, hlock⟩
      have hfree : lockRelease ⟨self⟩ = k.kfsLock := hlock.symm
      simp only [Function.comp_apply, hfree, Globals.setFile]
    · rintro ⟨h, hfree⟩
      obtain ⟨t, ht, he⟩ := Option.map_eq_some_iff.mp h
      obtain ⟨rfl, rfl⟩ := Prod.mk.inj he
      refine Option.map_eq_some_iff.mpr ⟨t, ht, ?_⟩
      have hfree' : lockRelease ⟨self⟩ = k.kfsLock := hlock.symm
      simp only [hfree', Globals.setFile]

theorem object_call {op : Op} (hlock : k.kfsLock = lockInit) :
    (openFiles dev fuel).call op k = some (b, k') ↔
      call dev fuel self k op = some (b, k') ∧ k'.kfsLock = lockInit := by
  cases op with
  | read loc io buf n | write loc io buf n => exact transferProg_result hlock loc buf
  | setpos io pos =>
      refine ⟨fun h => ⟨h, ?_⟩, fun h => h.1⟩
      obtain ⟨rfl, rfl⟩ := Prod.mk.inj (Option.some.inj h)
      exact hlock

theorem callRun_snoc {ops : List Op} {op : Op} {rs : List Result} {k₁ : Globals σ}
    (h : callRun dev fuel self k ops = some (rs, k₁)) (hc : call dev fuel self k₁ op = some (b, k')) :
    callRun dev fuel self k (ops ++ [op]) = some (rs ++ [b], k') := by
  induction ops generalizing k rs with
  | nil =>
      obtain ⟨rfl, rfl⟩ := Prod.mk.inj (Option.some.inj h)
      exact callRun_cons.mpr ⟨b, k', [], hc, rfl, rfl⟩
  | cons op' ops ih =>
      obtain ⟨r, k₂, rs', hr, hrs, rfl⟩ := callRun_cons.mp h
      exact callRun_cons.mpr ⟨r, k₂, rs' ++ [b], hr, ih hrs, rfl⟩

theorem callRun_of_serial {log : List (Op × Result)} (hlock : k.kfsLock = lockInit)
    (h : Serial (openFiles dev fuel) k log k') :
    callRun dev fuel self k (log.map Prod.fst) = some (log.map Prod.snd, k') ∧ k'.kfsLock = lockInit := by
  induction h with
  | nil => exact ⟨rfl, hlock⟩
  | snoc h hc ih =>
      obtain ⟨hrun, hfree⟩ := ih
      obtain ⟨hcall, hfree'⟩ := (object_call hfree).mp hc
      rw [List.map_append, List.map_append]
      exact ⟨callRun_snoc hrun hcall, hfree'⟩

theorem call_lock {op : Op} (h : call dev fuel self k op = some (b, k')) (hfree : k'.kfsLock = lockInit) :
    k.kfsLock = lockInit := by
  cases op with
  | read loc io buf n | write loc io buf n =>
      obtain ⟨r, hr, -⟩ := Option.map_eq_some_iff.mp h
      obtain ⟨lk, hlk, -⟩ := Option.bind_eq_some_iff.mp ((fsTransfer_enter ..).symm.trans hr)
      rw [lockAcquire] at hlk
      split at hlk
      · rename_i htid
        exact congrArg Lock.mk htid
      · cases hlk
  | setpos io pos =>
      obtain ⟨rfl, rfl⟩ := Prod.mk.inj (Option.some.inj h)
      exact hfree

theorem callRun_lock {ops : List Op} {rs : List Result} (h : callRun dev fuel self k ops = some (rs, k'))
    (hfree : k'.kfsLock = lockInit) : k.kfsLock = lockInit := by
  induction ops generalizing k rs with
  | nil =>
      obtain ⟨rfl, rfl⟩ := Prod.mk.inj (Option.some.inj h)
      exact hfree
  | cons op ops ih =>
      obtain ⟨r, k₁, rs', hr, hrs, rfl⟩ := callRun_cons.mp h
      exact call_lock hr (ih hrs)

end Alone

section Linearize

variable [DecidableEq ι] {dev : IoOps σ} {R : σ → Disk → Prop}

/-- However the reads, writes and position changes of several threads come between each other, as
long as the threads that lock_release woke find the lock free, one thread at most is inside fs_read
or fs_write, and the calls that have returned gave what byte arrays give for them in the order in
which they returned. -/
theorem concurrent_calls_linearize (hd : Shows dev R) (fuel : Nat) (k₀ : Globals Disk) (s₀ : σ) (hv : Valid k₀)
    (hR : R s₀ k₀.globalIO) (c : Config (Globals σ) ι Op Result)
    (hr : Relation.ReflTransGen (FreeStep (openFiles dev fuel)) (start ι Op Result (onGlobals k₀ s₀)) c)
    (ho : ∀ op ∈ c.log.map Prod.fst, KfsRun.IsOpen k₀ op.io)
    (ha : (filesOf k₀).Along Files.Admissible (c.log.map Prod.fst))
    (hf : (filesOf k₀).Along (fun s => s.OffsetFits (numInodes k₀.globalIO.bytes)) (c.log.map Prod.fst)) :
    (∀ i j, (c.pc i).isInside = true → (c.pc j).isInside = true → i = j) ∧
      c.log.map Prod.snd = ((filesOf k₀).run (c.log.map Prod.fst)).1 ∧
      (c.lock = none → ∃ k s, c.state = onGlobals k s ∧ R s k.globalIO ∧
        filesOf k = ((filesOf k₀).run (c.log.map Prod.fst)).2 ∧ Valid k) := by
  obtain ⟨-, hi⟩ := Inv.run hr
  obtain ⟨t, hserial, hstate⟩ := hi.serial
  obtain ⟨hrun, -⟩ := @callRun_of_serial _ _ _ 0 (onGlobals k₀ s₀) _ _ hv.lock hserial
  obtain ⟨fuel', k, s, hrun', hR', hfiles, hv', -⟩ := @callRun_refines _ _ _ hd k₀ 0 s₀ _ hv ho ha hf hR
  have heq := (callRun_mono hrun (Nat.le_max_left fuel fuel')).symm.trans (callRun_mono hrun' (Nat.le_max_right fuel fuel'))
  obtain ⟨hres, rfl⟩ := Prod.mk.inj (Option.some.inj heq)
  exact ⟨fun i j => hi.one_inside, hres, fun hlock => ⟨k, s, (hstate hlock).symm, hR', hfiles, hv'⟩⟩

/-- Two threads call; the second one sleeps until the first one gives the lock back. -/
theorem calls_handOver (hd : Shows dev R) {i j : ι} (hij : i ≠ j) (k₀ : Globals Disk) (s₀ : σ) (op op' : Op)
    (hop : takesLock op = true) (hop' : takesLock op' = true) (hv : Valid k₀) (hR : R s₀ k₀.globalIO)
    (ho : ∀ o ∈ [op, op'], KfsRun.IsOpen k₀ o.io) (ha : (filesOf k₀).Along Files.Admissible [op, op'])
    (hf : (filesOf k₀).Along (fun s => s.OffsetFits (numInodes k₀.globalIO.bytes)) [op, op']) :
    ∃ fuel c c', Relation.ReflTransGen (FreeStep (openFiles dev fuel)) (start ι Op Result (onGlobals k₀ s₀)) c ∧
      c.pc j = .woken op' ∧ Relation.ReflTransGen (FreeStep (openFiles dev fuel)) c c' ∧ c'.lock = none ∧
      c'.log.map Prod.fst = [op, op'] := by
  obtain ⟨fuel, k, s, hrun, -, -, hv', -⟩ := @callRun_refines _ _ _ hd k₀ 0 s₀ [op, op'] hv ho ha hf hR
  obtain ⟨r, k₁, rs, hc, hrest, -⟩ := callRun_cons.mp hrun
  have hfree₁ := callRun_lock hrest hv'.lock
  obtain ⟨r', k₂, rs', hc', hend, -⟩ := callRun_cons.mp hrest
  have hfree₂ := callRun_lock hend hv'.lock
  have hfree : (onGlobals k₀ s₀).kfsLock = lockInit := hv.lock
  have hcall := (object_call hfree).mpr ⟨hc, hfree₁⟩
  have hcall' := (object_call hfree₁).mpr ⟨hc', hfree₂⟩
  exact ⟨fuel, _, _, runs_woken hij hop hop' hcall, Function.update_self j (Pc.woken op') fun _ : ι => Pc.idle,
    runs_resume j hop' hcall', rfl, rfl⟩

def readByte : Op := .read ⟨0, 0, 0⟩ 0 (fun _ => 0) 1

/-- Two threads read the file of one byte; the second one waits for the first one, and finds the
end of the file. -/
theorem concurrent_calls_linearize_vioblk : ∃ fuel c c',
    Relation.ReflTransGen (FreeStep (openFiles (vioblkOps (hardware 512) 3) fuel))
      (start (Fin 2) Op Result (onGlobals (oneFileState 1) (some (sectors (oneFile 1))))) c ∧
      c.pc 1 = .woken readByte ∧
      Relation.ReflTransGen (FreeStep (openFiles (vioblkOps (hardware 512) 3) fuel)) c c' ∧
      (c'.log.map Prod.snd).map Prod.fst = [1, 0] ∧
      ∃ k s, c'.state = onGlobals k s ∧ (filesOf k).pos 0 = 1 := by
  have hv : Valid (oneFileState 1) := oneFileState_valid (by decide) (by decide)
  have ho : ∀ op ∈ [readByte, readByte], KfsRun.IsOpen (oneFileState 1) op.io := by
    simp [readByte, KfsRun.IsOpen, Op.io, oneFileState]
  have ha : (filesOf (oneFileState 1)).Along Files.Admissible [readByte, readByte] :=
    ⟨⟨by decide, by decide +kernel⟩, ⟨by decide, by decide +kernel⟩, trivial⟩
  have hf : (filesOf (oneFileState 1)).Along (fun s => s.OffsetFits (numInodes (oneFile 1))) [readByte, readByte] :=
    ⟨fun _ => by decide +kernel, fun _ => by decide +kernel, trivial⟩
  have hd := shows_vioblk 512 3
  have hR : ∃ w, some (sectors (oneFile 1)) = some w ∧ Idle 512 w (oneFileState 1).device :=
    ⟨_, rfl, idle_sectors _⟩
  obtain ⟨fuel, c, c', hr, hwoken, hr', hlock, hlog⟩ := calls_handOver hd (show (0 : Fin 2) ≠ 1 by decide) (oneFileState 1) _
    readByte readByte rfl rfl hv hR ho ha hf
  obtain ⟨-, hres, hend⟩ := concurrent_calls_linearize hd fuel (oneFileState 1) _ hv hR c' (hr.trans hr')
    (by rw [hlog]; exact ho) (by rw [hlog]; exact ha) (by rw [hlog]; exact hf)
  rw [hlog] at hres hend
  obtain ⟨k, s, hk, -, hfiles, -⟩ := hend hlock
  refine ⟨fuel, c, c', hr, hwoken, hr', ?_, k, s, hk, ?_⟩
  · rw [hres]
    decide +kernel
  · rw [hfiles]
    decide +kernel

end Linearize

end RiscvKernel.KfsConcurrent
