import RiscvKernel.Thread

namespace RiscvKernel.Scheduler

open Thread

variable {σ ι ε : Type}

/-- What a thread calls: the functions of thread.c and intr.h, and the functions of the
drivers above them. -/
inductive Call (ι : Type)
  | threadSpawn (page : Nat)
  | threadExit
  | threadYield
  | threadJoin (tid : Int)
  | threadJoinAny
  | conditionWait (cond : Nat)
  | conditionBroadcast (cond : Nat)
  | intrDisable
  | intrEnable
  | dev (i : ι)

/-- Where a thread is inside the functions of thread.c. Their local variables are
arguments; an interrupt can come between any two of these. -/
inductive Pc (ι : Type)
  | call (c : Call ι)
  | waitEnter (cond : Cond)
  | waitDisable (cond : Cond)
  | waitInsert (cond : Cond) (saved : Bool)
  | waitRestore (saved : Bool)
  | bcastEnter (cond : Cond)
  | bcastDisable (cond : Cond)
  | bcastBody (cond : Cond) (saved : Bool)
  | bcastRestore (saved : Bool)
  | suspEnter
  | suspDisable
  | suspDispatch (saved : Bool)
  | suspEnable (next : Ptr) (saved : Bool)
  | suspSpace (next : Ptr) (saved : Bool)
  | suspSwtch (next : Ptr) (saved : Bool)
  | suspResumed (saved : Bool)
  | suspRestore (saved : Bool)
  | spawnDisable (child : Ptr)
  | spawnInsert (child : Ptr) (saved : Bool)
  | spawnRestore (saved : Bool)
  | exitFailed
  | joinLoop (tid : Nat) (child : Ptr)
  | joinAnyScan
  | idleLoop
  | idleDisable
  | idleWfi
  | idleEnable

/-- What the code of a driver sees of the thread that runs it. -/
structure Ctx where
  tp : Ptr
  tid : Nat
  proc : Option Nat
  sie : Bool
  satp : Nat

structure Effect (σ ι : Type) where
  dev : σ
  sie : Bool
  satp : Nat
  push : List (Call ι)

/-- The code above thread.c: what one step of a driver function does and calls, which of
its functions a thread may call, its interrupt handlers with the conditions they
broadcast, and what its devices do by themselves. -/
structure Client (σ ι ε : Type) where
  exec : ι → Ctx → σ → Effect σ ι
  entry : ι → Ctx → σ → Bool
  ownCond : Nat → Bool
  isr : ε → σ → σ × List Nat
  env : ε → σ → σ
  mtag : σ → Nat → Nat

inductive Assertion
  | waitRunning | yieldRunning | suspReady | nextReady | wokenWaiting | wokenCond
  | tlinsert | tlappend | parent | recycle
  deriving DecidableEq, Repr

/-- How the kernel can stop. -/
inductive Stop
  | haltSuccess
  | tooManyThreads
  | childless
  | spuriousChildExit
  | threadExitFailed
  | endless
  | assert (a : Assertion)
  deriving DecidableEq, Repr

/-- The globals of thread.c, one map for each member of struct thread, and what every
thread still has to execute. brk is the next struct thread kmalloc hands out; freed and
joined record the pages given to memory_free_page and the threads given to
recycle_thread. -/
structure Kernel (σ ι : Type) where
  tp : Ptr
  sie : Bool
  satp : Nat
  brk : Ptr
  thrtab : Nat → Option Ptr
  readyList : ThreadList
  waitList : Cond → ThreadList
  state : Ptr → ThreadState
  id : Ptr → Nat
  proc : Ptr → Option Nat
  parent : Ptr → Option Ptr
  listNext : Links
  waitCond : Ptr → Option Cond
  stackBase : Ptr → Option Nat
  code : Ptr → List (Pc ι)
  ret : Ptr → Int
  freed : List Nat
  joined : List Ptr
  dev : σ

namespace Kernel

def setCode (k : Kernel σ ι) (code : List (Pc ι)) : Kernel σ ι :=
  { k with code := Function.update k.code k.tp code }

def setState (k : Kernel σ ι) (t : Ptr) (s : ThreadState) : Kernel σ ι :=
  { k with state := Function.update k.state t s }

def setRet (k : Kernel σ ι) (r : Int) : Kernel σ ι := { k with ret := Function.update k.ret k.tp r }

def ctx (k : Kernel σ ι) : Ctx := ⟨k.tp, k.id k.tp, k.proc k.tp, k.sie, k.satp⟩

/-- tlinsert on the list of a condition. -/
def insertWait (k : Kernel σ ι) (c : Cond) (t : Ptr) : Except Stop (Kernel σ ι) :=
  match tlinsert k.listNext (k.waitList c) t with
  | some (next, list) => .ok { k with listNext := next, waitList := Function.update k.waitList c list }
  | none => .error (.assert .tlinsert)

/-- tlinsert on ready_list. -/
def insertReady (k : Kernel σ ι) (t : Ptr) : Except Stop (Kernel σ ι) :=
  match tlinsert k.listNext k.readyList t with
  | some (next, list) => .ok { k with listNext := next, readyList := list }
  | none => .error (.assert .tlinsert)

/-- The loop of condition_broadcast over the waiting threads, for at most fuel threads. -/
def wakeLoop (c : Cond) : Nat → Option Ptr → Kernel σ ι → Except Stop (Kernel σ ι)
  | _, none, k => .ok k
  | 0, some _, _ => .error .endless
  | fuel + 1, some t, k =>
      if k.state t ≠ .waiting then .error (.assert .wokenWaiting)
      else if k.waitCond t ≠ some c then .error (.assert .wokenCond)
      else wakeLoop c fuel (k.listNext t) { k.setState t .ready with waitCond := Function.update k.waitCond t none }

/-- The part of condition_broadcast that runs with interrupts disabled. -/
def wakeAll (nthr : Nat) (c : Cond) (k : Kernel σ ι) : Except Stop (Kernel σ ι) := do
  let k ← wakeLoop c nthr (k.waitList c).head k
  match tlappend k.listNext k.readyList (k.waitList c) with
  | some (next, l0, l1) => .ok { k with listNext := next, readyList := l0, waitList := Function.update k.waitList c l1 }
  | none => .error (.assert .tlappend)

/-- condition_broadcast called from an interrupt handler. -/
def broadcast (nthr : Nat) (c : Cond) (k : Kernel σ ι) : Except Stop (Kernel σ ι) :=
  if tlempty (k.waitList c) then .ok k else wakeAll nthr c k

/-- The part of suspend_self that runs with interrupts disabled: the thread to resume. -/
def dispatch (k : Kernel σ ι) : Except Stop (Ptr × Kernel σ ι) :=
  match tlremove k.listNext k.readyList with
  | (next, list, some thr) =>
      if k.state thr ≠ .ready then .error (.assert .nextReady)
      else
        let k := { k.setState thr .running with listNext := next, readyList := list }
        if k.state k.tp = .running then do
          let k ← (k.setState k.tp .ready).insertReady k.tp
          return (thr, k)
        else return (thr, k)
  | (_, _, none) => .error (.assert .nextReady)

/-- The slots that the loops over thrtab from 1 on visit. -/
def slots (nthr : Nat) : List Nat := List.range' 1 (nthr - 1)

def freeSlot (nthr : Nat) (k : Kernel σ ι) : Option Nat := (slots nthr).find? fun tid => (k.thrtab tid).isNone

def pageSize : Nat := 4096

/-- thread_spawn, with its _thread_setup, up to the new thread being READY, but on no list
yet. kmalloc hands out zeroed memory, and a stack_anchor takes 16 bytes at the end of the
stack page. -/
def spawn (k : Kernel σ ι) (tid page : Nat) : Kernel σ ι :=
  { k.setState k.brk .ready with
    brk := k.brk + 1
    thrtab := Function.update k.thrtab tid (some k.brk)
    id := Function.update k.id k.brk tid
    parent := Function.update k.parent k.brk (some k.tp)
    proc := Function.update k.proc k.brk (k.proc k.tp)
    stackBase := Function.update k.stackBase k.brk (some (page + pageSize - 16))
    code := Function.update k.code k.brk [] }

def isChild (k : Kernel σ ι) (tid : Nat) : Bool :=
  match k.thrtab tid with
  | some t => k.parent t = some k.tp
  | none => false

def isExitedChild (k : Kernel σ ι) (tid : Nat) : Bool :=
  match k.thrtab tid with
  | some t => k.parent t = some k.tp ∧ k.state t = .exited
  | none => false

/-- One round of the loop of recycle_thread. -/
def reparent (thrtab : Nat → Option Ptr) (thr : Ptr) (parent : Ptr → Option Ptr) (ctid : Nat) : Ptr → Option Ptr :=
  match thrtab ctid with
  | some t => if parent t = some thr then Function.update parent t (parent thr) else parent
  | none => parent

def recycleThread (nthr : Nat) (k : Kernel σ ι) (tid : Nat) : Except Stop (Kernel σ ι) :=
  match k.thrtab tid with
  | some thr =>
      if 0 < tid ∧ tid < nthr ∧ k.state thr = .exited then
        .ok { k with
          parent := (slots nthr).foldl (reparent k.thrtab thr) k.parent
          thrtab := Function.update k.thrtab tid none
          joined := thr :: k.joined }
      else .error (.assert .recycle)
  | none => .error (.assert .recycle)

end Kernel

open Kernel

/-- The start of a call. -/
def enter (cl : Client σ ι ε) (nthr : Nat) (k : Kernel σ ι) (rest : List (Pc ι)) : Call ι → Except Stop (Kernel σ ι)
  | .threadSpawn page =>
      match k.freeSlot nthr with
      | some tid => .ok ((k.spawn tid page |>.setRet tid).setCode (.spawnDisable k.brk :: rest))
      | none => .error .tooManyThreads
  | .threadExit =>
      if k.tp = mainThread then .error .haltSuccess
      else
        match k.parent k.tp with
        | some parent =>
            .ok ((k.setState k.tp .exited).setCode (.bcastEnter (.childExit parent) :: .suspEnter :: .exitFailed :: rest))
        | none => .error (.assert .parent)
  | .threadYield =>
      if k.state k.tp = .running then .ok (k.setCode (.suspEnter :: rest)) else .error (.assert .yieldRunning)
  | .threadJoin tid =>
      if tid ≤ 0 ∨ nthr ≤ tid then .ok ((k.setRet (-1)).setCode rest)
      else
        match k.thrtab tid.toNat with
        | some child =>
            if k.parent child = some k.tp then .ok (k.setCode (.joinLoop tid.toNat child :: rest))
            else .ok ((k.setRet (-1)).setCode rest)
        | none => .ok ((k.setRet (-1)).setCode rest)
  | .threadJoinAny =>
      match (slots nthr).find? k.isExitedChild with
      | some tid => .ok (k.setCode (.call (.threadJoin tid) :: rest))
      | none =>
          if (slots nthr).any k.isChild then .ok (k.setCode (.waitEnter (.childExit k.tp) :: .joinAnyScan :: rest))
          else .error .childless
  | .conditionWait n => .ok (k.setCode (.waitEnter (.ext n) :: rest))
  | .conditionBroadcast n => .ok (k.setCode (.bcastEnter (.ext n) :: rest))
  | .intrDisable => .ok ({ k with sie := false }.setCode rest)
  | .intrEnable => .ok ({ k with sie := true }.setCode rest)
  | .dev i =>
      let e := cl.exec i k.ctx k.dev
      .ok ({ k with dev := e.dev, sie := e.sie, satp := e.satp }.setCode (e.push.map Pc.call ++ rest))

/-- One step of the current thread. _thread_swtch leaves a0 alone, so what it returns to
the resumed thread is that thread itself. -/
def exec (cl : Client σ ι ε) (nthr : Nat) (k : Kernel σ ι) (rest : List (Pc ι)) : Pc ι → Except Stop (Kernel σ ι)
  | .call c => enter cl nthr k rest c
  | .waitEnter c =>
      if k.state k.tp = .running then
        .ok ({ k.setState k.tp .waiting with
          waitCond := Function.update k.waitCond k.tp (some c)
          listNext := Function.update k.listNext k.tp none }.setCode (.waitDisable c :: rest))
      else .error (.assert .waitRunning)
  | .waitDisable c => .ok ({ k with sie := false }.setCode (.waitInsert c k.sie :: rest))
  | .waitInsert c saved => do
      let k ← k.insertWait c k.tp
      return k.setCode (.waitRestore saved :: rest)
  | .waitRestore saved => .ok ({ k with sie := saved }.setCode (.suspEnter :: rest))
  | .bcastEnter c => .ok (k.setCode (if tlempty (k.waitList c) then rest else .bcastDisable c :: rest))
  | .bcastDisable c => .ok ({ k with sie := false }.setCode (.bcastBody c k.sie :: rest))
  | .bcastBody c saved => do
      let k ← k.wakeAll nthr c
      return k.setCode (.bcastRestore saved :: rest)
  | .bcastRestore saved => .ok ({ k with sie := saved }.setCode rest)
  | .suspEnter => if tlempty k.readyList then .error (.assert .suspReady) else .ok (k.setCode (.suspDisable :: rest))
  | .suspDisable => .ok ({ k with sie := false }.setCode (.suspDispatch k.sie :: rest))
  | .suspDispatch saved => do
      let (next, k) ← k.dispatch
      return k.setCode (.suspEnable next saved :: rest)
  | .suspEnable next saved => .ok ({ k with sie := true }.setCode (.suspSpace next saved :: rest))
  | .suspSpace next saved =>
      .ok ({ k with satp := ((k.proc next).map (cl.mtag k.dev)).getD k.satp }.setCode (.suspSwtch next saved :: rest))
  | .suspSwtch next saved => .ok { k.setCode (.suspResumed saved :: rest) with tp := next }
  | .suspResumed saved =>
      if k.state k.tp = .exited then
        .ok ({ k with
          freed := ((k.stackBase k.tp).getD 0 - pageSize) :: k.freed
          stackBase := Function.update k.stackBase k.tp none }.setCode (.suspRestore saved :: rest))
      else .ok (k.setCode (.suspRestore saved :: rest))
  | .suspRestore saved => .ok ({ k with sie := saved }.setCode rest)
  | .spawnDisable child => .ok ({ k with sie := false }.setCode (.spawnInsert child k.sie :: rest))
  | .spawnInsert child saved => do
      let k ← k.insertReady child
      return k.setCode (.spawnRestore saved :: rest)
  | .spawnRestore saved => .ok ({ k with sie := saved }.setCode rest)
  | .exitFailed => .error .threadExitFailed
  | .joinLoop tid child =>
      if k.state child = .exited then do
        let k ← k.recycleThread nthr tid
        return (k.setRet tid).setCode rest
      else .ok (k.setCode (.waitEnter (.childExit k.tp) :: .joinLoop tid child :: rest))
  | .joinAnyScan =>
      match (slots nthr).find? k.isExitedChild with
      | some tid => do
          let k ← k.recycleThread nthr tid
          return (k.setRet tid).setCode rest
      | none => .error .spuriousChildExit
  | .idleLoop =>
      .ok (k.setCode (if tlempty k.readyList then .idleDisable :: rest else .call .threadYield :: .idleLoop :: rest))
  | .idleDisable => .ok ({ k with sie := false }.setCode (.idleWfi :: rest))
  | .idleWfi => .ok (k.setCode (.idleEnable :: rest))
  | .idleEnable => .ok ({ k with sie := true }.setCode (.idleLoop :: rest))

/-- What can happen next: a step of the current thread, its next call when it is outside
all functions, an interrupt, a change in the devices. -/
inductive Label (ι ε : Type)
  | run
  | call (c : Call ι)
  | isr (e : ε)
  | env (e : ε)

/-- The conditions of the drivers are used by their own functions only. -/
def mayCall (cl : Client σ ι ε) (k : Kernel σ ι) : Call ι → Bool
  | .conditionWait n | .conditionBroadcast n => !cl.ownCond n
  | .dev i => cl.entry i k.ctx k.dev
  | _ => true

/-- An interrupt is taken only when interrupts are enabled; a label that is not possible
leaves the state as it is. -/
def step (cl : Client σ ι ε) (nthr : Nat) (k : Kernel σ ι) : Label ι ε → Except Stop (Kernel σ ι)
  | .run =>
      match k.code k.tp with
      | [] => .ok k
      | pc :: rest => exec cl nthr k rest pc
  | .call c => .ok (if (k.code k.tp).isEmpty ∧ mayCall cl k c then k.setCode [.call c] else k)
  | .isr e =>
      if k.sie then
        let r := cl.isr e k.dev
        r.2.foldlM (fun k n => k.broadcast nthr (.ext n)) { k with dev := r.1 }
      else .ok k
  | .env e => .ok { k with dev := cl.env e k.dev }

/-- What holds of a result, and of the reason to stop when there is none. -/
def Ensures {α : Type} (r : Except Stop α) (P : α → Prop) (Q : Stop → Prop) : Prop :=
  match r with
  | .ok a => P a
  | .error s => Q s

def run (cl : Client σ ι ε) (nthr : Nat) (k : Kernel σ ι) (ls : List (Label ι ε)) : Except Stop (Kernel σ ι) :=
  ls.foldlM (step cl nthr) k

/-- After thread_init: the main thread runs, the idle thread is on ready_list. -/
def threadInit (nthr : Nat) (dev : σ) (satp : Nat) (sie : Bool) : Kernel σ ι where
  tp := mainThread
  sie
  satp
  brk := 2
  thrtab := Function.update (Function.update (fun _ => none) mainThread (some mainThread)) (nthr - 1) (some idleThread)
  readyList := ⟨some idleThread, some idleThread⟩
  waitList := fun _ => tlclear
  state := Function.update (Function.update (fun _ => .uninitialized) mainThread .running) idleThread .ready
  id := Function.update (fun _ => 0) idleThread (nthr - 1)
  proc := fun _ => none
  parent := Function.update (fun _ => none) idleThread (some mainThread)
  listNext := fun _ => none
  waitCond := fun _ => none
  stackBase := fun _ => none
  code := Function.update (fun _ => []) idleThread [.idleLoop]
  ret := fun _ => 0
  freed := []
  joined := []
  dev

end RiscvKernel.Scheduler
