import RiscvKernel.IoTable

namespace RiscvKernel.Syscall

open Io IoTable

variable {α : Type}

def nthr : Int := 16
def nproc : Int := 16
def eaccess : Int := 8

/-- scnum.h. -/
inductive Number
  | exit | msgout | devopen | fsopen | close | read | write | ioctl | exec | fork | usleep | wait
  deriving DecidableEq

def Number.code : Number → Nat
  | .exit => 0
  | .msgout => 1
  | .devopen => 10
  | .fsopen => 11
  | .close => 20
  | .read => 21
  | .write => 22
  | .ioctl => 23
  | .exec => 30
  | .fork => 31
  | .usleep => 40
  | .wait => 41

def number (w : BitVec 64) : Option Number :=
  [Number.msgout, .exit, .devopen, .fsopen, .close, .read, .write, .ioctl, .exec, .fork, .wait, .usleep].find? fun n => n.code = w.toNat

/-- What the kernel indexes or goes through: an entry of a table, or an object pointer. -/
inductive Access (α : Type)
  | iotab (i : Int)
  | thrtab (i : Int)
  | proctab (i : Int)
  | io (o : Option α)

def Access.Ok : Access α → Prop
  | .iotab i => InTable i
  | .thrtab i => 0 ≤ i ∧ i < nthr
  | .proctab i => 0 ≤ i ∧ i < nproc
  | .io o => o ≠ none

/-- The tables with the memory around them: the iotab of each process, proctab, thrtab, and
parent and state of the threads. -/
structure Tables (α : Type) where
  iotab : Nat → IoTab α
  proctab : Int → Option Nat
  thrtab : Int → Option Nat
  parent : Nat → Nat
  exited : Nat → Bool

/-- The running thread, its place in thrtab and its process. -/
structure Caller where
  thr : Nat
  tid : Int
  proc : Nat
  tid_lt : 0 ≤ tid ∧ tid < nthr

/-- What other code gives a call: the object that device_open or fs_open opens, the results of
an object's operations, the process that kmalloc allocates, and the tables as the other threads
have left them when a thread goes on after condition_wait. -/
structure Env (α : Type) where
  opened : Option α
  io : Int
  ctl : Int → Int
  proc : Nat
  woken : Tables α

/-- The result of a call, none if it does not return, the tables it leaves, and what it went
through, in order. -/
structure Effect (α : Type) where
  result : Option Int
  tables : Tables α
  log : List (Access α)

section Calls

variable (c : Caller) (e : Env α) (k : Tables α)

/-- current_process(). -/
def currentProcess : List (Access α) := [.thrtab c.tid]

/-- current_process() -> iotab[fd]. -/
def entry (fd : Int) : List (Access α) := currentProcess c ++ [.iotab fd]

def sysmsgout : Effect α := ⟨some 0, k, [.thrtab c.tid]⟩

/-- The entries 0 to 15 in the loops over iotab. -/
def descriptors : List Int := (List.range 16).map fun i : Nat => (i : Int)

/-- process_exit, without the memory: thread_exit does not return. -/
def processExit : Effect α :=
  ⟨none, { k with exited := Function.update k.exited c.thr true },
    currentProcess c ++ descriptors.flatMap fun x =>
      .iotab x :: match k.iotab c.proc x with
        | some o => [.io (some o)]
        | none => []⟩

def sysexit : Effect α := processExit c k

def sysdevopen (fd : Int) : Effect α :=
  let r := IoTable.sysdevopen fd e.opened (k.iotab c.proc)
  ⟨some r.result, { k with iotab := Function.update k.iotab c.proc r.iotab }, r.touched.flatMap (entry c)⟩

def sysfsopen (fd : Int) : Effect α :=
  let r := IoTable.sysfsopen fd e.opened (k.iotab c.proc)
  ⟨some r.result, { k with iotab := Function.update k.iotab c.proc r.iotab }, r.touched.flatMap (entry c)⟩

def sysclose (fd : Int) : Effect α :=
  ⟨some 0, { k with iotab := Function.update k.iotab c.proc (Function.update (k.iotab c.proc) fd none) },
    entry c fd ++ [.io (k.iotab c.proc fd)] ++ entry c fd⟩

/-- sysread and syswrite: the object's result is taken as an int. -/
def transfer (fd : Int) : Effect α :=
  match k.iotab c.proc fd with
  | none => ⟨some (-eaccess), k, entry c fd⟩
  | some o =>
      let val := (BitVec.ofInt 32 e.io).toInt
      ⟨some (if val < 0 then -eio else val), k, entry c fd ++ entry c fd ++ [.io (some o)]⟩

def sysread (fd : Int) : Effect α := transfer c e k fd

def syswrite (fd : Int) : Effect α := transfer c e k fd

def ioctlSetlen : Int := 2
def ioctlSetpos : Int := 4

def sysioctl (fd cmd : Int) : Effect α :=
  ⟨some (e.ctl (if cmd = ioctlSetlen then ioctlSetpos else cmd)), k, entry c fd ++ [.io (k.iotab c.proc fd)]⟩

/-- process_exec does not return. -/
def sysexec (fd : Int) : Effect α :=
  match k.iotab c.proc fd with
  | none => ⟨some (-einval), k, entry c fd⟩
  | some o => ⟨none, k, entry c fd ++ entry c fd ++ [.io (some o)]⟩

/-- process_fork, without the memory. -/
def sysfork : Effect α :=
  let found := findFree (fun x => nproc ≤ x + 1) k.proctab 16 0
  let proctab := match found.2 with
    | some x => Function.update k.proctab x (some e.proc)
    | none => k.proctab
  let iotab : IoTab α := fun x => if InTable x then k.iotab c.proc x else k.iotab e.proc x
  ⟨some 0, { k with proctab := proctab, iotab := Function.update k.iotab e.proc iotab },
    (found.1 ++ found.2.toList).map .proctab ++ descriptors.flatMap fun x =>
      entry c x ++ .iotab x :: match k.iotab c.proc x with
        | some o => [.iotab x, .io (some o)]
        | none => []⟩

/-- The threads that a loop over thrtab from 1 on looks at. -/
def slots : List Int := (List.range 15).map fun i : Nat => (i : Int) + 1

/-- recycle_thread; none where an assertion fails. -/
def recycleThread (tid : Int) : Effect α :=
  match k.thrtab tid with
  | none => ⟨none, k, [.thrtab tid]⟩
  | some thr =>
      if k.exited thr then
        let k := slots.foldl (fun k ctid => match k.thrtab ctid with
          | some t => if k.parent t = thr then { k with parent := Function.update k.parent t (k.parent thr) } else k
          | none => k) k
        ⟨some tid, { k with thrtab := Function.update k.thrtab tid none }, .thrtab tid :: slots.map .thrtab ++ [.thrtab tid]⟩
      else ⟨none, k, [.thrtab tid]⟩

/-- thread_join: thrtab is read before tid is checked. -/
def threadJoin (tid : Int) : Effect α :=
  let child := k.thrtab tid
  if tid ≤ 0 ∨ nthr ≤ tid then ⟨some (-1), k, [.thrtab tid]⟩
  else
    match child with
    | none => ⟨some (-1), k, [.thrtab tid]⟩
    | some child =>
        if k.parent child ≠ c.thr then ⟨some (-1), k, [.thrtab tid]⟩
        else
          let r := recycleThread (if k.exited child then k else e.woken) tid
          { r with log := .thrtab tid :: r.log }

def isChild (tid : Int) : Bool :=
  match k.thrtab tid with
  | some t => k.parent t = c.thr
  | none => false

def isExited (tid : Int) : Bool :=
  match k.thrtab tid with
  | some t => k.exited t
  | none => false

/-- The loops of thread_join_any from tid on: what they read, and the exited child they find. -/
def findExited : Nat → Int → List Int × Option Int
  | 0, _ => ([], none)
  | fuel + 1, tid =>
      if isChild c k tid && isExited k tid then ([tid], some tid)
      else (tid :: (findExited fuel (tid + 1)).1, (findExited fuel (tid + 1)).2)

/-- thread_join_any; none where it panics. -/
def threadJoinAny : Effect α :=
  let seen := findExited c k 15 1
  match seen.2 with
  | some tid =>
      let r := threadJoin c e k tid
      { r with log := seen.1.map .thrtab ++ r.log }
  | none =>
      if slots.all fun tid => !isChild c k tid then ⟨none, k, seen.1.map .thrtab⟩
      else
        let seen' := findExited c e.woken 15 1
        match seen'.2 with
        | some tid =>
            let r := recycleThread e.woken tid
            { r with log := (seen.1 ++ seen'.1).map .thrtab ++ r.log }
        | none => ⟨none, e.woken, (seen.1 ++ seen'.1).map .thrtab⟩

def syswait (tid : Int) : Effect α := if tid = 0 then threadJoinAny c e k else threadJoin c e k tid

/-- The cast to int. -/
def int (w : BitVec 64) : Int := (w.setWidth 32).toInt

/-- syscall, on the argument registers of the trap frame. -/
def syscall (a : Fin 8 → BitVec 64) : Effect α :=
  match number (a 7) with
  | some .msgout => sysmsgout c k
  | some .exit => sysexit c k
  | some .devopen => sysdevopen c e k (int (a 0))
  | some .fsopen => sysfsopen c e k (int (a 0))
  | some .close => sysclose c k (int (a 0))
  | some .read => sysread c e k (int (a 0))
  | some .write => syswrite c e k (int (a 0))
  | some .ioctl => sysioctl c e k (int (a 0)) (int (a 1))
  | some .exec => sysexec c k (int (a 0))
  | some .fork => sysfork c e k
  | some .wait => syswait c e k (int (a 0))
  | some .usleep => ⟨some 0, k, []⟩
  | none => ⟨some 0, k, []⟩

/-- The argument is out of range, or a descriptor that is not open. -/
def BadArg (a : Fin 8 → BitVec 64) : Prop :=
  match number (a 7) with
  | some .read | some .write | some .ioctl | some .close | some .exec => ¬ InTable (int (a 0)) ∨ k.iotab c.proc (int (a 0)) = none
  | some .devopen | some .fsopen => processIomax ≤ int (a 0)
  | some .wait => int (a 0) < 0 ∨ nthr ≤ int (a 0)
  | _ => False

/-- A call stays in the tables and goes through no NULL pointer, and fails on a bad argument
without any effect on the tables. -/
structure Checked (a : Fin 8 → BitVec 64) : Prop where
  inside : ∀ x ∈ (syscall c e k a).log, x.Ok
  refused : BadArg c k a → ∃ r, (syscall c e k a).result = some r ∧ r < 0 ∧ (syscall c e k a).tables = k

/-- When a call is checked: it is given a descriptor in the table, an open one for ioctl and
close; device_open and fs_open fail if it is out of range; fsopen has a free entry to find; and
a thread id is in range. -/
def Safe (a : Fin 8 → BitVec 64) : Prop :=
  match number (a 7) with
  | some .read | some .write | some .exec => InTable (int (a 0))
  | some .ioctl | some .close => InTable (int (a 0)) ∧ k.iotab c.proc (int (a 0)) ≠ none
  | some .devopen => int (a 0) < processIomax ∨ e.opened = none
  | some .fsopen => (int (a 0) < processIomax ∨ e.opened = none) ∧ (int (a 0) < 0 → ¬ Full (k.iotab c.proc))
  | some .wait => 0 ≤ int (a 0) ∧ int (a 0) < nthr
  | _ => True

end Calls

section Inside

variable {c : Caller} {e : Env α} {k : Tables α} {fd tid x : Int} {log log' : List (Access α)}

def Inside (log : List (Access α)) : Prop := ∀ x ∈ log, x.Ok

theorem inside_nil : Inside ([] : List (Access α)) := fun x hx => by cases hx

theorem inside_cons {a : Access α} : Inside (a :: log) ↔ a.Ok ∧ Inside log := List.forall_mem_cons

theorem inside_append : Inside (log ++ log') ↔ Inside log ∧ Inside log' := List.forall_mem_append

theorem inside_map {l : List Int} {f : Int → Access α} : Inside (l.map f) ↔ ∀ i ∈ l, (f i).Ok := List.forall_mem_map

theorem inside_flatMap {l : List Int} {f : Int → List (Access α)} : Inside (l.flatMap f) ↔ ∀ i ∈ l, Inside (f i) := by
  constructor
  · exact fun h i hi x hx => h x (List.mem_flatMap.mpr ⟨i, hi, hx⟩)
  · intro h x hx
    obtain ⟨i, hi, hx⟩ := List.mem_flatMap.mp hx
    exact h i hi x hx

theorem inside_io (o : α) : Inside [.io (some o)] := inside_cons.mpr ⟨Option.some_ne_none o, inside_nil⟩

theorem inside_thrtab (h : 0 ≤ tid ∧ tid < nthr) : Inside ([.thrtab tid] : List (Access α)) := inside_cons.mpr ⟨h, inside_nil⟩

theorem inside_entry : Inside (entry c fd : List (Access α)) ↔ InTable fd := by
  rw [entry, currentProcess, inside_append, inside_cons, inside_cons]
  exact ⟨fun h => h.2.1, fun h => ⟨⟨c.tid_lt, inside_nil⟩, h, inside_nil⟩⟩

theorem inTable_descriptors (h : x ∈ descriptors) : InTable x := by
  obtain ⟨i, hi, rfl⟩ := List.mem_map.mp h
  have := List.mem_range.mp hi
  unfold InTable processIomax
  omega

theorem slots_inside (h : x ∈ slots) : 0 ≤ x ∧ x < nthr := by
  obtain ⟨i, hi, rfl⟩ := List.mem_map.mp h
  have := List.mem_range.mp hi
  unfold nthr
  omega

theorem inside_object (o : Option α) : Inside (match o with
    | some o => [.io (some o)]
    | none => []) := by
  cases o with
  | some o => exact inside_io o
  | none => exact inside_nil

theorem processExit_inside : Inside (processExit c k).log := by
  refine inside_append.mpr ⟨inside_thrtab c.tid_lt, inside_flatMap.mpr fun x hx => ?_⟩
  exact inside_cons.mpr ⟨inTable_descriptors hx, inside_object _⟩

theorem findFree_bounds (ends : Int → Bool) {β : Type} (tab : IoTab β) (fuel : Nat) (x : Int) :
    (∀ i ∈ (findFree ends tab fuel x).1, x ≤ i ∧ i < x + fuel) ∧ ∀ i ∈ (findFree ends tab fuel x).2, x ≤ i ∧ i < x + fuel := by
  induction fuel generalizing x with
  | zero => exact ⟨fun i hi => (by cases hi), fun i hi => (by cases hi)⟩
  | succ fuel ih =>
      obtain ⟨hreads, hfree⟩ := ih (x + 1)
      have hself : ∀ i ∈ [x], x ≤ i ∧ i < x + (fuel + 1 : Nat) := fun i hi => by
        obtain rfl := List.mem_singleton.mp hi
        omega
      rw [findFree]
      split_ifs
      · refine ⟨hself, fun i hi => ?_⟩
        obtain rfl := Option.some.inj hi
        exact hself _ (List.mem_singleton_self _)
      · exact ⟨hself, fun i hi => (by cases hi)⟩
      · refine ⟨fun i hi => ?_, fun i hi => ?_⟩
        · rcases List.mem_cons.mp hi with rfl | hi
          · omega
          · have := hreads i hi
            omega
        · have := hfree i hi
          omega

theorem findExited_bounds (fuel : Nat) (x : Int) : (∀ i ∈ (findExited c k fuel x).1, x ≤ i ∧ i < x + fuel) ∧
    ∀ i ∈ (findExited c k fuel x).2, x ≤ i ∧ i < x + fuel := by
  induction fuel generalizing x with
  | zero => exact ⟨fun i hi => (by cases hi), fun i hi => (by cases hi)⟩
  | succ fuel ih =>
      obtain ⟨hreads, hfound⟩ := ih (x + 1)
      rw [findExited]
      split_ifs
      · refine ⟨fun i hi => ?_, fun i hi => ?_⟩
        · obtain rfl := List.mem_singleton.mp hi
          omega
        · obtain rfl := Option.some.inj hi
          omega
      · refine ⟨fun i hi => ?_, fun i hi => ?_⟩
        · rcases List.mem_cons.mp hi with rfl | hi
          · omega
          · have := hreads i hi
            omega
        · have := hfound i hi
          omega

theorem sysfork_inside : Inside (sysfork c e k).log := by
  obtain ⟨hreads, hfree⟩ := findFree_bounds (fun x => nproc ≤ x + 1) k.proctab 16 0
  rw [sysfork]
  refine inside_append.mpr ⟨inside_map.mpr fun i hi => ?_, inside_flatMap.mpr fun x hx => ?_⟩
  · have hi : 0 ≤ i ∧ i < 0 + (16 : Nat) := by
      rcases List.mem_append.mp hi with hi | hi
      · exact hreads i hi
      · exact hfree i (Option.mem_toList.mp hi)
    exact ⟨hi.1, by unfold nproc; omega⟩
  · refine inside_append.mpr ⟨inside_entry.mpr (inTable_descriptors hx), inside_cons.mpr ⟨inTable_descriptors hx, ?_⟩⟩
    cases k.iotab c.proc x with
    | some o => exact inside_cons.mpr ⟨inTable_descriptors hx, inside_io o⟩
    | none => exact inside_nil

theorem recycleThread_inside (h : 0 ≤ tid ∧ tid < nthr) : Inside (recycleThread k tid).log := by
  rw [recycleThread]
  cases k.thrtab tid with
  | none => exact inside_thrtab h
  | some thr =>
      dsimp only
      split_ifs
      · refine inside_cons.mpr ⟨h, inside_append.mpr ⟨inside_map.mpr fun i hi => slots_inside hi, inside_thrtab h⟩⟩
      · exact inside_thrtab h

/-- thread_join reads thrtab at any tid. -/
theorem threadJoin_inside : Inside (threadJoin c e k tid).log ↔ 0 ≤ tid ∧ tid < nthr := by
  constructor
  · intro h
    have hfirst : Access.thrtab tid ∈ (threadJoin c e k tid).log := by
      rw [threadJoin]
      dsimp only
      split_ifs
      · exact List.mem_singleton_self _
      · split
        · exact List.mem_singleton_self _
        · split_ifs <;> exact List.mem_cons_self
    exact h _ hfirst
  · intro h
    rw [threadJoin]
    dsimp only
    split_ifs
    · exact inside_thrtab h
    · split
      · exact inside_thrtab h
      · split_ifs
        · exact inside_thrtab h
        · exact inside_cons.mpr ⟨h, recycleThread_inside h⟩
        · exact inside_cons.mpr ⟨h, recycleThread_inside h⟩

theorem threadJoinAny_inside : Inside (threadJoinAny c e k).log := by
  have hbounds : ∀ k : Tables α, Inside ((findExited c k 15 1).1.map .thrtab : List (Access α)) ∧
      ∀ i ∈ (findExited c k 15 1).2, 0 ≤ i ∧ i < nthr := fun k => by
    obtain ⟨hreads, hfound⟩ := findExited_bounds (c := c) (k := k) 15 1
    have hin : ∀ i : Int, 1 ≤ i ∧ i < 1 + (15 : Nat) → 0 ≤ i ∧ i < nthr := fun i hi => by
      unfold nthr
      omega
    exact ⟨inside_map.mpr fun i hi => hin i (hreads i hi), fun i hi => hin i (hfound i hi)⟩
  obtain ⟨hseen, hfound⟩ := hbounds k
  obtain ⟨hseen', hfound'⟩ := hbounds e.woken
  rw [threadJoinAny]
  dsimp only
  split
  · rename_i tid htid
    exact inside_append.mpr ⟨hseen, threadJoin_inside.mpr (hfound tid htid)⟩
  · split_ifs
    · exact hseen
    · split
      · rename_i tid htid
        rw [List.map_append]
        exact inside_append.mpr ⟨inside_append.mpr ⟨hseen, hseen'⟩, recycleThread_inside (hfound' tid htid)⟩
      · rw [List.map_append]
        exact inside_append.mpr ⟨hseen, hseen'⟩

theorem syswait_inside : Inside (syswait c e k tid).log ↔ 0 ≤ tid ∧ tid < nthr := by
  rw [syswait]
  split_ifs with h₀
  · subst h₀
    exact iff_of_true threadJoinAny_inside (by decide)
  · exact threadJoin_inside

theorem inside_touched {l : List Int} : Inside (l.flatMap (entry c) : List (Access α)) ↔ ∀ i ∈ l, InTable i := by
  rw [inside_flatMap]
  exact forall₂_congr fun i _ => inside_entry

theorem transfer_inside : Inside (transfer c e k fd).log ↔ InTable fd := by
  rw [transfer]
  cases k.iotab c.proc fd with
  | none => exact inside_entry
  | some o =>
      rw [inside_append, inside_append, inside_entry]
      exact ⟨fun h => h.1.1, fun h => ⟨⟨h, h⟩, inside_io o⟩⟩

theorem sysexec_inside : Inside (sysexec c k fd).log ↔ InTable fd := by
  rw [sysexec]
  cases k.iotab c.proc fd with
  | none => exact inside_entry
  | some o =>
      rw [inside_append, inside_append, inside_entry]
      exact ⟨fun h => h.1.1, fun h => ⟨⟨h, h⟩, inside_io o⟩⟩

theorem inside_through {o : Option α} : Inside [.io o] ↔ o ≠ none := by
  rw [inside_cons]
  exact ⟨fun h => h.1, fun h => ⟨h, inside_nil⟩⟩

theorem sysioctl_inside {cmd : Int} : Inside (sysioctl c e k fd cmd).log ↔ InTable fd ∧ k.iotab c.proc fd ≠ none := by
  rw [sysioctl, inside_append, inside_entry, inside_through]

theorem sysclose_inside : Inside (sysclose c k fd).log ↔ InTable fd ∧ k.iotab c.proc fd ≠ none := by
  rw [sysclose, inside_append, inside_append, inside_entry, inside_through]
  exact ⟨fun h => h.1, fun h => ⟨h, h.1⟩⟩

theorem sysdevopen_inside : Inside (sysdevopen c e k fd).log ↔ fd < processIomax ∨ e.opened = none := by
  rw [sysdevopen, inside_touched]
  by_cases hfd : 0 ≤ fd
  · rw [IoTable.sysdevopen, openWith, if_pos hfd]
    cases e.opened with
    | none => exact iff_of_true (fun i hi => (by cases hi)) (.inr rfl)
    | some o =>
        rw [or_iff_left (Option.some_ne_none o), storeAt, List.nil_append, List.forall_mem_singleton]
        exact ⟨fun h => h.2, fun h => ⟨hfd, h⟩⟩
  · refine iff_of_true (fun i hi => ?_) (.inl (Int.lt_trans (Int.not_le.mp hfd) (by decide)))
    have h₀ : ∀ j ∈ [(0 : Int)], InTable j := fun j hj => List.mem_singleton.mp hj ▸ (by decide)
    cases hfirst : k.iotab c.proc 0 with
    | none =>
        rw [sysdevopen_free (Int.not_le.mp hfd) hfirst] at hi
        cases ho : e.opened with
        | none =>
            rw [ho] at hi
            exact h₀ i hi
        | some o =>
            rw [ho] at hi
            exact (List.mem_append.mp hi).elim (h₀ i) (h₀ i)
    | some o =>
        rw [sysdevopen_used (Int.not_le.mp hfd) (by rw [hfirst]; exact Option.some_ne_none o)] at hi
        exact h₀ i hi

theorem sysfsopen_inside : Inside (sysfsopen c e k fd).log ↔
    (fd < processIomax ∨ e.opened = none) ∧ (fd < 0 → ¬ Full (k.iotab c.proc)) := by
  rw [sysfsopen, inside_touched]
  by_cases hfd : 0 ≤ fd
  · rw [IoTable.sysfsopen, openWith, if_pos hfd, and_iff_left fun hlt => absurd hfd (Int.not_le.mpr hlt)]
    cases e.opened with
    | none => exact iff_of_true (fun i hi => (by cases hi)) (.inr rfl)
    | some o =>
        rw [or_iff_left (Option.some_ne_none o), storeAt, List.nil_append, List.forall_mem_singleton]
        exact ⟨fun h => h.2, fun h => ⟨hfd, h⟩⟩
  · have hneg := Int.not_le.mp hfd
    rw [and_iff_right (.inl (Int.lt_trans hneg (by decide)))]
    constructor
    · intro h _ hfull
      exact absurd (h _ (sysfsopen_full hneg hfull e.opened)) (by decide)
    · intro h
      have hall := (allocates_sysfsopen_iff hneg (k.iotab c.proc)).mpr (h hneg)
      exact hall.inside e.opened

theorem transfer_refused (h : InTable fd) (hbad : ¬ InTable fd ∨ k.iotab c.proc fd = none) :
    ∃ r, (transfer c e k fd).result = some r ∧ r < 0 ∧ (transfer c e k fd).tables = k := by
  rw [transfer, hbad.resolve_left (not_not.mpr h)]
  exact ⟨_, rfl, by decide, rfl⟩

theorem sysexec_refused (h : InTable fd) (hbad : ¬ InTable fd ∨ k.iotab c.proc fd = none) :
    ∃ r, (sysexec c k fd).result = some r ∧ r < 0 ∧ (sysexec c k fd).tables = k := by
  rw [sysexec, hbad.resolve_left (not_not.mpr h)]
  exact ⟨_, rfl, by decide, rfl⟩

/-- A number out of range is refused when the file or device cannot be opened. -/
theorem openWith_refused {ends : Int → Bool} {iotab : IoTab α} (hfd : processIomax ≤ fd) :
    openWith ends fd none iotab = ⟨-einval, iotab, [], true⟩ := by
  rw [openWith, if_pos (Int.le_trans (by decide) hfd), storeAt]

end Inside

section Runs

variable {c : Caller} {e : Env α} {k : Tables α} {a : Fin 8 → BitVec 64}

theorem checked_iff : Checked c e k a ↔ Safe c e k a := by
  have hsplit : Checked c e k a ↔ Inside (syscall c e k a).log ∧
      (BadArg c k a → ∃ r, (syscall c e k a).result = some r ∧ r < 0 ∧ (syscall c e k a).tables = k) :=
    ⟨fun h => ⟨h.1, h.2⟩, fun h => ⟨h.1, h.2⟩⟩
  rw [hsplit, syscall, Safe, BadArg]
  generalize number (a 7) = n
  generalize int (a 0) = fd
  cases n with
  | none => exact iff_of_true ⟨inside_nil, fun h => absurd h id⟩ trivial
  | some n =>
      cases n with
      | usleep => exact iff_of_true ⟨inside_nil, fun h => absurd h id⟩ trivial
      | msgout => exact iff_of_true ⟨inside_thrtab c.tid_lt, fun h => absurd h id⟩ trivial
      | exit => exact iff_of_true ⟨processExit_inside, fun h => absurd h id⟩ trivial
      | fork => exact iff_of_true ⟨sysfork_inside, fun h => absurd h id⟩ trivial
      | wait =>
          exact ⟨fun h => syswait_inside.mp h.1, fun h => ⟨syswait_inside.mpr h, fun hbad => by omega⟩⟩
      | close =>
          refine ⟨fun h => sysclose_inside.mp h.1, fun h => ⟨sysclose_inside.mpr h, fun hbad => ?_⟩⟩
          exact absurd hbad (not_or.mpr ⟨not_not.mpr h.1, h.2⟩)
      | ioctl =>
          refine ⟨fun h => sysioctl_inside.mp h.1, fun h => ⟨sysioctl_inside.mpr h, fun hbad => ?_⟩⟩
          exact absurd hbad (not_or.mpr ⟨not_not.mpr h.1, h.2⟩)
      | read => exact ⟨fun h => transfer_inside.mp h.1, fun h => ⟨transfer_inside.mpr h, transfer_refused h⟩⟩
      | write => exact ⟨fun h => transfer_inside.mp h.1, fun h => ⟨transfer_inside.mpr h, transfer_refused h⟩⟩
      | exec => exact ⟨fun h => sysexec_inside.mp h.1, fun h => ⟨sysexec_inside.mpr h, sysexec_refused h⟩⟩
      | devopen =>
          refine ⟨fun h => sysdevopen_inside.mp h.1, fun h => ⟨sysdevopen_inside.mpr h, fun hbad => ?_⟩⟩
          have ho := h.resolve_left (Int.not_lt.mpr hbad)
          refine ⟨-einval, ?_, by decide, ?_⟩
          · dsimp only
            rw [sysdevopen, IoTable.sysdevopen, ho, openWith_refused hbad]
          · dsimp only
            rw [sysdevopen, IoTable.sysdevopen, ho, openWith_refused hbad, Function.update_eq_self]
      | fsopen =>
          refine ⟨fun h => sysfsopen_inside.mp h.1, fun h => ⟨sysfsopen_inside.mpr h, fun hbad => ?_⟩⟩
          have ho := h.1.resolve_left (Int.not_lt.mpr hbad)
          refine ⟨-einval, ?_, by decide, ?_⟩
          · dsimp only
            rw [sysfsopen, IoTable.sysfsopen, ho, openWith_refused hbad]
          · dsimp only
            rw [sysfsopen, IoTable.sysfsopen, ho, openWith_refused hbad, Function.update_eq_self]

/-- A system call in a run: the thread that makes it, with what the trap frame holds. -/
structure Call (α : Type) where
  caller : Caller
  env : Env α
  a : Fin 8 → BitVec 64

def AllChecked : Tables α → List (Call α) → Prop
  | _, [] => True
  | k, x :: calls => Checked x.caller x.env k x.a ∧ AllChecked (syscall x.caller x.env k x.a).tables calls

def AllSafe : Tables α → List (Call α) → Prop
  | _, [] => True
  | k, x :: calls => Safe x.caller x.env k x.a ∧ AllSafe (syscall x.caller x.env k x.a).tables calls

/-- Every call of a run is checked if and only if every call of it is safe. -/
theorem syscalls_checked_iff (k : Tables α) (calls : List (Call α)) : AllChecked k calls ↔ AllSafe k calls := by
  induction calls generalizing k with
  | nil => exact Iff.rfl
  | cons x calls ih => exact and_congr checked_iff (ih _)

end Runs

/-- The tables when only the main thread and the idle thread are there. -/
def bootTables : Tables Nat :=
  ⟨fun _ _ => none, fun i => if i = 0 then some 0 else none, fun i => if i = 0 then some 0 else if i = 15 then some 15 else none,
    fun _ => 0, fun _ => false⟩

/-- The main process reads from descriptor 16. -/
def read16 : Call Nat :=
  ⟨⟨0, 0, 0, by decide⟩, ⟨none, 0, fun _ => 0, 1, bootTables⟩, fun i => if i = 7 then 21 else if i = 0 then 16 else 0⟩

theorem not_allChecked_read16 : ¬ ∀ calls, AllChecked bootTables calls := by
  intro h
  have hlog : (syscall read16.caller read16.env bootTables read16.a).log = [.thrtab 0, .iotab 16] := rfl
  have hchecked := (h [read16]).1.inside (.iotab 16) (hlog ▸ List.mem_cons_of_mem _ (List.mem_singleton_self _))
  exact absurd hchecked.2 (by decide)

end RiscvKernel.Syscall
