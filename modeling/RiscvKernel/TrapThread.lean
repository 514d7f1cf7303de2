import RiscvKernel.TrapReturn

/-! The thread that a handler of a trap from user mode runs as. -/

namespace RiscvKernel.TrapThread

open Lib.Rv64 TrapEntry TrapReturn

section Source

variable (thrtab : Word) (m : Machine)

/-- The thread member of the struct thread_stack_anchor that sscratch points to while the
thread is in user mode. -/
def anchorThread : Word := m.load (m.csr .sscratch)

/-- CURTHR->id; id is 140 bytes into struct thread. -/
def runningThread : Int := (m.loadWord (curthr m + 140)).toInt

/-- The address of thrtab[tid]. -/
def thrtabEntry (tid : Int) : Word := thrtab + BitVec.ofInt 64 (8 * tid)

/-- thrtab[tid]->proc; proc is 144 bytes into struct thread. The assertion on tid holds of every
int, the other one fails for a free slot. -/
def threadProcess (tid : Int) : Option Word :=
  let thr := m.load (thrtabEntry thrtab tid)
  if thr = 0 then none else some (m.load (thr + 144))

def currentProcess : Option Word := threadProcess thrtab m (runningThread m)

/-- running_thread and current_process are the same in two machines. -/
def SameThread (m' : Machine) : Prop := runningThread m = runningThread m' ∧ currentProcess thrtab m = currentProcess thrtab m'

end Source

section Frame

variable {thrtab : Word} {m m' : Machine}

/-- What the entry stores in the trap frame: doubleword k is x[k], 32 is sstatus and 33 is sepc. -/
def saved (m : Machine) : List (Nat × Word) :=
  [(31, m.get t6), (2, m.get sp)] ++ gprSlots.map (fun s => (s.2, m.get s.1)) ++ [(32, m.csr .sstatus), (33, m.csr .sepc)]

/-- The machine at the trap, with the user's registers in the trap frame below the anchor. -/
def framed (m : Machine) : Machine := storeAll (frameOf (m.csr .sscratch)) m (saved m)

/-- n bytes from an address on, none of them in the trap frame. -/
def OutsideFrame (m : Machine) (a : Word) (n : Nat) : Prop :=
  ∀ i < n, 34 * 8 ≤ (a + BitVec.ofNat 64 i - frameOf (m.csr .sscratch)).toNat

/-- What running_thread and current_process read lies apart from the trap frame: the id of tp's
struct thread, the entry of thrtab for it and the process of the thread there. -/
structure ThreadApart (thrtab : Word) (m : Machine) : Prop where
  id : OutsideFrame m (curthr m + 140) 4
  entry : OutsideFrame m (thrtabEntry thrtab (runningThread m)) 8
  proc : OutsideFrame m (m.load (thrtabEntry thrtab (runningThread m)) + 144) 8

theorem saved_slot : ∀ s ∈ saved m, s.1 < 34 := by
  intro s hs
  rw [saved, List.mem_append, List.mem_append, List.mem_map] at hs
  rcases hs with (hs | ⟨q, hq, rfl⟩) | hs
  · simp only [List.mem_cons, List.not_mem_nil, or_false] at hs
    rcases hs with rfl | rfl <;> simp
  · have hk := gprSlots_mem hq
    have hr := q.1.isLt
    omega
  · simp only [List.mem_cons, List.not_mem_nil, or_false] at hs
    rcases hs with rfl | rfl <;> simp

theorem framed_outside {a : Word} (h : 34 * 8 ≤ (a - frameOf (m.csr .sscratch)).toNat) : (framed m).mem a = m.mem a := by
  refine storeAll_outside fun s hs => ?_
  have hk := saved_slot s hs
  rw [word, sub_add_eq_sub_sub]
  generalize a - frameOf (m.csr .sscratch) = d at h
  have hofs : BitVec.ofInt 64 (8 * s.1) = BitVec.ofNat 64 (8 * s.1) := BitVec.ofInt_natCast 64 (8 * s.1)
  rw [hofs, BitVec.toNat_sub, BitVec.toNat_ofNat]
  omega

theorem framed_get (r : Reg) : (framed m).get r = m.get r := storeAll_get

theorem step_sd {r base : Reg} {f : Word} {k : Nat} {i : Int} (hbase : m.get base = f) (hi : i = 8 * (k : Int)) :
    step m (.sd r i base) = m.store (word f k) (m.get r) := by
  rw [step, hbase, word_ofInt f hi]

theorem entry_sp : (run m [.csrrw sp .sscratch sp, .addi sp sp (-34 * 8)]).get sp = frameOf (m.csr .sscratch) ∧
    (run m [.csrrw sp .sscratch sp, .addi sp sp (-34 * 8)]).get t6 = m.get t6 ∧
    (run m [.csrrw sp .sscratch sp, .addi sp sp (-34 * 8)]).csr .sscratch = m.get sp ∧
    (run m [.csrrw sp .sscratch sp, .addi sp sp (-34 * 8)]).mem = m.mem := by
  have hsp : sp ≠ 0 := by decide
  refine ⟨?_, run_get rfl, ?_, rfl⟩
  · simp only [run, List.foldl_cons, List.foldl_nil, step, get_set_self hsp]
    rfl
  · simp only [run, List.foldl_cons, List.foldl_nil, step, csr_set, csr_setCsr_self]

theorem entry_head_mem :
    (run m [.csrrw sp .sscratch sp, .addi sp sp (-34 * 8), .sd t6 (31 * 8) sp, .csrr t6 .sscratch, .sd t6 (2 * 8) sp]).mem =
      (storeAll (frameOf (m.csr .sscratch)) m [(31, m.get t6), (2, m.get sp)]).mem := by
  obtain ⟨hsp, ht6, hcsr, hmem⟩ := entry_sp (m := m)
  have hsplit : ∀ i j k l n : Instr, run m [i, j, k, l, n] = step (step (step (run m [i, j]) k) l) n := fun _ _ _ _ _ => rfl
  rw [hsplit]
  generalize run m [.csrrw sp .sscratch sp, .addi sp sp (-34 * 8)] = m₁ at hsp ht6 hcsr hmem ⊢
  generalize frameOf (m.csr .sscratch) = f at hsp ⊢
  have hmem₂ := store_mem_congr hmem (word f 31) (m.get t6)
  rw [step_sd (k := 31) (i := 31 * 8) hsp rfl, ht6]
  obtain ⟨m₂, hm₂⟩ : ∃ m₂, m₂ = m₁.store (word f 31) (m.get t6) := ⟨_, rfl⟩
  have hsp₂ : m₂.get sp = f := by rw [hm₂, get_store, hsp]
  have hcsr₂ : m₂.csr .sscratch = m.get sp := by rw [hm₂, csr_store, hcsr]
  rw [← hm₂] at hmem₂ ⊢
  have hne : sp ≠ t6 := by decide
  have hcsrr : step m₂ (.csrr t6 .sscratch) = m₂.set t6 (m.get sp) := by rw [step, hcsr₂]
  rw [hcsrr, step_sd (k := 2) (i := 2 * 8) ((get_set_ne hne _).trans hsp₂) rfl, get_set_self (by decide)]
  exact store_mem_congr hmem₂ _ _

theorem saveGprs_mem : (run m saveGprsExceptT6AndSp).mem =
    (storeAll (m.get sp) m (gprSlots.map fun s => (s.2, m.get s.1))).mem := by
  rw [save_eq, run_stores_eq]

theorem saveSstatusAndSepc_mem : (run m saveSstatusAndSepc).mem =
    (storeAll (m.get sp) m [(32, m.csr .sstatus), (33, m.csr .sepc)]).mem := by
  have ht6 : t6 ≠ 0 := by decide
  have hne : sp ≠ t6 := by decide
  have h32 := word_ofInt (m.get sp) (k := 32) (i := 32 * 8) rfl
  have h33 := word_ofInt (m.get sp) (k := 33) (i := 33 * 8) rfl
  simp only [saveSstatusAndSepc, run, List.foldl_cons, List.foldl_nil, step, get_store, csr_store, csr_set,
    get_set_self ht6, get_set_ne hne, h32, h33, storeAll]
  simp only [Machine.store, mem_set]

theorem enterHandler_entry (smodeEntry back : Word) :
    (enterHandler smodeEntry back m).2.mem = (run m (trapEntryFromUmode smodeEntry back)).mem := by
  rw [enterHandler, run_append]
  generalize run m (trapEntryFromUmode smodeEntry back) = m₁
  have hcont := (trapUmodeCont_spec m₁).2.2
  generalize run m₁ trapUmodeCont = m₂ at hcont ⊢
  have hclear := (clearMsb_spec m₂).2.2
  generalize run m₂ clearMsb = m₃ at hclear ⊢
  split
  · exact hclear.trans hcont
  · exact hcont

/-- The memory that a handler finds. -/
theorem enterHandler_mem (smodeEntry back : Word) : (enterHandler smodeEntry back m).2.mem = (framed m).mem := by
  obtain ⟨hsp, hget, hcsr, -, -⟩ := entry_head (m := m)
  have hmem := entry_head_mem (m := m)
  rw [enterHandler_entry, trapEntryFromUmode, run_append, run_append, run_append]
  generalize run m [.csrrw sp .sscratch sp, .addi sp sp (-34 * 8), .sd t6 (31 * 8) sp, .csrr t6 .sscratch, .sd t6 (2 * 8) sp] = m₁
    at hsp hget hcsr hmem ⊢
  obtain ⟨hsp₂, hcsr₂, -, -⟩ := saveGprs_spec (m := m₁)
  have hmem₂ := saveGprs_mem (m := m₁)
  generalize run m₁ saveGprsExceptT6AndSp = m₂ at hsp₂ hcsr₂ hmem₂ ⊢
  have hgprs : gprSlots.map (fun s => (s.2, m₁.get s.1)) = gprSlots.map fun s => (s.2, m.get s.1) := by
    refine List.map_congr_left fun s hs => ?_
    have hs' : (s.1, s.1.val) ∈ gprSlots := gprSlots_mem hs ▸ hs
    obtain ⟨-, hne, hne'⟩ := (gprSlots_spec.2.2 s.1).mp hs'
    rw [hget s.1 hne hne']
  have hlast : ∀ m : Machine, (run m [.la t6 smodeEntry, .csrw .stvec t6, .link ra back]).mem = m.mem := fun _ => rfl
  rw [hlast, saveSstatusAndSepc_mem, hsp₂, hsp, hcsr₂, hcsr _ (by decide), hcsr _ (by decide), framed, saved, storeAll_append,
    storeAll_append]
  apply storeAll_mem_congr
  rw [hmem₂, hsp, hgprs]
  exact storeAll_mem_congr hmem _

theorem runningThread_congr (hget : m'.get tp = m.get tp) (hmem : m'.mem = m.mem) : runningThread m' = runningThread m := by
  rw [runningThread, runningThread, curthr, curthr, hget]
  exact congrArg BitVec.toInt (loadWord_congr fun i _ => by rw [hmem])

theorem currentProcess_congr (hget : m'.get tp = m.get tp) (hmem : m'.mem = m.mem) :
    currentProcess thrtab m' = currentProcess thrtab m := by
  simp only [currentProcess, threadProcess, runningThread_congr hget hmem, load_of_mem hmem]

/-- A handler finds the thread and the process that the user's tp gives in the memory with the trap
frame. -/
theorem enterHandler_framed (smodeEntry back : Word) :
    SameThread thrtab (enterHandler smodeEntry back m).2 (framed m) := by
  have htp : (enterHandler smodeEntry back m).2.get tp = (framed m).get tp :=
    (curthr_enterHandler smodeEntry back m).trans (framed_get tp).symm
  exact ⟨runningThread_congr htp (enterHandler_mem smodeEntry back), currentProcess_congr htp (enterHandler_mem smodeEntry back)⟩

theorem ThreadApart.congr (h : ThreadApart thrtab m) (hget : m'.get tp = m.get tp) (hmem : m'.mem = m.mem)
    (hcsr : m'.csr = m.csr) : ThreadApart thrtab m' := by
  have hout : ∀ {a n}, OutsideFrame m a n → OutsideFrame m' a n := fun ha i hi => hcsr ▸ ha i hi
  refine ⟨?_, ?_, ?_⟩
  · rw [curthr, hget]
    exact hout h.id
  · rw [runningThread_congr hget hmem]
    exact hout h.entry
  · rw [runningThread_congr hget hmem, load_of_mem hmem]
    exact hout h.proc

/-- The frame hides nothing of a struct thread apart from it. -/
theorem ThreadApart.framed (h : ThreadApart thrtab m) :
    SameThread thrtab (framed m) m := by
  have hload : ∀ a, OutsideFrame m a 8 → (TrapThread.framed m).load a = m.load a := fun a ha =>
    load_congr fun i hi => framed_outside (ha i hi)
  have hid : runningThread (TrapThread.framed m) = runningThread m := by
    rw [runningThread, runningThread, curthr, framed_get]
    exact congrArg BitVec.toInt (loadWord_congr fun i hi => framed_outside (h.id i hi))
  refine ⟨hid, ?_⟩
  simp only [currentProcess, threadProcess, hid, hload _ h.entry, hload _ h.proc]

end Frame

/-- A handler runs as the thread of the anchor if and only if the user's tp points to that
thread. Two register files give the same thread and process if and only if the struct threads
that their tp registers point to do so in the memory with the trap frame; where these lie apart
from the frame, if and only if they do so at the trap; and whatever else the two files hold
when both tp registers point to the anchor's thread. -/
theorem enterHandler_thread_iff (smodeEntry back thrtab : Word) (m m' : Machine) :
    (curthr (enterHandler smodeEntry back m).2 = anchorThread m ↔ m.get tp = anchorThread m) ∧
    (SameThread thrtab (enterHandler smodeEntry back m).2 (enterHandler smodeEntry back m').2 ↔
      SameThread thrtab (framed m) (framed m')) ∧
    (ThreadApart thrtab m → ThreadApart thrtab m' →
      (SameThread thrtab (enterHandler smodeEntry back m).2 (enterHandler smodeEntry back m').2 ↔ SameThread thrtab m m')) ∧
    (m'.mem = m.mem → m'.csr = m.csr → ThreadApart thrtab m → m.get tp = anchorThread m → m'.get tp = anchorThread m →
      SameThread thrtab (enterHandler smodeEntry back m).2 (enterHandler smodeEntry back m').2) := by
  have hframed : SameThread thrtab (enterHandler smodeEntry back m).2 (enterHandler smodeEntry back m').2 ↔
      SameThread thrtab (framed m) (framed m') := by
    obtain ⟨hid, hproc⟩ := @enterHandler_framed thrtab m smodeEntry back
    obtain ⟨hid', hproc'⟩ := @enterHandler_framed thrtab m' smodeEntry back
    rw [SameThread, SameThread, hid, hid', hproc, hproc']
  have hapart : ThreadApart thrtab m → ThreadApart thrtab m' →
      (SameThread thrtab (framed m) (framed m') ↔ SameThread thrtab m m') := fun h h' => by
    rw [SameThread, SameThread, h.framed.1, h.framed.2, h'.framed.1, h'.framed.2]
  refine ⟨by rw [curthr_enterHandler, curthr], hframed, fun h h' => hframed.trans (hapart h h'), fun hmem hcsr h htp htp' => ?_⟩
  have hget : m'.get tp = m.get tp := htp'.trans htp.symm
  rw [hframed, hapart h (h.congr hget hmem hcsr)]
  exact ⟨(runningThread_congr hget hmem).symm, (currentProcess_congr hget hmem).symm⟩

/-- A user program that has set all its registers to 0, with an anchor at 0x80400ff0 for
the thread at 0x80200000. -/
def clearedRegisters : Machine where
  x := fun _ => 0
  csr := fun c => if c = .sscratch then 0x80400ff0 else 0
  mem := fun a => if a = 0x80400ff2 then 0x20 else if a = 0x80400ff3 then 0x80 else 0

example : anchorThread clearedRegisters = 0x80200000 := by decide +kernel

theorem clearedRegisters_wrong_thread :
    ¬ ∀ smodeEntry back m, curthr (enterHandler smodeEntry back m).2 = anchorThread m := by
  intro hall
  have h := hall 0 0 clearedRegisters
  rw [curthr_enterHandler] at h
  revert h
  decide +kernel

end RiscvKernel.TrapThread
