import RiscvKernel.TrapReturn

namespace RiscvKernel.ThreadSwitch

open Lib.Rv64 TrapEntry TrapReturn

/-! Threads that give up the processor and threads that are new. -/

abbrev t0 : Reg := 5
abbrev s0 : Reg := 8
abbrev s1 : Reg := 9
abbrev s11 : Reg := 27

/-- What _thread_setup writes to struct thread_context: the initial sp, start and the arguments. -/
def setupSlots : List (Reg × Nat) := [(a1, 13), (12, 11), (13, 0), (14, 1), (15, 2), (16, 3), (17, 4)]

/-- _thread_setup; glue is the address of the code behind its jal. -/
def threadSetup (glue : Word) : List Instr := stores a0 setupSlots ++ ([.link t0 glue] ++ stores a0 [(t0, 12)])

/-- The code at glue, up to its jump to s11. -/
def threadGlue (threadExit : Word) : List Instr := [.la ra threadExit, .addi a0 s0 0, .addi a1 s1 0, .addi s0 sp 0]

/-- What a thread that does not run goes on with: the registers of its call of _thread_swtch, or
what _thread_setup was called with. -/
inductive Waiting
  | switched (x : Reg → Word)
  | created (ksp start : Word) (arg : Fin 5 → Word)

/-- struct thread_context at p has what the thread goes on with. -/
def Holds (glue : Word) (m : Machine) (p : Word) : Waiting → Prop
  | .switched x => ∀ s ∈ contextSlots, m.load (word p s.2) = x s.1
  | .created ksp start arg => m.load (word p 13) = ksp ∧ m.load (word p 11) = start ∧
      (∀ k : Fin 5, m.load (word p k) = arg k) ∧ m.load (word p 12) = glue

/-- The thread runs again: behind its call of _thread_swtch, which has returned the thread itself and
not the one before, or at start with two of the arguments, on its own stack and with thread_exit to
return to. -/
def Resumed (glue threadExit p : Word) (m : Machine) : Waiting → Prop
  | .switched x => m.get tp = p ∧ m.get a0 = p ∧ ∀ s ∈ contextSlots, m.get s.1 = x s.1
  | .created ksp start arg => m.get ra = glue ∧
      let m' := run m (threadGlue threadExit)
      m'.get s11 = start ∧ m'.get a0 = arg 0 ∧ m'.get a1 = arg 1 ∧ m'.get sp = ksp ∧ m'.get s0 = ksp ∧
        m'.get ra = threadExit ∧ m'.get tp = p

/-- The processor, the running thread and the threads that wait for it. -/
structure Cpu (ι : Type) where
  m : Machine
  cur : ι
  waiting : ι → Option Waiting

section Code

variable {m : Machine} {p q glue : Word} {w : Waiting}

/-- Two contexts without a common byte. -/
def ContextsApart (p q : Word) : Prop := ∀ j < 14, ∀ k < 14, Apart (word p j) (word q k)

theorem Holds.congr {m' : Machine} (h : Holds glue m p w) (hm : ∀ k < 14, m'.load (word p k) = m.load (word p k)) :
    Holds glue m' p w := by
  obtain ⟨-, -, hslots⟩ := contextSlots_spec
  cases w with
  | switched x => exact fun s hs => (hm s.2 (hslots s hs).1).trans (h s hs)
  | created ksp start arg =>
      obtain ⟨hsp, hstart, harg, hra⟩ := h
      exact ⟨(hm 13 (by decide)).trans hsp, (hm 11 (by decide)).trans hstart,
        fun k => (hm k (by omega)).trans (harg k), (hm 12 (by decide)).trans hra⟩

theorem threadSwtch_eq (m : Machine) : run m threadSwtch =
    run (step (run m (stores tp contextSlots)) (.addi tp a0 0)) (loads tp contextSlots.reverse) := by
  rw [threadSwtch, run_append, run_append]
  rfl

theorem threadSwtch_load (a : Word) : (run m threadSwtch).load a = (run m (stores tp contextSlots)).load a := by
  rw [threadSwtch_eq, load_of_mem run_loads_frame.1]
  rfl

/-- The running thread's registers are in its context behind the stores. -/
theorem threadSwtch_saves : Holds glue (run m threadSwtch) (m.get tp) (.switched m.get) := by
  obtain ⟨hkeys, -, hslots⟩ := contextSlots_spec
  intro s hs
  rw [threadSwtch_load]
  exact run_stores_load hkeys (fun q hq => Nat.lt_trans (hslots q hq).1 (by decide)) s hs

theorem threadSwtch_other (h : ContextsApart q (m.get tp)) {k : Nat} (hk : k < 14) :
    (run m threadSwtch).load (word q k) = m.load (word q k) := by
  obtain ⟨-, -, hslots⟩ := contextSlots_spec
  rw [threadSwtch_load]
  exact run_stores_apart fun s hs => h k hk s.2 (hslots s hs).1

/-- The thread that a0 points to has the processor with the registers of its context. -/
theorem threadSwtch_loads (h : ContextsApart (m.get a0) (m.get tp)) :
    (run m threadSwtch).get tp = m.get a0 ∧ ∀ s ∈ contextSlots, (run m threadSwtch).get s.1 = m.load (word (m.get a0) s.2) := by
  obtain ⟨-, hregs, hslots⟩ := contextSlots_spec
  have ha0 : (run m (stores tp contextSlots)).get a0 = m.get a0 := by
    rw [Machine.get, Machine.get, run_stores_frame.1]
  have htp : (step (run m (stores tp contextSlots)) (.addi tp a0 0)).get tp = m.get a0 := by
    rw [step, get_set_self (by decide), ha0, show BitVec.ofInt 64 0 = 0#64 from rfl, BitVec.add_zero]
  have hslots' : ∀ s ∈ contextSlots.reverse, s.1 ≠ tp ∧ s.1 ≠ 0 := fun s hs => (hslots s (List.mem_reverse.mp hs)).2
  refine ⟨?_, fun s hs => ?_⟩
  · rw [threadSwtch_eq, run_loads_other fun s hs => (hslots' s hs).1, htp]
  · rw [threadSwtch_eq, run_loads_get hregs hslots' s (List.mem_reverse.mpr hs), htp, step, load_set]
    exact run_stores_apart fun q hq => h _ (hslots s hs).1 _ (hslots q hq).1

/-- The arguments of _thread_setup behind start. -/
def setupArg (m : Machine) (k : Fin 5) : Word := m.get (13 + ⟨k.val, by omega⟩)

theorem setupSlots_spec : (setupSlots.map Prod.snd).Nodup ∧ (∀ s ∈ setupSlots, s.2 < 14 ∧ s.2 ≠ 12) ∧
    ∀ k : Fin 5, ((13 + ⟨k.val, by omega⟩ : Reg), k.val) ∈ setupSlots := by decide

theorem threadSetup_run (m : Machine) : run m (threadSetup glue) =
    ((run m (stores a0 setupSlots)).set t0 glue).store (word (m.get a0) 12) glue := by
  have ha0 : ((run m (stores a0 setupSlots)).set t0 glue).get a0 = m.get a0 := by
    rw [get_set_ne (by decide), Machine.get, Machine.get, run_stores_frame.1]
  have ht0 : ((run m (stores a0 setupSlots)).set t0 glue).get t0 = glue := get_set_self (by decide) _
  have hlast : run m (threadSetup glue) =
      ((run m (stores a0 setupSlots)).set t0 glue).store
        (((run m (stores a0 setupSlots)).set t0 glue).get a0 + BitVec.ofInt 64 (8 * 12))
        (((run m (stores a0 setupSlots)).set t0 glue).get t0) := by
    rw [threadSetup, run_append]
    rfl
  rw [hlast, ha0, ht0]
  rfl

theorem threadSetup_get {r : Reg} (hr : r ≠ t0) : (run m (threadSetup glue)).get r = m.get r := by
  rw [threadSetup_run, get_store, get_set_ne hr, Machine.get, Machine.get, run_stores_frame.1]

theorem threadSetup_slot {r : Reg} {k : Nat} (h : (r, k) ∈ setupSlots) :
    (run m (threadSetup glue)).load (word (m.get a0) k) = m.get r := by
  obtain ⟨hkeys, hslots, -⟩ := setupSlots_spec
  obtain ⟨hlt, hne⟩ := hslots (r, k) h
  simp only at hlt hne
  rw [threadSetup_run, load_store_of_apart (apart_word (by omega) (by decide) hne), load_set]
  exact run_stores_load hkeys (fun q hq => Nat.lt_trans (hslots q hq).1 (by decide)) (r, k) h

theorem threadSetup_creates :
    Holds glue (run m (threadSetup glue)) (m.get a0) (.created (m.get a1) (m.get 12) (setupArg m)) := by
  obtain ⟨-, -, hargs⟩ := setupSlots_spec
  have hra : (run m (threadSetup glue)).load (word (m.get a0) 12) = glue := by
    rw [threadSetup_run]
    exact load_store
  exact ⟨threadSetup_slot (by decide), threadSetup_slot (by decide), fun k => threadSetup_slot (hargs k), hra⟩

theorem threadSetup_other (h : ContextsApart q (m.get a0)) {k : Nat} (hk : k < 14) :
    (run m (threadSetup glue)).load (word q k) = m.load (word q k) := by
  obtain ⟨-, hslots, -⟩ := setupSlots_spec
  rw [threadSetup_run, load_store_of_apart (h k hk 12 (by decide)), load_set]
  exact run_stores_apart fun s hs => h k hk s.2 (hslots s hs).1

theorem threadGlue_run (m : Machine) (threadExit : Word) :
    let m' := run m (threadGlue threadExit)
    m'.get s11 = m.get s11 ∧ m'.get a0 = m.get s0 ∧ m'.get a1 = m.get s1 ∧ m'.get sp = m.get sp ∧ m'.get s0 = m.get sp ∧
      m'.get ra = threadExit ∧ m'.get tp = m.get tp := by
  have hmove : ∀ v : Word, v + BitVec.ofInt 64 0 = v := fun v => BitVec.add_zero v
  refine ⟨run_get rfl, ?_, ?_, run_get rfl, ?_, ?_, run_get rfl⟩
  all_goals
    simp only [threadGlue, run, List.foldl_cons, List.foldl_nil, step, hmove]
  · rw [get_set_ne (by decide), get_set_ne (by decide), get_set_self (by decide), get_set_ne (by decide)]
  · rw [get_set_ne (by decide), get_set_self (by decide), get_set_ne (by decide), get_set_ne (by decide)]
  · rw [get_set_self (by decide), get_set_ne (by decide), get_set_ne (by decide), get_set_ne (by decide)]
  · rw [get_set_ne (by decide), get_set_ne (by decide), get_set_ne (by decide), get_set_self (by decide)]

/-- A switch to a thread whose context has w. -/
theorem threadSwtch_resumes (threadExit : Word) (h : ContextsApart (m.get a0) (m.get tp)) (hw : Holds glue m (m.get a0) w) :
    Resumed glue threadExit (m.get a0) (run m threadSwtch) w := by
  obtain ⟨htp, hloads⟩ := threadSwtch_loads h
  cases w with
  | switched x => exact ⟨htp, run_get rfl, fun s hs => (hloads s hs).trans (hw s hs)⟩
  | created ksp start arg =>
      obtain ⟨hsp, hstart, harg, hra⟩ := hw
      obtain ⟨h₁, h₂, h₃, h₄, h₅, h₆, h₇⟩ := threadGlue_run (run m threadSwtch) threadExit
      refine ⟨(hloads (ra, 12) (by decide)).trans hra, h₁.trans ?_, h₂.trans ?_, h₃.trans ?_, h₄.trans ?_, h₅.trans ?_, h₆,
        h₇.trans htp⟩
      · exact (hloads (s11, 11) (by decide)).trans hstart
      · exact (hloads (s0, 0) (by decide)).trans (harg 0)
      · exact (hloads (s1, 1) (by decide)).trans (harg 1)
      · exact (hloads (sp, 13) (by decide)).trans hsp
      · exact (hloads (sp, 13) (by decide)).trans hsp

end Code

section Run

variable {ι : Type} [DecidableEq ι] (glue : Word) (ptr : ι → Word)

/-- What the running thread has to leave alone until it calls _thread_swtch: tp and the contexts of
the threads that wait. The kernel does so by itself. But the tp of a user program stays in tp behind
a trap, and sysread stores where the program says: a program can break either. -/
structure Keeps (h : Cpu ι) (m : Machine) : Prop where
  tp : m.get tp = h.m.get tp
  contexts : ∀ i w, h.waiting i = some w → ∀ k < 14, m.load (word (ptr i) k) = h.m.load (word (ptr i) k)

/-- The running thread has any other effect on the registers and the memory; ptr is where the
struct thread of a thread is. -/
inductive Step (h : Cpu ι) : Cpu ι → Prop
  | code (m : Machine) (hkeeps : Keeps ptr h m) : Step h { h with m := m }
  | setup (i : ι) (hne : i ≠ h.cur) (hnew : h.waiting i = none) (ha0 : h.m.get a0 = ptr i) :
      Step h ⟨run h.m (threadSetup glue), h.cur,
        Function.update h.waiting i (some (.created (h.m.get a1) (h.m.get 12) (setupArg h.m)))⟩
  | swtch (j : ι) (w : Waiting) (hw : h.waiting j = some w) (ha0 : h.m.get a0 = ptr j) :
      Step h ⟨run h.m threadSwtch, j, Function.update (Function.update h.waiting h.cur (some (.switched h.m.get))) j none⟩
  | recycle (i : ι) : Step h { h with waiting := Function.update h.waiting i none }

/-- tp points to the running thread, and every thread that waits has its context. -/
structure Inv (h : Cpu ι) : Prop where
  current : h.m.get tp = ptr h.cur
  holds : ∀ i w, h.waiting i = some w → i ≠ h.cur ∧ Holds glue h.m (ptr i) w

variable {glue ptr} {h h' h₀ : Cpu ι} (hptr : ∀ i j, i ≠ j → ContextsApart (ptr i) (ptr j))
include hptr

theorem Inv.step (hi : Inv glue ptr h) (hs : Step glue ptr h h') : Inv glue ptr h' := by
  cases hs with
  | code m hkeeps =>
      refine ⟨hkeeps.tp.trans hi.current, fun i w hw => ?_⟩
      obtain ⟨hne, hold⟩ := hi.holds i w hw
      exact ⟨hne, hold.congr (hkeeps.contexts i w hw)⟩
  | setup i hne hnew ha0 =>
      refine ⟨?_, fun j w hw => ?_⟩
      · rw [← hi.current]
        exact run_get rfl
      · dsimp only at hw ⊢
        by_cases hji : j = i
        · rw [hji, Function.update_self] at hw
          obtain rfl := Option.some.inj hw
          rw [hji, ← ha0]
          exact ⟨hne, threadSetup_creates⟩
        · rw [Function.update_of_ne hji] at hw
          obtain ⟨hcur, hold⟩ := hi.holds j w hw
          exact ⟨hcur, hold.congr fun k hk => threadSetup_other (by rw [ha0]; exact hptr j i hji) hk⟩
  | swtch j w hw ha0 =>
      obtain ⟨hne, -⟩ := hi.holds j w hw
      have hapart : ContextsApart (h.m.get a0) (h.m.get tp) := by
        rw [ha0, hi.current]
        exact hptr j h.cur hne
      refine ⟨(threadSwtch_loads hapart).1.trans ha0, fun i w' hw' => ?_⟩
      dsimp only at hw' ⊢
      by_cases hij : i = j
      · rw [hij, Function.update_self] at hw'
        cases hw'
      · rw [Function.update_of_ne hij] at hw'
        refine ⟨hij, ?_⟩
        by_cases hcur : i = h.cur
        · rw [hcur, Function.update_self] at hw'
          obtain rfl := Option.some.inj hw'
          rw [hcur, ← hi.current]
          exact threadSwtch_saves
        · rw [Function.update_of_ne hcur] at hw'
          exact (hi.holds i w' hw').2.congr fun k hk => threadSwtch_other (by rw [hi.current]; exact hptr i h.cur hcur) hk
  | recycle i =>
      refine ⟨hi.current, fun j w hw => ?_⟩
      dsimp only at hw ⊢
      by_cases hji : j = i
      · rw [hji, Function.update_self] at hw
        cases hw
      · rw [Function.update_of_ne hji] at hw
        exact hi.holds j w hw

theorem Inv.run (hi : Inv glue ptr h₀) (hr : Relation.ReflTransGen (Step glue ptr) h₀ h) : Inv glue ptr h := by
  induction hr with
  | refl => exact hi
  | tail _ hs ih => exact ih.step hptr hs

/-- Whatever the threads did in between to registers but tp and memory but the waiting contexts, a
thread that is switched to goes on with the registers it gave up the processor with, and a new one
starts where _thread_setup was told. -/
theorem threads_resume (threadExit : Word) (htp : h₀.m.get tp = ptr h₀.cur) (hnone : ∀ i, h₀.waiting i = none)
    (hr : Relation.ReflTransGen (Step glue ptr) h₀ h) (j : ι) (w : Waiting) (hw : h.waiting j = some w)
    (ha0 : h.m.get a0 = ptr j) : Resumed glue threadExit (ptr j) (Lib.Rv64.run h.m threadSwtch) w := by
  have hi₀ : Inv glue ptr h₀ := ⟨htp, fun i w hw => absurd ((hnone i).symm.trans hw) (Option.some_ne_none w).symm⟩
  have hi := hi₀.run hptr hr
  obtain ⟨hne, hold⟩ := hi.holds j w hw
  rw [← ha0] at hold ⊢
  refine threadSwtch_resumes threadExit ?_ hold
  rw [ha0, hi.current]
  exact hptr j h.cur hne

end Run

/-- A call of _thread_setup for the thread at 0x2000 by the thread at 0x1000. -/
def setupCall : Machine where
  x := fun r =>
    if r = tp then 0x1000 else if r = a0 then 0x2000 else if r = a1 then 0x80401ff0 else if r = 12 then 0x80000100
    else 0x5000 + BitVec.ofNat 64 r.val
  csr := fun _ => 0
  mem := fun _ => 0

def threadAt (b : Bool) : Word := if b then 0x2000 else 0x1000

/-- Thread false creates thread true and switches to it. That one starts, writes all its registers
but tp and switches back: thread false goes on with its own registers. -/
theorem threads_resume_switchBack : ∃ h h' : Cpu Bool,
    Relation.ReflTransGen (Step 0x80000040 threadAt) ⟨setupCall, false, fun _ => none⟩ h ∧
      (run (run h.m threadSwtch) (threadGlue 0x80000200)).get s11 = 0x80000100 ∧
      (run (run h.m threadSwtch) (threadGlue 0x80000200)).get a0 = 0x500d ∧
      (run (run h.m threadSwtch) (threadGlue 0x80000200)).get sp = 0x80401ff0 ∧
    Relation.ReflTransGen (Step 0x80000040 threadAt) h h' ∧ h'.cur = true ∧ h'.m.get sp = 0 ∧
      (run h'.m threadSwtch).get tp = 0x1000 ∧ ∀ s ∈ contextSlots, (run h'.m threadSwtch).get s.1 = setupCall.get s.1 := by
  have hapart : ∀ i j, i ≠ j → ContextsApart (threadAt i) (threadAt j) := by
    simp only [ContextsApart, Apart, word]
    decide +kernel
  obtain ⟨h₀, hh₀⟩ : ∃ h : Cpu Bool, h = ⟨setupCall, false, fun _ => none⟩ := ⟨_, rfl⟩
  have htp₀ : h₀.m.get tp = threadAt h₀.cur := by rw [hh₀]; rfl
  have hnone₀ : ∀ i, h₀.waiting i = none := by rw [hh₀]; exact fun _ => rfl
  have ha0 : h₀.m.get a0 = threadAt true := by rw [hh₀]; rfl
  -- thread false calls _thread_setup and _thread_swtch
  obtain ⟨h₁, hh₁⟩ : ∃ h : Cpu Bool, h = ⟨run h₀.m (threadSetup 0x80000040), h₀.cur,
      Function.update h₀.waiting true (some (.created (h₀.m.get a1) (h₀.m.get 12) (setupArg h₀.m)))⟩ := ⟨_, rfl⟩
  have hstep₁ : Step 0x80000040 threadAt h₀ h₁ := by
    rw [hh₁]
    exact .setup true (by rw [hh₀]; decide) (hnone₀ true) ha0
  have hto₁ : Relation.ReflTransGen (Step 0x80000040 threadAt) h₀ h₁ := .single hstep₁
  have hcur₁ : h₁.cur = false := by rw [hh₁, hh₀]
  have hw₁ : h₁.waiting true = some (.created (h₀.m.get a1) (h₀.m.get 12) (setupArg h₀.m)) := by
    rw [hh₁]
    exact Function.update_self true _ h₀.waiting
  have hget₁ : ∀ r, r ≠ t0 → h₁.m.get r = setupCall.get r := fun r hr => by
    rw [hh₁, threadSetup_get hr, hh₀]
  have ha0₁ : h₁.m.get a0 = threadAt true := (hget₁ a0 (by decide)).trans rfl
  obtain ⟨-, hstart, ha, -, hsp, -⟩ := threads_resume hapart 0x80000200 htp₀ hnone₀ hto₁ true _ hw₁ ha0₁
  have harg : setupArg h₀.m 0 = 0x500d := by rw [hh₀]; rfl
  rw [harg] at ha
  rw [hh₀] at hstart hsp
  -- thread true runs
  obtain ⟨h₂, hh₂⟩ : ∃ h : Cpu Bool, h = ⟨run h₁.m threadSwtch, true,
      Function.update (Function.update h₁.waiting h₁.cur (some (.switched h₁.m.get))) true none⟩ := ⟨_, rfl⟩
  have hstep₂ : Step 0x80000040 threadAt h₁ h₂ := hh₂ ▸ .swtch true _ hw₁ ha0₁
  have htp₂ : h₂.m.get tp = 0x2000 := by
    have hi₁ : Inv 0x80000040 threadAt h₀ := ⟨htp₀, fun i w hw => absurd ((hnone₀ i).symm.trans hw) (Option.some_ne_none w).symm⟩
    have hcur := (hi₁.run hapart (hto₁.tail hstep₂)).current
    rw [hcur, hh₂]
    rfl
  obtain ⟨h₃, hh₃⟩ : ∃ h : Cpu Bool,
    h = { h₂ with m := { h₂.m with x := fun r => if r = tp then 0x2000 else if r = a0 then 0x1000 else 0 } } := ⟨_, rfl⟩
  have hstep₃ : Step 0x80000040 threadAt h₂ h₃ := by
    rw [hh₃]
    exact Step.code (h := h₂) _ ⟨htp₂.symm, fun i w _ k _ => load_of_mem rfl _⟩
  have hr : Relation.ReflTransGen (Step 0x80000040 threadAt) h₁ h₃ := .tail (.single hstep₂) hstep₃
  have hw₃ : h₃.waiting false = some (.switched h₁.m.get) := by
    rw [hh₃, hh₂, hcur₁]
    have hself := Function.update_self false (some (Waiting.switched h₁.m.get)) h₁.waiting
    exact (Function.update_of_ne Bool.false_ne_true none _).trans hself
  obtain ⟨htp, -, hslots⟩ := threads_resume hapart 0x80000200 htp₀ hnone₀ (hto₁.trans hr) false _ hw₃ (by rw [hh₃]; rfl)
  rw [hh₀] at hto₁
  refine ⟨h₁, h₃, hto₁, hstart, ha, hsp, hr, by rw [hh₃, hh₂], by rw [hh₃]; rfl, htp, fun s hs => ?_⟩
  rw [hslots s hs, hget₁ s.1]
  revert s
  decide

end RiscvKernel.ThreadSwitch
