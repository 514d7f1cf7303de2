import RiscvKernel.Scheduler

namespace RiscvKernel.SchedulerInv

open Thread Scheduler

/-- The threads on ready_list and on the wait lists: the READY and the WAITING ones, except
for one thread that is about to be put on its list. runner is the thread that is RUNNING. -/
structure Listed (next : Links) (readyList : ThreadList) (waitList : Cond → ThreadList) (state : Ptr → ThreadState)
    (waitCond : Ptr → Option Cond) (exempt runner : Option Ptr) (ready : List Ptr) (waits : Cond → List Ptr) : Prop where
  readyList : IsList next readyList ready
  waitList : ∀ c, IsList next (waitList c) (waits c)
  readyNodup : ready.Nodup
  waitsNodup : ∀ c, (waits c).Nodup
  mem_ready : ∀ p, p ∈ ready ↔ state p = .ready ∧ some p ≠ exempt
  mem_waits : ∀ p c, p ∈ waits c ↔ state p = .waiting ∧ waitCond p = some c ∧ some p ≠ exempt
  waiting : ∀ p, state p = .waiting → ∃ c, waitCond p = some c
  running : ∀ p, state p = .running ↔ some p = runner

namespace Listed

variable {next : Links} {readyList : ThreadList} {waitList : Cond → ThreadList} {state : Ptr → ThreadState}
  {waitCond : Ptr → Option Cond} {exempt runner : Option Ptr} {ready : List Ptr} {waits : Cond → List Ptr} {t : Ptr}
  {c : Cond}

theorem state_of_mem_ready (h : Listed next readyList waitList state waitCond exempt runner ready waits)
    (hp : t ∈ ready) : state t = .ready :=
  ((h.mem_ready t).mp hp).1

theorem state_of_mem_waits (h : Listed next readyList waitList state waitCond exempt runner ready waits)
    (hp : t ∈ waits c) : state t = .waiting :=
  ((h.mem_waits t c).mp hp).1

theorem not_mem_waits_of_ready (h : Listed next readyList waitList state waitCond exempt runner ready waits)
    (hp : t ∈ ready) : t ∉ waits c := fun hw => by
  have := (h.state_of_mem_ready hp).symm.trans (h.state_of_mem_waits hw)
  cases this

theorem cond_unique (h : Listed next readyList waitList state waitCond exempt runner ready waits) {d : Cond}
    (hc : t ∈ waits c) (hd : t ∈ waits d) : c = d :=
  Option.some.inj (((h.mem_waits t c).mp hc).2.1.symm.trans ((h.mem_waits t d).mp hd).2.1)

/-- condition_wait marks the running thread, which is on no list yet. -/
theorem enterWait (h : Listed next readyList waitList state waitCond none (some t) ready waits) (c : Cond) :
    Listed (Function.update next t none) readyList waitList (Function.update state t .waiting)
      (Function.update waitCond t (some c)) (some t) none ready waits := by
  have hrun : state t = .running := (h.running t).mpr rfl
  have hr : t ∉ ready := fun hm => by cases hrun.symm.trans (h.state_of_mem_ready hm)
  have hw : ∀ d, t ∉ waits d := fun d hm => by cases hrun.symm.trans (h.state_of_mem_waits hm)
  refine ⟨h.readyList.congr fun p hp => ?_, fun d => (h.waitList d).congr fun p hp => ?_, h.readyNodup, h.waitsNodup,
    fun p => ?_, fun p d => ?_, fun p hp => ?_, fun p => ?_⟩
  · exact Function.update_of_ne (ne_of_mem_of_not_mem hp hr) _ _
  · exact Function.update_of_ne (ne_of_mem_of_not_mem hp (hw d)) _ _
  · rcases eq_or_ne p t with rfl | hne
    · simp [hr]
    · simp [hne, h.mem_ready p]
  · rcases eq_or_ne p t with rfl | hne
    · simp [hw d]
    · simp [hne, h.mem_waits p d]
  · rcases eq_or_ne p t with rfl | hne
    · exact ⟨c, Function.update_self ..⟩
    · rw [Function.update_of_ne hne] at hp ⊢
      exact h.waiting p hp
  · rcases eq_or_ne p t with rfl | hne
    · simp
    · have := h.running p
      simp only [Option.some.injEq, hne, iff_false] at this
      simp [hne, this]

/-- tlinsert puts the exempt waiting thread at the end of its wait list. -/
theorem insertWait (h : Listed next readyList waitList state waitCond (some t) runner ready waits)
    (hs : state t = .waiting) (hc : waitCond t = some c) :
    ∃ next' list', tlinsert next (waitList c) t = some (next', list') ∧
      Listed next' readyList (Function.update waitList c list') state waitCond none runner ready
        (Function.update waits c (waits c ++ [t])) := by
  have hr : t ∉ ready := fun hm => ((h.mem_ready t).mp hm).2 rfl
  have hw : ∀ d, t ∉ waits d := fun d hm => ((h.mem_waits t d).mp hm).2.2 rfl
  obtain ⟨next', list', hins, hl, hframe⟩ := tlinsert_isList (h.waitList c) (h.waitsNodup c) (hw c)
  refine ⟨next', list', hins, h.readyList.congr fun p hp => ?_, fun d => ?_, h.readyNodup, fun d => ?_, fun p => ?_,
    fun p d => ?_, h.waiting, h.running⟩
  · exact hframe p (ne_of_mem_of_not_mem hp hr) (h.not_mem_waits_of_ready hp)
  · rcases eq_or_ne d c with rfl | hne
    · rw [Function.update_self, Function.update_self]
      exact hl
    · rw [Function.update_of_ne hne, Function.update_of_ne hne]
      exact (h.waitList d).congr fun p hp =>
        hframe p (ne_of_mem_of_not_mem hp (hw d)) fun hm => hne (h.cond_unique hp hm)
  · rcases eq_or_ne d c with rfl | hne
    · rw [Function.update_self]
      exact (h.waitsNodup d).append (List.nodup_singleton t) (by simpa using hw d)
    · rw [Function.update_of_ne hne]
      exact h.waitsNodup d
  · rcases eq_or_ne p t with rfl | hne
    · simp [hr, hs]
    · simp [h.mem_ready p, hne]
  · rcases eq_or_ne p t with rfl | hne
    · rcases eq_or_ne d c with rfl | hne'
      · simp [hs, hc]
      · simp [hne', hw d, hc, Ne.symm hne']
    · rcases eq_or_ne d c with rfl | hne'
      · simp [hne, h.mem_waits p d]
      · simp [hne', hne, h.mem_waits p d]

/-- tlinsert puts the exempt ready thread at the end of ready_list. -/
theorem insertReady (h : Listed next readyList waitList state waitCond (some t) runner ready waits)
    (hs : state t = .ready) :
    ∃ next' list', tlinsert next readyList t = some (next', list') ∧
      Listed next' list' waitList state waitCond none runner (ready ++ [t]) waits := by
  have hr : t ∉ ready := fun hm => ((h.mem_ready t).mp hm).2 rfl
  have hw : ∀ d, t ∉ waits d := fun d hm => ((h.mem_waits t d).mp hm).2.2 rfl
  obtain ⟨next', list', hins, hl, hframe⟩ := tlinsert_isList h.readyList h.readyNodup hr
  refine ⟨next', list', hins, hl, fun d => (h.waitList d).congr fun p hp => ?_, ?_, h.waitsNodup, fun p => ?_,
    fun p d => ?_, h.waiting, h.running⟩
  · exact hframe p (ne_of_mem_of_not_mem hp (hw d)) fun hm => h.not_mem_waits_of_ready hm hp
  · exact h.readyNodup.append (List.nodup_singleton t) (by simpa using hr)
  · rcases eq_or_ne p t with rfl | hne
    · simp [hs]
    · simp [h.mem_ready p, hne]
  · rcases eq_or_ne p t with rfl | hne
    · simp [hw d, hs]
    · simp [h.mem_waits p d, hne]

/-- condition_broadcast makes all waiting threads ready and splices their list onto ready_list. -/
theorem wake (h : Listed next readyList waitList state waitCond exempt runner ready waits) (c : Cond) :
    ∃ next' list', tlappend next readyList (waitList c) = some (next', list', tlclear) ∧
      Listed next' list' (Function.update waitList c tlclear) (fun p => if p ∈ waits c then .ready else state p)
        (fun p => if p ∈ waits c then none else waitCond p) exempt runner (ready ++ waits c)
        (Function.update waits c []) := by
  obtain ⟨next', list', happ, hl, hframe⟩ := tlappend_isList h.readyList (h.waitList c) h.readyNodup
    fun q hq => h.not_mem_waits_of_ready hq
  refine ⟨next', list', happ, hl, fun d => ?_, ?_, fun d => ?_, fun p => ?_, fun p d => ?_, fun p hp => ?_, fun p => ?_⟩
  · rcases eq_or_ne d c with rfl | hne
    · rw [Function.update_self, Function.update_self]
      exact isList_tlclear next'
    · rw [Function.update_of_ne hne, Function.update_of_ne hne]
      exact (h.waitList d).congr fun p hp => hframe p fun hm => h.not_mem_waits_of_ready hm hp
  · exact h.readyNodup.append (h.waitsNodup c) fun p hp hw => h.not_mem_waits_of_ready hp hw
  · rcases eq_or_ne d c with rfl | hne
    · rw [Function.update_self]
      exact List.nodup_nil
    · rw [Function.update_of_ne hne]
      exact h.waitsNodup d
  · by_cases hp : p ∈ waits c
    · simp only [List.mem_append, hp, or_true, if_true, true_and, true_iff]
      exact ((h.mem_waits p c).mp hp).2.2
    · simp [hp, h.mem_ready p]
  · rcases eq_or_ne d c with rfl | hne
    · by_cases hp : p ∈ waits d
      · simp [hp]
      · have := h.mem_waits p d
        simp only [hp, false_iff] at this
        simpa [hp] using this
    · by_cases hp : p ∈ waits c
      · have hd : p ∉ waits d := fun hd => hne (h.cond_unique hd hp)
        simp [hne, hp, hd]
      · simp [hne, hp, h.mem_waits p d]
  · by_cases hm : p ∈ waits c
    · simp [hm] at hp
    · simp only [hm, if_false] at hp ⊢
      exact h.waiting p hp
  · by_cases hm : p ∈ waits c
    · have := h.running p
      rw [h.state_of_mem_waits hm] at this
      simpa [hm] using this
    · simpa [hm] using h.running p

/-- suspend_self takes the first thread off ready_list and marks it running. -/
theorem remove (h : Listed next readyList waitList state waitCond exempt none (t :: ready) waits) :
    ∃ next' list', tlremove next readyList = (next', list', some t) ∧
      Listed next' list' waitList (Function.update state t .running) waitCond exempt (some t) ready waits := by
  obtain ⟨next', list', hrem, hl, hframe⟩ := tlremove_isList h.readyList h.readyNodup
  have ht : t ∉ ready := (List.nodup_cons.mp h.readyNodup).1
  refine ⟨next', list', hrem, hl, fun d => (h.waitList d).congr fun p hp => ?_, (List.nodup_cons.mp h.readyNodup).2,
    h.waitsNodup, fun p => ?_, fun p d => ?_, fun p hp => ?_, fun p => ?_⟩
  · exact hframe p fun he => h.not_mem_waits_of_ready List.mem_cons_self (he ▸ hp)
  · rcases eq_or_ne p t with rfl | hne
    · simp [ht]
    · have := h.mem_ready p
      simp only [List.mem_cons, hne, false_or] at this
      simp [hne, this]
  · rcases eq_or_ne p t with rfl | hne
    · simp [h.not_mem_waits_of_ready (t := p) (c := d) List.mem_cons_self]
    · simp [hne, h.mem_waits p d]
  · rcases eq_or_ne p t with rfl | hne
    · simp at hp
    · rw [Function.update_of_ne hne] at hp
      exact h.waiting p hp
  · rcases eq_or_ne p t with rfl | hne
    · simp
    · simp [hne, h.running p]

/-- A thread that is on no list becomes READY, to be put on ready_list next, or exits. -/
theorem restate (h : Listed next readyList waitList state waitCond none runner ready waits)
    (exempt runner' : Option Ptr) (s : ThreadState) (hr : t ∉ ready) (hw : ∀ d, t ∉ waits d)
    (hs : s = .ready ∧ exempt = some t ∨ s = .exited ∧ exempt = none) (hrun : some t ≠ runner')
    (hrest : ∀ p, p ≠ t → (some p = runner ↔ some p = runner')) :
    Listed next readyList waitList (Function.update state t s) waitCond exempt runner' ready waits := by
  refine ⟨h.readyList, h.waitList, h.readyNodup, h.waitsNodup, fun p => ?_, fun p d => ?_, fun p hp => ?_, fun p => ?_⟩
  · rcases eq_or_ne p t with rfl | hne
    · rcases hs with ⟨rfl, rfl⟩ | ⟨rfl, rfl⟩ <;> simp [hr]
    · rcases hs with ⟨rfl, rfl⟩ | ⟨rfl, rfl⟩ <;> simp [hne, h.mem_ready p]
  · rcases eq_or_ne p t with rfl | hne
    · rcases hs with ⟨rfl, rfl⟩ | ⟨rfl, rfl⟩ <;> simp [hw d]
    · rcases hs with ⟨rfl, rfl⟩ | ⟨rfl, rfl⟩ <;> simp [hne, h.mem_waits p d]
  · rcases eq_or_ne p t with rfl | hne
    · rcases hs with ⟨rfl, -⟩ | ⟨rfl, -⟩ <;> simp at hp
    · rw [Function.update_of_ne hne] at hp
      exact h.waiting p hp
  · rcases eq_or_ne p t with rfl | hne
    · rcases hs with ⟨rfl, -⟩ | ⟨rfl, -⟩ <;> simpa using hrun
    · rw [Function.update_of_ne hne, h.running p]
      exact hrest p hne

theorem off_lists (h : Listed next readyList waitList state waitCond exempt runner ready waits)
    (hr : state t ≠ .ready) (hw : state t ≠ .waiting) : t ∉ ready ∧ ∀ d, t ∉ waits d :=
  ⟨fun hm => hr (h.state_of_mem_ready hm), fun _ hm => hw (h.state_of_mem_waits hm)⟩

end Listed

variable {σ ι ε : Type} {nthr : Nat} {k : Kernel σ ι} {ready : List Ptr} {waits : Cond → List Ptr}

def Alive (s : ThreadState) : Prop := s = .waiting ∨ s = .running ∨ s = .ready

/-- thrtab and the struct threads handed out so far. -/
structure Table (nthr : Nat) (thrtab : Nat → Option Ptr) (id : Ptr → Nat) (state : Ptr → ThreadState) (brk : Ptr) :
    Prop where
  slot : ∀ t p, thrtab t = some p → t < nthr ∧ id p = t ∧ state p ≠ .uninitialized
  alive : ∀ p, Alive (state p) → thrtab (id p) = some p
  fresh : ∀ p, brk ≤ p → state p = .uninitialized
  two_le : 2 ≤ brk

section Table

variable {thrtab : Nat → Option Ptr} {id : Ptr → Nat} {state state' : Ptr → ThreadState} {brk p : Ptr} {l : List Ptr}

/-- There are no more live threads than slots. -/
theorem Table.length_le (h : Table nthr thrtab id state brk) (hnd : l.Nodup) (hl : ∀ p ∈ l, Alive (state p)) :
    l.length ≤ nthr := by
  have hmap : (l.map id).Nodup := by
    refine hnd.map_on fun p hp q hq he => ?_
    have := h.alive p (hl p hp)
    rw [he, h.alive q (hl q hq)] at this
    exact (Option.some.inj this).symm
  have hsub : l.map id ⊆ List.range nthr := by
    intro t ht
    obtain ⟨p, hp, rfl⟩ := List.mem_map.mp ht
    exact List.mem_range.mpr (h.slot _ _ (h.alive p (hl p hp))).1
  simpa using List.Nodup.length_le_of_subset hmap hsub

/-- Threads that change their state stay in the table as long as none comes to life. -/
theorem Table.congr (h : Table nthr thrtab id state brk) (hn : ∀ p, state' p = .uninitialized ↔ state p = .uninitialized)
    (ha : ∀ p, Alive (state' p) → Alive (state p)) : Table nthr thrtab id state' brk :=
  ⟨fun t p hp => ⟨(h.slot t p hp).1, (h.slot t p hp).2.1, fun hu => (h.slot t p hp).2.2 ((hn p).mp hu)⟩,
    fun p hp => h.alive p (ha p hp), fun p hp => (hn p).mpr (h.fresh p hp), h.two_le⟩

theorem Table.setState (h : Table nthr thrtab id state brk) {s : ThreadState} (hp : Alive (state p))
    (hs : s ≠ .uninitialized) : Table nthr thrtab id (Function.update state p s) brk := by
  refine h.congr (fun q => ?_) fun q hq => ?_
  · rcases eq_or_ne q p with rfl | hne
    · have : state q ≠ .uninitialized := by rintro he; simp [Alive, he] at hp
      simp [hs, this]
    · rw [Function.update_of_ne hne]
  · rcases eq_or_ne q p with rfl | hne
    · exact hp
    · rwa [Function.update_of_ne hne] at hq

theorem Table.spawn (h : Table nthr thrtab id state brk) {tid : Nat} (ht : thrtab tid = none) (hlt : tid < nthr) :
    Table nthr (Function.update thrtab tid (some brk)) (Function.update id brk tid) (Function.update state brk .ready)
      (brk + 1) := by
  refine ⟨fun t p hp => ?_, fun p hp => ?_, fun p hp => ?_, Nat.le_succ_of_le h.two_le⟩
  · rcases eq_or_ne t tid with rfl | hne
    · rw [Function.update_self] at hp
      obtain rfl := Option.some.inj hp
      simp [hlt]
    · rw [Function.update_of_ne hne] at hp
      obtain ⟨h₁, h₂, h₃⟩ := h.slot t p hp
      have hpb : p ≠ brk := fun he => h₃ (h.fresh p (Nat.le_of_eq he.symm))
      simpa [hpb, h₁] using ⟨h₂, h₃⟩
  · rcases eq_or_ne p brk with rfl | hne
    · simp
    · rw [Function.update_of_ne hne] at hp
      have := h.alive p hp
      rw [Function.update_of_ne hne, Function.update_of_ne, this]
      rintro he
      rw [he, ht] at this
      cases this
  · rw [Function.update_of_ne (Nat.ne_of_gt hp)]
    exact h.fresh p (Nat.le_of_succ_le hp)

theorem Table.recycle (h : Table nthr thrtab id state brk) {tid : Nat} (ht : thrtab tid = some p)
    (hs : state p = .exited) : Table nthr (Function.update thrtab tid none) id state brk := by
  refine ⟨fun t q hq => ?_, fun q hq => ?_, h.fresh, h.two_le⟩
  · rcases eq_or_ne t tid with rfl | hne
    · simp at hq
    · rw [Function.update_of_ne hne] at hq
      exact h.slot t q hq
  · have hq' := h.alive q hq
    rw [Function.update_of_ne, hq']
    rintro he
    rw [he, ht] at hq'
    obtain rfl := Option.some.inj hq'
    simp [Alive, hs] at hq

end Table

section Code

/-- What a function goes on with after a call that suspended the thread. -/
def cont : Pc ι → Bool
  | .call _ | .joinLoop _ _ | .joinAnyScan | .idleLoop => true
  | _ => false

def Conts (code : List (Pc ι)) : Prop := ∀ pc ∈ code, cont pc = true

/-- The code of a thread that is not the current one: it has not run yet, or it is in
suspend_self, right behind _thread_swtch. -/
def Parked (code : List (Pc ι)) : Prop := Conts code ∨ ∃ saved K, code = .suspResumed saved :: K ∧ Conts K

/-- The code of an exiting thread after the function it is in. -/
def Exiting (st : ThreadState) (K : List (Pc ι)) : Prop := st = .exited ∧ ∃ K', K = .exitFailed :: K'

/-- The code of the current thread, its state and its wait_cond. -/
def Current (st : ThreadState) (cond : Option Cond) : List (Pc ι) → Prop
  | [] => st = .running
  | .waitDisable c :: K | .waitInsert c _ :: K => st = .waiting ∧ cond = some c ∧ Conts K
  | .waitRestore _ :: K => (st = .waiting ∨ st = .ready) ∧ Conts K
  | .bcastEnter _ :: K | .bcastDisable _ :: K | .bcastBody _ _ :: K | .bcastRestore _ :: K =>
      st = .running ∧ Conts K ∨ ∃ K', K = .suspEnter :: K' ∧ Exiting st K'
  | .suspEnter :: K | .suspDisable :: K | .suspDispatch _ :: K => Alive st ∧ Conts K ∨ Exiting st K
  | .suspEnable _ _ :: K | .suspSpace _ _ :: K | .suspSwtch _ _ :: K =>
      (st = .waiting ∨ st = .ready) ∧ Conts K ∨ Exiting st K
  | .exitFailed :: _ => False
  | _ :: K => st = .running ∧ Conts K

def idleAlone : Pc ι → Bool
  | .idleLoop | .idleDisable | .idleWfi | .idleEnable => true
  | _ => false

def idleTop : Pc ι → Bool
  | .call .threadYield | .suspEnter | .suspDisable | .suspDispatch _ | .suspEnable _ _ | .suspSpace _ _
  | .suspSwtch _ _ | .suspResumed _ | .suspRestore _ => true
  | _ => false

/-- The idle thread is in the loop of idle_thread_func or in the thread_yield it calls. -/
def IdleCode : List (Pc ι) → Prop
  | [] => False
  | pc :: K => K = [] ∧ idleAlone pc = true ∨ K = [.idleLoop] ∧ idleTop pc = true

/-- On the way to the head of ready_list. -/
def Yields : List (Pc ι) → Prop
  | .call .threadYield :: _ | .suspEnter :: _ | .suspDisable :: _ | .suspDispatch _ :: _ => True
  | _ => False

/-- The code of the idle thread, which does not yield while it is not the current thread. -/
def IdleOk (tp : Ptr) (code : List (Pc ι)) : Prop := IdleCode code ∧ (Yields code → tp = idleThread)

/-- The thread that thread_spawn is about to put on ready_list. -/
def spawning : List (Pc ι) → Option Ptr
  | .spawnDisable child :: _ | .spawnInsert child _ :: _ => some child
  | _ => none

/-- The thread that is about to be put on its list. -/
def exempt (tp : Ptr) : List (Pc ι) → Option Ptr
  | .waitDisable _ :: _ | .waitInsert _ _ :: _ => some tp
  | .spawnDisable child :: _ | .spawnInsert child _ :: _ => some child
  | _ => none

/-- The thread that suspend_self is about to resume. -/
def switching : List (Pc ι) → Option Ptr
  | .suspEnable next _ :: _ | .suspSpace next _ :: _ | .suspSwtch next _ :: _ => some next
  | _ => none

theorem Conts.cons {pc : Pc ι} {K : List (Pc ι)} (hpc : cont pc = true) (h : Conts K) : Conts (pc :: K) :=
  List.forall_mem_cons.mpr ⟨hpc, h⟩

theorem Conts.calls {cs : List (Call ι)} {K : List (Pc ι)} (h : Conts K) : Conts (cs.map Pc.call ++ K) := by
  intro pc hpc
  rcases List.mem_append.mp hpc with hm | hm
  · obtain ⟨c, -, rfl⟩ := List.mem_map.mp hm
    rfl
  · exact h pc hm

/-- A running thread can go on with what it was left to do. -/
theorem Conts.current {K : List (Pc ι)} (h : Conts K) (cond : Option Cond) : Current .running cond K := by
  cases K with
  | nil => rfl
  | cons pc K =>
      have hK : Conts K := fun q hq => h q (List.mem_cons_of_mem _ hq)
      have hpc := h pc List.mem_cons_self
      cases pc <;> first | exact ⟨rfl, hK⟩ | cases hpc

theorem Conts.exempt {K : List (Pc ι)} (h : Conts K) (tp : Ptr) : exempt tp K = none := by
  cases K with
  | nil => rfl
  | cons pc K =>
      have hpc := h pc List.mem_cons_self
      cases pc <;> first | rfl | cases hpc

theorem Conts.switching {K : List (Pc ι)} (h : Conts K) : switching K = none := by
  cases K with
  | nil => rfl
  | cons pc K =>
      have hpc := h pc List.mem_cons_self
      cases pc <;> first | rfl | cases hpc

theorem Conts.spawning {K : List (Pc ι)} (h : Conts K) : spawning K = none := by
  cases K with
  | nil => rfl
  | cons pc K =>
      have hpc := h pc List.mem_cons_self
      cases pc <;> first | rfl | cases hpc

end Code

def runner (k : Kernel σ ι) (sw : Option Ptr) : Option Ptr :=
  sw.or (if k.state k.tp = .running then some k.tp else none)

/-- The invariant without the code of the current thread. -/
structure Core (nthr : Nat) (k : Kernel σ ι) (ex sw : Option Ptr) (ready : List Ptr) (waits : Cond → List Ptr) : Prop where
  table : Table nthr k.thrtab k.id k.state k.brk
  listed : Listed k.listNext k.readyList k.waitList k.state k.waitCond ex (runner k sw) ready waits
  idle : idleThread ∈ ready ∨ runner k sw = some idleThread
  headNe : sw = none → ready.head? ≠ some k.tp
  parked : ∀ p, p ≠ k.tp → Alive (k.state p) → Parked (k.code p)

structure Inv (nthr : Nat) (k : Kernel σ ι) (ready : List Ptr) (waits : Cond → List Ptr) : Prop where
  core : Core nthr k (exempt k.tp (k.code k.tp)) (switching (k.code k.tp)) ready waits
  current : Current (k.state k.tp) (k.waitCond k.tp) (k.code k.tp)
  idleCode : IdleOk k.tp (k.code idleThread)
  idleYield : k.tp = idleThread → Yields (k.code k.tp) → ready ≠ []
  spawned : ∀ child, spawning (k.code k.tp) = some child → k.state child = .ready

section Steps

variable {ex sw : Option Ptr} {c : Cond}

theorem runner_of_running (h : k.state k.tp = .running) : runner k none = some k.tp := by
  simp [runner, h]

theorem runner_of_not_running (h : k.state k.tp ≠ .running) : runner k none = none := by
  simp [runner, h]

/-- Outside suspend_self the idle thread is on ready_list or it is the current one. -/
theorem Core.idle_mem (h : Core nthr k ex none ready waits) (hne : k.tp ≠ idleThread) : idleThread ∈ ready := by
  refine h.idle.resolve_right fun he => ?_
  unfold runner at he
  split at he
  · exact hne (Option.some.inj he)
  · cases he

theorem Core.ready_ne_nil (h : Core nthr k ex none ready waits) (hne : k.tp ≠ idleThread) : ready ≠ [] :=
  List.ne_nil_of_mem (h.idle_mem hne)

/-- The core does not read the code of the current thread. -/
theorem Core.move (h : Core nthr k ex sw ready waits) (sie : Bool) (satp : Nat) (dev : σ) (ret : Ptr → Int)
    (code : List (Pc ι)) :
    Core nthr { k with sie, satp, dev, ret, code := Function.update k.code k.tp code } ex sw ready waits := by
  refine ⟨h.table, h.listed, h.idle, h.headNe, fun p hp ha => ?_⟩
  simp only
  rw [Function.update_of_ne hp]
  exact h.parked p hp ha

/-- condition_wait marks the current thread. -/
theorem Core.enterWait (h : Core nthr k none none ready waits) (hrun : k.state k.tp = .running)
    (hne : k.tp ≠ idleThread) (c : Cond) :
    Core nthr { k.setState k.tp .waiting with
      waitCond := Function.update k.waitCond k.tp (some c)
      listNext := Function.update k.listNext k.tp none } (some k.tp) none ready waits := by
  have hl := h.listed
  rw [runner_of_running hrun] at hl
  have hr : runner { k.setState k.tp .waiting with
      waitCond := Function.update k.waitCond k.tp (some c)
      listNext := Function.update k.listNext k.tp none } none = none :=
    runner_of_not_running (by simp [Kernel.setState])
  refine ⟨?_, ?_, .inl (h.idle_mem hne), h.headNe, fun p hp ha => ?_⟩
  · exact h.table.setState (by simp [Alive, hrun]) (by simp)
  · rw [hr]
    exact hl.enterWait c
  · have hp' : p ≠ k.tp := hp
    have ha' : Alive (Function.update k.state k.tp .waiting p) := ha
    rw [Function.update_of_ne hp'] at ha'
    exact h.parked p hp' ha'

theorem Core.insertWait (h : Core nthr k (some k.tp) none ready waits) (hs : k.state k.tp = .waiting)
    (hc : k.waitCond k.tp = some c) :
    ∃ next list, k.insertWait c k.tp = .ok { k with listNext := next, waitList := Function.update k.waitList c list } ∧
      Core nthr { k with listNext := next, waitList := Function.update k.waitList c list } none none ready
        (Function.update waits c (waits c ++ [k.tp])) := by
  obtain ⟨next, list, hins, hl⟩ := h.listed.insertWait hs hc
  refine ⟨next, list, ?_, h.table, hl, h.idle, h.headNe, h.parked⟩
  rw [Kernel.insertWait, hins]

theorem Core.insertReady {t : Ptr} (h : Core nthr k (some t) none ready waits) (hs : k.state t = .ready)
    (hne : t ≠ k.tp) :
    ∃ next list, k.insertReady t = .ok { k with listNext := next, readyList := list } ∧
      Core nthr { k with listNext := next, readyList := list } none none (ready ++ [t]) waits := by
  obtain ⟨next, list, hins, hl⟩ := h.listed.insertReady hs
  refine ⟨next, list, ?_, h.table, hl, h.idle.imp_left fun hm => List.mem_append_left _ hm, fun _ => ?_, h.parked⟩
  · rw [Kernel.insertReady, hins]
  · cases ready with
    | nil => simpa using hne
    | cons p l => exact h.headNe rfl

/-- The state after the loop of condition_broadcast. -/
def woken (k : Kernel σ ι) (l : List Ptr) : Kernel σ ι :=
  { k with state := fun p => if p ∈ l then .ready else k.state p
           waitCond := fun p => if p ∈ l then none else k.waitCond p }

theorem wakeLoop_eq {l : List Ptr} {fuel : Nat} {head : Option Ptr}
    (hl : Lib.LinkedList.Linked (fun w => w) k.listNext head l) (hnd : l.Nodup) (hf : l.length ≤ fuel)
    (hw : ∀ t ∈ l, k.state t = .waiting ∧ k.waitCond t = some c) :
    Kernel.wakeLoop c fuel head k = .ok (woken k l) := by
  induction l generalizing k fuel head with
  | nil =>
      obtain rfl : head = none := hl
      cases fuel <;> simp [Kernel.wakeLoop, woken]
  | cons t l ih =>
      obtain rfl : head = some t := hl.1
      obtain ⟨fuel, rfl⟩ := Nat.exists_eq_add_of_le' (Nat.le_trans (Nat.succ_le_succ (Nat.zero_le _)) hf)
      obtain ⟨ht, hnd⟩ := List.nodup_cons.mp hnd
      rw [Kernel.wakeLoop, if_neg (by simp [hw t]), if_neg (by simp [hw t])]
      refine (ih (k := { k.setState t .ready with waitCond := Function.update k.waitCond t none }) hl.2 hnd
        (Nat.le_of_succ_le_succ hf) fun p hp => ?_).trans ?_
      · have hne : p ≠ t := ne_of_mem_of_not_mem hp ht
        simpa [Kernel.setState, hne] using hw p (List.mem_cons_of_mem _ hp)
      · congr 1
        simp only [woken, Kernel.setState, Kernel.mk.injEq, true_and, and_true]
        constructor <;> funext p <;> rcases eq_or_ne p t with rfl | hne <;> simp_all

/-- condition_broadcast, also from an interrupt handler in the middle of another function. -/
theorem Core.wakeAll (h : Core nthr k ex sw ready waits) (c : Cond) :
    ∃ next list, k.wakeAll nthr c = .ok { woken k (waits c) with
        listNext := next, readyList := list, waitList := Function.update k.waitList c tlclear } ∧
      Core nthr { woken k (waits c) with
        listNext := next, readyList := list, waitList := Function.update k.waitList c tlclear } ex sw
        (ready ++ waits c) (Function.update waits c []) := by
  have hwait : ∀ t ∈ waits c, k.state t = .waiting ∧ k.waitCond t = some c := fun t ht =>
    ⟨h.listed.state_of_mem_waits ht, ((h.listed.mem_waits t c).mp ht).2.1⟩
  have hlen : (waits c).length ≤ nthr :=
    h.table.length_le (h.listed.waitsNodup c) fun p hp => .inl (hwait p hp).1
  obtain ⟨next, list, happ, hl⟩ := h.listed.wake c
  have hrunner : runner { woken k (waits c) with
      listNext := next, readyList := list, waitList := Function.update k.waitList c tlclear } sw = runner k sw := by
    unfold runner woken
    by_cases hm : k.tp ∈ waits c
    · simp [hm, hwait _ hm]
    · simp [hm]
  refine ⟨next, list, ?_, ?_, ?_, ?_, fun hsw => ?_, fun p hp ha => ?_⟩
  · rw [Kernel.wakeAll, wakeLoop_eq (h.listed.waitList c).1 (h.listed.waitsNodup c) hlen hwait]
    simp only [bind, Except.bind, woken] at happ ⊢
    rw [happ]
  · refine h.table.congr (fun p => ?_) fun p ha => ?_
    · by_cases hm : p ∈ waits c
      · simp [woken, hm, hwait p hm]
      · simp [woken, hm]
    · by_cases hm : p ∈ waits c
      · exact .inl (hwait p hm).1
      · simpa [woken, hm] using ha
  · rw [hrunner]
    exact hl
  · rw [hrunner]
    exact h.idle.imp_left fun hm => List.mem_append_left _ hm
  · -- only the running idle thread can see an empty ready_list, and it waits for nothing
    cases ready with
    | cons p l => exact h.headNe hsw
    | nil =>
        subst hsw
        intro hhead
        have htp : k.tp ∈ waits c := List.mem_of_mem_head? hhead
        have hrun := h.idle.resolve_left (by simp)
        rw [runner_of_not_running (by simp [hwait _ htp])] at hrun
        cases hrun
  · refine h.parked p hp ?_
    by_cases hm : p ∈ waits c
    · exact .inl (hwait p hm).1
    · simpa [woken, hm] using ha

/-- suspend_self takes the first thread off ready_list, which is not the current one, before
it puts the current one at the end. -/
theorem Core.dispatch_cons {n : Ptr} {rest : List Ptr} (h : Core nthr k none none (n :: rest) waits) :
    ∃ k', k.dispatch = .ok (n, k') ∧
      Core nthr k' none (some n) (rest ++ if k.state k.tp = .running then [k.tp] else []) waits ∧ n ≠ k.tp ∧
      (k.state k.tp = .running ∧ k'.state = Function.update (Function.update k.state n .running) k.tp .ready ∨
        k.state k.tp ≠ .running ∧ k'.state = Function.update k.state n .running) ∧
      k' = { k with state := k'.state, listNext := k'.listNext, readyList := k'.readyList } := by
  have hn : n ≠ k.tp := fun he => h.headNe rfl (by simp [he])
  have hst : k.state n = .ready := h.listed.state_of_mem_ready List.mem_cons_self
  have halive : ∀ p, p ≠ k.tp → Alive (Function.update k.state n .running p) → Alive (k.state p) := fun p _ ha => by
    rcases eq_or_ne p n with rfl | hp
    · exact .inr (.inr hst)
    · rwa [Function.update_of_ne hp] at ha
  by_cases hrun : k.state k.tp = .running
  · have hl := h.listed
    rw [runner_of_running hrun] at hl
    obtain ⟨hr, hw⟩ := hl.off_lists (t := k.tp) (by simp [hrun]) (by simp [hrun])
    have hl' := hl.restate (some k.tp) none .ready hr hw (.inl ⟨rfl, rfl⟩) (by simp)
      (by simp)
    obtain ⟨next, list, hrem, hl'⟩ := hl'.remove
    obtain ⟨next', list', hins, hl'⟩ := hl'.insertReady (by simp [Ne.symm hn])
    rw [Function.update_comm (Ne.symm hn)] at hl'
    rw [if_pos hrun]
    refine ⟨{ k with
        state := Function.update (Function.update k.state n .running) k.tp .ready
        listNext := next', readyList := list' }, ?_, ⟨?_, hl', ?_, by simp, fun p hp ha => ?_⟩, hn,
      .inl ⟨hrun, rfl⟩, rfl⟩
    · simp only [Kernel.dispatch, hrem, hst, ne_eq, not_true_eq_false, if_false, Kernel.setState,
        Function.update_of_ne (Ne.symm hn), hrun, if_true, Kernel.insertReady, hins]
      rfl
    · exact (h.table.setState (.inr (.inr hst)) (by simp)).setState (by simp [Alive, hrun, Ne.symm hn]) (by simp)
    · rcases h.idle with hm | hr
      · rcases List.mem_cons.mp hm with rfl | hm
        · exact .inr rfl
        · exact .inl (List.mem_append_left _ hm)
      · rw [runner_of_running hrun] at hr
        exact .inl (by simp [Option.some.inj hr])
    · have hp' : p ≠ k.tp := hp
      have ha' : Alive (Function.update (Function.update k.state n .running) k.tp .ready p) := ha
      rw [Function.update_of_ne hp'] at ha'
      exact h.parked p hp (halive p hp ha')
  · have hl := h.listed
    rw [runner_of_not_running hrun] at hl
    obtain ⟨next, list, hrem, hl'⟩ := hl.remove
    rw [if_neg hrun, List.append_nil]
    refine ⟨{ k with state := Function.update k.state n .running, listNext := next, readyList := list }, ?_,
      ⟨?_, hl', ?_, by simp, fun p hp ha => h.parked p hp (halive p hp ha)⟩, hn, .inr ⟨hrun, rfl⟩, rfl⟩
    · simp only [Kernel.dispatch, hrem, hst, ne_eq, not_true_eq_false, if_false, Kernel.setState,
        Function.update_of_ne (Ne.symm hn), hrun]
      rfl
    · exact h.table.setState (.inr (.inr hst)) (by simp)
    · rcases h.idle with hm | hr
      · rcases List.mem_cons.mp hm with rfl | hm
        · exact .inr rfl
        · exact .inl hm
      · rw [runner_of_not_running hrun] at hr
        cases hr

theorem Core.dispatch (h : Core nthr k none none ready waits) (hne : ready ≠ []) :
    ∃ n k' ready', k.dispatch = .ok (n, k') ∧ Core nthr k' none (some n) ready' waits ∧ n ∈ ready ∧ n ≠ k.tp ∧
      (k.state k.tp = .running ∧ k'.state = Function.update (Function.update k.state n .running) k.tp .ready ∨
        k.state k.tp ≠ .running ∧ k'.state = Function.update k.state n .running) ∧
      k' = { k with state := k'.state, listNext := k'.listNext, readyList := k'.readyList } := by
  obtain ⟨n, rest, rfl⟩ := List.exists_cons_of_ne_nil hne
  obtain ⟨k', hdisp, hcore, hn, hst, hk'⟩ := h.dispatch_cons
  exact ⟨n, k', _, hdisp, hcore, List.mem_cons_self, hn, hst, hk'⟩

/-- _thread_swtch makes the chosen thread the current one. -/
theorem Core.swtch {n : Ptr} {code : List (Pc ι)} (h : Core nthr k none (some n) ready waits)
    (hcode : Alive (k.state k.tp) → Parked code) :
    Core nthr { k.setCode code with tp := n } none none ready waits := by
  have hrun : k.state n = .running := (h.listed.running n).mpr rfl
  have hr : runner { k.setCode code with tp := n } none = some n := runner_of_running hrun
  refine ⟨h.table, ?_, ?_, fun _ hhead => ?_, fun p hp ha => ?_⟩
  · rw [hr]
    exact h.listed
  · rw [hr]
    exact h.idle
  · have := h.listed.state_of_mem_ready (List.mem_of_mem_head? hhead)
    cases hrun.symm.trans this
  · rcases eq_or_ne p k.tp with rfl | hne
    · simpa [Kernel.setCode] using hcode ha
    · simpa [Kernel.setCode, hne] using h.parked p hne ha

theorem Core.exit (h : Core nthr k none none ready waits) (hrun : k.state k.tp = .running) (hne : k.tp ≠ idleThread) :
    Core nthr (k.setState k.tp .exited) none none ready waits := by
  have hl := h.listed
  rw [runner_of_running hrun] at hl
  obtain ⟨hr, hw⟩ := hl.off_lists (t := k.tp) (by simp [hrun]) (by simp [hrun])
  have hnr : runner (k.setState k.tp .exited) none = none := runner_of_not_running (by simp [Kernel.setState])
  refine ⟨h.table.setState (by simp [Alive, hrun]) (by simp), ?_, .inl (h.idle_mem hne), h.headNe, fun p hp ha => ?_⟩
  · rw [hnr]
    exact hl.restate none none .exited hr hw (.inr ⟨rfl, rfl⟩) (by simp) (by simp)
  · have hp' : p ≠ k.tp := hp
    have ha' : Alive (Function.update k.state k.tp .exited p) := ha
    rw [Function.update_of_ne hp'] at ha'
    exact h.parked p hp' ha'

theorem Core.spawn (h : Core nthr k none none ready waits) (hrun : k.state k.tp = .running) {tid : Nat} (page : Nat)
    (htid : k.thrtab tid = none) (hlt : tid < nthr) :
    Core nthr (k.spawn tid page) (some k.brk) none ready waits := by
  have hfresh : k.state k.brk = .uninitialized := h.table.fresh _ (Nat.le_refl _)
  have hne : k.tp ≠ k.brk := fun he => by rw [← he, hrun] at hfresh; cases hfresh
  have hl := h.listed
  obtain ⟨hr, hw⟩ := hl.off_lists (t := k.brk) (by simp [hfresh]) (by simp [hfresh])
  have hrunner : runner (k.spawn tid page) none = runner k none := by
    simp [runner, Kernel.spawn, Kernel.setState, Function.update_of_ne hne]
  refine ⟨h.table.spawn htid hlt, ?_, ?_, h.headNe, fun p hp ha => ?_⟩
  · rw [hrunner]
    refine hl.restate (some k.brk) _ .ready hr hw (.inl ⟨rfl, rfl⟩) ?_ fun _ _ => Iff.rfl
    rw [runner_of_running hrun]
    simpa using Ne.symm hne
  · rw [hrunner]
    exact h.idle
  · rcases eq_or_ne p k.brk with rfl | hpb
    · exact .inl (by simp [Kernel.spawn, Conts])
    · have ha' : Alive (Function.update k.state k.brk .ready p) := ha
      rw [Function.update_of_ne hpb] at ha'
      simpa [Kernel.spawn, hpb] using h.parked p hp ha'

/-- recycle_thread only touches thrtab and the parents. -/
theorem recycleThread_cases (k : Kernel σ ι) (nthr tid : Nat) :
    (∃ thr, k.thrtab tid = some thr ∧ 0 < tid ∧ tid < nthr ∧ k.state thr = .exited ∧
      k.recycleThread nthr tid = .ok { k with
        parent := (Kernel.slots nthr).foldl (Kernel.reparent k.thrtab thr) k.parent
        thrtab := Function.update k.thrtab tid none
        joined := thr :: k.joined }) ∨
    k.recycleThread nthr tid = .error (.assert .recycle) := by
  unfold Kernel.recycleThread
  cases ht : k.thrtab tid with
  | none => exact .inr rfl
  | some thr =>
      by_cases hc : 0 < tid ∧ tid < nthr ∧ k.state thr = .exited
      · exact .inl ⟨thr, rfl, hc.1, hc.2.1, hc.2.2, if_pos hc⟩
      · exact .inr (if_neg hc)

end Steps

section Exec

variable {cl : Client σ ι ε} {pc : Pc ι} {code rest : List (Pc ι)} {ex sw : Option Ptr}

/-- The invariant from the core and the new code of the current thread. -/
theorem Core.inv (code : List (Pc ι)) (hc : Core nthr k (exempt k.tp code) (switching code) ready waits)
    (hcur : Current (k.state k.tp) (k.waitCond k.tp) code) (hcode : IdleOk k.tp (k.code idleThread))
    (hidle : k.tp = idleThread → IdleCode code ∧ (Yields code → ready ≠ []))
    (hspawn : ∀ child, spawning code = some child → k.state child = .ready)
    (sie : Bool) (satp : Nat) (dev : σ) (ret : Ptr → Int) :
    Inv nthr { k with sie, satp, dev, ret, code := Function.update k.code k.tp code } ready waits := by
  refine ⟨?_, ?_, ?_, fun he => ?_, ?_⟩
  · simp only [Function.update_self]
    exact hc.move sie satp dev ret code
  · simp only [Function.update_self]
    exact hcur
  · simp only
    rcases eq_or_ne k.tp idleThread with he | hne
    · rw [← he, Function.update_self]
      exact ⟨(hidle he).1, fun _ => he⟩
    · rw [Function.update_of_ne (Ne.symm hne)]
      exact hcode
  · simp only [Function.update_self]
    exact (hidle he).2
  · simp only [Function.update_self]
    exact hspawn

/-- The functions that can stop the kernel without one of the assertions about lists and
thread states. -/
def Benign : Stop → Prop
  | .haltSuccess | .tooManyThreads | .childless | .spuriousChildExit | .assert .parent | .assert .recycle => True
  | _ => False

/-- The kernel after a step satisfies the invariant again. -/
def Kept (nthr : Nat) (r : Except Stop (Kernel σ ι)) : Prop :=
  Ensures r (fun k => ∃ ready waits, Inv nthr k ready waits) Benign

theorem Inv.tp_ne_idle (h : Inv nthr k ready waits) (hcode : k.code k.tp = pc :: rest) (ha : idleAlone pc = false)
    (ht : idleTop pc = false) : k.tp ≠ idleThread := fun he => by
  have := h.idleCode.1
  rw [← he, hcode] at this
  simp [IdleCode, ha, ht] at this

theorem Inv.idle_rest (h : Inv nthr k ready waits) (hcode : k.code k.tp = pc :: rest) (ha : idleAlone pc = false)
    (he : k.tp = idleThread) : rest = [.idleLoop] := by
  have := h.idleCode.1
  rw [← he, hcode] at this
  simp only [IdleCode, ha, Bool.false_eq_true, and_false, false_or] at this
  exact this.1

theorem Inv.idle_alone (h : Inv nthr k ready waits) (hcode : k.code k.tp = pc :: rest) (ht : idleTop pc = false)
    (he : k.tp = idleThread) : rest = [] := by
  have := h.idleCode.1
  rw [← he, hcode] at this
  simp only [IdleCode, ht, Bool.false_eq_true, and_false, or_false] at this
  exact this.1

/-- A running thread returns from the function it is in. -/
theorem Core.kept_return (hc : Core nthr k none none ready waits) (hrun : k.state k.tp = .running) (hrest : Conts code)
    (hcode : IdleOk k.tp (k.code idleThread)) (hidle : k.tp = idleThread → IdleCode code ∧ (Yields code → ready ≠ []))
    (sie : Bool) (satp : Nat) (dev : σ) (ret : Ptr → Int) :
    Kept nthr (.ok { k with sie, satp, dev, ret, code := Function.update k.code k.tp code }) := by
  refine ⟨ready, waits, Core.inv code ?_ ?_ hcode hidle ?_ sie satp dev ret⟩
  · rw [hrest.exempt, hrest.switching]
    exact hc
  · rw [hrun]
    exact hrest.current _
  · rw [hrest.spawning]
    simp

theorem freeSlot_spec {tid : Nat} (h : k.freeSlot nthr = some tid) : k.thrtab tid = none ∧ 0 < tid ∧ tid < nthr := by
  have hmem : tid ∈ Kernel.slots nthr := List.mem_of_find?_eq_some h
  rw [Kernel.slots, List.mem_range'_1] at hmem
  exact ⟨by simpa using List.find?_some h, by omega, by omega⟩

theorem Inv.enter (h : Inv nthr k ready waits) {c : Call ι} (hcode : k.code k.tp = .call c :: rest) :
    Kept nthr (enter cl nthr k rest c) := by
  have hcore : Core nthr k none none ready waits := by
    have := h.core
    rwa [hcode] at this
  obtain ⟨hrun, hK⟩ : k.state k.tp = .running ∧ Conts rest := by
    have := h.current
    rwa [hcode] at this
  cases c with
  | threadSpawn page =>
      have hne := h.tp_ne_idle hcode rfl rfl
      rw [Scheduler.enter]
      cases hf : k.freeSlot nthr with
      | none => exact trivial
      | some tid =>
          obtain ⟨hnone, -, hlt⟩ := freeSlot_spec hf
          have hbrk : k.tp ≠ k.brk := fun he => by
            have := hcore.table.fresh k.brk (Nat.le_refl _)
            rw [← he, hrun] at this
            cases this
          have hib : idleThread ≠ k.brk := fun he => by
            have := hcore.table.two_le
            rw [← he] at this
            exact absurd this (by decide)
          refine ⟨ready, waits, Core.inv (.spawnDisable k.brk :: rest) (hcore.spawn hrun page hnone hlt) ⟨?_, hK⟩ ?_
            (fun he => absurd he hne) (fun child hc => ?_) _ _ _ _⟩
          · simp [Kernel.spawn, Kernel.setState, Function.update_of_ne hbrk, hrun]
          · simpa [Kernel.spawn, Kernel.setState, hib] using h.idleCode
          · obtain rfl := Option.some.inj hc
            simp [Kernel.spawn, Kernel.setState]
  | threadExit =>
      have hne := h.tp_ne_idle hcode rfl rfl
      rw [Scheduler.enter]
      by_cases hm : k.tp = mainThread
      · rw [if_pos hm]
        exact trivial
      · rw [if_neg hm]
        cases hp : k.parent k.tp with
        | none => exact trivial
        | some parent =>
            refine ⟨ready, waits, Core.inv (.bcastEnter (.childExit parent) :: .suspEnter :: .exitFailed :: rest)
              (hcore.exit hrun hne) (.inr ⟨_, rfl, ?_, _, rfl⟩) h.idleCode (fun he => absurd he hne) (fun child hc => by cases hc) _ _ _ _⟩
            simp [Kernel.setState]
  | threadYield =>
      rw [Scheduler.enter, if_pos hrun]
      refine ⟨ready, waits, Core.inv (.suspEnter :: rest) hcore (.inl ⟨by simp [Alive, hrun], hK⟩) h.idleCode (fun he => ?_)
        (fun child hc => by cases hc) _ _ _ _⟩
      refine ⟨.inr ⟨h.idle_rest hcode rfl he, rfl⟩, fun _ => h.idleYield he ?_⟩
      rw [hcode]
      exact trivial
  | threadJoin tid =>
      have hne := h.tp_ne_idle hcode rfl rfl
      have hret : ∀ r : Int, Kept nthr (.ok ((k.setRet r).setCode rest)) := fun r =>
        hcore.kept_return hrun hK h.idleCode (fun he => absurd he hne) _ _ _ _
      rw [Scheduler.enter]
      split
      · exact hret _
      · split
        · split
          · exact hcore.kept_return hrun (.cons rfl hK) h.idleCode (fun he => absurd he hne) _ _ _ _
          · exact hret _
        · exact hret _
  | threadJoinAny =>
      have hne := h.tp_ne_idle hcode rfl rfl
      rw [Scheduler.enter]
      split
      · exact hcore.kept_return hrun (.cons rfl hK) h.idleCode (fun he => absurd he hne) _ _ _ _
      · split
        · exact ⟨ready, waits, Core.inv (.waitEnter (.childExit k.tp) :: .joinAnyScan :: rest) hcore ⟨hrun, .cons rfl hK⟩
            h.idleCode (fun he => absurd he hne) (fun child hc => by cases hc) _ _ _ _⟩
        · exact trivial
  | conditionWait n =>
      have hne := h.tp_ne_idle hcode rfl rfl
      exact ⟨ready, waits, Core.inv (.waitEnter (.ext n) :: rest) hcore ⟨hrun, hK⟩ h.idleCode (fun he => absurd he hne)
        (fun child hc => by cases hc) _ _ _ _⟩
  | conditionBroadcast n =>
      have hne := h.tp_ne_idle hcode rfl rfl
      exact ⟨ready, waits, Core.inv (.bcastEnter (.ext n) :: rest) hcore (.inl ⟨hrun, hK⟩) h.idleCode (fun he => absurd he hne)
        (fun child hc => by cases hc) _ _ _ _⟩
  | intrDisable | intrEnable =>
      have hne := h.tp_ne_idle hcode rfl rfl
      exact hcore.kept_return hrun hK h.idleCode (fun he => absurd he hne) _ _ _ _
  | dev i =>
      have hne := h.tp_ne_idle hcode rfl rfl
      exact hcore.kept_return hrun hK.calls h.idleCode (fun he => absurd he hne) _ _ _ _

/-- condition_broadcast returns, to a running thread or to thread_exit. -/
theorem Core.kept_bcast (hc : Core nthr k none none ready waits) (hne : k.tp ≠ idleThread)
    (hcode : IdleOk k.tp (k.code idleThread))
    (hcur : k.state k.tp = .running ∧ Conts code ∨ ∃ K', code = .suspEnter :: K' ∧ Exiting (k.state k.tp) K')
    (sie : Bool) :
    Kept nthr (.ok { k with sie, code := Function.update k.code k.tp code }) := by
  rcases hcur with ⟨hrun, hK⟩ | ⟨K, rfl, hex⟩
  · exact hc.kept_return hrun hK hcode (fun he => absurd he hne) _ _ _ _
  · exact ⟨ready, waits, Core.inv (.suspEnter :: K) hc (.inr hex) hcode (fun he => absurd he hne)
      (fun child hc => by cases hc) _ _ _ _⟩

theorem Inv.recycle (h : Inv nthr k ready waits) {tid : Nat} (hcore : Core nthr k none none ready waits)
    (hrun : k.state k.tp = .running) (hrest : Conts rest) (hne : k.tp ≠ idleThread) :
    Kept nthr (do let k ← k.recycleThread nthr tid; return (k.setRet tid).setCode rest) := by
  rcases recycleThread_cases k nthr tid with ⟨thr, htab, -, -, hex, heq⟩ | heq
  · rw [heq]
    have hcore' : Core nthr { k with
        parent := (Kernel.slots nthr).foldl (Kernel.reparent k.thrtab thr) k.parent
        thrtab := Function.update k.thrtab tid none
        joined := thr :: k.joined } none none ready waits :=
      ⟨hcore.table.recycle htab hex, hcore.listed, hcore.idle, hcore.headNe, hcore.parked⟩
    exact hcore'.kept_return hrun hrest h.idleCode (fun he => absurd he hne) _ _ _ _
  · rw [heq]
    exact trivial

/-- The resumed thread goes on where it was left. -/
theorem Inv.swtch (h : Inv nthr k ready waits) {n : Ptr} {saved : Bool} (hcode : k.code k.tp = .suspSwtch n saved :: rest) :
    Kept nthr (.ok { k.setCode (.suspResumed saved :: rest) with tp := n }) := by
  have hcore : Core nthr k none (some n) ready waits := by
    have := h.core
    rwa [hcode] at this
  have hcur : (k.state k.tp = .waiting ∨ k.state k.tp = .ready) ∧ Conts rest ∨ Exiting (k.state k.tp) rest := by
    have := h.current
    rwa [hcode] at this
  have hrun : k.state n = .running := (hcore.listed.running n).mpr rfl
  have hn : n ≠ k.tp := fun he => by
    rw [← he, hrun] at hcur
    rcases hcur with ⟨hs | hs, -⟩ | ⟨hs, -⟩ <;> cases hs
  have hcore' : Core nthr { k.setCode (.suspResumed saved :: rest) with tp := n } none none ready waits := by
    refine hcore.swtch fun ha => ?_
    rcases hcur with ⟨-, hK⟩ | ⟨hex, -⟩
    · exact .inr ⟨saved, rest, rfl, hK⟩
    · simp [Alive, hex] at ha
  have hcn : (k.setCode (.suspResumed saved :: rest)).code n = k.code n := by
    simp [Kernel.setCode, hn]
  have hpark := hcore.parked n hn (.inr (.inl hrun))
  have hshape : Current .running (k.waitCond n) (k.code n) ∧ exempt n (k.code n) = none ∧
      switching (k.code n) = none ∧ spawning (k.code n) = none := by
    rcases hpark with hK | ⟨s, K, he, hK⟩
    · exact ⟨hK.current _, hK.exempt n, hK.switching, hK.spawning⟩
    · rw [he]
      exact ⟨⟨rfl, hK⟩, rfl, rfl, rfl⟩
  refine ⟨ready, waits, ?_, ?_, ?_, fun he => ?_, fun child hc => ?_⟩
  · simp only [hcn, hshape]
    exact hcore'
  · simp only [hcn]
    exact hrun ▸ hshape.1
  · rcases eq_or_ne k.tp idleThread with he | hne
    · have : (k.setCode (.suspResumed saved :: rest)).code idleThread = [.suspResumed saved, .idleLoop] := by
        rw [← he, Kernel.setCode, h.idle_rest hcode rfl he]
        simp
      simp only [this]
      exact ⟨.inr ⟨rfl, rfl⟩, fun hy => by cases hy⟩
    · have : (k.setCode (.suspResumed saved :: rest)).code idleThread = k.code idleThread := by
        simp [Kernel.setCode, Ne.symm hne]
      simp only [this]
      exact ⟨h.idleCode.1, fun hy => absurd (h.idleCode.2 hy) hne⟩
  · simp only [hcn]
    obtain rfl : n = idleThread := he
    exact fun hy => absurd (h.idleCode.2 hy).symm hn
  · simp only [hcn, hshape] at hc
    cases hc

theorem Inv.exec (h : Inv nthr k ready waits) (hcode : k.code k.tp = pc :: rest) :
    Kept nthr (exec cl nthr k rest pc) := by
  have hcore := h.core
  have hcur := h.current
  rw [hcode] at hcore hcur
  cases pc with
  | call c => exact h.enter hcode
  | waitEnter c =>
      obtain ⟨hrun, hK⟩ := hcur
      have hne := h.tp_ne_idle hcode rfl rfl
      rw [Scheduler.exec, if_pos hrun]
      refine ⟨ready, waits, Core.inv (.waitDisable c :: rest) (hcore.enterWait hrun hne c) ⟨?_, ?_, hK⟩ h.idleCode
        (fun he => absurd he hne) (fun child hc => by cases hc) _ _ _ _⟩
      · simp [Kernel.setState]
      · simp [Kernel.setState]
  | waitDisable c =>
      have hne := h.tp_ne_idle hcode rfl rfl
      exact ⟨ready, waits, Core.inv (.waitInsert c k.sie :: rest) hcore hcur h.idleCode (fun he => absurd he hne)
        (fun child hc => by cases hc) _ _ _ _⟩
  | waitInsert c saved =>
      obtain ⟨hs, hc, hK⟩ := hcur
      have hne := h.tp_ne_idle hcode rfl rfl
      obtain ⟨next, list, hins, hcore'⟩ := hcore.insertWait hs hc
      rw [Scheduler.exec, hins]
      exact ⟨ready, _, Core.inv (.waitRestore saved :: rest) hcore' ⟨.inl hs, hK⟩ h.idleCode (fun he => absurd he hne)
        (fun child hc => by cases hc) _ _ _ _⟩
  | waitRestore saved =>
      obtain ⟨hs, hK⟩ := hcur
      have hne := h.tp_ne_idle hcode rfl rfl
      exact ⟨ready, waits, Core.inv (.suspEnter :: rest) hcore (.inl ⟨hs.imp_right .inr, hK⟩) h.idleCode
        (fun he => absurd he hne) (fun child hc => by cases hc) _ _ _ _⟩
  | bcastEnter c =>
      have hne := h.tp_ne_idle hcode rfl rfl
      rw [Scheduler.exec]
      by_cases he : tlempty (k.waitList c) = true
      · rw [if_pos he]
        exact hcore.kept_bcast hne h.idleCode hcur _
      · rw [if_neg he]
        exact ⟨ready, waits, Core.inv (.bcastDisable c :: rest) hcore hcur h.idleCode (fun he => absurd he hne)
          (fun child hc => by cases hc) _ _ _ _⟩
  | bcastDisable c =>
      have hne := h.tp_ne_idle hcode rfl rfl
      exact ⟨ready, waits, Core.inv (.bcastBody c k.sie :: rest) hcore hcur h.idleCode (fun he => absurd he hne)
        (fun child hc => by cases hc) _ _ _ _⟩
  | bcastBody c saved =>
      have hne := h.tp_ne_idle hcode rfl rfl
      obtain ⟨next, list, hwake, hcore'⟩ := hcore.wakeAll c
      have hst : k.state k.tp ≠ .waiting := by
        rcases hcur with ⟨hrun, -⟩ | ⟨_, -, hex, -⟩
        · simp [hrun]
        · simp [hex]
      have hm : k.tp ∉ waits c := fun hm => hst (hcore.listed.state_of_mem_waits hm)
      rw [Scheduler.exec, hwake]
      refine ⟨_, _, Core.inv (.bcastRestore saved :: rest) hcore' ?_ h.idleCode (fun he => absurd he hne)
        (fun child hc => by cases hc) _ _ _ _⟩
      have hcur' : Current (k.state k.tp) (k.waitCond k.tp) (.bcastRestore saved :: rest) := hcur
      simpa [woken, hm] using hcur'
  | bcastRestore saved =>
      have hne := h.tp_ne_idle hcode rfl rfl
      exact hcore.kept_bcast hne h.idleCode hcur _
  | suspEnter =>
      rw [Scheduler.exec, if_neg]
      · exact ⟨ready, waits, Core.inv (.suspDisable :: rest) hcore hcur h.idleCode
          (fun he => ⟨.inr ⟨h.idle_rest hcode rfl he, rfl⟩, fun _ => h.idleYield he (by rw [hcode]; trivial)⟩)
          (fun child hc => by cases hc) _ _ _ _⟩
      · rw [hcore.listed.readyList.tlempty_iff]
        rcases eq_or_ne k.tp idleThread with he | hne
        · exact h.idleYield he (by rw [hcode]; trivial)
        · exact hcore.ready_ne_nil hne
  | suspDisable =>
      exact ⟨ready, waits, Core.inv (.suspDispatch k.sie :: rest) hcore hcur h.idleCode
        (fun he => ⟨.inr ⟨h.idle_rest hcode rfl he, rfl⟩, fun _ => h.idleYield he (by rw [hcode]; trivial)⟩)
        (fun child hc => by cases hc) _ _ _ _⟩
  | suspDispatch saved =>
      have hnil : ready ≠ [] := by
        rcases eq_or_ne k.tp idleThread with he | hne
        · exact h.idleYield he (by rw [hcode]; trivial)
        · exact hcore.ready_ne_nil hne
      obtain ⟨n, k', ready', hdisp, hcore', -, hn, hst, hk'⟩ := hcore.dispatch hnil
      rw [Scheduler.exec, hdisp]
      have htp : k'.tp = k.tp := by rw [hk']
      have hcd : k'.code = k.code := by rw [hk']
      refine ⟨ready', waits, Core.inv (.suspEnable n saved :: rest) hcore' ?_ (by rw [hcd, htp]; exact h.idleCode)
        (fun he => ⟨.inr ⟨h.idle_rest hcode rfl (htp ▸ he), rfl⟩, fun hy => by cases hy⟩)
        (fun child hc => by cases hc) _ _ _ _⟩
      rw [htp]
      rcases hst with ⟨hrun, hst⟩ | ⟨hrun, hst⟩
      · rw [hst, Function.update_self]
        rcases hcur with ⟨-, hK⟩ | ⟨hex, -⟩
        · exact .inl ⟨.inr rfl, hK⟩
        · cases hrun.symm.trans hex
      · rw [hst, Function.update_of_ne (Ne.symm hn)]
        rcases hcur with ⟨ha, hK⟩ | hex
        · exact .inl ⟨ha.imp_right fun h => h.resolve_left hrun, hK⟩
        · exact .inr hex
  | suspEnable next saved =>
      exact ⟨ready, waits, Core.inv (.suspSpace next saved :: rest) hcore hcur h.idleCode
        (fun he => ⟨.inr ⟨h.idle_rest hcode rfl he, rfl⟩, fun hy => by cases hy⟩) (fun child hc => by cases hc) _ _ _ _⟩
  | suspSpace next saved =>
      exact ⟨ready, waits, Core.inv (.suspSwtch next saved :: rest) hcore hcur h.idleCode
        (fun he => ⟨.inr ⟨h.idle_rest hcode rfl he, rfl⟩, fun hy => by cases hy⟩) (fun child hc => by cases hc) _ _ _ _⟩
  | suspSwtch next saved => exact h.swtch hcode
  | suspResumed saved =>
      obtain ⟨hrun, hK⟩ := hcur
      rw [Scheduler.exec, if_neg (by simp [hrun])]
      exact ⟨ready, waits, Core.inv (.suspRestore saved :: rest) hcore ⟨hrun, hK⟩ h.idleCode
        (fun he => ⟨.inr ⟨h.idle_rest hcode rfl he, rfl⟩, fun hy => by cases hy⟩) (fun child hc => by cases hc) _ _ _ _⟩
  | suspRestore saved =>
      obtain ⟨hrun, hK⟩ := hcur
      refine hcore.kept_return hrun hK h.idleCode (fun he => ?_) _ _ _ _
      rw [h.idle_rest hcode rfl he]
      exact ⟨.inl ⟨rfl, rfl⟩, fun hy => by cases hy⟩
  | spawnDisable child =>
      have hne := h.tp_ne_idle hcode rfl rfl
      exact ⟨ready, waits, Core.inv (.spawnInsert child k.sie :: rest) hcore hcur h.idleCode (fun he => absurd he hne)
        (fun c hc => h.spawned c (by rw [hcode]; exact hc)) _ _ _ _⟩
  | spawnInsert child saved =>
      obtain ⟨hrun, hK⟩ := hcur
      have hne := h.tp_ne_idle hcode rfl rfl
      have hst : k.state child = .ready := h.spawned child (by rw [hcode]; rfl)
      have hct : child ≠ k.tp := fun he => by cases hrun.symm.trans (he ▸ hst)
      obtain ⟨next, list, hins, hcore'⟩ := hcore.insertReady hst hct
      rw [Scheduler.exec, hins]
      exact ⟨_, waits, Core.inv (.spawnRestore saved :: rest) hcore' ⟨hrun, hK⟩ h.idleCode (fun he => absurd he hne)
        (fun child hc => by cases hc) _ _ _ _⟩
  | spawnRestore saved =>
      obtain ⟨hrun, hK⟩ := hcur
      have hne := h.tp_ne_idle hcode rfl rfl
      exact hcore.kept_return hrun hK h.idleCode (fun he => absurd he hne) _ _ _ _
  | exitFailed => exact hcur.elim
  | joinLoop tid child =>
      obtain ⟨hrun, hK⟩ := hcur
      have hne := h.tp_ne_idle hcode rfl rfl
      rw [Scheduler.exec]
      split
      · exact h.recycle hcore hrun hK hne
      · exact ⟨ready, waits, Core.inv (.waitEnter (.childExit k.tp) :: .joinLoop tid child :: rest) hcore
          ⟨hrun, .cons rfl hK⟩ h.idleCode (fun he => absurd he hne) (fun child hc => by cases hc) _ _ _ _⟩
  | joinAnyScan =>
      obtain ⟨hrun, hK⟩ := hcur
      have hne := h.tp_ne_idle hcode rfl rfl
      rw [Scheduler.exec]
      split
      · exact h.recycle hcore hrun hK hne
      · exact trivial
  | idleLoop =>
      obtain ⟨hrun, hK⟩ := hcur
      rw [Scheduler.exec]
      by_cases he : tlempty k.readyList = true
      · rw [if_pos he]
        refine ⟨ready, waits, Core.inv (.idleDisable :: rest) hcore ⟨hrun, hK⟩ h.idleCode (fun he => ?_)
          (fun child hc => by cases hc) _ _ _ _⟩
        exact ⟨.inl ⟨h.idle_alone hcode rfl he, rfl⟩, fun hy => by cases hy⟩
      · rw [if_neg he]
        rw [hcore.listed.readyList.tlempty_iff] at he
        refine hcore.kept_return hrun (.cons rfl (.cons rfl hK)) h.idleCode (fun hi => ?_) _ _ _ _
        rw [h.idle_alone hcode rfl hi]
        exact ⟨.inr ⟨rfl, rfl⟩, fun _ => he⟩
  | idleDisable =>
      refine ⟨ready, waits, Core.inv (.idleWfi :: rest) hcore hcur h.idleCode (fun he => ?_)
        (fun child hc => by cases hc) _ _ _ _⟩
      exact ⟨.inl ⟨h.idle_alone hcode rfl he, rfl⟩, fun hy => by cases hy⟩
  | idleWfi =>
      refine ⟨ready, waits, Core.inv (.idleEnable :: rest) hcore hcur h.idleCode (fun he => ?_)
        (fun child hc => by cases hc) _ _ _ _⟩
      exact ⟨.inl ⟨h.idle_alone hcode rfl he, rfl⟩, fun hy => by cases hy⟩
  | idleEnable =>
      refine ⟨ready, waits, Core.inv (.idleLoop :: rest) hcore hcur h.idleCode (fun he => ?_)
        (fun child hc => by cases hc) _ _ _ _⟩
      exact ⟨.inl ⟨h.idle_alone hcode rfl he, rfl⟩, fun hy => by cases hy⟩

/-- A woken thread is not waiting to be put on a list. -/
theorem Current.wake {cond : Option Cond} {tp : Ptr} (h : Current .waiting cond code) (hex : exempt tp code ≠ some tp) :
    Current .ready none code := by
  cases code with
  | nil => cases h
  | cons pc K =>
      cases pc with
      | waitDisable c | waitInsert c s => exact absurd rfl hex
      | waitRestore s => exact ⟨.inr rfl, h.2⟩
      | suspEnter | suspDisable | suspDispatch s =>
          rcases h with ⟨-, hK⟩ | ⟨hs, -⟩
          · exact .inl ⟨.inr (.inr rfl), hK⟩
          · cases hs
      | suspEnable n s | suspSpace n s | suspSwtch n s =>
          rcases h with ⟨-, hK⟩ | ⟨hs, -⟩
          · exact .inl ⟨.inr rfl, hK⟩
          · cases hs
      | bcastEnter c | bcastDisable c | bcastBody c s | bcastRestore s =>
          rcases h with ⟨hs, -⟩ | ⟨_, -, hs, -⟩ <;> cases hs
      | exitFailed => exact h.elim
      | _ => cases h.1

/-- An interrupt handler can broadcast wherever the current thread is. -/
theorem Inv.broadcast (h : Inv nthr k ready waits) (c : Cond) : Kept nthr (k.broadcast nthr c) := by
  unfold Kernel.broadcast
  split
  · exact ⟨ready, waits, h⟩
  · obtain ⟨next, list, hwake, hcore⟩ := h.core.wakeAll c
    rw [hwake]
    refine ⟨_, _, hcore, ?_, h.idleCode, fun he hy => ?_, fun child hc => ?_⟩
    · by_cases hm : k.tp ∈ waits c
      · have hst := h.core.listed.state_of_mem_waits hm
        have hex := ((h.core.listed.mem_waits _ _).mp hm).2.2
        have hcur := h.current
        rw [hst] at hcur
        simpa [woken, hm] using hcur.wake hex.symm
      · simpa [woken, hm] using h.current
    · exact List.append_ne_nil_of_left_ne_nil (h.idleYield he hy) _
    · have hst := h.spawned child hc
      have hm : child ∉ waits c := fun hm => by cases hst.symm.trans (h.core.listed.state_of_mem_waits hm)
      simpa [woken, hm] using hst

theorem Inv.isr (h : Inv nthr k ready waits) (conds : List Nat) :
    Kept nthr (conds.foldlM (fun k n => k.broadcast nthr (.ext n)) k) := by
  induction conds generalizing k ready waits with
  | nil => exact ⟨ready, waits, h⟩
  | cons n conds ih =>
      rw [List.foldlM_cons]
      have hb := h.broadcast (.ext n)
      cases hr : k.broadcast nthr (.ext n) with
      | error s =>
          rw [hr] at hb
          exact hb
      | ok k' =>
          rw [hr] at hb
          obtain ⟨ready', waits', h'⟩ := hb
          exact ih h'

theorem Inv.setDev (h : Inv nthr k ready waits) (dev : σ) : Inv nthr { k with dev } ready waits :=
  ⟨⟨h.core.table, h.core.listed, h.core.idle, h.core.headNe, h.core.parked⟩, h.current, h.idleCode, h.idleYield,
    h.spawned⟩

theorem Inv.step (h : Inv nthr k ready waits) (l : Label ι ε) : Kept nthr (step cl nthr k l) := by
  cases l with
  | run =>
      rw [Scheduler.step]
      split
      · exact ⟨ready, waits, h⟩
      · exact h.exec ‹_›
  | call c =>
      rw [Scheduler.step]
      split
      · have hnil : k.code k.tp = [] := by simp_all
        have hcore := h.core
        have hcur := h.current
        rw [hnil] at hcore hcur
        refine hcore.kept_return hcur (.cons rfl fun pc hpc => by cases hpc) h.idleCode (fun he => ?_) _ _ _ _
        have := h.idleCode.1
        rw [← he, hnil] at this
        exact this.elim
      · exact ⟨ready, waits, h⟩
  | isr e =>
      rw [Scheduler.step]
      split
      · exact (h.setDev (cl.isr e k.dev).1).isr _
      · exact ⟨ready, waits, h⟩
  | env e => exact ⟨ready, waits, h.setDev _⟩

/-- What a step keeps, every run keeps. -/
theorem Inv.run (h : Inv nthr k ready waits) (ls : List (Label ι ε)) : Kept nthr (run cl nthr k ls) := by
  induction ls generalizing k ready waits with
  | nil => exact ⟨ready, waits, h⟩
  | cons l ls ih =>
      have hs : Kept nthr (Scheduler.step cl nthr k l) := h.step l
      rw [Scheduler.run, List.foldlM_cons]
      cases hr : Scheduler.step cl nthr k l with
      | error s =>
          rw [hr] at hs
          exact hs
      | ok k' =>
          rw [hr] at hs
          obtain ⟨ready', waits', h'⟩ := hs
          exact ih h'

end Exec

theorem inv_threadInit (hn : 2 ≤ nthr) (dev : σ) (satp : Nat) (sie : Bool) :
    Inv nthr (threadInit nthr dev satp sie : Kernel σ ι) [idleThread] fun _ => [] := by
  have hmi : mainThread ≠ idleThread := by decide
  have hst : ∀ p, (threadInit nthr dev satp sie : Kernel σ ι).state p =
      if p = idleThread then .ready else if p = mainThread then .running else .uninitialized := fun p => by
    simp [threadInit, Function.update_apply]
  have htab : ∀ t, (threadInit nthr dev satp sie : Kernel σ ι).thrtab t =
      if t = nthr - 1 then some idleThread else if t = 0 then some mainThread else none := fun t => by
    simp [threadInit, Function.update_apply, mainThread]
  have hid : ∀ p, (threadInit nthr dev satp sie : Kernel σ ι).id p = if p = idleThread then nthr - 1 else 0 :=
    fun p => by simp [threadInit, Function.update_apply]
  have hrun : (threadInit nthr dev satp sie : Kernel σ ι).state mainThread = .running := by
    rw [hst, if_neg hmi, if_pos rfl]
  have hr : runner (threadInit nthr dev satp sie : Kernel σ ι) none = some mainThread := runner_of_running hrun
  refine ⟨⟨⟨fun t p hp => ?_, fun p hp => ?_, fun p hp => ?_, Nat.le_refl 2⟩, ?_, .inl List.mem_cons_self,
    fun _ he => ?_, fun p hp ha => .inl ?_⟩, hrun, ⟨.inl ⟨rfl, rfl⟩, fun hy => by cases hy⟩,
    fun he => absurd he hmi, fun child hc => by cases hc⟩
  · rw [htab] at hp
    rw [hst, hid]
    split at hp
    · obtain rfl := Option.some.inj hp
      simpa [*] using by omega
    · split at hp
      · obtain rfl := Option.some.inj hp
        simp [*]
        omega
      · cases hp
  · rw [hst] at hp
    rw [htab, hid]
    split at hp
    · simp [*]
    · split at hp
      · simp [*]
        omega
      · simp [Alive] at hp
  · have hp₁ : p ≠ idleThread := Nat.ne_of_gt hp
    have hp₀ : p ≠ mainThread := Nat.ne_of_gt (Nat.lt_of_succ_lt hp)
    rw [hst, if_neg hp₁, if_neg hp₀]
  · show Listed _ _ _ _ _ none (runner (threadInit nthr dev satp sie : Kernel σ ι) none) _ _
    rw [hr]
    refine ⟨⟨⟨rfl, rfl⟩, rfl⟩, fun c => isList_tlclear _, List.nodup_singleton _, fun c => List.nodup_nil, fun p => ?_,
      fun p c => ?_, fun p hp => ?_, fun p => ?_⟩
    · rw [hst]
      by_cases hp : p = idleThread
      · simp [hp]
      · by_cases hp' : p = mainThread <;> simp [hp, hp', hmi]
    · rw [hst]
      by_cases hp : p = idleThread
      · simp [hp]
      · by_cases hp' : p = mainThread <;> simp [hp, hp', hmi]
    · rw [hst] at hp
      split at hp
      · cases hp
      · split at hp <;> cases hp
    · rw [hst]
      by_cases hp : p = idleThread
      · simp [hp, Ne.symm hmi]
      · by_cases hp' : p = mainThread <;> simp [hp, hp', hmi]
  · exact hmi.symm (Option.some.inj he)
  · intro pc hpc
    rcases eq_or_ne p idleThread with rfl | hne
    · have : pc = .idleLoop := by simpa [threadInit] using hpc
      rw [this]
      rfl
    · simp [threadInit, hne] at hpc

/-- The current thread is outside thread.c, about to call one of its functions, or in the loop
of idle_thread_func. -/
def BetweenCalls (k : Kernel σ ι) : Prop :=
  k.code k.tp = [] ∨ (∃ c rest, k.code k.tp = .call c :: rest) ∨ ∃ pc rest, k.code k.tp = pc :: rest ∧ idleAlone pc = true

/-- What the scheduler keeps: who runs, and who is on which list. -/
structure ThreadLists (k : Kernel σ ι) (onReady : List Ptr) (onWait : Cond → List Ptr) : Prop where
  readyList : IsList k.listNext k.readyList onReady
  waitList : ∀ c, IsList k.listNext (k.waitList c) (onWait c)
  running : ∀ p, k.state p = .running ↔ p = k.tp
  ready : ∀ p, k.state p = .ready ↔ onReady.count p = 1 ∧ ∀ c, p ∉ onWait c
  waiting : ∀ p, k.state p = .waiting ↔
    ∃ c, k.waitCond p = some c ∧ (onWait c).count p = 1 ∧ p ∉ onReady ∧ ∀ d, d ≠ c → p ∉ onWait d
  exited : ∀ p, k.state p = .exited → p ∉ onReady ∧ ∀ c, p ∉ onWait c
  idle : k.state idleThread = .ready ∨ k.state idleThread = .running

theorem count_eq_one_iff {l : List Ptr} {p : Ptr} (h : l.Nodup) : l.count p = 1 ↔ p ∈ l :=
  ⟨fun hc => List.count_pos_iff.mp (Nat.lt_of_lt_of_eq Nat.zero_lt_one hc.symm), List.count_eq_one_of_mem h⟩

theorem Inv.threadLists (h : Inv nthr k ready waits) (hb : BetweenCalls k) : ThreadLists k ready waits := by
  have hcore : Core nthr k none none ready waits := by
    have := h.core
    rcases hb with hc | ⟨c, rest, hc⟩ | ⟨pc, rest, hc, hi⟩
    · rwa [hc] at this
    · rwa [hc] at this
    · cases pc <;> first | rwa [hc] at this | cases hi
  have hrun : k.state k.tp = .running := by
    have := h.current
    rcases hb with hc | ⟨c, rest, hc⟩ | ⟨pc, rest, hc, hi⟩
    · rwa [hc] at this
    · rw [hc] at this
      exact this.1
    · rw [hc] at this
      cases pc <;> first | exact this.1 | cases hi
  have hl := hcore.listed
  rw [runner_of_running hrun] at hl
  refine ⟨hl.readyList, hl.waitList, fun p => ?_, fun p => ?_, fun p => ?_, fun p hp => ?_, ?_⟩
  · rw [hl.running p, Option.some.injEq]
  · rw [count_eq_one_iff hl.readyNodup]
    constructor
    · intro hs
      have hm := (hl.mem_ready p).mpr ⟨hs, by simp⟩
      exact ⟨hm, fun c => hl.not_mem_waits_of_ready hm⟩
    · exact fun h => hl.state_of_mem_ready h.1
  · constructor
    · intro hs
      obtain ⟨c, hc⟩ := hl.waiting p hs
      have hm := (hl.mem_waits p c).mpr ⟨hs, hc, by simp⟩
      exact ⟨c, hc, (count_eq_one_iff (hl.waitsNodup c)).mpr hm, fun hr => hl.not_mem_waits_of_ready hr hm,
        fun d hd hm' => hd (hl.cond_unique hm' hm)⟩
    · rintro ⟨c, -, hm, -⟩
      exact hl.state_of_mem_waits ((count_eq_one_iff (hl.waitsNodup c)).mp hm)
  · exact hl.off_lists (by simp [hp]) (by simp [hp])
  · rcases hcore.idle with hm | hr
    · exact .inl (hl.state_of_mem_ready hm)
    · rw [runner_of_running hrun] at hr
      exact .inr (Option.some.inj hr ▸ hrun)

/-- The assertions of suspend_self, condition_wait, condition_broadcast, thread_yield and the
list functions. -/
def listAssertions : List Assertion :=
  [.waitRunning, .yieldRunning, .suspReady, .nextReady, .wokenWaiting, .wokenCond, .tlinsert, .tlappend]

/-- The scheduler from thread_init on, below any drivers and with interrupts wherever they
are enabled: between calls and in the idle loop every thread is where its state says, and no
assertion about states or lists fails. -/
theorem run_threadLists (cl : Client σ ι ε) (hn : 2 ≤ nthr) (dev : σ) (satp : Nat) (sie : Bool)
    (ls : List (Label ι ε)) :
    (∀ k, run cl nthr (threadInit nthr dev satp sie) ls = .ok k → BetweenCalls k →
      ∃ onReady onWait, ThreadLists k onReady onWait) ∧
    ∀ s, run cl nthr (threadInit nthr dev satp sie) ls = .error s → s ≠ .endless ∧ ∀ a ∈ listAssertions, s ≠ .assert a := by
  have h : Kept nthr (run cl nthr (threadInit nthr dev satp sie) ls) := (inv_threadInit hn dev satp sie).run ls
  refine ⟨fun k hr hb => ?_, fun s hr => ?_⟩
  · rw [hr] at h
    obtain ⟨ready, waits, h⟩ := h
    exact ⟨ready, waits, h.threadLists hb⟩
  · rw [hr] at h
    have hb : Benign s := h
    refine ⟨?_, fun a ha => ?_⟩
    · rintro rfl
      exact hb
    · rintro rfl
      cases a <;> first | exact hb | simp [listAssertions] at ha

/-- thread.c alone. -/
def noDrivers : Client Unit Empty Empty where
  exec i := i.elim
  entry i := i.elim
  ownCond _ := false
  isr e := e.elim
  env e := e.elim
  mtag _ _ := 0

/-- The main thread spawns a thread and waits for it; the idle thread yields to the new one. -/
def spawnAndJoin : List (Label Empty Empty) :=
  .call (.threadSpawn 0x80400000) :: List.replicate 4 .run ++ .call .threadJoinAny :: List.replicate 19 .run

/-- The main thread waits for its only child, the idle thread, which comes to its wfi with
nothing on ready_list. -/
def waitInIdle : List (Label Empty Empty) := .call .threadJoinAny :: List.replicate 13 .run

theorem run_threadLists_spawnAndJoin :
    (∃ k onReady onWait, run noDrivers 16 (threadInit 16 () 0 true) spawnAndJoin = .ok k ∧ k.tp = 2 ∧
      k.state mainThread = .waiting ∧ ThreadLists k onReady onWait) ∧
    ∃ k onReady onWait, run noDrivers 16 (threadInit 16 () 0 true) waitInIdle = .ok k ∧ k.tp = idleThread ∧
      k.readyList.head = none ∧ ThreadLists k onReady onWait := by
  have hn : 2 ≤ 16 := by decide
  constructor
  · obtain ⟨h, -⟩ := run_threadLists noDrivers hn () 0 true spawnAndJoin
    have hview : ((run noDrivers 16 (threadInit 16 () 0 true) spawnAndJoin).toOption.map fun k =>
        (k.tp, k.state mainThread, (k.code k.tp).isEmpty)) = some (2, .waiting, true) := by decide +kernel
    cases hr : run noDrivers 16 (threadInit 16 () 0 true) spawnAndJoin with
    | error s =>
        rw [hr] at hview
        cases hview
    | ok k =>
        rw [hr] at hview
        simp only [Except.toOption, Option.map_some, Option.some.injEq, Prod.mk.injEq, List.isEmpty_iff] at hview
        obtain ⟨onReady, onWait, hl⟩ := h k hr (.inl hview.2.2)
        exact ⟨k, onReady, onWait, rfl, hview.1, hview.2.1, hl⟩
  · obtain ⟨h, -⟩ := run_threadLists noDrivers hn () 0 true waitInIdle
    have hview : ((run noDrivers 16 (threadInit 16 () 0 true) waitInIdle).toOption.map fun k =>
        (k.tp, k.readyList.head, (k.code k.tp).head?.map idleAlone)) = some (idleThread, none, some true) := by decide +kernel
    cases hr : run noDrivers 16 (threadInit 16 () 0 true) waitInIdle with
    | error s =>
        rw [hr] at hview
        cases hview
    | ok k =>
        rw [hr] at hview
        simp only [Except.toOption, Option.map_some, Option.some.injEq, Prod.mk.injEq] at hview
        obtain ⟨pc, hpc, hidle⟩ := Option.map_eq_some_iff.mp hview.2.2
        obtain ⟨rest, hcode⟩ := List.head?_eq_some_iff.mp hpc
        obtain ⟨onReady, onWait, hl⟩ := h k hr (.inr (.inr ⟨pc, rest, hcode, hidle⟩))
        exact ⟨k, onReady, onWait, rfl, hview.1, hview.2.1, hl⟩

end RiscvKernel.SchedulerInv
