import RiscvKernel.StepFrame
import RiscvKernel.Lib.FifoQueue

namespace RiscvKernel.RoundRobin

open Thread Scheduler SchedulerInv StepFrame Lib.FifoQueue

variable {σ ι ε : Type} {nthr : Nat} {cl : Client σ ι ε} {k k' : Kernel σ ι} {ready : List Ptr}
  {waits : Cond → List Ptr} {pc : Pc ι} {rest : List (Pc ι)} {l : Label ι ε} {t : Ptr}

/-- A call of suspend_self counts where it takes the next thread off ready_list. -/
def serves : Pc ι → Bool
  | .suspDispatch _ => true
  | _ => false

def dispatching (k : Kernel σ ι) : Label ι ε → Bool
  | .run => (k.code k.tp).head?.any serves
  | _ => false

/-- The calls of suspend_self in a run. -/
def dispatches (cl : Client σ ι ε) (nthr : Nat) : Kernel σ ι → List (Label ι ε) → Nat
  | _, [] => 0
  | k, l :: ls =>
      (dispatching k l).toNat +
        match step cl nthr k l with
        | .ok k' => dispatches cl nthr k' ls
        | .error _ => 0

/-- The threads that the handlers of an interrupt wake, in the order of the conditions. -/
def wakeOrder (waits : Cond → List Ptr) : List Nat → List Ptr
  | [] => []
  | n :: conds => waits (.ext n) ++ wakeOrder (Function.update waits (.ext n) []) conds

/-- The threads that one step of the current thread puts at the end of ready_list. -/
def puts (k : Kernel σ ι) (waits : Cond → List Ptr) : Pc ι → List Ptr
  | .bcastBody c _ => waits c
  | .suspDispatch _ => if k.state k.tp = .running then [k.tp] else []
  | .spawnInsert child _ => [child]
  | _ => []

def entering (cl : Client σ ι ε) (k : Kernel σ ι) (waits : Cond → List Ptr) : Label ι ε → List Ptr
  | .run => ((k.code k.tp).head?.map (puts k waits)).getD []
  | .isr e => if k.sie then wakeOrder waits (cl.isr e k.dev).2 else []
  | _ => []

section Lists

/-- The links of a kernel determine what is on its lists. -/
theorem inv_of_lists (h : Inv nthr k ready waits) {ready' : List Ptr} {waits' : Cond → List Ptr}
    (hr : IsList k.listNext k.readyList ready') (hw : ∀ c, IsList k.listNext (k.waitList c) (waits' c)) :
    Inv nthr k ready' waits' := by
  obtain rfl : ready = ready' := h.core.listed.readyList.1.unique hr.1
  obtain rfl : waits = waits' := by
    funext c
    exact (h.core.listed.waitList c).1.unique (hw c).1
  exact h

def SameLists (k k' : Kernel σ ι) : Prop :=
  k'.listNext = k.listNext ∧ k'.readyList = k.readyList ∧ k'.waitList = k.waitList

theorem recycle_sameLists {tid : Nat} {f : Kernel σ ι → Kernel σ ι} (hf : ∀ k, SameLists k (f k))
    (h : (k.recycleThread nthr tid >>= fun k => pure (f k)) = .ok k') : SameLists k k' := by
  rcases recycleThread_cases k nthr tid with ⟨thr, -, -, -, -, hr⟩ | hr
  · rw [hr] at h
    obtain rfl := Except.ok.inj h
    exact hf _
  · rw [hr] at h
    cases h

theorem enter_sameLists {c : Call ι} (h : enter cl nthr k rest c = .ok k') : SameLists k k' := by
  cases c with
  | threadSpawn page =>
      rw [enter] at h
      split at h
      · obtain rfl := Except.ok.inj h
        exact ⟨rfl, rfl, rfl⟩
      · cases h
  | threadExit =>
      rw [enter] at h
      split at h
      · cases h
      · split at h
        · obtain rfl := Except.ok.inj h
          exact ⟨rfl, rfl, rfl⟩
        · cases h
  | threadYield =>
      rw [enter] at h
      split at h
      · obtain rfl := Except.ok.inj h
        exact ⟨rfl, rfl, rfl⟩
      · cases h
  | threadJoin tid =>
      rw [enter] at h
      repeat' split at h
      all_goals
        obtain rfl := Except.ok.inj h
        exact ⟨rfl, rfl, rfl⟩
  | threadJoinAny =>
      rw [enter] at h
      split at h
      · obtain rfl := Except.ok.inj h
        exact ⟨rfl, rfl, rfl⟩
      · split at h
        · obtain rfl := Except.ok.inj h
          exact ⟨rfl, rfl, rfl⟩
        · cases h
  | _ =>
      obtain rfl := Except.ok.inj h
      exact ⟨rfl, rfl, rfl⟩

/-- The places of thread.c that link or unlink a thread. -/
def links : Pc ι → Bool
  | .waitEnter _ | .waitInsert _ _ | .bcastBody _ _ | .suspDispatch _ | .spawnInsert _ _ => true
  | _ => false

theorem exec_sameLists (h : exec cl nthr k rest pc = .ok k') (hpc : links pc = false) : SameLists k k' := by
  cases pc with
  | call c => exact enter_sameLists h
  | waitEnter c | waitInsert c saved | bcastBody c saved | suspDispatch saved | spawnInsert child saved => cases hpc
  | exitFailed => cases h
  | suspEnter =>
      rw [exec] at h
      split at h
      · cases h
      · obtain rfl := Except.ok.inj h
        exact ⟨rfl, rfl, rfl⟩
  | suspResumed saved =>
      rw [exec] at h
      split at h
      all_goals
        obtain rfl := Except.ok.inj h
        exact ⟨rfl, rfl, rfl⟩
  | joinLoop tid child =>
      rw [exec] at h
      split at h
      · exact recycle_sameLists (f := fun k => (k.setRet tid).setCode rest) (fun _ => ⟨rfl, rfl, rfl⟩) h
      · obtain rfl := Except.ok.inj h
        exact ⟨rfl, rfl, rfl⟩
  | joinAnyScan =>
      rw [exec] at h
      split at h
      · exact recycle_sameLists (f := fun k => (k.setRet _).setCode rest) (fun _ => ⟨rfl, rfl, rfl⟩) h
      · cases h
  | _ =>
      obtain rfl := Except.ok.inj h
      exact ⟨rfl, rfl, rfl⟩

/-- What a step leaves of the list of a condition: nothing, when it broadcasts it, or all of
it, perhaps with the current thread at the end. -/
def WaitsOn (k : Kernel σ ι) (waits waits' : Cond → List Ptr) (c : Cond) : Prop :=
  waits' c = waits c ∨ waits' c = [] ∨
    (∃ saved rest, k.code k.tp = .waitInsert c saved :: rest) ∧ waits' c = waits c ++ [k.tp]

/-- The lists after a step. -/
structure Lists (k k' : Kernel σ ι) (ready : List Ptr) (waits waits' : Cond → List Ptr) (serve : Bool)
    (new : List Ptr) : Prop where
  readyList : IsList k'.listNext k'.readyList (advance serve new ready)
  waitList : ∀ c, IsList k'.listNext (k'.waitList c) (waits' c)
  waiters : ∀ c, WaitsOn k waits waits' c

theorem SameLists.lists (h : SameLists k k') (hi : Inv nthr k ready waits) : Lists k k' ready waits waits false [] := by
  obtain ⟨hn, hr, hw⟩ := h
  refine ⟨?_, fun c => ?_, fun c => .inl rfl⟩
  · rw [hn, hr, advance, List.append_nil]
    exact hi.core.listed.readyList
  · rw [hn, hw]
    exact hi.core.listed.waitList c

theorem exec_lists (hi : Inv nthr k ready waits) (hcode : k.code k.tp = pc :: rest)
    (h : exec cl nthr k rest pc = .ok k') : ∃ waits', Lists k k' ready waits waits' (serves pc) (puts k waits pc) := by
  have hcore := hi.core
  have hcur := hi.current
  rw [hcode] at hcore hcur
  cases pc with
  | waitEnter c =>
      obtain ⟨hrun, -⟩ := hcur
      have hl : Listed _ _ _ _ _ none (runner k none) ready waits := hcore.listed
      rw [runner_of_running hrun] at hl
      have hl' := hl.enterWait c
      rw [exec, if_pos hrun] at h
      obtain rfl := Except.ok.inj h
      refine ⟨waits, ?_, hl'.waitList, fun c => .inl rfl⟩
      show IsList _ _ (advance false [] ready)
      rw [advance, List.append_nil]
      exact hl'.readyList
  | waitInsert c saved =>
      obtain ⟨hs, hc, -⟩ := hcur
      obtain ⟨next, list, hins, hcore'⟩ := hcore.insertWait hs hc
      rw [exec, hins] at h
      obtain rfl := Except.ok.inj h
      refine ⟨_, ?_, hcore'.listed.waitList, fun d => ?_⟩
      · show IsList _ _ (advance false [] ready)
        rw [advance, List.append_nil]
        exact hcore'.listed.readyList
      · rcases eq_or_ne d c with rfl | hne
        · exact .inr (.inr ⟨⟨saved, rest, hcode⟩, Function.update_self ..⟩)
        · exact .inl (Function.update_of_ne hne _ _)
  | bcastBody c saved =>
      obtain ⟨next, list, hwake, hcore'⟩ := hcore.wakeAll c
      rw [exec, hwake] at h
      obtain rfl := Except.ok.inj h
      refine ⟨_, hcore'.listed.readyList, hcore'.listed.waitList, fun d => ?_⟩
      rcases eq_or_ne d c with rfl | hne
      · exact .inr (.inl (Function.update_self ..))
      · exact .inl (Function.update_of_ne hne _ _)
  | suspDispatch saved =>
      have hne : ready ≠ [] := by
        rcases eq_or_ne k.tp idleThread with he | hne
        · exact hi.idleYield he (by rw [hcode]; trivial)
        · exact hcore.ready_ne_nil hne
      obtain ⟨n, behind, rfl⟩ := List.exists_cons_of_ne_nil hne
      obtain ⟨k₁, hdisp, hcore', -⟩ := hcore.dispatch_cons
      rw [exec, hdisp] at h
      obtain rfl := Except.ok.inj h
      exact ⟨waits, hcore'.listed.readyList, hcore'.listed.waitList, fun d => .inl rfl⟩
  | spawnInsert child saved =>
      obtain ⟨hrun, -⟩ := hcur
      have hst : k.state child = .ready := hi.spawned child (by rw [hcode]; rfl)
      have hct : child ≠ k.tp := fun he => by cases hrun.symm.trans (he ▸ hst)
      obtain ⟨next, list, hins, hcore'⟩ := hcore.insertReady hst hct
      rw [exec, hins] at h
      obtain rfl := Except.ok.inj h
      exact ⟨waits, hcore'.listed.readyList, hcore'.listed.waitList, fun d => .inl rfl⟩
  | _ => exact ⟨waits, (exec_sameLists h rfl).lists hi⟩

theorem broadcast_lists (hi : Inv nthr k ready waits) {c : Cond} (h : k.broadcast nthr c = .ok k') :
    Inv nthr k' (ready ++ waits c) (Function.update waits c []) ∧ k'.tp = k.tp ∧ k'.code = k.code := by
  have hkept := hi.broadcast c
  rw [h] at hkept
  obtain ⟨ready', waits', hi'⟩ := hkept
  unfold Kernel.broadcast at h
  split at h
  · have hnil := ((hi.core.listed.waitList c).tlempty_iff).mp ‹_›
    obtain rfl := Except.ok.inj h
    rw [hnil, List.append_nil, ← hnil, Function.update_eq_self]
    exact ⟨hi, rfl, rfl⟩
  · obtain ⟨next, list, hwake, hcore⟩ := hi.core.wakeAll c
    rw [hwake] at h
    obtain rfl := Except.ok.inj h
    exact ⟨inv_of_lists hi' hcore.listed.readyList hcore.listed.waitList, rfl, rfl⟩

theorem isr_lists (hi : Inv nthr k ready waits) {conds : List Nat}
    (h : conds.foldlM (fun k n => k.broadcast nthr (.ext n)) k = .ok k') :
    ∃ waits', Inv nthr k' (ready ++ wakeOrder waits conds) waits' ∧ (∀ c, waits' c = waits c ∨ waits' c = []) ∧
      k'.tp = k.tp ∧ k'.code = k.code := by
  induction conds generalizing k ready waits with
  | nil =>
      obtain rfl := Except.ok.inj h
      exact ⟨waits, by rwa [wakeOrder, List.append_nil], fun c => .inl rfl, rfl, rfl⟩
  | cons n conds ih =>
      rw [List.foldlM_cons] at h
      cases hr : k.broadcast nthr (.ext n) with
      | error s =>
          rw [hr] at h
          cases h
      | ok k₁ =>
          rw [hr] at h
          obtain ⟨hi₁, htp, hcode⟩ := broadcast_lists hi hr
          obtain ⟨waits', hi', hw, htp', hcode'⟩ := ih hi₁ h
          rw [List.append_assoc] at hi'
          refine ⟨waits', hi', fun c => ?_, htp'.trans htp, hcode'.trans hcode⟩
          rcases eq_or_ne c (.ext n) with rfl | hne
          · exact .inr ((hw _).elim (fun h => h.trans (Function.update_self ..)) id)
          · exact (hw c).imp_left fun h => h.trans (Function.update_of_ne hne _ _)

/-- The ready list after a step: a call of suspend_self has taken its head, and the threads
that the step made ready have joined at the end. -/
theorem step_lists (hi : Inv nthr k ready waits) (h : step cl nthr k l = .ok k') :
    ∃ waits', Inv nthr k' (advance (dispatching k l) (entering cl k waits l) ready) waits' ∧
      ∀ c, WaitsOn k waits waits' c := by
  have hkept : Kept nthr (step cl nthr k l) := hi.step l
  rw [h] at hkept
  obtain ⟨ready', waits', hi'⟩ := hkept
  have hsame : ∀ {k' : Kernel σ ι}, Inv nthr k' ready waits → Inv nthr k' (advance false [] ready) waits := by
    intro k' hi'
    rwa [advance, List.append_nil]
  cases l with
  | run =>
      rw [step] at h
      cases hcode : k.code k.tp with
      | nil =>
          rw [hcode] at h
          obtain rfl := Except.ok.inj h
          simp only [dispatching, entering, hcode]
          exact ⟨waits, hsame hi, fun c => .inl rfl⟩
      | cons pc rest =>
          rw [hcode] at h
          obtain ⟨waits', hl⟩ := exec_lists hi hcode h
          simp only [dispatching, entering, hcode]
          exact ⟨waits', inv_of_lists hi' hl.readyList hl.waitList, hl.waiters⟩
  | call c =>
      rw [step] at h
      obtain rfl := Except.ok.inj h
      refine ⟨waits, hsame (inv_of_lists hi' ?_ fun c => ?_), fun c => .inl rfl⟩
      · split <;> exact hi.core.listed.readyList
      · split <;> exact hi.core.listed.waitList c
  | isr e =>
      rw [step] at h
      by_cases hs : k.sie = true
      · rw [if_pos hs] at h
        obtain ⟨waits', hi₁, hw, -⟩ := isr_lists (hi.setDev (cl.isr e k.dev).1) h
        refine ⟨waits', ?_, fun c => (hw c).imp_right .inl⟩
        rw [entering, if_pos hs]
        exact hi₁
      · rw [if_neg hs] at h
        obtain rfl := Except.ok.inj h
        rw [entering, if_neg hs]
        exact ⟨waits, hsame hi, fun c => .inl rfl⟩
  | env e =>
      obtain rfl := Except.ok.inj h
      exact ⟨waits, hsame (hi.setDev _), fun c => .inl rfl⟩

end Lists

section Turn

variable {ls : List (Label ι ε)} {n : Nat}

/-- Every call of suspend_self brings a READY thread one place nearer to the head of
ready_list, and nothing else moves it. -/
theorem run_ahead (hi : Inv nthr k ready waits) (ha : Ahead ready t n) (h : run cl nthr k ls = .ok k')
    (hd : dispatches cl nthr k ls ≤ n) :
    ∃ ready' waits', Inv nthr k' ready' waits' ∧ Ahead ready' t (n - dispatches cl nthr k ls) := by
  induction ls generalizing k ready waits n with
  | nil =>
      obtain rfl := Except.ok.inj h
      exact ⟨ready, waits, hi, ha⟩
  | cons l ls ih =>
      obtain ⟨k₁, hs, hr⟩ := run_cons_ok h
      obtain ⟨waits₁, hi₁, -⟩ := step_lists hi hs
      simp only [dispatches, hs] at hd ⊢
      have ha₁ := @Ahead.advance _ _ _ _ ha (dispatching k l) (fun hb => ?_) (entering cl k waits l)
      · obtain ⟨ready', waits', hi', ha'⟩ := ih hi₁ ha₁ hr (by omega)
        rw [Nat.sub_sub] at ha'
        exact ⟨ready', waits', hi', ha'⟩
      · rw [hb] at hd
        exact Nat.lt_of_lt_of_le Nat.one_pos (Nat.le_trans (Nat.le_add_right _ _) hd)

theorem switching_setCode (k : Kernel σ ι) (code : List (Pc ι)) :
    switching ((k.setCode code).code (k.setCode code).tp) = switching code := by
  rw [show (k.setCode code).tp = k.tp from rfl, setCode_code_tp]

/-- Until it switches to t, the current thread is on its way to do so. -/
def Resumes (cl : Client σ ι ε) (nthr : Nat) (k : Kernel σ ι) (t : Ptr) : Prop :=
  ∀ ls k', run cl nthr k ls = .ok k' →
    k'.tp = k.tp ∧ switching (k'.code k'.tp) = some t ∨
      ∃ pre suf m, ls = pre ++ suf ∧ run cl nthr k pre = .ok m ∧ m.tp = t ∧ m.state t = .running

theorem step_switches (hi : Inv nthr k ready waits) (hsw : switching (k.code k.tp) = some t)
    (h : step cl nthr k l = .ok k') :
    k'.tp = k.tp ∧ switching (k'.code k'.tp) = some t ∨ k'.tp = t ∧ k'.state t = .running := by
  have hcore := hi.core
  rw [hsw] at hcore
  cases hcode : k.code k.tp with
  | nil =>
      rw [hcode] at hsw
      cases hsw
  | cons pc rest =>
      cases l with
      | run =>
          rw [step, hcode] at h
          rw [hcode] at hsw
          cases pc with
          | suspEnable next saved =>
              obtain rfl := Except.ok.inj h
              exact .inl ⟨rfl, (switching_setCode _ _).trans hsw⟩
          | suspSpace next saved =>
              obtain rfl := Except.ok.inj h
              exact .inl ⟨rfl, (switching_setCode _ _).trans hsw⟩
          | suspSwtch next saved =>
              obtain rfl := Except.ok.inj h
              obtain rfl := Option.some.inj hsw
              exact .inr ⟨rfl, (hcore.listed.running next).mpr rfl⟩
          | _ => cases hsw
      | call c =>
          rw [step, hcode] at h
          obtain rfl := Except.ok.inj h
          exact .inl ⟨rfl, hsw⟩
      | isr e =>
          rw [step] at h
          split at h
          · obtain ⟨-, -, -, htp, hcode'⟩ := isr_lists (hi.setDev _) h
            refine .inl ⟨htp, ?_⟩
            rw [htp, hcode']
            exact hsw
          · obtain rfl := Except.ok.inj h
            exact .inl ⟨rfl, hsw⟩
      | env e =>
          obtain rfl := Except.ok.inj h
          exact .inl ⟨rfl, hsw⟩

theorem resumes_of_switching (hi : Inv nthr k ready waits) (hsw : switching (k.code k.tp) = some t) :
    Resumes cl nthr k t := by
  intro ls k' h
  induction ls generalizing k ready waits with
  | nil =>
      obtain rfl := Except.ok.inj h
      exact .inl ⟨rfl, hsw⟩
  | cons l ls ih =>
      obtain ⟨k₁, hs, hr⟩ := run_cons_ok h
      have hcons : ∀ pre, run cl nthr k (l :: pre) = run cl nthr k₁ pre := fun pre => by
        rw [run, List.foldlM_cons, hs]
        rfl
      obtain ⟨waits₁, hi₁, -⟩ := step_lists hi hs
      rcases step_switches hi hsw hs with ⟨htp, hsw₁⟩ | ⟨htp, hrun⟩
      · rcases ih hi₁ hsw₁ hr with ⟨htp', hsw'⟩ | ⟨pre, suf, m, rfl, hm, ht⟩
        · exact .inl ⟨htp'.trans htp, hsw'⟩
        · exact .inr ⟨l :: pre, suf, m, rfl, (hcons pre).trans hm, ht⟩
      · exact .inr ⟨[l], ls, k₁, rfl, hcons [], htp, hrun⟩

/-- The next call of suspend_self makes t the running thread. -/
def RunsNext (cl : Client σ ι ε) (nthr : Nat) (k : Kernel σ ι) (t : Ptr) : Prop :=
  dispatching k (.run : Label ι ε) = true →
    ∃ k', step cl nthr k .run = .ok k' ∧ (∀ p, k'.state p = .running ↔ p = t) ∧ Resumes cl nthr k' t

theorem runsNext_of_ahead (hi : Inv nthr k ready waits) (ha : Ahead ready t 0) : RunsNext cl nthr k t := by
  intro hd
  cases hcode : k.code k.tp with
  | nil => simp [dispatching, hcode] at hd
  | cons pc rest =>
      cases pc with
      | suspDispatch saved =>
          have hcore := hi.core
          rw [hcode, ha.eq_cons] at hcore
          obtain ⟨k₁, hdisp, hcore', -, -, hsame⟩ := hcore.dispatch_cons
          have hs : step cl nthr k .run = .ok (k₁.setCode (.suspEnable t saved :: rest)) := by
            rw [step, hcode]
            show exec cl nthr k rest (.suspDispatch saved) = _
            rw [exec, hdisp]
            rfl
          obtain ⟨waits', hi', -⟩ := step_lists hi hs
          refine ⟨_, hs, fun p => ?_, resumes_of_switching hi' (switching_setCode _ _)⟩
          rw [show (k₁.setCode (.suspEnable t saved :: rest)).state p = k₁.state p from rfl, hcore'.listed.running p,
            runner, Option.some_or, Option.some.injEq]
      | _ => simp [dispatching, hcode, serves] at hd

end Turn

section Waiters

/-- condition_wait marks the current thread WAITING. -/
def starting (k : Kernel σ ι) : Label ι ε → Bool
  | .run =>
      match k.code k.tp with
      | .waitEnter _ :: _ => true
      | _ => false
  | _ => false

def startedBy (k : Kernel σ ι) (time : Nat) (since : Ptr → Nat) (l : Label ι ε) : Ptr → Nat :=
  if starting k l then Function.update since k.tp time else since

/-- The number of the step in which each thread last started waiting. -/
def started (cl : Client σ ι ε) (nthr : Nat) : Kernel σ ι → Nat → (Ptr → Nat) → List (Label ι ε) → Ptr → Nat
  | _, _, since, [] => since
  | k, time, since, l :: ls =>
      match step cl nthr k l with
      | .ok k' => started cl nthr k' (time + 1) (startedBy k time since l) ls
      | .error _ => since

/-- The list of a condition is in the order of those numbers. -/
structure InOrder (k : Kernel σ ι) (waits : Cond → List Ptr) (time : Nat) (since : Ptr → Nat) : Prop where
  sorted : ∀ c, (waits c).Pairwise fun p q => since p < since q
  past : ∀ c p, Waits k c p → since p < time
  last : ∀ c p, Waits k c p → p ∉ waits c → ∀ q ∈ waits c, since q < since p

/-- Only condition_wait makes a thread wait. -/
theorem waits_of_trans {c : Cond} {p : Ptr} (h : Trans cl k k' l) (hw : Waits k' c p) :
    Waits k c p ∨ starting k l = true ∧ p = k.tp := by
  cases h with
  | idle _ _ same => exact .inl (same ▸ hw)
  | run pc rest code frame =>
      refine (waits_of_waitsAfter ((frame.waits c p).mp hw)).imp_right fun hw => ⟨?_, hw.1⟩
      rw [starting, code, hw.2]
  | call c' code may same =>
      subst same
      exact .inl hw
  | isr e sie woke => exact .inl ((woke.waits c p).mp hw).1
  | env e same =>
      subst same
      exact .inl hw

theorem not_starting_of_waitInsert {c : Cond} {saved : Bool} (h : k.code k.tp = .waitInsert c saved :: rest)
    (l : Label ι ε) : starting k l = false := by
  cases l <;> simp [starting, h]

theorem running_of_starting (hi : Inv nthr k ready waits) (h : starting k l = true) : k.state k.tp = .running := by
  have hcur := hi.current
  cases l with
  | run =>
      rw [starting] at h
      split at h
      · rename_i hcode
        rw [hcode] at hcur
        exact hcur.1
      · cases h
  | _ => cases h

variable {waits' : Cond → List Ptr} {time : Nat} {since : Ptr → Nat}

theorem InOrder.step (ho : InOrder k waits time since) (hi : Inv nthr k ready waits) (htrans : Trans cl k k' l)
    (hw : ∀ c, WaitsOn k waits waits' c) : InOrder k' waits' (time + 1) (startedBy k time since l) := by
  have hmem : ∀ {c p}, p ∈ waits c → Waits k c p := fun hp =>
    ⟨hi.core.listed.state_of_mem_waits hp, ((hi.core.listed.mem_waits _ _).mp hp).2.1⟩
  by_cases hst : starting k l = true
  · -- the current thread starts waiting: it is on no list, and the last one to do so
    have hrun := running_of_starting hi hst
    have hne : ∀ {c p}, Waits k c p → p ≠ k.tp := by
      rintro c p hp rfl
      cases hp.1.symm.trans hrun
    have hsub : ∀ c, waits' c = waits c ∨ waits' c = [] := by
      intro c
      rcases hw c with h | h | ⟨⟨saved, rest, hcode⟩, -⟩
      · exact .inl h
      · exact .inr h
      · rw [not_starting_of_waitInsert hcode] at hst
        cases hst
    have hsince : ∀ {c p}, Waits k c p → startedBy k time since l p = since p := by
      intro c p hp
      rw [startedBy, if_pos hst, Function.update_of_ne (hne hp)]
    have htp : startedBy k time since l k.tp = time := by
      rw [startedBy, if_pos hst, Function.update_self]
    refine ⟨fun c => ?_, fun c p hp => ?_, fun c p hp hpw q hq => ?_⟩
    · rcases hsub c with h | h
      · rw [h]
        refine (ho.sorted c).imp_of_mem fun hp hq hlt => ?_
        rwa [hsince (hmem hp), hsince (hmem hq)]
      · rw [h]
        exact .nil
    · rcases waits_of_trans htrans hp with hp | ⟨-, rfl⟩
      · rw [hsince hp]
        exact Nat.lt_succ_of_lt (ho.past c p hp)
      · rw [htp]
        exact Nat.lt_succ_self time
    · rcases hsub c with h | h
      · rw [h] at hpw hq
        rw [hsince (hmem hq)]
        rcases waits_of_trans htrans hp with hp | ⟨-, rfl⟩
        · rw [hsince hp]
          exact ho.last c p hp hpw q hq
        · rw [htp]
          exact ho.past c q (hmem hq)
      · rw [h] at hq
        cases hq
  · have hsame : startedBy k time since l = since := if_neg hst
    have hback : ∀ {c p}, Waits k' c p → Waits k c p := fun hp =>
      (waits_of_trans htrans hp).resolve_right fun h => hst h.1
    rw [hsame]
    refine ⟨fun c => ?_, fun c p hp => Nat.lt_succ_of_lt (ho.past c p (hback hp)), fun c p hp hpw q hq => ?_⟩
    · rcases hw c with h | h | ⟨⟨saved, rest, hcode⟩, h⟩
      · rw [h]
        exact ho.sorted c
      · rw [h]
        exact .nil
      · have hcur := hi.current
        rw [hcode] at hcur
        have htp : k.tp ∉ waits c := fun hm => by
          have := ((hi.core.listed.mem_waits _ _).mp hm).2.2
          rw [hcode] at this
          exact this rfl
        rw [h, List.pairwise_append]
        refine ⟨ho.sorted c, List.pairwise_singleton _ _, fun q hq p hp => ?_⟩
        obtain rfl := List.mem_singleton.mp hp
        exact ho.last c k.tp ⟨hcur.1, hcur.2.1⟩ htp q hq
    · rcases hw c with h | h | ⟨⟨saved, rest, hcode⟩, h⟩
      · rw [h] at hpw hq
        exact ho.last c p (hback hp) hpw q hq
      · rw [h] at hq
        cases hq
      · -- only the current thread waits without being on a list
        rw [h, List.mem_append, not_or] at hpw
        refine absurd (List.mem_singleton.mpr ?_) hpw.2
        by_contra hne
        refine hpw.1 ((hi.core.listed.mem_waits p c).mpr ⟨(hback hp).1, (hback hp).2, ?_⟩)
        rw [hcode]
        simpa [exempt] using hne

theorem run_inOrder {ls : List (Label ι ε)} (hi : Inv nthr k ready waits) (hf : Fresh k) (ho : InOrder k waits time since)
    (h : run cl nthr k ls = .ok k') : ∃ ready' waits', Inv nthr k' ready' waits' ∧
      InOrder k' waits' (time + ls.length) (started cl nthr k time since ls) := by
  induction ls generalizing k ready waits time since with
  | nil =>
      obtain rfl := Except.ok.inj h
      exact ⟨ready, waits, hi, ho⟩
  | cons l ls ih =>
      obtain ⟨k₁, hs, hr⟩ := run_cons_ok h
      have htrans := step_trans hi hf hs
      obtain ⟨waits₁, hi₁, hw⟩ := step_lists hi hs
      obtain ⟨ready', waits', hi', ho'⟩ := ih hi₁ (fresh_of_trans hi hf htrans) (ho.step hi htrans hw) hr
      refine ⟨ready', waits', hi', ?_⟩
      rw [started, hs, List.length_cons, Nat.add_comm ls.length 1, ← Nat.add_assoc]
      exact ho'

theorem mem_wakeOrder {conds : List Nat} {n : Nat} (h : n ∈ conds) :
    ∃ pre post, wakeOrder waits conds = pre ++ waits (.ext n) ++ post := by
  induction conds generalizing waits with
  | nil => cases h
  | cons m conds ih =>
      rcases eq_or_ne n m with rfl | hne
      · exact ⟨[], wakeOrder (Function.update waits (.ext n) []) conds, rfl⟩
      · obtain ⟨pre, post, hw⟩ := @ih (Function.update waits (.ext m) []) ((List.mem_cons.mp h).resolve_left hne)
        refine ⟨waits (.ext m) ++ pre, post, ?_⟩
        rw [wakeOrder, hw, Function.update_of_ne (by simpa using hne)]
        simp only [List.append_assoc]

/-- The step is a broadcast of c, by the current thread or by the handlers of an interrupt. -/
def Broadcasts (cl : Client σ ι ε) (k : Kernel σ ι) (c : Cond) : Label ι ε → Prop
  | .run => ∃ saved rest, k.code k.tp = .bcastBody c saved :: rest
  | .isr e => k.sie = true ∧ ∃ n ∈ (cl.isr e k.dev).2, c = .ext n
  | _ => False

theorem entering_of_broadcasts {c : Cond} (h : Broadcasts cl k c l) :
    dispatching k l = false ∧ ∃ pre post, entering cl k waits l = pre ++ waits c ++ post := by
  cases l with
  | run =>
      obtain ⟨saved, rest, hcode⟩ := h
      refine ⟨by simp [dispatching, hcode, serves], [], [], ?_⟩
      simp [entering, hcode, puts]
  | isr e =>
      obtain ⟨hs, n, hn, rfl⟩ := h
      obtain ⟨pre, post, hw⟩ := @mem_wakeOrder waits _ n hn
      exact ⟨rfl, pre, post, by rw [entering, if_pos hs, hw]⟩
  | _ => exact h.elim

/-- All waiters of c that are on its list are READY now, in the order of the numbers, behind
those that were READY before. -/
def WokenInOrder (k k' : Kernel σ ι) (c : Cond) (since : Ptr → Nat) : Prop :=
  ∃ onReady pre woken post, IsList k.listNext k.readyList onReady ∧
    IsList k'.listNext k'.readyList (onReady ++ (pre ++ woken ++ post)) ∧
    (∀ p, p ∈ woken ↔ Waits k c p ∧ some p ≠ exempt k.tp (k.code k.tp)) ∧ (∀ p ∈ woken, k'.state p = .ready) ∧
    woken.Pairwise fun p q => since p < since q

theorem woken_inOrder (ho : InOrder k waits time since) (hi : Inv nthr k ready waits) (h : step cl nthr k l = .ok k')
    {c : Cond} (hb : Broadcasts cl k c l) : WokenInOrder k k' c since := by
  obtain ⟨waits', hi', -⟩ := step_lists hi h
  obtain ⟨hd, pre, post, hent⟩ := @entering_of_broadcasts _ _ _ _ _ waits _ _ hb
  have hready : advance (dispatching k l) (entering cl k waits l) ready = ready ++ (pre ++ waits c ++ post) := by
    rw [hd, hent]
    rfl
  rw [hready] at hi'
  refine ⟨ready, pre, waits c, post, hi.core.listed.readyList, hi'.core.listed.readyList, fun p => ?_, fun p hp => ?_,
    ho.sorted c⟩
  · rw [hi.core.listed.mem_waits p c, Waits, and_assoc]
  · exact hi'.core.listed.state_of_mem_ready (by simp [hp])

end Waiters

/-- The scheduler from thread_init on, below any drivers and with interrupts wherever they
are enabled: a READY thread with n threads ahead of it is made the running thread by the
call of suspend_self after n others, and a broadcast keeps the order of the waiters. -/
theorem run_roundRobin (cl : Client σ ι ε) (hn : 2 ≤ nthr) (dev : σ) (satp : Nat) (sie : Bool) (ls : List (Label ι ε))
    (hr : run cl nthr (threadInit nthr dev satp sie) ls = .ok k) :
    (∀ onReady t n, IsList k.listNext k.readyList onReady → Ahead onReady t n →
      ∀ ls' k', run cl nthr k ls' = .ok k' →
        (dispatches cl nthr k ls' ≤ n → k'.state t = .ready ∧
          ∃ onReady', IsList k'.listNext k'.readyList onReady' ∧ Ahead onReady' t (n - dispatches cl nthr k ls')) ∧
        (dispatches cl nthr k ls' = n → RunsNext cl nthr k' t)) ∧
    ∀ l k' c, step cl nthr k l = .ok k' → Broadcasts cl k c l →
      WokenInOrder k k' c (started cl nthr (threadInit nthr dev satp sie) 0 (fun _ => 0) ls) := by
  have ho : InOrder (threadInit nthr dev satp sie : Kernel σ ι) (fun _ => []) 0 fun _ => 0 := by
    have hno : ∀ c p, ¬ Waits (threadInit nthr dev satp sie : Kernel σ ι) c p := fun c p hw => by
      cases hw.2
    exact ⟨fun c => .nil, fun c p hw => absurd hw (hno c p), fun c p hw => absurd hw (hno c p)⟩
  obtain ⟨ready, waits, hi, ho⟩ := run_inOrder (inv_threadInit hn dev satp sie) (fresh_threadInit nthr dev satp sie) ho hr
  refine ⟨fun onReady t n hl ha ls' k' hr' => ?_, fun l k' c hs hb => woken_inOrder ho hi hs hb⟩
  obtain rfl : ready = onReady := hi.core.listed.readyList.1.unique hl.1
  refine ⟨fun hd => ?_, fun hd => ?_⟩
  · obtain ⟨ready', waits', hi', ha'⟩ := run_ahead hi ha hr' hd
    exact ⟨hi'.core.listed.state_of_mem_ready ha'.mem, ready', hi'.core.listed.readyList, ha'⟩
  · obtain ⟨ready', waits', hi', ha'⟩ := run_ahead hi ha hr' (Nat.le_of_eq hd)
    rw [hd, Nat.sub_self] at ha'
    exact runsNext_of_ahead hi' ha'

/-- After the main thread has spawned a thread, the idle thread is ahead of the new one. -/
theorem run_roundRobin_spawn :
    ∃ k, run noDrivers 16 (threadInit 16 () 0 true) (spawnAndJoin.take 4) = .ok k ∧
      ∀ ls k', run noDrivers 16 k ls = .ok k' → dispatches noDrivers 16 k ls = 1 → RunsNext noDrivers 16 k' 2 := by
  have hview : ((run noDrivers 16 (threadInit 16 () 0 true) (spawnAndJoin.take 4)).toOption.map fun k =>
      (k.readyList, k.listNext 1, k.listNext 2)) = some (⟨some 1, some 2⟩, some 2, none) := by decide +kernel
  cases hr : run noDrivers 16 (threadInit 16 () 0 true) (spawnAndJoin.take 4) with
  | error s =>
      rw [hr] at hview
      cases hview
  | ok k =>
      rw [hr] at hview
      simp only [Except.toOption, Option.map_some, Option.some.injEq, Prod.mk.injEq] at hview
      obtain ⟨hlist, h₁, h₂⟩ := hview
      have hl : IsList k.listNext k.readyList [1, 2] := by
        rw [hlist]
        exact ⟨⟨rfl, h₁, h₂⟩, rfl⟩
      obtain ⟨h, -⟩ := run_roundRobin noDrivers (by decide) () 0 true (spawnAndJoin.take 4) hr
      exact ⟨k, rfl, fun ls k' hr' hd => (h [1, 2] 2 1 hl ⟨[1], [], rfl, rfl⟩ ls k' hr').2 hd⟩

end RiscvKernel.RoundRobin
