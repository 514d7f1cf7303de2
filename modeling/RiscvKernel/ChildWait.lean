import RiscvKernel.StepFrame
import RiscvKernel.ThreadTree

namespace RiscvKernel.ChildWait

open Thread Scheduler SchedulerInv ThreadTree StepFrame

variable {σ ι ε : Type} {nthr : Nat} {cl : Client σ ι ε} {k k' : Kernel σ ι} {ready : List Ptr}
  {waits : Cond → List Ptr} {pc : Pc ι} {rest : List (Pc ι)} {l : Label ι ε} {p q : Ptr}

/-- A child of p in thrtab, other than the idle thread, that has not exited. -/
def CanExit (k : Kernel σ ι) (p : Ptr) : Prop :=
  ∃ t c, k.thrtab t = some c ∧ k.parent c = some p ∧ c ≠ idleThread ∧ k.state c ≠ .exited

/-- p waits on its own child_exit, or is about to. -/
def Joins (k : Kernel σ ι) (p : Ptr) : Prop :=
  AwaitsChild k p ∨ p = k.tp ∧ ∃ rest, k.code k.tp = .waitEnter (.childExit p) :: rest

/-- No thread waits for a child that cannot exit; a child that is exiting just now wakes it
before it gives up the CPU. -/
def NoVainJoin (k : Kernel σ ι) : Prop :=
  ∀ p, Joins k p → bcastTarget (k.code k.tp) ≠ some (.childExit p) → CanExit k p

def onlyIdle (nthr : Nat) (k : Kernel σ ι) : Bool :=
  (Kernel.slots nthr).any k.isChild && (Kernel.slots nthr).all fun tid => !k.isChild tid || k.thrtab tid == some idleThread

def canExit (nthr : Nat) (k : Kernel σ ι) : Bool :=
  (Kernel.slots nthr).any fun tid =>
    match k.thrtab tid with
    | some c => k.parent c = some k.tp ∧ c ≠ idleThread ∧ k.state c ≠ .exited
    | none => false

/-- thread_join_any is not called by a thread whose only child is the idle thread, and
thread_join does not look at the idle thread while its caller has no other child that can
still exit. -/
def sparesIdle (nthr : Nat) (k : Kernel σ ι) : Label ι ε → Bool
  | .run =>
      match k.code k.tp with
      | .call .threadJoinAny :: _ => !onlyIdle nthr k
      | .joinLoop _ child :: _ => child ≠ idleThread || canExit nthr k
      | _ => true
  | _ => true

/-- Every child is in a slot that the loops over thrtab visit. -/
theorem mem_slots (hi : Inv nthr k ready waits) (hf : Family k.thrtab k.parent) {t : Nat} {c : Ptr}
    (hc : k.thrtab t = some c) (hp : k.parent c = some p) : t ∈ Kernel.slots nthr := by
  have hlt := (hi.core.table.slot t c hc).1
  have h0 : t ≠ 0 := by
    rintro rfl
    obtain rfl := Option.some.inj (hf.main.symm.trans hc)
    rw [hf.root] at hp
    cases hp
  rw [Kernel.slots, List.mem_range'_1]
  omega

theorem canExit_iff (hi : Inv nthr k ready waits) (hf : Family k.thrtab k.parent) :
    canExit nthr k = true ↔ CanExit k k.tp := by
  rw [canExit, List.any_eq_true]
  constructor
  · rintro ⟨t, -, ht⟩
    cases hc : k.thrtab t with
    | none => simp [hc] at ht
    | some c =>
        simp only [hc, decide_eq_true_eq] at ht
        exact ⟨t, c, hc, ht⟩
  · rintro ⟨t, c, hc, hp, hne, hs⟩
    exact ⟨t, mem_slots hi hf hc hp, by simp [hc, hp, hne, hs]⟩

theorem isChild_iff {t : Nat} : k.isChild t = true ↔ ∃ c, k.thrtab t = some c ∧ k.parent c = some k.tp := by
  unfold Kernel.isChild
  cases hc : k.thrtab t with
  | none => simp
  | some c => simp

theorem isExitedChild_iff {t : Nat} :
    k.isExitedChild t = true ↔ ∃ c, k.thrtab t = some c ∧ k.parent c = some k.tp ∧ k.state c = .exited := by
  unfold Kernel.isExitedChild
  cases hc : k.thrtab t with
  | none => simp
  | some c => simp

theorem onlyIdle_iff (hi : Inv nthr k ready waits) (hf : Family k.thrtab k.parent) :
    onlyIdle nthr k = true ↔ (∃ t c, k.thrtab t = some c ∧ k.parent c = some k.tp) ∧
      ∀ t c, k.thrtab t = some c → k.parent c = some k.tp → c = idleThread := by
  rw [onlyIdle, Bool.and_eq_true, List.any_eq_true, List.all_eq_true]
  constructor
  · rintro ⟨⟨t, -, ht⟩, hall⟩
    refine ⟨⟨t, isChild_iff.mp ht⟩, fun u c hc hp => ?_⟩
    have := hall u (mem_slots hi hf hc hp)
    rw [isChild_iff.mpr ⟨c, hc, hp⟩, hc] at this
    simpa using this
  · rintro ⟨⟨t, c, hc, hp⟩, hall⟩
    refine ⟨⟨t, mem_slots hi hf hc hp, isChild_iff.mpr ⟨c, hc, hp⟩⟩, fun u _ => ?_⟩
    by_cases hu : k.isChild u = true
    · obtain ⟨d, hd, hq⟩ := isChild_iff.mp hu
      rw [hd, hall u d hd hq]
      simp
    · simp [hu]

/-- The idle thread does not exit. -/
theorem idle_not_exited (hi : Inv nthr k ready waits) : k.state idleThread ≠ .exited := by
  intro hs
  rcases hi.core.idle with hm | hr
  · cases (hi.core.listed.state_of_mem_ready hm).symm.trans hs
  · cases ((hi.core.listed.running idleThread).mpr hr.symm).symm.trans hs

section Step

theorem CanExit.mono (h : CanExit k p) (ht : ∀ t c, k.thrtab t = some c → k'.thrtab t = some c)
    (hp : ∀ t c, k.thrtab t = some c → k.parent c = some p → k'.parent c = some p)
    (hs : ∀ t c, k.thrtab t = some c → k.state c ≠ .exited → k'.state c ≠ .exited) : CanExit k' p := by
  obtain ⟨t, c, hc, hpar, hne, hst⟩ := h
  exact ⟨t, c, ht t c hc, hp t c hc hpar, hne, hs t c hc hst⟩

theorem ne_wait_of_conts {K rest : List (Pc ι)} {c : Cond} (h : Conts K) : K ≠ .waitEnter c :: rest := by
  rintro rfl
  cases h _ List.mem_cons_self

/-- What a step of the current thread means to a thread that waits for its children. -/
inductive ChildStep (nthr : Nat) (k k' : Kernel σ ι) (pc : Pc ι) : Prop
  | goes (keeps : ∀ p, k.state p ≠ .exited → CanExit k p → CanExit k' p)
      (code : ∀ p rest, k'.code k'.tp ≠ .waitEnter (.childExit p) :: rest)
  | exits (q : Ptr) (code : bcastTarget (k'.code k'.tp) = some (.childExit q))
      (keeps : ∀ p, p ≠ q → CanExit k p → CanExit k' p)
  | joins (new : List (Pc ι)) (same : k' = k.setCode (.waitEnter (.childExit k.tp) :: new))
      (child : pc = .call .threadJoinAny ∧ (Kernel.slots nthr).find? k.isExitedChild = none ∧
          (Kernel.slots nthr).any k.isChild = true ∨
        ∃ tid child, pc = .joinLoop tid child ∧ k.state child ≠ .exited)

/-- The current thread goes on with other code, and no thread changes. -/
theorem ChildStep.move {k₁ : Kernel σ ι} {code : List (Pc ι)} (hk : ∀ p, k.state p ≠ .exited → CanExit k p → CanExit k₁ p)
    (hcode : ∀ p rest, code ≠ .waitEnter (.childExit p) :: rest) : ChildStep nthr k (k₁.setCode code) pc :=
  .goes hk fun p rest h => hcode p rest ((setCode_code_tp k₁ code).symm.trans h)

theorem childStep_recycle (ht : Tree nthr k) {tid : Nat} {ret : Int} (hK : Conts rest)
    (h : (k.recycleThread nthr tid >>= fun k => pure ((k.setRet ret).setCode rest)) = .ok k') :
    ChildStep nthr k k' pc := by
  rcases recycleThread_cases k nthr tid with ⟨thr, htid, -, -, hex, hr⟩ | hr
  · rw [hr] at h
    obtain rfl := Except.ok.inj h
    refine .goes (fun p hp hcan => ?_) fun p rest' he =>
      ne_wait_of_conts hK ((setCode_code_tp _ _).symm.trans he)
    obtain ⟨t, c, hc, hpar, hne, hst⟩ := hcan
    refine ⟨t, c, ?_, ?_, hne, hst⟩
    · show Function.update k.thrtab tid none t = some c
      rw [Function.update_of_ne]
      · exact hc
      · rintro rfl
        obtain rfl := Option.some.inj (hc.symm.trans htid)
        exact hst hex
    · show (Kernel.slots nthr).foldl (Kernel.reparent k.thrtab thr) k.parent c = some p
      rw [foldl_reparent (ht.family.parent_ne_self htid), if_neg]
      · exact hpar
      · rintro ⟨-, hthr⟩
        obtain rfl := Option.some.inj (hpar.symm.trans hthr)
        exact hp hex
  · rw [hr] at h
    cases h

theorem childStep_enter (hi : Inv nthr k ready waits) {c : Call ι} (hcode : k.code k.tp = .call c :: rest)
    (h : enter cl nthr k rest c = .ok k') : ChildStep nthr k k' (.call c) := by
  obtain ⟨-, hK⟩ : k.state k.tp = .running ∧ Conts rest := by
    have := hi.current
    rwa [hcode] at this
  have hrest : ∀ p rest', rest ≠ .waitEnter (.childExit p) :: rest' := fun p rest' => ne_wait_of_conts hK
  cases c with
  | threadSpawn page =>
      rw [enter] at h
      split at h
      · rename_i tid hf
        obtain rfl := Except.ok.inj h
        have hfresh : ∀ {t c}, k.thrtab t = some c → c ≠ k.brk := by
          rintro t c hc rfl
          exact (hi.core.table.slot t _ hc).2.2 (hi.core.table.fresh _ (Nat.le_refl _))
        refine .move (fun p hp ho => ho.mono (fun t c hc => ?_) (fun t c hc hpar => ?_) fun t c hc hs => ?_)
          fun p rest' he => by cases he
        · show Function.update k.thrtab tid (some k.brk) t = some c
          rwa [Function.update_of_ne]
          rintro rfl
          rw [(freeSlot_spec hf).1] at hc
          cases hc
        · show Function.update k.parent k.brk (some k.tp) c = some p
          rwa [Function.update_of_ne (hfresh hc)]
        · show Function.update k.state k.brk .ready c ≠ .exited
          rwa [Function.update_of_ne (hfresh hc)]
      · cases h
  | threadExit =>
      rw [enter] at h
      split at h
      · cases h
      · split at h
        · rename_i q hq
          obtain rfl := Except.ok.inj h
          refine .exits q ?_ fun p hp hcan => ?_
          · exact congrArg bcastTarget (setCode_code_tp (k.setState k.tp .exited) _)
          obtain ⟨t, c, hc, hpar, hne, hst⟩ := hcan
          refine ⟨t, c, hc, hpar, hne, ?_⟩
          show Function.update k.state k.tp .exited c ≠ .exited
          rwa [Function.update_of_ne]
          rintro rfl
          exact hp (Option.some.inj (hpar.symm.trans hq))
        · cases h
  | threadYield =>
      rw [enter] at h
      split at h
      · obtain rfl := Except.ok.inj h
        exact .move (fun _ _ ho => ho) fun p rest' he => by cases he
      · cases h
  | threadJoin tid =>
      rw [enter] at h
      split at h
      · obtain rfl := Except.ok.inj h
        exact .move (fun _ _ ho => ho) hrest
      · split at h
        · split at h
          · obtain rfl := Except.ok.inj h
            exact .move (fun _ _ ho => ho) fun p rest' he => by cases he
          · obtain rfl := Except.ok.inj h
            exact .move (fun _ _ ho => ho) hrest
        · obtain rfl := Except.ok.inj h
          exact .move (fun _ _ ho => ho) hrest
  | threadJoinAny =>
      rw [enter] at h
      split at h
      · obtain rfl := Except.ok.inj h
        exact .move (fun _ _ ho => ho) fun p rest' he => by cases he
      · split at h
        · obtain rfl := Except.ok.inj h
          exact .joins _ rfl (.inl ⟨rfl, ‹_›, ‹_›⟩)
        · cases h
  | conditionWait n | conditionBroadcast n =>
      obtain rfl := Except.ok.inj h
      exact .move (fun _ _ ho => ho) fun p rest' he => by cases he
  | intrDisable | intrEnable =>
      obtain rfl := Except.ok.inj h
      exact .move (fun _ _ ho => ho) hrest
  | dev i =>
      obtain rfl := Except.ok.inj h
      exact .move (fun _ _ ho => ho) fun p rest' => ne_wait_of_conts (SchedulerInv.Conts.calls hK)

/-- A step that only gives living threads another living state. -/
theorem CanExit.restate {k₁ : Kernel σ ι} (h : CanExit k p) (ht : k₁.thrtab = k.thrtab) (hp : k₁.parent = k.parent)
    (hs : ∀ c, k₁.state c = k.state c ∨ k₁.state c ≠ .exited) : CanExit k₁ p := by
  refine h.mono (fun t c hc => by rw [ht]; exact hc) (fun t c _ hpar => by rw [hp]; exact hpar) fun t c _ hst => ?_
  rcases hs c with he | hne
  · rwa [he]
  · exact hne

theorem update_restates {state : Ptr → ThreadState} {t : Ptr} {s : ThreadState} (hs : s ≠ .exited) (c : Ptr) :
    Function.update state t s c = state c ∨ Function.update state t s c ≠ .exited := by
  rcases eq_or_ne c t with rfl | hne
  · exact .inr (by rwa [Function.update_self])
  · exact .inl (Function.update_of_ne hne _ _)

theorem childStep_exec (hi : Inv nthr k ready waits) (ht : Tree nthr k) (hcode : k.code k.tp = pc :: rest)
    (h : exec cl nthr k rest pc = .ok k') : ChildStep nthr k k' pc := by
  have hcore := hi.core
  have hcur := hi.current
  rw [hcode] at hcore hcur
  cases pc with
  | call c => exact childStep_enter hi hcode h
  | waitEnter c =>
      rw [exec, if_pos hcur.1] at h
      obtain rfl := Except.ok.inj h
      exact .move (fun p _ ho => ho.restate rfl rfl (update_restates (by simp))) fun p rest' he => by cases he
  | waitInsert c saved =>
      obtain ⟨next, list, hins, -⟩ := hcore.insertWait hcur.1 hcur.2.1
      rw [exec, hins] at h
      obtain rfl := Except.ok.inj h
      exact .move (fun _ _ ho => ho) fun p rest' he => by cases he
  | bcastEnter c =>
      rw [exec] at h
      obtain rfl := Except.ok.inj h
      refine .move (fun _ _ ho => ho) fun p rest' he => ?_
      split at he
      · rcases hcur with ⟨-, hK⟩ | ⟨K, rfl, -⟩
        · exact ne_wait_of_conts hK he
        · cases he
      · cases he
  | bcastBody c saved =>
      obtain ⟨next, list, hwake, -⟩ := hcore.wakeAll c
      rw [exec, hwake] at h
      obtain rfl := Except.ok.inj h
      refine .move (fun p _ ho => ho.restate rfl rfl fun c' => ?_) fun p rest' he => by cases he
      show (if c' ∈ waits c then ThreadState.ready else k.state c') = k.state c' ∨ _
      split
      · exact .inr (by simp [woken, ‹c' ∈ waits c›])
      · exact .inl rfl
  | bcastRestore saved =>
      obtain rfl := Except.ok.inj h
      refine .move (fun _ _ ho => ho) fun p rest' he => ?_
      rcases hcur with ⟨-, hK⟩ | ⟨K, rfl, -⟩
      · exact ne_wait_of_conts hK he
      · cases he
  | suspEnter =>
      rw [exec] at h
      split at h
      · cases h
      · obtain rfl := Except.ok.inj h
        exact .move (fun _ _ ho => ho) fun p rest' he => by cases he
  | suspDispatch saved =>
      have hne : ready ≠ [] := by
        rcases eq_or_ne k.tp idleThread with he | hne
        · exact hi.idleYield he (by rw [hcode]; trivial)
        · exact hcore.ready_ne_nil hne
      obtain ⟨n, behind, rfl⟩ := List.exists_cons_of_ne_nil hne
      obtain ⟨k₁, hdisp, -, -, hst, hk₁⟩ := hcore.dispatch_cons
      rw [exec, hdisp] at h
      obtain rfl := Except.ok.inj h
      refine .move (fun p _ ho => ho.restate (by rw [hk₁]) (by rw [hk₁]) fun c => ?_) fun p rest' he => by cases he
      rcases hst with ⟨-, hst⟩ | ⟨-, hst⟩
      · rw [hst]
        rcases eq_or_ne c k.tp with rfl | hc
        · exact .inr (by simp)
        · rw [Function.update_of_ne hc]
          exact update_restates (by simp) c
      · rw [hst]
        exact update_restates (by simp) c
  | suspSwtch next saved =>
      obtain rfl := Except.ok.inj h
      have hrun : k.state next = .running := (hcore.listed.running next).mpr rfl
      have hn : next ≠ k.tp := by
        rintro rfl
        rcases hcur with ⟨hs | hs, -⟩ | ⟨hs, -⟩ <;> cases hrun.symm.trans hs
      refine .goes (fun _ _ ho => ho) fun p rest' he => ?_
      have he' : k.code next = .waitEnter (.childExit p) :: rest' := (setCode_code_of_ne k _ hn).symm.trans he
      rcases hcore.parked next hn (.inr (.inl hrun)) with hK | ⟨s, K, hs, -⟩
      · exact ne_wait_of_conts hK he'
      · rw [hs] at he'
        cases he'
  | suspResumed saved =>
      rw [exec, if_neg (by simp [hcur.1])] at h
      obtain rfl := Except.ok.inj h
      exact .move (fun _ _ ho => ho) fun p rest' he => by cases he
  | suspRestore saved | spawnRestore saved =>
      obtain rfl := Except.ok.inj h
      exact .move (fun _ _ ho => ho) fun p rest' => ne_wait_of_conts hcur.2
  | spawnInsert child saved =>
      have hst : k.state child = .ready := hi.spawned child (by rw [hcode]; rfl)
      have hct : child ≠ k.tp := fun he => by cases hcur.1.symm.trans (he ▸ hst)
      obtain ⟨next, list, hins, -⟩ := hcore.insertReady hst hct
      rw [exec, hins] at h
      obtain rfl := Except.ok.inj h
      exact .move (fun _ _ ho => ho) fun p rest' he => by cases he
  | exitFailed => cases h
  | joinLoop tid child =>
      rw [exec] at h
      split at h
      · exact childStep_recycle ht hcur.2 h
      · obtain rfl := Except.ok.inj h
        exact .joins _ rfl (.inr ⟨tid, child, rfl, ‹_›⟩)
  | joinAnyScan =>
      rw [exec] at h
      split at h
      · exact childStep_recycle ht hcur.2 h
      · cases h
  | idleLoop =>
      rw [exec] at h
      obtain rfl := Except.ok.inj h
      refine .move (fun _ _ ho => ho) fun p rest' he => ?_
      split at he <;> cases he
  | _ =>
      obtain rfl := Except.ok.inj h
      exact .move (fun _ _ ho => ho) fun p rest' he => by cases he

end Step

section Run

/-- A thread that is not woken by the broadcast it waits for is woken later in the same call. -/
theorem bcast_goes (hi : Inv nthr k ready waits) (hcode : k.code k.tp = pc :: rest) (h : exec cl nthr k rest pc = .ok k')
    (frame : Frame cl k k' pc rest) {c : Cond} (hb : bcastTarget (k.code k.tp) = some c) (hw : Waits k' c p) :
    bcastTarget (k'.code k'.tp) = some c := by
  have hcore := hi.core
  rw [hcode] at hb hcore
  have hw' := (frame.waits c p).mp hw
  cases pc with
  | bcastEnter d =>
      obtain rfl : d = c := Option.some.inj hb
      have hne : ¬ tlempty (k.waitList d) = true := by
        rw [(hcore.listed.waitList d).tlempty_iff]
        refine List.ne_nil_of_mem ((hcore.listed.mem_waits p d).mpr ⟨hw'.1, hw'.2, ?_⟩)
        rintro he
        cases he
      rw [exec, if_neg hne] at h
      obtain rfl := Except.ok.inj h
      exact congrArg bcastTarget (setCode_code_tp k _)
  | bcastDisable d =>
      obtain rfl : d = c := Option.some.inj hb
      obtain rfl := Except.ok.inj h
      exact congrArg bcastTarget (setCode_code_tp { k with sie := false } _)
  | bcastBody d saved => exact absurd (Option.some.inj hb).symm hw'.2
  | _ => cases hb

theorem isr_states (hi : Inv nthr k ready waits) {conds : List Nat}
    (h : conds.foldlM (fun k n => k.broadcast nthr (.ext n)) k = .ok k') (c : Ptr) :
    k'.state c = k.state c ∨ k'.state c ≠ .exited := by
  induction conds generalizing k ready waits with
  | nil =>
      obtain rfl := Except.ok.inj h
      exact .inl rfl
  | cons n conds ih =>
      rw [List.foldlM_cons] at h
      have hb := hi.broadcast (.ext n)
      cases hr : k.broadcast nthr (.ext n) with
      | error s =>
          rw [hr] at h
          cases h
      | ok k₁ =>
          rw [hr] at h hb
          obtain ⟨ready', waits', hi'⟩ := hb
          have h₁ : k₁.state c = k.state c ∨ k₁.state c = .ready := by
            unfold Kernel.broadcast at hr
            split at hr
            · obtain rfl := Except.ok.inj hr
              exact .inl rfl
            · obtain ⟨next, list, hwake, -⟩ := hi.core.wakeAll (.ext n)
              rw [hwake] at hr
              obtain rfl := Except.ok.inj hr
              by_cases hm : c ∈ waits (.ext n)
              · exact .inr (by simp [woken, hm])
              · exact .inl (by simp [woken, hm])
          rcases ih hi' h with he | hne
          · rcases h₁ with h₁ | h₁
            · exact .inl (he.trans h₁)
            · exact .inr (by simp [he, h₁])
          · exact .inr hne

theorem Joins.not_exited (hi : Inv nthr k ready waits) (h : Joins k p) : k.state p ≠ .exited := by
  intro hs
  rcases h with ⟨hw, -⟩ | ⟨rfl, rest, hcode⟩
  · cases hw.symm.trans hs
  · have hcur := hi.current
    rw [hcode] at hcur
    cases hcur.1.symm.trans hs

/-- A thread begins to wait only for a child that can exit. -/
theorem canExit_of_joins (hi : Inv nthr k ready waits) (ht : Tree nthr k) (hcode : k.code k.tp = pc :: rest)
    (hgood : sparesIdle nthr k (.run : Label ι ε) = true)
    (hchild : pc = .call .threadJoinAny ∧ (Kernel.slots nthr).find? k.isExitedChild = none ∧
        (Kernel.slots nthr).any k.isChild = true ∨
      ∃ tid child, pc = .joinLoop tid child ∧ k.state child ≠ .exited) : CanExit k k.tp := by
  rcases hchild with ⟨rfl, hnone, hany⟩ | ⟨tid, child, rfl, hst⟩
  · simp only [sparesIdle, hcode, Bool.not_eq_true', Bool.eq_false_iff, ne_eq, onlyIdle_iff hi ht.family] at hgood
    obtain ⟨t, -, htc⟩ := List.any_eq_true.mp hany
    have hex : ∃ t c, k.thrtab t = some c ∧ k.parent c = some k.tp ∧ c ≠ idleThread := by
      by_contra hno
      refine hgood ⟨⟨t, isChild_iff.mp htc⟩, fun u c hc hp => ?_⟩
      by_contra hne
      exact hno ⟨u, c, hc, hp, hne⟩
    obtain ⟨u, c, hc, hp, hne⟩ := hex
    refine ⟨u, c, hc, hp, hne, fun hs => ?_⟩
    exact List.find?_eq_none.mp hnone u (mem_slots hi ht.family hc hp) (isExitedChild_iff.mpr ⟨c, hc, hp, hs⟩)
  · simp only [sparesIdle, hcode, Bool.or_eq_true, decide_eq_true_eq, canExit_iff hi ht.family] at hgood
    rcases hgood with hne | hgood
    · have hrun : k.state k.tp = .running := by
        have hcur := hi.current
        rw [hcode] at hcur
        exact hcur.1
      have hj := ht.joins k.tp (.inr (.inl hrun))
      rw [hcode] at hj
      obtain ⟨-, -, htid, hpar⟩ := hj.2 _ rfl
      exact ⟨tid, child, htid, hpar, hne, hst⟩
    · exact hgood

theorem noVainJoin_step (hi : Inv nthr k ready waits) (ht : Tree nthr k) (hf : Fresh k) (hv : NoVainJoin k)
    (hgood : sparesIdle nthr k l = true) (h : step cl nthr k l = .ok k') : NoVainJoin k' := by
  cases step_trans hi hf h with
  | idle _ _ same => exact same ▸ hv
  | run pc rest hcode frame =>
      rw [step, hcode] at h
      intro p hj hb
      have hold : AwaitsChild k' p → Joins k p ∧ CanExit k p := by
        intro hw
        have hjk : Joins k p := (waits_of_waitsAfter ((frame.waits (.childExit p) p).mp hw)).imp_right
          fun h => ⟨h.1, rest, by rw [hcode, h.2]⟩
        exact ⟨hjk, hv p hjk fun hb' => hb (bcast_goes hi hcode h frame hb' hw)⟩
      cases childStep_exec hi ht hcode h with
      | goes keeps code =>
          rcases hj with hw | ⟨rfl, rest', he⟩
          · exact keeps p ((hold hw).1.not_exited hi) (hold hw).2
          · exact absurd he (code _ _)
      | exits q code keeps =>
          rcases hj with hw | ⟨rfl, rest', he⟩
          · refine keeps p ?_ (hold hw).2
            rintro rfl
            exact hb code
          · rw [he] at code
            cases code
      | joins new same child =>
          subst same
          rcases hj with hw | ⟨rfl, rest', he⟩
          · exact (hold hw).2
          · have hce : CanExit k k.tp := canExit_of_joins hi ht hcode hgood child
            exact hce
  | call c hcode may same =>
      subst same
      intro p hj hb
      rcases hj with hw | ⟨-, rest', he⟩
      · exact hv p (.inl hw) (by rw [hcode]; simp [bcastTarget])
      · cases (setCode_code_tp k _).symm.trans he
  | isr e sie woke =>
      rw [step, if_pos sie] at h
      have hst := isr_states (hi.setDev (cl.isr e k.dev).1) h
      have hsame := woke.same
      have htp : k'.tp = k.tp := by rw [hsame]
      have hcode : k'.code = k.code := by rw [hsame]
      intro p hj hb
      have hjk : Joins k p := by
        rcases hj with hw | ⟨hp, rest', he⟩
        · exact .inl ((woke.waits (.childExit p) p).mp hw).1
        · exact .inr ⟨hp.trans htp, rest', by rw [← htp, ← hcode]; exact he⟩
      rw [htp, hcode] at hb
      exact (hv p hjk hb).restate (by rw [hsame]) (by rw [hsame]) hst
  | env e same =>
      subst same
      exact hv

/-- The other steps make a thread wait for a child that cannot exit. -/
theorem not_noVainJoin_step (hi : Inv nthr k ready waits) (ht : Tree nthr k) (hbad : sparesIdle nthr k l = false)
    (h : step cl nthr k l = .ok k') : ¬ NoVainJoin k' := by
  have hvain : ∀ new, k' = k.setCode (.waitEnter (.childExit k.tp) :: new) → ¬ CanExit k k.tp → ¬ NoVainJoin k' := by
    rintro new rfl hno hv
    refine hno (hv k.tp (.inr ⟨rfl, new, setCode_code_tp k _⟩) ?_)
    rw [show (k.setCode (.waitEnter (.childExit k.tp) :: new)).tp = k.tp from rfl, setCode_code_tp]
    simp [bcastTarget]
  cases l with
  | run =>
      cases hcode : k.code k.tp with
      | nil => simp [sparesIdle, hcode] at hbad
      | cons pc rest =>
          rw [step, hcode] at h
          cases pc with
          | call c =>
              cases c with
              | threadJoinAny =>
                  simp only [sparesIdle, hcode, Bool.not_eq_false', onlyIdle_iff hi ht.family] at hbad
                  obtain ⟨⟨t, c, hc, hp⟩, hall⟩ := hbad
                  have hnone : (Kernel.slots nthr).find? k.isExitedChild = none := by
                    rw [List.find?_eq_none]
                    intro u _ hu
                    obtain ⟨d, hd, hq, hs⟩ := isExitedChild_iff.mp hu
                    rw [hall u d hd hq] at hs
                    exact idle_not_exited hi hs
                  have hany : (Kernel.slots nthr).any k.isChild = true :=
                    List.any_eq_true.mpr ⟨t, mem_slots hi ht.family hc hp, isChild_iff.mpr ⟨c, hc, hp⟩⟩
                  have he : enter cl nthr k rest .threadJoinAny = .ok k' := h
                  rw [enter, hnone] at he
                  simp only [hany, if_true] at he
                  refine hvain _ (Except.ok.inj he).symm fun hcan => ?_
                  obtain ⟨u, d, hd, hq, hne, -⟩ := hcan
                  exact hne (hall u d hd hq)
              | _ => simp [sparesIdle, hcode] at hbad
          | joinLoop tid child =>
              simp only [sparesIdle, hcode, Bool.or_eq_false_iff, decide_eq_false_iff_not, ne_eq, not_not] at hbad
              obtain ⟨rfl, hno⟩ := hbad
              have he : exec cl nthr k rest (.joinLoop tid idleThread) = .ok k' := h
              rw [exec, if_neg (idle_not_exited hi)] at he
              refine hvain _ (Except.ok.inj he).symm fun hce => ?_
              rw [(canExit_iff hi ht.family).mpr hce] at hno
              cases hno
          | _ => simp [sparesIdle, hcode] at hbad
  | _ => simp [sparesIdle] at hbad

end Run

/-- The steps of a run from thread_init spare the idle thread exactly when in no state that
the run reaches a thread waits, or is about to wait, for a child that cannot exit. -/
theorem run_sparesIdle_iff (cl : Client σ ι ε) (hn : 2 ≤ nthr) (dev : σ) (satp : Nat) (sie : Bool)
    (ls : List (Label ι ε)) (hr : run cl nthr (threadInit nthr dev satp sie) ls = .ok k) :
    along cl nthr (sparesIdle nthr) (threadInit nthr dev satp sie) ls = true ↔
      ∀ pre suf k, ls = pre ++ suf → run cl nthr (threadInit nthr dev satp sie) pre = .ok k → NoVainJoin k := by
  refine along_iff (P := fun k => (∃ ready waits, Inv nthr k ready waits) ∧ Tree nthr k ∧ Fresh k ∧ NoVainJoin k)
    (fun k l k' h hgood hs => ?_) (fun k h => h.2.2.2) (fun k l k' h hbad hs => ?_) ?_ hr
  · obtain ⟨⟨ready, waits, hi⟩, ht, hf, hv⟩ := h
    have hi' : Kept nthr (step cl nthr k l) := hi.step l
    have ht' : TreeKept nthr (step cl nthr k l) := ht.step hi l
    rw [hs] at hi' ht'
    exact ⟨hi', ht', fresh_of_trans hi hf (step_trans hi hf hs), noVainJoin_step hi ht hf hv hgood hs⟩
  · obtain ⟨⟨ready, waits, hi⟩, ht, -⟩ := h
    exact not_noVainJoin_step hi ht hbad hs
  · refine ⟨⟨_, _, inv_threadInit hn dev satp sie⟩, tree_threadInit hn dev satp sie, fresh_threadInit nthr dev satp sie,
      fun p hj => ?_⟩
    rcases hj with ⟨-, hw⟩ | ⟨rfl, rest, hcode⟩
    · cases hw
    · simp [threadInit, mainThread, idleThread] at hcode

/-- The main thread waits for the thread it has spawned. -/
theorem run_sparesIdle_iff_spawnAndJoin :
    ∃ k, run noDrivers 16 (threadInit 16 () 0 true) spawnAndJoin = .ok k ∧ AwaitsChild k mainThread ∧ NoVainJoin k := by
  have hgood : along noDrivers 16 (sparesIdle 16) (threadInit 16 () 0 true) spawnAndJoin = true := by decide +kernel
  have hview : ((run noDrivers 16 (threadInit 16 () 0 true) spawnAndJoin).toOption.map fun k =>
      (k.state mainThread, k.waitCond mainThread)) = some (.waiting, some (.childExit mainThread)) := by decide +kernel
  cases hr : run noDrivers 16 (threadInit 16 () 0 true) spawnAndJoin with
  | error s =>
      rw [hr] at hview
      cases hview
  | ok k =>
      rw [hr] at hview
      simp only [Except.toOption, Option.map_some, Option.some.injEq, Prod.mk.injEq] at hview
      exact ⟨k, rfl, hview, (run_sparesIdle_iff noDrivers (by decide) () 0 true spawnAndJoin hr).mp hgood spawnAndJoin []
        k (List.append_nil _).symm hr⟩

/-- The main thread calls thread_join_any although it has spawned no thread. -/
def joinNone : List (Label Empty Empty) := .call .threadJoinAny :: List.replicate 11 .run

/-- The idle thread runs, and will never wake the main thread, which waits for it. -/
theorem not_noVainJoin_joinNone :
    ∃ k, run noDrivers 16 (threadInit 16 () 0 true) joinNone = .ok k ∧ k.tp = idleThread ∧ AwaitsChild k mainThread ∧
      bcastTarget (k.code k.tp) = none ∧ ¬ CanExit k mainThread := by
  have hview : ((run noDrivers 16 (threadInit 16 () 0 true) joinNone).toOption.map fun k =>
      (k.tp, k.state mainThread, k.waitCond mainThread, bcastTarget (k.code k.tp),
        (List.range 16).all fun t => (k.thrtab t).all fun c => c = idleThread ∨ k.parent c ≠ some mainThread)) =
      some (idleThread, .waiting, some (.childExit mainThread), none, true) := by decide +kernel
  have hkept : Kept 16 (run noDrivers 16 (threadInit 16 () 0 true) joinNone) :=
    (inv_threadInit (by decide) () 0 true).run joinNone
  cases hr : run noDrivers 16 (threadInit 16 () 0 true) joinNone with
  | error s =>
      rw [hr] at hview
      cases hview
  | ok k =>
      rw [hr] at hview hkept
      obtain ⟨ready, waits, hi⟩ := hkept
      simp only [Except.toOption, Option.map_some, Option.some.injEq, Prod.mk.injEq] at hview
      obtain ⟨htp, hs, hc, hb, hall⟩ := hview
      refine ⟨k, rfl, htp, ⟨hs, hc⟩, hb, fun hcan => ?_⟩
      obtain ⟨t, c, ht, hp, hne, -⟩ := hcan
      have := List.all_eq_true.mp hall t (List.mem_range.mpr (hi.core.table.slot t c ht).1)
      simp [ht, hne, hp] at this

end RiscvKernel.ChildWait
