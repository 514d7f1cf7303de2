import RiscvKernel.SchedulerInv

namespace RiscvKernel.StepFrame

open Thread Scheduler SchedulerInv

variable {σ ι ε : Type} {nthr : Nat}

/-- WAITING for a condition, on its wait list or about to be put there. -/
def Waits (k : Kernel σ ι) (c : Cond) (p : Ptr) : Prop := k.state p = .waiting ∧ k.waitCond p = some c

/-- Along a run from k every step is good in the state before it. -/
def along (cl : Client σ ι ε) (nthr : Nat) (good : Kernel σ ι → Label ι ε → Bool) (k : Kernel σ ι) :
    List (Label ι ε) → Bool
  | [] => true
  | l :: ls =>
      good k l &&
        match step cl nthr k l with
        | .ok k' => along cl nthr good k' ls
        | .error _ => true

theorem along_of_forall (cl : Client σ ι ε) {good : Kernel σ ι → Label ι ε → Bool} (h : ∀ k l, good k l = true)
    (k : Kernel σ ι) (ls : List (Label ι ε)) : along cl nthr good k ls = true := by
  induction ls generalizing k with
  | nil => rfl
  | cons l ls ih =>
      rw [along, h, Bool.true_and]
      split
      · exact ih _
      · rfl

theorem run_cons_ok {cl : Client σ ι ε} {k k' : Kernel σ ι} {l : Label ι ε} {ls : List (Label ι ε)}
    (h : run cl nthr k (l :: ls) = .ok k') :
    ∃ k₁, step cl nthr k l = .ok k₁ ∧ run cl nthr k₁ ls = .ok k' := by
  rw [run, List.foldlM_cons] at h
  cases hs : step cl nthr k l with
  | error s =>
      rw [hs] at h
      cases h
  | ok k₁ =>
      rw [hs] at h
      exact ⟨k₁, rfl, h⟩

/-- What good steps keep, runs of good steps keep. -/
theorem run_along {cl : Client σ ι ε} {good : Kernel σ ι → Label ι ε → Bool} {P : Kernel σ ι → Prop}
    (hstep : ∀ k l k', P k → good k l = true → step cl nthr k l = .ok k' → P k') {k k' : Kernel σ ι} {ls : List (Label ι ε)}
    (h : P k) (hgood : along cl nthr good k ls = true) (hrun : run cl nthr k ls = .ok k') : P k' := by
  induction ls generalizing k with
  | nil =>
      obtain rfl := Except.ok.inj hrun
      exact h
  | cons l ls ih =>
      rw [run, List.foldlM_cons] at hrun
      cases hs : step cl nthr k l with
      | error s =>
          rw [hs] at hrun
          cases hrun
      | ok k₁ =>
          rw [hs] at hrun
          rw [along, hs, Bool.and_eq_true] at hgood
          exact ih (hstep k l k₁ h hgood.1 hs) hgood.2 hrun

/-- Where the good steps keep P and the others leave Q behind, the runs whose steps are good are
those that stay inside Q. -/
theorem along_iff {cl : Client σ ι ε} {good : Kernel σ ι → Label ι ε → Bool} {P Q : Kernel σ ι → Prop}
    (hstep : ∀ k l k', P k → good k l = true → step cl nthr k l = .ok k' → P k') (hPQ : ∀ k, P k → Q k)
    (hbad : ∀ k l k', P k → good k l = false → step cl nthr k l = .ok k' → ¬ Q k') {k k' : Kernel σ ι}
    {ls : List (Label ι ε)} (h : P k) (hrun : run cl nthr k ls = .ok k') :
    along cl nthr good k ls = true ↔ ∀ pre suf k', ls = pre ++ suf → run cl nthr k pre = .ok k' → Q k' := by
  induction ls generalizing k with
  | nil =>
      refine iff_of_true rfl fun pre suf k' he hr => ?_
      obtain ⟨rfl, -⟩ := List.append_eq_nil_iff.mp he.symm
      obtain rfl := Except.ok.inj hr
      exact hPQ k h
  | cons l ls ih =>
      rw [run, List.foldlM_cons] at hrun
      cases hs : step cl nthr k l with
      | error s =>
          rw [hs] at hrun
          cases hrun
      | ok k₁ =>
          rw [hs] at hrun
          have hcons : ∀ pre, run cl nthr k (l :: pre) = run cl nthr k₁ pre := fun pre => by
            rw [run, List.foldlM_cons, hs]
            rfl
          rw [along, hs, Bool.and_eq_true]
          constructor
          · rintro ⟨hl, hls⟩ pre suf k₂ he hr
            cases pre with
            | nil =>
                obtain rfl := Except.ok.inj hr
                exact hPQ k h
            | cons l' pre =>
                obtain ⟨rfl, rfl⟩ := List.cons.inj he
                rw [hcons] at hr
                exact (ih (hstep k l k₁ h hl hs) hrun).mp hls pre suf k₂ rfl hr
          · intro hQ
            have hl : good k l = true := by
              by_contra hn
              refine hbad k l k₁ h (Bool.eq_false_iff.mpr hn) hs (hQ [l] ls k₁ rfl ?_)
              rw [hcons]
              rfl
            refine ⟨hl, (ih (hstep k l k₁ h hl hs) hrun).mpr fun pre suf k₂ he hr => ?_⟩
            refine hQ (l :: pre) suf k₂ (congrArg (l :: ·) he) ?_
            rw [hcons]
            exact hr

/-- A step of a driver meets a condition. -/
def meets (cond : ι → Ctx → σ → Bool) (k : Kernel σ ι) (l : Label ι ε) : Bool :=
  match l, k.code k.tp with
  | .run, .call (.dev i) :: _ => cond i k.ctx k.dev
  | _, _ => true

/-- How the driver functions use sstatus.SIE: which values they may be called with, which
value they return with, and which conditions they wait for with interrupts disabled only. -/
structure Discipline (ι : Type) where
  need : ι → Bool → Prop
  out : ι → Bool → Bool
  guarded : Nat → Prop

variable (d : Discipline ι)

/-- A guarded condition is broadcast by interrupt handlers only. -/
def silent (c : Cond) : Prop := ∀ n, c = .ext n → ¬ d.guarded n

/-- A guarded condition is waited for with interrupts disabled. -/
def guards (c : Cond) (b : Bool) : Prop := ∀ n, c = .ext n → d.guarded n → b = false

def needCall : Call ι → Bool → Prop
  | .conditionWait n, b => guards d (.ext n) b
  | .conditionBroadcast n, _ => silent d (.ext n)
  | .dev i, b => d.need i b
  | _, _ => True

def outCall : Call ι → Bool → Bool
  | .intrDisable, _ => false
  | .intrEnable, _ => true
  | .dev i, b => d.out i b
  | _, b => b

def needPc : Pc ι → Bool → Prop
  | .call c, b => needCall d c b
  | .waitEnter c, b | .waitDisable c, b => guards d c b
  | .waitInsert _ _, b => b = false
  | .bcastEnter c, _ | .bcastDisable c, _ | .bcastBody c _, _ => silent d c
  | _, _ => True

/-- The value of SIE when the function returns that is at this place. -/
def outPc : Pc ι → Bool → Bool
  | .call c, b => outCall d c b
  | .waitInsert _ saved, _ | .waitRestore saved, _ | .bcastBody _ saved, _ | .bcastRestore saved, _
  | .suspDispatch saved, _ | .suspEnable _ saved, _ | .suspSpace _ saved, _ | .suspSwtch _ saved, _
  | .suspResumed saved, _ | .suspRestore saved, _ | .spawnInsert _ saved, _ | .spawnRestore saved, _ => saved
  | _, b => b

/-- Where a thread never comes back from. -/
def final : Pc ι → Bool
  | .call .threadExit | .exitFailed | .idleLoop | .idleDisable | .idleWfi | .idleEnable => true
  | _ => false

/-- Code that may start with SIE = b and ends with SIE = b'. -/
def Ends (b : Bool) : List (Pc ι) → Bool → Prop
  | [], b' => b = b'
  | pc :: K, b' => needPc d pc b ∧ (final pc = true ∨ Ends (outPc d pc b) K b')

/-- The functions of the drivers keep to the discipline. -/
structure Obeys (cl : Client σ ι ε) : Prop where
  push : ∀ i ctx s, d.need i ctx.sie →
    Ends d (cl.exec i ctx s).sie ((cl.exec i ctx s).push.map Pc.call) (d.out i ctx.sie)
  entry : ∀ i ctx s, cl.entry i ctx s = true → d.need i ctx.sie
  own : ∀ n, d.guarded n → cl.ownCond n = true

variable {d}

theorem Ends.append {b m b' : Bool} {A B : List (Pc ι)} (hA : Ends d b A m) (hB : Ends d m B b') : Ends d b (A ++ B) b' := by
  induction A generalizing b with
  | nil =>
      obtain rfl : b = m := hA
      exact hB
  | cons pc A ih => exact ⟨hA.1, hA.2.imp_right ih⟩

/-- Neither a call of a driver nor on the way to wait for one of the drivers' conditions. -/
def quiet : Pc ι → Bool
  | .call (.dev _) | .call (.conditionWait _) | .waitEnter (.ext _) => false
  | _ => true

/-- What stands in the place of pc after a step from it. -/
def Becomes (cl : Client σ ι ε) (k : Kernel σ ι) : Pc ι → List (Pc ι) → Prop
  | .call (.dev i), new => new = (cl.exec i k.ctx k.dev).push.map Pc.call
  | .call (.conditionWait n), new => new = [.waitEnter (.ext n)]
  | .call .intrDisable, new | .call .intrEnable, new => new = []
  | _, new => ∀ pc ∈ new, quiet pc = true

theorem Becomes.quiet {cl : Client σ ι ε} {k : Kernel σ ι} {pc : Pc ι} {new : List (Pc ι)} (h : Becomes cl k pc new)
    (hdev : ∀ i, pc ≠ .call (.dev i)) (hwait : ∀ n, pc ≠ .call (.conditionWait n)) : ∀ q ∈ new, quiet q = true := by
  unfold Becomes at h
  split at h
  · exact absurd rfl (hdev _)
  · exact absurd rfl (hwait _)
  · simp [h]
  · simp [h]
  · exact h

/-- Who waits for what after a step from pc. -/
def waitsAfter (k : Kernel σ ι) : Pc ι → Cond → Ptr → Prop
  | .waitEnter c', c, p => Waits k c p ∨ p = k.tp ∧ c = c'
  | .bcastBody c' _, c, p => Waits k c p ∧ c ≠ c'
  | _, c, p => Waits k c p

theorem waits_of_waitsAfter {k : Kernel σ ι} {pc : Pc ι} {c : Cond} {p : Ptr} (h : waitsAfter k pc c p) :
    Waits k c p ∨ p = k.tp ∧ pc = .waitEnter c := by
  cases pc with
  | waitEnter c' => exact h.imp_right fun h => ⟨h.1, by rw [h.2]⟩
  | bcastBody c' saved => exact .inl h.1
  | _ => exact .inl h

def devAfter (cl : Client σ ι ε) (k : Kernel σ ι) : Pc ι → σ
  | .call (.dev i) => (cl.exec i k.ctx k.dev).dev
  | _ => k.dev

/-- The current thread goes on, or suspend_self resumes another one. -/
inductive Flow (cl : Client σ ι ε) (k k' : Kernel σ ι) (pc : Pc ι) (rest : List (Pc ι)) : Prop
  | stays (new : List (Pc ι)) (tp : k'.tp = k.tp) (code : k'.code k.tp = new ++ rest) (becomes : Becomes cl k pc new)
      (ends : ∀ d, Obeys d cl → ∀ R b, Ends d k.sie (pc :: R) b → Ends d k'.sie (new ++ R) b)
  | switches (saved : Bool) (pc_eq : pc = .suspSwtch k'.tp saved) (ne : k'.tp ≠ k.tp)
      (code : k'.code k.tp = .suspResumed saved :: rest)

/-- What a step of the current thread changes and what it leaves alone. -/
structure Frame (cl : Client σ ι ε) (k k' : Kernel σ ι) (pc : Pc ι) (rest : List (Pc ι)) : Prop where
  brk : k.brk ≤ k'.brk
  id : ∀ p, p < k.brk → k'.id p = k.id p
  proc : ∀ p, p < k.brk → k'.proc p = k.proc p
  code : ∀ p, p ≠ k.tp → k'.code p = k.code p
  waits : ∀ c p, Waits k' c p ↔ waitsAfter k pc c p
  dev : k'.dev = devAfter cl k pc
  flow : Flow cl k k' pc rest

section Exec

@[simp] theorem setCode_code_tp (k : Kernel σ ι) (code : List (Pc ι)) : (k.setCode code).code k.tp = code := by
  simp [Kernel.setCode]

theorem setCode_code_of_ne (k : Kernel σ ι) (code : List (Pc ι)) {p : Ptr} (hp : p ≠ k.tp) :
    (k.setCode code).code p = k.code p := by
  simp [Kernel.setCode, hp]

variable {cl : Client σ ι ε} {k k' : Kernel σ ι} {pc : Pc ι} {rest : List (Pc ι)} {ready : List Ptr}
  {waits : Cond → List Ptr}

/-- A step that replaces pc by new code of the same thread. -/
theorem Frame.stay (k₁ : Kernel σ ι) (new : List (Pc ι)) (hbrk : k.brk ≤ k₁.brk) (hid : ∀ p, p < k.brk → k₁.id p = k.id p)
    (hproc : ∀ p, p < k.brk → k₁.proc p = k.proc p) (htp : k₁.tp = k.tp) (hcode : k₁.code = k.code)
    (hw : ∀ c p, Waits k₁ c p ↔ waitsAfter k pc c p) (hdev : k₁.dev = devAfter cl k pc) (hnew : Becomes cl k pc new)
    (hends : ∀ d, Obeys d cl → ∀ R b, Ends d k.sie (pc :: R) b → Ends d k₁.sie (new ++ R) b) :
    Frame cl k (k₁.setCode (new ++ rest)) pc rest := by
  refine ⟨hbrk, hid, hproc, fun p hp => ?_, hw, hdev, .stays new htp ?_ hnew hends⟩
  · simp [Kernel.setCode, htp, hp, hcode]
  · simp [Kernel.setCode, htp]

/-- A step that changes nothing of the threads but the current one's code. -/
theorem Frame.move (sie : Bool) (satp : Nat) (ret : Ptr → Int) (new : List (Pc ι))
    (hw : ∀ c p, Waits k c p ↔ waitsAfter k pc c p) (hdev : k.dev = devAfter cl k pc) (hnew : Becomes cl k pc new)
    (hends : ∀ d, Obeys d cl → ∀ R b, Ends d k.sie (pc :: R) b → Ends d sie (new ++ R) b) :
    Frame cl k ({ k with sie, satp, ret }.setCode (new ++ rest)) pc rest :=
  .stay _ new (Nat.le_refl _) (fun _ _ => rfl) (fun _ _ => rfl) rfl rfl hw hdev hnew hends

/-- A step that ends the function it is in. -/
theorem Frame.returns (sie : Bool) (satp : Nat) (ret : Ptr → Int) (hw : ∀ c p, Waits k c p ↔ waitsAfter k pc c p)
    (hdev : k.dev = devAfter cl k pc) (hnew : Becomes cl k pc []) (hf : final pc = false)
    (hout : ∀ d : Discipline ι, outPc d pc k.sie = sie) :
    Frame cl k ({ k with sie, satp, ret }.setCode rest) pc rest := by
  refine .move sie satp ret [] hw hdev hnew fun d hd R b h => ?_
  have h' := h.2.resolve_left (by simp [hf])
  rwa [hout d] at h'

theorem waits_setState (hs : k.state k.tp ≠ .waiting) {s : ThreadState} (hs' : s ≠ .waiting) (c : Cond) (p : Ptr) :
    Waits (k.setState k.tp s) c p ↔ Waits k c p := by
  rcases eq_or_ne p k.tp with rfl | hne
  · simp [Waits, Kernel.setState, hs, hs']
  · simp [Waits, Kernel.setState, hne]

theorem recycle_frame {tid : Nat} (hw : ∀ c p, Waits k c p ↔ waitsAfter k pc c p) (hdev : k.dev = devAfter cl k pc)
    (hnew : Becomes cl k pc []) (hf : final pc = false) (hout : ∀ d : Discipline ι, outPc d pc k.sie = k.sie)
    (h : (do let k ← k.recycleThread nthr tid; return (k.setRet tid).setCode rest) = .ok k') :
    Frame cl k k' pc rest := by
  rcases recycleThread_cases k nthr tid with ⟨thr, -, -, -, -, heq⟩ | heq
  · rw [heq] at h
    obtain rfl := Except.ok.inj h
    refine .stay (Kernel.setRet _ _) [] (Nat.le_refl _) (fun _ _ => rfl) (fun _ _ => rfl) rfl rfl hw hdev hnew
      fun d hd R b h => ?_
    have h' := h.2.resolve_left (by simp [hf])
    rwa [hout d] at h'
  · rw [heq] at h
    cases h

theorem enter_frame (hi : Inv nthr k ready waits) (hfresh : ∀ p, k.brk ≤ p → k.code p = []) {c : Call ι}
    (hcode : k.code k.tp = .call c :: rest) (h : enter cl nthr k rest c = .ok k') : Frame cl k k' (.call c) rest := by
  obtain ⟨hrun, -⟩ : k.state k.tp = .running ∧ Conts rest := by
    have := hi.current
    rwa [hcode] at this
  cases c with
  | threadSpawn page =>
      rw [enter] at h
      split at h
      · obtain rfl := Except.ok.inj h
        have hne : k.brk ≠ k.tp := fun he => by
          have := hi.core.table.fresh k.brk (Nat.le_refl _)
          rw [he, hrun] at this
          cases this
        refine .stay (Kernel.setRet _ _) [.spawnDisable k.brk] (Nat.le_succ _) (fun p hp => ?_) (fun p hp => ?_) rfl ?_
          (fun c p => ?_) rfl (fun pc hpc => ?_) fun _ _ _ _ h => h
        · exact Function.update_of_ne (Nat.ne_of_lt hp) _ _
        · exact Function.update_of_ne (Nat.ne_of_lt hp) _ _
        · exact Function.update_eq_self_iff.mpr (hfresh _ (Nat.le_refl _)).symm
        · rcases eq_or_ne p k.brk with rfl | hp
          · have := hi.core.table.fresh k.brk (Nat.le_refl _)
            simp [Waits, waitsAfter, Kernel.setRet, Kernel.spawn, Kernel.setState, this]
          · simp [Waits, waitsAfter, Kernel.setRet, Kernel.spawn, Kernel.setState, hp]
        · obtain rfl := List.mem_singleton.mp hpc
          rfl
      · cases h
  | threadExit =>
      rw [enter] at h
      split at h
      · cases h
      · split at h
        · obtain rfl := Except.ok.inj h
          rename_i parent _
          refine .stay (k.setState k.tp .exited) [.bcastEnter (.childExit parent), .suspEnter, .exitFailed]
            (Nat.le_refl _) (fun _ _ => rfl) (fun _ _ => rfl) rfl rfl (waits_setState (by simp [hrun]) (by simp)) rfl ?_
            fun d _ R b h => ?_
          · simp [Becomes, quiet]
          · simp [Ends, needPc, silent, final]
        · cases h
  | threadYield =>
      rw [enter, if_pos hrun] at h
      obtain rfl := Except.ok.inj h
      exact .move _ _ _ [.suspEnter] (fun _ _ => Iff.rfl) rfl (by simp [Becomes, quiet]) fun _ _ _ _ h => h
  | threadJoin tid =>
      have hret : ∀ r : Int, Frame cl k ((k.setRet r).setCode rest) (.call (.threadJoin tid)) rest := fun r =>
        .returns _ _ _ (fun _ _ => Iff.rfl) rfl (by simp [Becomes]) rfl fun _ => rfl
      rw [enter] at h
      split at h
      · obtain rfl := Except.ok.inj h
        exact hret _
      · split at h
        · split at h
          · obtain rfl := Except.ok.inj h
            exact .move _ _ _ [_] (fun _ _ => Iff.rfl) rfl (by simp [Becomes, quiet]) fun _ _ _ _ h => h
          · obtain rfl := Except.ok.inj h
            exact hret _
        · obtain rfl := Except.ok.inj h
          exact hret _
  | threadJoinAny =>
      rw [enter] at h
      split at h
      · obtain rfl := Except.ok.inj h
        exact .move _ _ _ [_] (fun _ _ => Iff.rfl) rfl (by simp [Becomes, quiet]) fun _ _ _ _ h => h
      · split at h
        · obtain rfl := Except.ok.inj h
          refine .move _ _ _ [.waitEnter (.childExit k.tp), .joinAnyScan] (fun _ _ => Iff.rfl) rfl (by simp [Becomes, quiet])
            fun d _ R b h => ?_
          exact ⟨(fun _ h => by cases h), .inr h⟩
        · cases h
  | conditionWait n =>
      obtain rfl := Except.ok.inj h
      exact .move _ _ _ [.waitEnter (.ext n)] (fun _ _ => Iff.rfl) rfl rfl fun _ _ _ _ h => h
  | conditionBroadcast n =>
      obtain rfl := Except.ok.inj h
      exact .move _ _ _ [.bcastEnter (.ext n)] (fun _ _ => Iff.rfl) rfl (by simp [Becomes, quiet]) fun _ _ _ _ h => h
  | intrDisable | intrEnable =>
      obtain rfl := Except.ok.inj h
      exact .returns _ _ _ (fun _ _ => Iff.rfl) rfl (by simp [Becomes]) rfl fun _ => rfl
  | dev i =>
      obtain rfl := Except.ok.inj h
      refine .stay _ ((cl.exec i k.ctx k.dev).push.map Pc.call) (Nat.le_refl _) (fun _ _ => rfl) (fun _ _ => rfl) rfl rfl
        (fun _ _ => Iff.rfl) rfl rfl fun d hd R b h => ?_
      exact (hd.push i k.ctx k.dev h.1).append (h.2.resolve_left (by simp [final]))

/-- A broadcast leaves nobody waiting but the thread that is about to be put on the list. -/
theorem waits_woken {ex sw : Option Ptr} (hc : Core nthr k ex sw ready waits) (c c' : Cond) (p : Ptr) :
    Waits (woken k (waits c)) c' p ↔ Waits k c' p ∧ (c' = c → some p = ex) := by
  have hm := hc.listed.mem_waits p c
  by_cases hp : p ∈ waits c
  · obtain ⟨-, hcond, hex⟩ := hm.mp hp
    simp only [Waits, woken, hp, if_true, reduceCtorEq, false_and, false_iff]
    rintro ⟨⟨-, hcond'⟩, he⟩
    rw [hcond] at hcond'
    exact hex (he (Option.some.inj hcond').symm)
  · simp only [Waits, woken, hp, if_false, iff_self_and]
    rintro ⟨hs, hcond⟩ rfl
    by_contra hex
    exact hp (hm.mpr ⟨hs, hcond, hex⟩)

theorem exec_frame (hi : Inv nthr k ready waits) (hfresh : ∀ p, k.brk ≤ p → k.code p = [])
    (hcode : k.code k.tp = pc :: rest) (h : exec cl nthr k rest pc = .ok k') : Frame cl k k' pc rest := by
  have hcore := hi.core
  have hcur := hi.current
  rw [hcode] at hcore hcur
  cases pc with
  | call c => exact enter_frame hi hfresh hcode h
  | waitEnter c =>
      obtain ⟨hrun, -⟩ := hcur
      rw [exec, if_pos hrun] at h
      obtain rfl := Except.ok.inj h
      refine .stay { k.setState k.tp .waiting with
          waitCond := Function.update k.waitCond k.tp (some c)
          listNext := Function.update k.listNext k.tp none } [.waitDisable c] (Nat.le_refl _) (fun _ _ => rfl)
        (fun _ _ => rfl) rfl rfl (fun c' p => ?_) rfl (by simp [Becomes, quiet]) fun _ _ _ _ h => h
      rcases eq_or_ne p k.tp with rfl | hne
      · simp [Waits, waitsAfter, Kernel.setState, hrun, eq_comm]
      · simp [Waits, waitsAfter, Kernel.setState, hne]
  | waitDisable c =>
      obtain rfl := Except.ok.inj h
      exact .move _ _ _ [.waitInsert c k.sie] (fun _ _ => Iff.rfl) rfl (by simp [Becomes, quiet])
        fun _ _ _ _ h => ⟨rfl, h.2⟩
  | waitInsert c saved =>
      obtain ⟨hs, hc, -⟩ := hcur
      obtain ⟨next, list, hins, -⟩ := hcore.insertWait hs hc
      rw [exec, hins] at h
      obtain rfl := Except.ok.inj h
      exact .stay { k with listNext := next, waitList := Function.update k.waitList c list } [.waitRestore saved]
        (Nat.le_refl _) (fun _ _ => rfl) (fun _ _ => rfl) rfl rfl (fun _ _ => Iff.rfl) rfl (by simp [Becomes, quiet])
        fun _ _ _ _ h => ⟨trivial, h.2⟩
  | waitRestore saved =>
      obtain rfl := Except.ok.inj h
      exact .move _ _ _ [.suspEnter] (fun _ _ => Iff.rfl) rfl (by simp [Becomes, quiet]) fun _ _ _ _ h => h
  | bcastEnter c =>
      rw [exec] at h
      obtain rfl := Except.ok.inj h
      split
      · exact .returns _ _ _ (fun _ _ => Iff.rfl) rfl (by simp [Becomes]) rfl fun _ => rfl
      · exact .move _ _ _ [.bcastDisable c] (fun _ _ => Iff.rfl) rfl (by simp [Becomes, quiet]) fun _ _ _ _ h => h
  | bcastDisable c =>
      obtain rfl := Except.ok.inj h
      exact .move _ _ _ [.bcastBody c k.sie] (fun _ _ => Iff.rfl) rfl (by simp [Becomes, quiet]) fun _ _ _ _ h => h
  | bcastBody c saved =>
      obtain ⟨next, list, hwake, -⟩ := hcore.wakeAll c
      rw [exec, hwake] at h
      obtain rfl := Except.ok.inj h
      refine .stay { woken k (waits c) with
          listNext := next, readyList := list, waitList := Function.update k.waitList c tlclear } [.bcastRestore saved]
        (Nat.le_refl _) (fun _ _ => rfl) (fun _ _ => rfl) rfl rfl (fun c' p => ?_) rfl (by simp [Becomes, quiet])
        fun _ _ _ _ h => ⟨trivial, h.2⟩
      have hw : Waits (woken k (waits c)) c' p ↔ Waits k c' p ∧ c' ≠ c := by simpa [exempt] using waits_woken hcore c c' p
      exact hw
  | bcastRestore saved =>
      obtain rfl := Except.ok.inj h
      exact .returns _ _ _ (fun _ _ => Iff.rfl) rfl (by simp [Becomes]) rfl fun _ => rfl
  | suspEnter =>
      rw [exec] at h
      split at h
      · cases h
      · obtain rfl := Except.ok.inj h
        exact .move _ _ _ [.suspDisable] (fun _ _ => Iff.rfl) rfl (by simp [Becomes, quiet]) fun _ _ _ _ h => h
  | suspDisable =>
      obtain rfl := Except.ok.inj h
      exact .move _ _ _ [.suspDispatch k.sie] (fun _ _ => Iff.rfl) rfl (by simp [Becomes, quiet]) fun _ _ _ _ h => h
  | suspDispatch saved =>
      have hnil : ready ≠ [] := by
        rcases eq_or_ne k.tp idleThread with he | hne
        · exact hi.idleYield he (by rw [hcode]; trivial)
        · exact hcore.ready_ne_nil hne
      obtain ⟨n, k₁, ready', hdisp, -, hn, hntp, hst, hk₁⟩ := hcore.dispatch hnil
      rw [exec, hdisp] at h
      obtain rfl := Except.ok.inj h
      have hready := hcore.listed.state_of_mem_ready hn
      refine .stay k₁ [.suspEnable n saved] (Nat.le_of_eq (by rw [hk₁])) (fun _ _ => by rw [hk₁])
        (fun _ _ => by rw [hk₁]) (by rw [hk₁]) (by rw [hk₁]) (fun c p => ?_) (by rw [hk₁]; rfl)
        (by simp [Becomes, quiet]) fun _ _ _ _ h => by rw [hk₁]; exact h
      have hcond : k₁.waitCond = k.waitCond := by rw [hk₁]
      have hsp : k₁.state p = .waiting ↔ k.state p = .waiting := by
        rcases hst with ⟨hrun, hst⟩ | ⟨-, hst⟩
        · rcases eq_or_ne p k.tp with rfl | hp
          · simp [hst, hrun]
          · rcases eq_or_ne p n with rfl | hpn
            · simp [hst, hp, hready]
            · simp [hst, hp, hpn]
        · rcases eq_or_ne p n with rfl | hpn
          · simp [hst, hready]
          · simp [hst, hpn]
      simp only [Waits, waitsAfter, hcond, hsp]
  | suspEnable next saved =>
      obtain rfl := Except.ok.inj h
      exact .move _ _ _ [.suspSpace next saved] (fun _ _ => Iff.rfl) rfl (by simp [Becomes, quiet]) fun _ _ _ _ h => h
  | suspSpace next saved =>
      obtain rfl := Except.ok.inj h
      exact .move _ _ _ [.suspSwtch next saved] (fun _ _ => Iff.rfl) rfl (by simp [Becomes, quiet]) fun _ _ _ _ h => h
  | suspSwtch next saved =>
      obtain rfl := Except.ok.inj h
      have hrun : k.state next = .running := (hcore.listed.running next).mpr rfl
      have hne : next ≠ k.tp := fun he => by
        rw [he] at hrun
        have hcur' : (k.state k.tp = .waiting ∨ k.state k.tp = .ready) ∧ Conts rest ∨ Exiting (k.state k.tp) rest := hcur
        rw [hrun] at hcur'
        rcases hcur' with ⟨hs | hs, -⟩ | ⟨hs, -⟩ <;> cases hs
      refine ⟨Nat.le_refl _, fun _ _ => rfl, fun _ _ => rfl, fun p hp => ?_, fun _ _ => Iff.rfl, rfl,
        .switches saved rfl hne ?_⟩
      · simp [Kernel.setCode, hp]
      · simp [Kernel.setCode]
  | suspResumed saved =>
      obtain ⟨hrun, -⟩ := hcur
      rw [exec, if_neg (by simp [hrun])] at h
      obtain rfl := Except.ok.inj h
      exact .move _ _ _ [.suspRestore saved] (fun _ _ => Iff.rfl) rfl (by simp [Becomes, quiet]) fun _ _ _ _ h => h
  | suspRestore saved =>
      obtain rfl := Except.ok.inj h
      exact .returns _ _ _ (fun _ _ => Iff.rfl) rfl (by simp [Becomes]) rfl fun _ => rfl
  | spawnDisable child =>
      obtain rfl := Except.ok.inj h
      exact .move _ _ _ [.spawnInsert child k.sie] (fun _ _ => Iff.rfl) rfl (by simp [Becomes, quiet]) fun _ _ _ _ h => h
  | spawnInsert child saved =>
      obtain ⟨hrun, -⟩ := hcur
      have hst : k.state child = .ready := hi.spawned child (by rw [hcode]; rfl)
      have hct : child ≠ k.tp := fun he => by cases hrun.symm.trans (he ▸ hst)
      obtain ⟨next, list, hins, -⟩ := hcore.insertReady hst hct
      rw [exec, hins] at h
      obtain rfl := Except.ok.inj h
      exact .stay { k with listNext := next, readyList := list } [.spawnRestore saved] (Nat.le_refl _) (fun _ _ => rfl)
        (fun _ _ => rfl) rfl rfl (fun _ _ => Iff.rfl) rfl (by simp [Becomes, quiet]) fun _ _ _ _ h => h
  | spawnRestore saved =>
      obtain rfl := Except.ok.inj h
      exact .returns _ _ _ (fun _ _ => Iff.rfl) rfl (by simp [Becomes]) rfl fun _ => rfl
  | exitFailed => cases h
  | joinLoop tid child =>
      rw [exec] at h
      split at h
      · exact recycle_frame (fun _ _ => Iff.rfl) rfl (by simp [Becomes]) rfl (fun _ => rfl) h
      · obtain rfl := Except.ok.inj h
        exact .move _ _ _ [.waitEnter (.childExit k.tp), .joinLoop tid child] (fun _ _ => Iff.rfl) rfl
          (by simp [Becomes, quiet]) fun _ _ _ _ h => ⟨(fun _ h => by cases h), .inr h⟩
  | joinAnyScan =>
      rw [exec] at h
      split at h
      · exact recycle_frame (fun _ _ => Iff.rfl) rfl (by simp [Becomes]) rfl (fun _ => rfl) h
      · cases h
  | idleLoop =>
      rw [exec] at h
      obtain rfl := Except.ok.inj h
      split
      · exact .move _ _ _ [.idleDisable] (fun _ _ => Iff.rfl) rfl (by simp [Becomes, quiet]) fun _ _ _ _ h => h
      · exact .move _ _ _ [.call .threadYield, .idleLoop] (fun _ _ => Iff.rfl) rfl (by simp [Becomes, quiet])
          fun _ _ _ _ h => ⟨trivial, .inr h⟩
  | idleDisable =>
      obtain rfl := Except.ok.inj h
      exact .move _ _ _ [.idleWfi] (fun _ _ => Iff.rfl) rfl (by simp [Becomes, quiet]) fun _ _ _ _ h => ⟨trivial, .inl rfl⟩
  | idleWfi =>
      obtain rfl := Except.ok.inj h
      exact .move _ _ _ [.idleEnable] (fun _ _ => Iff.rfl) rfl (by simp [Becomes, quiet]) fun _ _ _ _ h => h
  | idleEnable =>
      obtain rfl := Except.ok.inj h
      exact .move _ _ _ [.idleLoop] (fun _ _ => Iff.rfl) rfl (by simp [Becomes, quiet]) fun _ _ _ _ h => ⟨trivial, .inl rfl⟩

/-- What the broadcasts of an interrupt handler change. -/
structure Woke (k k' : Kernel σ ι) (conds : List Nat) : Prop where
  same : k' = { k with state := k'.state, waitCond := k'.waitCond, listNext := k'.listNext, readyList := k'.readyList,
                       waitList := k'.waitList }
  waits : ∀ c p, Waits k' c p ↔ Waits k c p ∧ ((∃ n ∈ conds, c = .ext n) → some p = exempt k.tp (k.code k.tp))

theorem broadcast_waits (hi : Inv nthr k ready waits) {c : Cond} (h : k.broadcast nthr c = .ok k') :
    k' = { k with state := k'.state, waitCond := k'.waitCond, listNext := k'.listNext, readyList := k'.readyList,
                  waitList := k'.waitList } ∧
      ∀ c' p, Waits k' c' p ↔ Waits k c' p ∧ (c' = c → some p = exempt k.tp (k.code k.tp)) := by
  unfold Kernel.broadcast at h
  split at h
  · obtain rfl := Except.ok.inj h
    have hnil : waits c = [] := by
      have := ((hi.core.listed.waitList c).tlempty_iff).mp ‹_›
      exact this
    refine ⟨rfl, fun c' p => ?_⟩
    have := waits_woken hi.core c c' p
    rw [hnil] at this
    simpa [woken] using this
  · obtain ⟨next, list, hwake, -⟩ := hi.core.wakeAll c
    rw [hwake] at h
    obtain rfl := Except.ok.inj h
    exact ⟨rfl, fun c' p => waits_woken hi.core c c' p⟩

theorem isr_woke (hi : Inv nthr k ready waits) {conds : List Nat}
    (h : conds.foldlM (fun k n => k.broadcast nthr (.ext n)) k = .ok k') : Woke k k' conds := by
  induction conds generalizing k ready waits with
  | nil =>
      obtain rfl := Except.ok.inj h
      exact ⟨rfl, by simp⟩
  | cons n conds ih =>
      rw [List.foldlM_cons] at h
      have hb := hi.broadcast (.ext n)
      cases hr : k.broadcast nthr (.ext n) with
      | error s =>
          rw [hr] at h
          cases h
      | ok k₁ =>
          rw [hr] at h hb
          obtain ⟨ready', waits', hi'⟩ := hb
          obtain ⟨hsame, hw⟩ := broadcast_waits hi hr
          have hwoke := ih hi' h
          have hex : exempt k₁.tp (k₁.code k₁.tp) = exempt k.tp (k.code k.tp) := by rw [hsame]
          refine ⟨hwoke.same.trans (by rw [hsame]), fun c p => ?_⟩
          rw [hwoke.waits c p, hw c p, hex]
          simp only [List.mem_cons, exists_eq_or_imp, or_imp, and_assoc]

end Exec

/-- Everything a step can do. -/
inductive Trans (cl : Client σ ι ε) (k k' : Kernel σ ι) : Label ι ε → Prop
  | idle (l : Label ι ε) (masked : ∀ e, l = .isr e → k.sie = false) (same : k' = k) : Trans cl k k' l
  | run (pc : Pc ι) (rest : List (Pc ι)) (code : k.code k.tp = pc :: rest) (frame : Frame cl k k' pc rest) :
      Trans cl k k' .run
  | call (c : Call ι) (code : k.code k.tp = []) (may : mayCall cl k c = true) (same : k' = k.setCode [.call c]) :
      Trans cl k k' (.call c)
  | isr (e : ε) (sie : k.sie = true) (woke : Woke { k with dev := (cl.isr e k.dev).1 } k' (cl.isr e k.dev).2) :
      Trans cl k k' (.isr e)
  | env (e : ε) (same : k' = { k with dev := cl.env e k.dev }) : Trans cl k k' (.env e)

theorem step_trans {cl : Client σ ι ε} {k k' : Kernel σ ι} {ready : List Ptr} {waits : Cond → List Ptr} {l : Label ι ε}
    (hi : Inv nthr k ready waits) (hfresh : ∀ p, k.brk ≤ p → k.code p = []) (h : step cl nthr k l = .ok k') :
    Trans cl k k' l := by
  cases l with
  | run =>
      rw [step] at h
      split at h
      · exact .idle _ (fun _ h => by cases h) (Except.ok.inj h).symm
      · rename_i pc rest hcode
        exact .run pc rest hcode (exec_frame hi hfresh hcode h)
  | call c =>
      rw [step] at h
      split at h
      · rename_i hc
        exact .call c (by simpa using hc.1) hc.2 (Except.ok.inj h).symm
      · exact .idle _ (fun _ h => by cases h) (Except.ok.inj h).symm
  | isr e =>
      rw [step] at h
      split at h
      · rename_i hs
        exact .isr e hs (isr_woke (hi.setDev _) h)
      · exact .idle _ (fun _ _ => by simpa using ‹¬k.sie = true›) (Except.ok.inj h).symm
  | env e => exact .env e (Except.ok.inj h).symm

section Fresh

variable {cl : Client σ ι ε} {k k' : Kernel σ ι} {l : Label ι ε} {ready : List Ptr} {waits : Cond → List Ptr}

/-- A thread that has not been handed out has nothing to execute. -/
def Fresh (k : Kernel σ ι) : Prop := ∀ p, k.brk ≤ p → k.code p = []

theorem fresh_of_trans (hi : Inv nthr k ready waits) (hf : Fresh k) (h : Trans cl k k' l) : Fresh k' := by
  have hlt : k.tp < k.brk := by
    refine Nat.lt_of_not_le fun hle => ?_
    have hcur := hi.current
    rw [hf _ hle, hi.core.table.fresh _ hle] at hcur
    cases hcur
  cases h with
  | idle _ _ same => exact same ▸ hf
  | run pc rest code frame =>
      intro p hp
      have hle := Nat.le_trans frame.brk hp
      rw [frame.code p (Nat.ne_of_gt (Nat.lt_of_lt_of_le hlt hle))]
      exact hf p hle
  | call c code may same =>
      subst same
      intro p hp
      rw [setCode_code_of_ne k _ (Nat.ne_of_gt (Nat.lt_of_lt_of_le hlt hp))]
      exact hf p hp
  | isr e sie woke =>
      rw [woke.same]
      exact hf
  | env e same =>
      subst same
      exact hf

theorem fresh_threadInit (nthr : Nat) (dev : σ) (satp : Nat) (sie : Bool) :
    Fresh (threadInit nthr dev satp sie : Kernel σ ι) := fun p hp => by
  have hne : p ≠ idleThread := Nat.ne_of_gt hp
  simp [threadInit, hne]

end Fresh

/-- The invariant of the scheduler, with all code keeping to the discipline. -/
structure Typed (nthr : Nat) (d : Discipline ι) (k : Kernel σ ι) : Prop where
  inv : ∃ ready waits, Inv nthr k ready waits
  fresh : ∀ p, k.brk ≤ p → k.code p = []
  current : ∃ b, Ends d k.sie (k.code k.tp) b
  parked : ∀ p, p ≠ k.tp → ∀ b, ∃ b', Ends d b (k.code p) b'

section Typed

variable {cl : Client σ ι ε} {d : Discipline ι} {k k' : Kernel σ ι} {l : Label ι ε} {pc : Pc ι} {rest : List (Pc ι)}

theorem Typed.trans (ht : Typed nthr d k) (h : step cl nthr k l = .ok k') : Trans cl k k' l := by
  obtain ⟨ready, waits, hi⟩ := ht.inv
  exact step_trans hi ht.fresh h

theorem Typed.tp_lt (ht : Typed nthr d k) : k.tp < k.brk := by
  obtain ⟨ready, waits, hi⟩ := ht.inv
  refine Nat.lt_of_not_le fun hle => ?_
  have hcur := hi.current
  rw [ht.fresh _ hle] at hcur
  have hs := hi.core.table.fresh _ hle
  rw [hs] at hcur
  cases hcur

theorem Typed.need (ht : Typed nthr d k) (hcode : k.code k.tp = pc :: rest) : needPc d pc k.sie := by
  obtain ⟨b, h⟩ := ht.current
  rw [hcode] at h
  exact h.1

/-- An interrupt finds no thread on its way to the list of a guarded condition. -/
theorem Typed.exempt_ne (ht : Typed nthr d k) (hs : k.sie = true) {n : Nat} (hn : d.guarded n) {p : Ptr}
    (hw : Waits k (.ext n) p) : some p ≠ exempt k.tp (k.code k.tp) := by
  obtain ⟨ready, waits, hi⟩ := ht.inv
  have hcur := hi.current
  cases hcode : k.code k.tp with
  | nil => simp [exempt]
  | cons pc rest =>
      have hneed := ht.need hcode
      rw [hcode] at hcur
      cases pc with
      | waitDisable c =>
          rintro he
          obtain rfl := Option.some.inj he
          obtain rfl := Option.some.inj (hcur.2.1.symm.trans hw.2)
          have := hneed n rfl hn
          rw [hs] at this
          cases this
      | waitInsert c saved =>
          have : k.sie = false := hneed
          rw [hs] at this
          cases this
      | spawnDisable child | spawnInsert child saved =>
          rintro he
          obtain rfl := Option.some.inj he
          have := hi.spawned p (by rw [hcode]; rfl)
          rw [hw.1] at this
          cases this
      | _ => simp [exempt]

theorem Typed.fresh_of_frame (ht : Typed nthr d k) (hf : Frame cl k k' pc rest) (p : Ptr) (hp : k'.brk ≤ p) : k'.code p = [] := by
  have hle := Nat.le_trans hf.brk hp
  rw [hf.code p (Nat.ne_of_gt (Nat.lt_of_lt_of_le ht.tp_lt hle))]
  exact ht.fresh p hle

theorem Typed.step (hd : Obeys d cl) (ht : Typed nthr d k) (h : step cl nthr k l = .ok k') : Typed nthr d k' := by
  have hinv : ∃ ready waits, Inv nthr k' ready waits := by
    obtain ⟨ready, waits, hi⟩ := ht.inv
    have hk : Kept nthr (Scheduler.step cl nthr k l) := hi.step l
    rw [h] at hk
    exact hk
  cases ht.trans h with
  | idle _ _ same => exact same ▸ ht
  | run pc rest code frame =>
      refine ⟨hinv, ht.fresh_of_frame frame, ?_, fun p hp b => ?_⟩
      · cases frame.flow with
        | stays new tp code' becomes ends =>
            obtain ⟨b, hb⟩ := ht.current
            rw [code] at hb
            rw [tp, code']
            exact ⟨b, ends d hd rest b hb⟩
        | switches saved pc_eq ne code' =>
            rw [frame.code _ ne]
            exact ht.parked _ ne _
      · cases frame.flow with
        | stays new tp code' becomes ends =>
            rw [tp] at hp
            rw [frame.code p hp]
            exact ht.parked p hp b
        | switches saved pc_eq ne code' =>
            rcases eq_or_ne p k.tp with rfl | hne
            · obtain ⟨b', hb⟩ := ht.current
              rw [code, pc_eq] at hb
              rw [code']
              exact ⟨b', trivial, hb.2⟩
            · rw [frame.code p hne]
              exact ht.parked p hne b
  | call c code may same =>
      subst same
      refine ⟨hinv, fun p hp => ?_, ?_, fun p hp b => ?_⟩
      · have hlt : k.tp < p := Nat.lt_of_lt_of_le ht.tp_lt hp
        rw [setCode_code_of_ne k _ (Nat.ne_of_gt hlt)]
        exact ht.fresh p hp
      · refine ⟨outPc d (.call c) k.sie, ?_⟩
        show Ends d k.sie ((k.setCode [.call c]).code k.tp) _
        rw [setCode_code_tp]
        refine ⟨?_, .inr rfl⟩
        cases c with
        | conditionWait n =>
            intro _ he hg
            cases he
            simp [mayCall, hd.own _ hg] at may
        | conditionBroadcast n =>
            intro _ he hg
            cases he
            simp [mayCall, hd.own _ hg] at may
        | dev i => exact hd.entry i k.ctx k.dev may
        | _ => exact trivial
      · rw [setCode_code_of_ne k _ hp]
        exact ht.parked p hp b
  | isr e sie woke =>
      have hsame := woke.same
      refine ⟨hinv, ?_, ?_, ?_⟩
      · rw [hsame]
        exact ht.fresh
      · rw [hsame]
        exact ht.current
      · rw [hsame]
        exact ht.parked
  | env e same =>
      subst same
      exact ⟨hinv, ht.fresh, ht.current, ht.parked⟩

theorem typed_threadInit (hn : 2 ≤ nthr) (d : Discipline ι) (dev : σ) (satp : Nat) (sie : Bool) :
    Typed nthr d (threadInit nthr dev satp sie : Kernel σ ι) := by
  have hcode : ∀ p, p ≠ idleThread → (threadInit nthr dev satp sie : Kernel σ ι).code p = [] := fun p hp => by
    simp [threadInit, hp]
  refine ⟨⟨_, _, inv_threadInit hn dev satp sie⟩, fun p hp => hcode p (Nat.ne_of_gt hp), ⟨sie, ?_⟩, fun p _ b => ?_⟩
  · rw [show (threadInit nthr dev satp sie : Kernel σ ι).tp = mainThread from rfl, hcode _ (by decide)]
    rfl
  · rcases eq_or_ne p idleThread with rfl | hp
    · exact ⟨b, trivial, .inl rfl⟩
    · rw [hcode p hp]
      exact ⟨b, rfl⟩

end Typed

end RiscvKernel.StepFrame
