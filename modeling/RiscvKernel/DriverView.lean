import RiscvKernel.StepFrame

namespace RiscvKernel.DriverView

open Thread Scheduler SchedulerInv StepFrame

variable {σ ι ε : Type} {nthr : Nat}

/-- What the drivers see of the kernel: their devices, the current thread, the step of a
driver function at which each thread is, and which threads wait for which conditions or
are about to. -/
@[ext]
structure View (σ ι : Type) where
  dev : σ
  tp : Ptr
  job : Ptr → Option ι
  waited : Nat → Ptr → Prop

def devs (code : List (Pc ι)) : List ι :=
  code.filterMap fun
    | .call (.dev i) => some i
    | _ => none

/-- About to wait for a condition of the drivers. -/
def Asks (n : Nat) (pc : Pc ι) : Prop := pc = .call (.conditionWait n) ∨ pc = .waitEnter (.ext n)

/-- In condition_wait for the condition n, on its list or on the way there. -/
def Awaits (k : Kernel σ ι) (n : Nat) (p : Ptr) : Prop :=
  Waits k (.ext n) p ∨ p = k.tp ∧ ∃ pc ∈ (k.code k.tp).head?, Asks n pc

def view (d : Discipline ι) (k : Kernel σ ι) : View σ ι where
  dev := k.dev
  tp := k.tp
  job p := (devs (k.code p)).head?
  waited n p := d.guarded n ∧ Awaits k n p

/-- The steps at which a thread can be suspended. -/
def Resting (rests : ι → Prop) (j : Option ι) : Prop := ∀ i ∈ j, rests i

/-- After the step i of a driver function in the context ctx. -/
def View.exec (cl : Client σ ι ε) (d : Discipline ι) (v : View σ ι) (i : ι) (ctx : Ctx) : View σ ι where
  dev := (cl.exec i ctx v.dev).dev
  tp := v.tp
  job := Function.update v.job v.tp (devs ((cl.exec i ctx v.dev).push.map Pc.call)).head?
  waited n p := v.waited n p ∨
    d.guarded n ∧ p = v.tp ∧ (cl.exec i ctx v.dev).push.head? = some (.conditionWait n)

/-- One step of the system as the drivers see it, where a step of a driver meets cond. -/
inductive MoveIf (cond : ι → Ctx → σ → Prop) (cl : Client σ ι ε) (d : Discipline ι) (rests : ι → Prop) (v : View σ ι) :
    View σ ι → Prop
  | exec (i : ι) (ctx : Ctx) (job : v.job v.tp = some i) (tp : ctx.tp = v.tp) (need : d.need i ctx.sie)
      (awake : ∀ n, ¬ v.waited n v.tp) (meets : cond i ctx v.dev) :
      MoveIf cond cl d rests v (v.exec cl d i ctx)
  | switch (next : Ptr) (old : Resting rests (v.job v.tp)) (new : Resting rests (v.job next)) :
      MoveIf cond cl d rests v { v with tp := next }
  | entry (i : ι) (ctx : Ctx) (job : v.job v.tp = none) (tp : ctx.tp = v.tp) (entry : cl.entry i ctx v.dev = true) :
      MoveIf cond cl d rests v { v with job := Function.update v.job v.tp (some i) }
  | isr (e : ε) :
      MoveIf cond cl d rests v
        { v with dev := (cl.isr e v.dev).1, waited := fun n p => v.waited n p ∧ n ∉ (cl.isr e v.dev).2 }
  | env (e : ε) : MoveIf cond cl d rests v { v with dev := cl.env e v.dev }

abbrev Move (cl : Client σ ι ε) (d : Discipline ι) (rests : ι → Prop) : View σ ι → View σ ι → Prop :=
  MoveIf (fun _ _ _ => True) cl d rests

/-- Calls that return without suspending the thread. -/
def prompt : Pc ι → Bool
  | .call (.dev _) | .call .intrDisable | .call .intrEnable => true
  | _ => false

/-- A thread that can be suspended before its next step of a driver rests there. -/
def Settled (rests : ι → Prop) (code : List (Pc ι)) : Prop := ∀ i ∈ devs (code.dropWhile prompt), rests i

/-- How the functions of the drivers are written: one step goes on with at most one other,
calls that can suspend the thread come before steps that can rest, and conditions are
waited for right after they were tested. -/
structure Rules (cl : Client σ ι ε) (d : Discipline ι) (rests : ι → Prop) : Prop where
  obeys : Obeys d cl
  one : ∀ i ctx s, (devs ((cl.exec i ctx s).push.map Pc.call)).length ≤ 1
  settled : ∀ i ctx s, Settled rests ((cl.exec i ctx s).push.map Pc.call)
  tail : ∀ i ctx s n, d.guarded n → Call.conditionWait n ∉ (cl.exec i ctx s).push.tail

/-- Where the steps of the drivers stand in the code of the threads. -/
structure Shape (d : Discipline ι) (rests : ι → Prop) (k : Kernel σ ι) : Prop where
  one : ∀ p, (devs (k.code p)).length ≤ 1
  parked : ∀ p, p ≠ k.tp → ∀ i ∈ devs (k.code p), rests i
  current : Settled rests (k.code k.tp)
  tail : ∀ n, d.guarded n → ∀ pc ∈ (k.code k.tp).tail, ¬ Asks n pc
  quiet : ∀ n p, d.guarded n → p ≠ k.tp → ∀ pc ∈ k.code p, ¬ Asks n pc

section Code

variable {cl : Client σ ι ε} {d : Discipline ι} {rests : ι → Prop} {k k' : Kernel σ ι} {pc : Pc ι}
  {rest new : List (Pc ι)} {n : Nat} {i : ι}

theorem not_asks_of_quiet (h : StepFrame.quiet pc = true) : ¬ Asks n pc := by
  rintro (rfl | rfl) <;> cases h

theorem devs_append (A B : List (Pc ι)) : devs (A ++ B) = devs A ++ devs B := List.filterMap_append ..

@[simp] theorem devs_dev (i : ι) (rest : List (Pc ι)) : devs (.call (.dev i) :: rest) = i :: devs rest := rfl

theorem devs_cons (hpc : ∀ i, pc ≠ .call (.dev i)) : devs (pc :: rest) = devs rest := by
  refine List.filterMap_cons_none ?_
  split
  · exact absurd rfl (hpc _)
  · rfl

theorem devs_eq_nil (h : ∀ pc ∈ new, ∀ i, pc ≠ .call (.dev i)) : devs new = [] := by
  induction new with
  | nil => rfl
  | cons pc new ih =>
      rw [devs_cons (h pc List.mem_cons_self)]
      exact ih fun q hq => h q (List.mem_cons_of_mem _ hq)

/-- Only a step of a driver changes what is left to do in the drivers. -/
theorem devs_becomes (hpc : ∀ i, pc ≠ .call (.dev i)) (h : Becomes cl k pc new) : devs new = [] := by
  refine devs_eq_nil fun q hq i hi => ?_
  by_cases hw : ∃ n, pc = .call (.conditionWait n)
  · obtain ⟨n, rfl⟩ := hw
    rw [show new = [.waitEnter (.ext n)] from h, List.mem_singleton] at hq
    cases hi.symm.trans hq
  · have := h.quiet hpc (fun n hn => hw ⟨n, hn⟩) q hq
    rw [hi] at this
    cases this

end Code

section Steps

variable {cl : Client σ ι ε} {d : Discipline ι} {rests : ι → Prop} {k k' : Kernel σ ι} {pc : Pc ι} {l : Label ι ε}
  {rest : List (Pc ι)} {n : Nat} {i : ι}

theorem Shape.not_asks_rest (h : Shape d rests k) (hcode : k.code k.tp = pc :: rest) (hn : d.guarded n) :
    ∀ q ∈ rest, ¬ Asks n q := by
  have := h.tail n hn
  rwa [hcode] at this

theorem Shape.devs_rest (h : Shape d rests k) (hcode : k.code k.tp = .call (.dev i) :: rest) : devs rest = [] := by
  have := h.one k.tp
  rw [hcode, devs_dev, List.length_cons] at this
  exact List.length_eq_zero_iff.mp (by omega)

theorem Shape.job_eq (h : Shape d rests k) {p : Ptr} (hi : Pc.call (.dev i) ∈ k.code p) : (view d k).job p = some i := by
  have hm : i ∈ devs (k.code p) := List.mem_filterMap.mpr ⟨_, hi, rfl⟩
  obtain ⟨j, hj⟩ := List.length_eq_one_iff.mp (Nat.le_antisymm (h.one p) (List.length_pos_of_mem hm))
  rw [hj, List.mem_singleton] at hm
  simp [view, hj, hm]

/-- The head of the code after a step is new or was further down. -/
theorem Shape.not_asks_append (h : Shape d rests k) {new : List (Pc ι)} (hcode : k.code k.tp = pc :: rest)
    (hn : d.guarded n) (hnew : ∀ q ∈ new, ¬ Asks n q) : ∀ q ∈ new ++ rest, ¬ Asks n q := fun q hq => by
  rcases List.mem_append.mp hq with hq | hq
  · exact hnew q hq
  · exact h.not_asks_rest hcode hn q hq

/-- New code that asks for a guarded condition asks for it first. -/
theorem becomes_tail (hr : Rules cl d rests) {new : List (Pc ι)} (h : Becomes cl k pc new) (hn : d.guarded n) :
    ∀ q ∈ new.tail, ¬ Asks n q := fun q hq => by
  by_cases hdev : ∃ i, pc = .call (.dev i)
  · obtain ⟨i, rfl⟩ := hdev
    rw [show new = (cl.exec i k.ctx k.dev).push.map Pc.call from h, ← List.map_tail] at hq
    obtain ⟨c, hc, rfl⟩ := List.mem_map.mp hq
    rintro (he | he)
    · cases he
      exact hr.tail _ _ _ _ hn hc
    · cases he
  · by_cases hw : ∃ m, pc = .call (.conditionWait m)
    · obtain ⟨m, rfl⟩ := hw
      rw [show new = [.waitEnter (.ext m)] from h] at hq
      cases hq
    · exact not_asks_of_quiet (h.quiet (fun i hi => hdev ⟨i, hi⟩) (fun m hm => hw ⟨m, hm⟩) q (List.mem_of_mem_tail hq))

theorem settled_of_forall {code : List (Pc ι)} (h : ∀ i ∈ devs code, rests i) : Settled rests code := fun i hi =>
  h i ((List.dropWhile_sublist _).filterMap _ |>.subset hi)

theorem Shape.settled_stays (h : Shape d rests k) (hr : Rules cl d rests) {new : List (Pc ι)}
    (hcode : k.code k.tp = pc :: rest) (hb : Becomes cl k pc new) : Settled rests (new ++ rest) := by
  have hcur := h.current
  rw [hcode] at hcur
  by_cases hpc : ∃ i, pc = .call (.dev i)
  · obtain ⟨i, rfl⟩ := hpc
    have hnew : new = (cl.exec i k.ctx k.dev).push.map Pc.call := hb
    intro j hj
    rw [List.dropWhile_append] at hj
    split at hj
    · have hj' : j ∈ devs rest := (List.dropWhile_sublist _).filterMap _ |>.subset hj
      rw [h.devs_rest hcode] at hj'
      cases hj'
    · rw [devs_append, h.devs_rest hcode, List.append_nil, hnew] at hj
      exact hr.settled i _ _ j hj
  · have hpc' : ∀ i, pc ≠ .call (.dev i) := fun i hi => hpc ⟨i, hi⟩
    by_cases hp : prompt pc = true
    · have hnil : new = [] := by
        cases pc with
        | call c =>
            cases c with
            | intrDisable | intrEnable => exact hb
            | dev i => exact absurd rfl (hpc' i)
            | _ => cases hp
        | _ => cases hp
      rw [hnil]
      rwa [Settled, List.dropWhile_cons_of_pos hp] at hcur
    · refine settled_of_forall fun i hi => ?_
      rw [devs_append, devs_becomes hpc' hb] at hi
      rw [Settled, List.dropWhile_cons_of_neg hp, devs_cons hpc'] at hcur
      exact hcur i hi

theorem Shape.run (hr : Rules cl d rests) (h : Shape d rests k) (hcode : k.code k.tp = pc :: rest)
    (hf : Frame cl k k' pc rest) : Shape d rests k' := by
  cases hf.flow with
  | stays new tp code' becomes ends =>
      have hdevs : devs (k'.code k.tp) = devs (k.code k.tp) ∨
          ∃ i, pc = .call (.dev i) ∧ devs (k'.code k.tp) = devs ((cl.exec i k.ctx k.dev).push.map Pc.call) ∧
            new = (cl.exec i k.ctx k.dev).push.map Pc.call := by
        rw [code', hcode, devs_append]
        by_cases hpc : ∃ i, pc = .call (.dev i)
        · obtain ⟨i, rfl⟩ := hpc
          have hnew : new = (cl.exec i k.ctx k.dev).push.map Pc.call := becomes
          rw [h.devs_rest hcode, List.append_nil, hnew]
          exact .inr ⟨i, rfl, rfl, rfl⟩
        · have hpc' : ∀ i, pc ≠ .call (.dev i) := fun i hi => hpc ⟨i, hi⟩
          rw [devs_becomes hpc' becomes, devs_cons hpc']
          exact .inl rfl
      refine ⟨fun p => ?_, fun p hp => ?_, ?_, fun n hn q hq => ?_, fun n p hn hp => ?_⟩
      · rcases eq_or_ne p k.tp with rfl | hne
        · rcases hdevs with he | ⟨i, -, he, -⟩
          · rw [he]
            exact h.one _
          · rw [he]
            exact hr.one _ _ _
        · rw [hf.code p hne]
          exact h.one p
      · rw [tp] at hp
        rw [hf.code p hp]
        exact h.parked p hp
      · rw [tp]
        rw [code']
        exact h.settled_stays hr hcode becomes
      · rw [tp, code'] at hq
        cases new with
        | nil => exact h.not_asks_rest hcode hn q (List.mem_of_mem_tail hq)
        | cons q' new' => exact h.not_asks_append hcode hn (becomes_tail hr becomes hn) q hq
      · rw [tp] at hp
        rw [hf.code p hp]
        exact h.quiet n p hn hp
  | switches saved pc_eq ne code' =>
      have hrest : ∀ i ∈ devs rest, rests i := fun i hi => by
        have := h.current
        rw [hcode, pc_eq] at this
        exact this i hi
      refine ⟨fun p => ?_, fun p hp => ?_, ?_, fun n hn q hq => ?_, fun n p hn hp q hq => ?_⟩
      · rcases eq_or_ne p k.tp with rfl | hne
        · have := h.one k.tp
          rw [hcode, pc_eq] at this
          rw [code']
          exact this
        · rw [hf.code p hne]
          exact h.one p
      · rcases eq_or_ne p k.tp with rfl | hne
        · rw [code']
          exact hrest
        · rw [hf.code p hne]
          exact h.parked p hne
      · rw [hf.code _ ne]
        exact settled_of_forall (h.parked _ ne)
      · rw [hf.code _ ne] at hq
        exact h.quiet n _ hn ne q (List.mem_of_mem_tail hq)
      · rcases eq_or_ne p k.tp with rfl | hne
        · rw [code'] at hq
          rcases List.mem_cons.mp hq with rfl | hq
          · exact not_asks_of_quiet rfl
          · exact h.not_asks_rest hcode hn q hq
        · rw [hf.code p hne] at hq
          exact h.quiet n p hn hne q hq

/-- Who waits for a guarded condition after a step that is not a driver's. -/
theorem waits_guarded (ht : Typed nthr d k) (hcode : k.code k.tp = pc :: rest) (hf : Frame cl k k' pc rest)
    (hn : d.guarded n) (p : Ptr) : Waits k' (.ext n) p ↔ Waits k (.ext n) p ∨ p = k.tp ∧ pc = .waitEnter (.ext n) := by
  rw [hf.waits]
  have hneed := ht.need hcode
  cases pc with
  | waitEnter c => simp [waitsAfter, eq_comm]
  | bcastBody c saved =>
      have hne : Cond.ext n ≠ c := fun he => hneed n he.symm hn
      simp [waitsAfter, hne]
  | _ => simp [waitsAfter]

/-- Outside the drivers' own steps the same threads wait for the same conditions. -/
theorem awaits_iff (ht : Typed nthr d k) (h : Shape d rests k) (hcode : k.code k.tp = pc :: rest)
    (hf : Frame cl k k' pc rest) (hpc : ∀ i, pc ≠ .call (.dev i)) (hn : d.guarded n) (p : Ptr) :
    Awaits k' n p ↔ Awaits k n p := by
  unfold Awaits
  rw [waits_guarded ht hcode hf hn]
  have hhead : (∃ q ∈ (k.code k.tp).head?, Asks n q) ↔ Asks n pc := by simp [hcode]
  rw [hhead]
  cases hf.flow with
  | switches saved pc_eq ne code' =>
      have hno : ¬ ∃ q ∈ (k'.code k'.tp).head?, Asks n q := by
        rintro ⟨q, hq, ha⟩
        rw [hf.code _ ne] at hq
        exact h.quiet n _ hn ne q (List.mem_of_mem_head? hq) ha
      rw [or_iff_left fun hq => hno hq.2]
      simp [pc_eq, Asks]
  | stays new tp code' becomes ends =>
      rw [tp, code']
      by_cases hw : ∃ m, pc = .call (.conditionWait m)
      · obtain ⟨m, rfl⟩ := hw
        rw [show new = [.waitEnter (.ext m)] from becomes]
        simp [Asks]
      · have hw' : ∀ m, pc ≠ .call (.conditionWait m) := fun m hm => hw ⟨m, hm⟩
        have hno : ¬ ∃ q ∈ (new ++ rest).head?, Asks n q := by
          rintro ⟨q, hq, ha⟩
          refine h.not_asks_append hcode hn (fun q hq => ?_) q (List.mem_of_mem_head? hq) ha
          exact not_asks_of_quiet (becomes.quiet hpc hw' q hq)
        rw [or_iff_left fun hq => hno hq.2]
        simp [Asks, hw']

/-- A step of the current thread is a step of a driver, a switch to another thread or
nothing that the drivers see. -/
theorem run_move {cond : ι → Ctx → σ → Prop} (ht : Typed nthr d k) (h : Shape d rests k)
    (hcode : k.code k.tp = pc :: rest) (hf : Frame cl k k' pc rest) (hcond : ∀ i, pc = .call (.dev i) → cond i k.ctx k.dev) :
    view d k' = view d k ∨ MoveIf cond cl d rests (view d k) (view d k') := by
  by_cases hpc : ∃ i, pc = .call (.dev i)
  · obtain ⟨i, rfl⟩ := hpc
    refine .inr ?_
    cases hf.flow with
    | switches saved pc_eq => cases pc_eq
    | stays new tp code' becomes ends =>
        have hnew : new = (cl.exec i k.ctx k.dev).push.map Pc.call := becomes
        have hjob : (view d k).job (view d k).tp = some i := by simp [view, hcode]
        have hv : view d k' = (view d k).exec cl d i k.ctx := by
          refine View.ext hf.dev tp (funext fun p => ?_) (funext fun n => funext fun p => propext ?_)
          · rcases eq_or_ne p k.tp with rfl | hne
            · simp only [view, View.exec, Function.update_self]
              rw [code', devs_append, h.devs_rest hcode, List.append_nil, hnew]
            · simp only [view, View.exec, hf.code p hne, Function.update_of_ne hne]
          · simp only [view, View.exec, ← and_or_left, Awaits]
            refine and_congr_right fun hn => ?_
            have hold : Waits k (.ext n) p ∨ (p = k.tp ∧ ∃ q ∈ (k.code k.tp).head?, Asks n q) ↔ Waits k (.ext n) p :=
              or_iff_left fun hq => by simp [hcode, Asks] at hq
            rw [hold, waits_guarded ht hcode hf hn, or_assoc]
            refine or_congr_right ?_
            rw [or_iff_right fun hq => by cases hq.2]
            rw [tp, code', hnew]
            refine and_congr_right fun _ => ?_
            cases hpush : (cl.exec i k.ctx k.dev).push with
            | nil =>
                have hno : ¬ ∃ q ∈ rest.head?, Asks n q := by
                  rintro ⟨q, hq, ha⟩
                  exact h.not_asks_rest hcode hn q (List.mem_of_mem_head? hq) ha
                simpa using hno
            | cons c cs => simp [Asks]
        rw [hv]
        refine .exec i k.ctx hjob rfl (ht.need hcode) (fun n hw => ?_) (hcond i rfl)
        rcases hw.2 with hw | ⟨-, q, hq, ha⟩
        · obtain ⟨ready, waits, hi⟩ := ht.inv
          have hcur := hi.current
          rw [hcode] at hcur
          cases hw.1.symm.trans hcur.1
        · simp [hcode] at hq
          rcases ha with rfl | rfl <;> cases hq
  · have hpc' : ∀ i, pc ≠ .call (.dev i) := fun i hi => hpc ⟨i, hi⟩
    have hdev : k'.dev = k.dev := by
      rw [hf.dev]
      unfold devAfter
      split
      · exact absurd rfl (hpc' _)
      · rfl
    have hjob : (view d k').job = (view d k).job := funext fun p => by
      simp only [view]
      rcases eq_or_ne p k.tp with rfl | hne
      · rw [hcode, devs_cons hpc']
        cases hf.flow with
        | switches saved pc_eq ne code' =>
            rw [code']
            rfl
        | stays new tp code' becomes ends => rw [code', devs_append, devs_becomes hpc' becomes, List.nil_append]
      · rw [hf.code p hne]
    have hwaited : (view d k').waited = (view d k).waited := funext fun n => funext fun p => propext
      (and_congr_right fun hn => awaits_iff ht h hcode hf hpc' hn p)
    cases hf.flow with
    | stays new tp code' becomes ends => exact .inl (View.ext hdev tp hjob hwaited)
    | switches saved pc_eq ne code' =>
        refine .inr ?_
        have hv : view d k' = { view d k with tp := k'.tp } := View.ext hdev rfl hjob hwaited
        rw [hv]
        refine .switch k'.tp (fun i hi => ?_) fun i hi => h.parked _ ne i (List.mem_of_mem_head? hi)
        have := h.current
        rw [hcode, pc_eq] at this
        refine this i (List.mem_of_mem_head? ?_)
        have hi' : i ∈ (devs (k.code k.tp)).head? := hi
        rw [hcode, pc_eq] at hi'
        exact hi'

structure Driven (nthr : Nat) (d : Discipline ι) (rests : ι → Prop) (k : Kernel σ ι) : Prop where
  typed : Typed nthr d k
  shape : Shape d rests k

theorem Shape.call (h : Shape d rests k) (c : Call ι) : Shape d rests (k.setCode [.call c]) := by
  have htp : (k.setCode [.call c]).code (k.setCode [.call c]).tp = [.call c] := setCode_code_tp k _
  refine ⟨fun p => ?_, fun p hp => ?_, ?_, fun n hn q hq => ?_, fun n p hn hp => ?_⟩
  · rcases eq_or_ne p k.tp with rfl | hne
    · rw [setCode_code_tp]
      exact List.length_filterMap_le _ _
    · rw [setCode_code_of_ne k _ hne]
      exact h.one p
  · have hp' : p ≠ k.tp := hp
    rw [setCode_code_of_ne k _ hp']
    exact h.parked p hp'
  · rw [htp]
    intro i hi
    cases c <;> cases hi
  · rw [htp] at hq
    cases hq
  · have hp' : p ≠ k.tp := hp
    rw [setCode_code_of_ne k _ hp']
    exact h.quiet n p hn hp'

theorem call_move {cond : ι → Ctx → σ → Prop} (hr : Rules cl d rests) {c : Call ι} (hcode : k.code k.tp = [])
    (may : mayCall cl k c = true) :
    view d (k.setCode [.call c]) = view d k ∨ MoveIf cond cl d rests (view d k) (view d (k.setCode [.call c])) := by
  have hjob : (view d (k.setCode [.call c])).job = Function.update (view d k).job k.tp (devs [.call c]).head? :=
    funext fun p => by
      rcases eq_or_ne p k.tp with rfl | hne
      · simp [view]
      · simp [view, hne, setCode_code_of_ne]
  have hwaited : (view d (k.setCode [.call c])).waited = (view d k).waited := funext fun n => funext fun p => propext <| by
    refine and_congr_right fun hn => ?_
    have htp : (k.setCode [.call c]).code (k.setCode [.call c]).tp = [.call c] := setCode_code_tp k _
    have hno : c ≠ .conditionWait n := fun he => by
      rw [he] at may
      simp [mayCall, hr.obeys.own n hn] at may
    have hw : Waits (k.setCode [.call c]) (.ext n) p ↔ Waits k (.ext n) p := Iff.rfl
    unfold Awaits
    rw [htp, hcode, hw]
    simp [Asks, hno]
  by_cases hdev : ∃ i, c = .dev i
  · obtain ⟨i, rfl⟩ := hdev
    refine .inr ?_
    have hv : view d (k.setCode [.call (.dev i)]) =
        { view d k with job := Function.update (view d k).job (view d k).tp (some i) } :=
      View.ext rfl rfl hjob hwaited
    rw [hv]
    exact .entry i k.ctx (by simp [view, hcode, devs]) rfl may
  · refine .inl (View.ext rfl rfl ?_ hwaited)
    have hnil : devs [Pc.call c] = [] := devs_cons fun i hi => by
      cases hi
      exact hdev ⟨i, rfl⟩
    rw [hjob, hnil]
    refine Function.update_eq_self_iff.mpr ?_
    simp [view, hcode, devs]

/-- An interrupt handler wakes those who wait for the conditions it broadcasts. -/
theorem isr_awaits (ht : Typed nthr d k) {e : ε} (sie : k.sie = true)
    (woke : Woke { k with dev := (cl.isr e k.dev).1 } k' (cl.isr e k.dev).2) (hn : d.guarded n) (p : Ptr) :
    Awaits k' n p ↔ Awaits k n p ∧ n ∉ (cl.isr e k.dev).2 := by
  have hsame := woke.same
  have hcode : k'.code = k.code := by rw [hsame]
  have htp : k'.tp = k.tp := by rw [hsame]
  have hno : ¬ ∃ q ∈ (k.code k.tp).head?, Asks n q := by
    rintro ⟨q, hq, ha⟩
    obtain ⟨rest, hcd⟩ := List.head?_eq_some_iff.mp hq
    have hneed := ht.need hcd
    rw [sie] at hneed
    rcases ha with rfl | rfl
    · cases hneed n rfl hn
    · cases hneed n rfl hn
  unfold Awaits
  rw [htp, hcode, or_iff_left fun hq => hno hq.2, or_iff_left fun hq => hno hq.2]
  simp only [woke.waits, Cond.ext.injEq, exists_eq_right']
  refine and_congr_right fun hw => ?_
  have hex : some p ≠ exempt k.tp (k.code k.tp) := ht.exempt_ne sie hn hw
  exact ⟨fun hb hm => hex (hb hm), fun hm hm' => absurd hm' hm⟩

/-- Every step of the machine is at most one step of the system that the drivers see. -/
theorem Driven.step (cond : ι → Ctx → σ → Prop) (hr : Rules cl d rests) (h : Driven nthr d rests k)
    (hs : step cl nthr k l = .ok k')
    (hcond : l = .run → ∀ i rest, k.code k.tp = .call (.dev i) :: rest → cond i k.ctx k.dev) :
    Driven nthr d rests k' ∧ (view d k' = view d k ∨ MoveIf cond cl d rests (view d k) (view d k')) := by
  have ht := h.typed
  have htyped := ht.step hr.obeys hs
  cases ht.trans hs with
  | idle _ _ same => exact ⟨same ▸ h, .inl (by rw [same])⟩
  | run pc rest code frame =>
      refine ⟨⟨htyped, h.shape.run hr code frame⟩, run_move ht h.shape code frame fun i hi => ?_⟩
      exact hcond rfl i rest (by rw [code, hi])
  | call c code may same =>
      subst same
      exact ⟨⟨htyped, h.shape.call c⟩, call_move hr code may⟩
  | isr e sie woke =>
      have hsame := woke.same
      have hcode : k'.code = k.code := by rw [hsame]
      have htp : k'.tp = k.tp := by rw [hsame]
      refine ⟨⟨htyped, ?_⟩, .inr ?_⟩
      · rw [hsame]
        exact ⟨h.shape.one, h.shape.parked, h.shape.current, h.shape.tail, h.shape.quiet⟩
      · have hv : view d k' = { view d k with
            dev := (cl.isr e k.dev).1, waited := fun n p => (view d k).waited n p ∧ n ∉ (cl.isr e k.dev).2 } := by
          refine View.ext (by rw [hsame]; rfl) htp (by simp only [view, hcode])
            (funext fun n => funext fun p => propext ?_)
          simp only [view, and_assoc]
          exact and_congr_right fun hn => isr_awaits ht sie woke hn p
        rw [hv]
        exact .isr e
  | env e same =>
      subst same
      exact ⟨⟨htyped, h.shape.one, h.shape.parked, h.shape.current, h.shape.tail, h.shape.quiet⟩, .inr (.env e)⟩

/-- Only an interrupt handler wakes whoever waits for a guarded condition. -/
theorem Driven.awaits_step (h : Driven nthr d rests k) (hs : Scheduler.step cl nthr k l = .ok k') (hn : d.guarded n) {p : Ptr}
    (hw : Awaits k n p) : Awaits k' n p ↔ ¬ ∃ e, l = .isr e ∧ k.sie = true ∧ n ∈ (cl.isr e k.dev).2 := by
  cases h.typed.trans hs with
  | idle _ masked same =>
      subst same
      refine iff_of_true hw ?_
      rintro ⟨e, rfl, hsie, -⟩
      rw [masked e rfl] at hsie
      cases hsie
  | run pc rest code frame =>
      simp only [reduceCtorEq, false_and, exists_false, not_false_eq_true, iff_true]
      rcases hw with hw | hw
      · exact .inl ((waits_guarded h.typed code frame hn p).mpr (.inl hw))
      · refine (awaits_iff h.typed h.shape code frame (fun i hi => ?_) hn p).mpr (.inr hw)
        obtain ⟨-, q, hq, ha⟩ := hw
        rw [code, hi] at hq
        obtain rfl := Option.some.inj hq
        rcases ha with ha | ha <;> cases ha
  | call c code may same =>
      subst same
      simp only [reduceCtorEq, false_and, exists_false, not_false_eq_true, iff_true]
      rcases hw with hw | ⟨-, q, hq, -⟩
      · exact .inl hw
      · rw [code] at hq
        cases hq
  | isr e sie woke =>
      rw [isr_awaits h.typed sie woke hn p]
      simp [hw, sie]
  | env e same =>
      subst same
      simp only [reduceCtorEq, false_and, exists_false, not_false_eq_true, iff_true]
      exact hw

/-- What every step that the drivers see keeps, every run keeps whose steps meet cond. -/
theorem Driven.run_meets {cond : ι → Ctx → σ → Bool} (hr : Rules cl d rests) {P : View σ ι → Prop}
    (hP : ∀ v v', P v → MoveIf (fun i ctx s => cond i ctx s = true) cl d rests v v' → P v') (h : Driven nthr d rests k)
    (h₀ : P (view d k)) {ls : List (Label ι ε)} (hgood : along cl nthr (meets cond) k ls = true)
    (hrun : run cl nthr k ls = .ok k') : Driven nthr d rests k' ∧ P (view d k') := by
  refine run_along (P := fun k => Driven nthr d rests k ∧ P (view d k)) (fun k l k' ⟨h, hv⟩ hg hs => ?_) ⟨h, h₀⟩ hgood hrun
  have hcond : l = .run → ∀ i rest, k.code k.tp = .call (.dev i) :: rest → cond i k.ctx k.dev = true := by
    rintro rfl i rest hcode
    simpa [meets, hcode] using hg
  obtain ⟨h', he | hm⟩ := h.step (fun i ctx s => cond i ctx s = true) hr hs hcond
  · exact ⟨h', by rwa [he]⟩
  · exact ⟨h', hP _ _ hv hm⟩

/-- What every step that the drivers see keeps, every run keeps. -/
theorem Driven.run (hr : Rules cl d rests) {P : View σ ι → Prop} (hP : ∀ v v', P v → Move cl d rests v v' → P v')
    (h : Driven nthr d rests k) (h₀ : P (view d k)) {ls : List (Label ι ε)} (hrun : run cl nthr k ls = .ok k') :
    Driven nthr d rests k' ∧ P (view d k') := by
  refine run_along (P := fun k => Driven nthr d rests k ∧ P (view d k)) (fun k l k' ⟨h, hv⟩ _ hs => ?_) ⟨h, h₀⟩
    (along_of_forall cl (fun _ _ => rfl) k ls) hrun
  obtain ⟨h', he | hm⟩ := h.step (fun _ _ _ => True) hr hs fun _ _ _ _ => trivial
  · exact ⟨h', by rwa [he]⟩
  · exact ⟨h', hP _ _ hv hm⟩

theorem driven_threadInit (hn : 2 ≤ nthr) (d : Discipline ι) (rests : ι → Prop) (dev : σ) (satp : Nat) (sie : Bool) :
    Driven nthr d rests (threadInit nthr dev satp sie : Kernel σ ι) := by
  have hcode : ∀ p, ∀ pc ∈ (threadInit nthr dev satp sie : Kernel σ ι).code p, pc = .idleLoop := fun p pc hpc => by
    rcases eq_or_ne p idleThread with rfl | hne
    · simpa [threadInit] using hpc
    · simp [threadInit, hne] at hpc
  have hdevs : ∀ p, devs ((threadInit nthr dev satp sie : Kernel σ ι).code p) = [] := fun p =>
    devs_eq_nil fun pc hpc i => by
      rw [hcode p pc hpc]
      intro h
      cases h
  have hquiet : ∀ n p, ∀ pc ∈ (threadInit nthr dev satp sie : Kernel σ ι).code p, ¬ Asks n pc := fun n p pc hpc => by
    rw [hcode p pc hpc]
    exact not_asks_of_quiet rfl
  refine ⟨typed_threadInit hn d dev satp sie, fun p => ?_, fun p _ i hi => ?_, settled_of_forall fun i hi => ?_,
    fun n _ pc hpc => hquiet n _ pc (List.mem_of_mem_tail hpc), fun n p _ _ => hquiet n p⟩
  · rw [hdevs]
    exact Nat.zero_le _
  · rw [hdevs] at hi
    cases hi
  · rw [hdevs] at hi
    cases hi

theorem view_threadInit (d : Discipline ι) (dev : σ) (satp : Nat) (sie : Bool) :
    view d (threadInit nthr dev satp sie : Kernel σ ι) = ⟨dev, mainThread, fun _ => none, fun _ _ => False⟩ := by
  have hcode : (threadInit nthr dev satp sie : Kernel σ ι).code mainThread = [] := by
    simp [threadInit, show mainThread ≠ idleThread by decide]
  refine View.ext rfl rfl (funext fun p => ?_) (funext fun n => funext fun p => propext ⟨?_, False.elim⟩)
  · rcases eq_or_ne p idleThread with rfl | hne
    · simp [view, threadInit, devs]
    · simp [view, threadInit, hne, devs]
  · rintro ⟨-, ⟨-, hc⟩ | ⟨-, q, hq, -⟩⟩
    · cases hc
    · rw [show (threadInit nthr dev satp sie : Kernel σ ι).tp = mainThread from rfl, hcode] at hq
      cases hq

/-- A thread on the list of a guarded condition waits for it. -/
theorem Driven.waited_of_waitList (h : Driven nthr d rests k) (hn : d.guarded n)
    (he : tlempty (k.waitList (.ext n)) = false) : ∃ p, (view d k).waited n p := by
  obtain ⟨ready, waits, hi⟩ := h.typed.inv
  have hne : waits (.ext n) ≠ [] := fun hnil => by
    rw [((hi.core.listed.waitList (.ext n)).tlempty_iff).mpr hnil] at he
    cases he
  obtain ⟨p, l, hl⟩ := List.exists_cons_of_ne_nil hne
  have hm := (hi.core.listed.mem_waits p (.ext n)).mp (by rw [hl]; exact List.mem_cons_self)
  exact ⟨p, hn, .inl ⟨hm.1, hm.2.1⟩⟩

end Steps

end RiscvKernel.DriverView
