import RiscvKernel.DiskDriver

namespace RiscvKernel.LockBalance

open Thread Scheduler StepFrame DriverView DiskDriver Io Vioblk

variable {nthr : Nat}

/-- None of the early returns of vioblk_read, vioblk_write and vioblk_setpos: nothing to
read or write, a closed or a read-only device, a position beyond the end, an I/O error. -/
def noEarlyReturn : DiskCall → Ctx → Disk → Bool
  | .vio (.start (.read bufsz)) _, _, d => bufsz ≠ 0 && d.opened
  | .vio (.start (.write buf)) _, _, d => d.opened && !d.readonly && !buf.isEmpty
  | .vio (.start (.setpos pos)) _, _, d => pos.any (· ≤ d.size)
  | .vio (.status _) _, _, d => d.reqStatus = virtioBlkSOk
  | _, _, _ => true

/-- Between lock_acquire and lock_release. -/
def locked : VioStep → Bool
  | .acquire _ | .woken _ | .return _ _ => false
  | _ => true

def lockedFs : FsStep → Bool
  | .acquire _ | .woken _ | .return _ => false
  | _ => true

def HoldsVio : Option DiskCall → Prop
  | some (.vio s _) => locked s = true
  | _ => False

def HoldsKfs : Option DiskCall → Prop
  | some (.fs s) => lockedFs s = true
  | some (.vio _ back) => back.isSome
  | _ => False

/-- In vioblk_setpos, on a way that returns 0. -/
def seeks : VioStep → Bool
  | .acquire (.setpos _) | .woken (.setpos _) | .start (.setpos _) => true
  | .release ret _ | .return ret _ => ret = 0
  | _ => false

def isSought : FsStep → Bool
  | .sought _ => true
  | _ => false

/-- What a function of kfs.c relies on when it has called the device: it goes on under its
lock, and its ioseek returns 0. -/
def Relies (ret : Int) : Option DiskCall → Prop
  | some (.fs s) => isSought s = true → ret = 0
  | some (.vio s (some f)) => lockedFs f = true ∧ (isSought f = true → seeks s = true)
  | _ => True

/-- Whoever has taken a lock and not given it back is at a step where it holds, and a lock
that is not free was taken by one of them. -/
structure Kept (holds : Option DiskCall → Prop) (job : Ptr → Option DiskCall) (lock : Int) (held : Ptr → Bool) : Prop where
  holder : ∀ p, held p = true → holds (job p)
  taken : lock ≠ -1 → ∃ p, held p = true

/-- What a step of the thread tp does with a lock. -/
inductive LockStep (tp : Ptr) (before after : Prop) (lock : Int) (held : Ptr → Bool) : Int → (Ptr → Bool) → Prop
  | same (keeps : before → after) : LockStep tp before after lock held lock held
  | takes (lock' : Int) (holds : after) : LockStep tp before after lock held lock' (Function.update held tp true)
  | gives : LockStep tp before after lock held (-1) (Function.update held tp false)

theorem Kept.step {holds : Option DiskCall → Prop} {job : Ptr → Option DiskCall} {lock lock' : Int} {held held' : Ptr → Bool}
    {tp : Ptr} {j : Option DiskCall} (h : Kept holds job lock held)
    (hs : LockStep tp (holds (job tp)) (holds j) lock held lock' held') :
    Kept holds (Function.update job tp j) lock' held' := by
  have hother : ∀ p, p ≠ tp → held p = true → holds (Function.update job tp j p) := fun p hp hh => by
    rw [Function.update_of_ne hp]
    exact h.holder p hh
  cases hs with
  | same keeps =>
      refine ⟨fun p hh => ?_, h.taken⟩
      rcases eq_or_ne p tp with rfl | hp
      · rw [Function.update_self]
        exact keeps (h.holder p hh)
      · exact hother p hp hh
  | takes lock' after =>
      refine ⟨fun p hh => ?_, fun _ => ⟨tp, Function.update_self ..⟩⟩
      rcases eq_or_ne p tp with rfl | hp
      · rwa [Function.update_self]
      · rw [Function.update_of_ne hp] at hh
        exact hother p hp hh
  | gives =>
      refine ⟨fun p hh => ?_, fun hne => absurd rfl hne⟩
      rcases eq_or_ne p tp with rfl | hp
      · rw [Function.update_self] at hh
        cases hh
      · rw [Function.update_of_ne hp] at hh
        exact hother p hp hh

theorem Kept.not_held {holds : Option DiskCall → Prop} {job : Ptr → Option DiskCall} {lock : Int} {held : Ptr → Bool}
    (h : Kept holds job lock held) {p : Ptr} (hp : ¬ holds (job p)) : held p = false :=
  Bool.eq_false_iff.mpr fun hh => hp (h.holder p hh)

theorem Kept.free {holds : Option DiskCall → Prop} {job : Ptr → Option DiskCall} {lock : Int} {held : Ptr → Bool}
    (h : Kept holds job lock held) (hno : ∀ p, held p = false) : lock = -1 := by
  by_contra hl
  obtain ⟨p, hp⟩ := h.taken hl
  cases hp.symm.trans (hno p)

theorem HoldsVio.starts {j : Option DiskCall} (h : HoldsVio j) : ∃ i, j = some i ∧ starts i = false := by
  cases j with
  | none => cases h
  | some i => cases i <;> first | exact False.elim h | exact ⟨_, rfl, rfl⟩

theorem HoldsKfs.starts {j : Option DiskCall} (h : HoldsKfs j) : ∃ i, j = some i ∧ starts i = false := by
  cases j with
  | none => cases h
  | some i => cases i <;> first | exact False.elim h | exact ⟨_, rfl, rfl⟩

section Steps

variable {ctx : Ctx} {d : Disk}

abbrev VioLockStep (ctx : Ctx) (d : Disk) (i : DiskCall) (j : Option DiskCall) (d' : Disk) : Prop :=
  LockStep ctx.tp (HoldsVio (some i)) (HoldsVio j) d.vioLock d.vioHeld d'.vioLock d'.vioHeld

abbrev KfsLockStep (ctx : Ctx) (d : Disk) (i : DiskCall) (j : Option DiskCall) (d' : Disk) : Prop :=
  LockStep ctx.tp (HoldsKfs (some i)) (HoldsKfs j) d.kfsLock d.kfsHeld d'.kfsLock d'.kfsHeld

theorem vioStep_vioLock {s : VioStep} {back : Option FsStep} (h : noEarlyReturn (.vio s back) ctx d = true) :
    VioLockStep ctx d (.vio s back) (some (goOn (vioStep ctx d s).next back)) (vioStep ctx d s).dev := by
  cases s with
  | acquire f =>
      simp only [vioStep]
      split
      · exact .takes _ rfl
      · exact .same (fun hs => absurd hs Bool.false_ne_true)
  | woken f => exact .takes _ rfl
  | start f =>
      cases f with
      | read bufsz =>
          obtain ⟨hne, hopen⟩ : ¬ bufsz = 0 ∧ d.opened = true := by simpa [noEarlyReturn] using h
          simp only [vioStep, if_neg hne, if_pos hopen]
          exact .same fun _ => rfl
      | write buf =>
          obtain ⟨⟨hopen, hro⟩, hne⟩ : (d.opened = true ∧ d.readonly = false) ∧ buf ≠ [] := by
            simpa [noEarlyReturn] using h
          simp only [vioStep, hopen, hro, List.isEmpty_iff, hne]
          exact .same fun _ => rfl
      | setpos pos =>
          cases pos with
          | none => cases h
          | some pos =>
              have hle : ¬ d.size < pos := by simpa [noEarlyReturn] using h
              simp only [vioStep, if_neg hle]
              exact .same fun _ => rfl
  | readLoop bufsz total out =>
      simp only [vioStep]
      split <;> exact .same fun _ => rfl
  | writeLoop buf total =>
      simp only [vioStep]
      split
      · split <;> exact .same fun _ => rfl
      · exact .same fun _ => rfl
  | waitTest r saved =>
      simp only [vioStep]
      split <;> exact .same fun _ => rfl
  | status r =>
      have hok : d.reqStatus = virtioBlkSOk := by simpa [noEarlyReturn] using h
      simp only [vioStep, if_pos hok]
      exact .same fun _ => rfl
  | finish r => cases r <;> exact .same fun _ => rfl
  | release ret out => exact .gives
  | «return» ret out => exact .same (fun hs => absurd hs Bool.false_ne_true)
  | _ => exact .same fun _ => rfl

theorem fsStep_kfsLock {s : FsStep} (h : isSought s = true → d.ret ctx.tp = 0) :
    KfsLockStep ctx d (.fs s) (some (goOnFs (fsStep ctx d s).next)) (fsStep ctx d s).dev := by
  cases s with
  | acquire v =>
      simp only [fsStep]
      split
      · exact .takes _ rfl
      · exact .same (fun hs => absurd hs Bool.false_ne_true)
  | woken v => exact .takes _ rfl
  | sought v =>
      simp only [fsStep, h rfl]
      exact .same fun _ => rfl
  | loop v =>
      simp only [fsStep]
      split <;> exact .same fun _ => rfl
  | transfer v =>
      simp only [fsStep]
      split <;> exact .same fun _ => rfl
  | put v acc =>
      simp only [fsStep]
      split
      · exact .same fun _ => rfl
      · split <;> exact .same fun _ => rfl
  | putDone v acc =>
      simp only [fsStep]
      split
      · exact .same fun _ => rfl
      · split <;> exact .same fun _ => rfl
  | release ret => exact .gives
  | «return» ret => exact .same (fun hs => absurd hs Bool.false_ne_true)
  | _ => exact .same fun _ => rfl

/-- A function of vioblk.c called from kfs.c leaves kfs_lock to its caller. -/
theorem vioStep_kfsLock (s : VioStep) (back : Option FsStep) (hback : ∀ f ∈ back, lockedFs f = true) :
    KfsLockStep ctx d (.vio s back) (some (goOn (vioStep ctx d s).next back)) (vioStep ctx d s).dev := by
  have hf := vioStep_frame ctx d s
  rw [KfsLockStep, hf.kfsLock, hf.kfsHeld]
  refine .same fun hs => ?_
  cases (vioStep ctx d s).next with
  | some s' => exact hs
  | none =>
      cases back with
      | none => cases hs
      | some f => exact hback f rfl

/-- Without early returns vioblk_setpos returns 0. -/
theorem vioStep_seeks {s : VioStep} {back : Option FsStep} (h : noEarlyReturn (.vio s back) ctx d = true)
    (hs : seeks s = true) : (vioStep ctx d s).next.elim ((vioStep ctx d s).dev.ret ctx.tp = 0) (seeks · = true) := by
  cases s with
  | acquire f =>
      cases f with
      | setpos pos =>
          simp only [vioStep]
          split <;> rfl
      | _ => cases hs
  | woken f =>
      cases f with
      | setpos pos => rfl
      | _ => cases hs
  | start f =>
      cases f with
      | setpos pos =>
          cases pos with
          | none => cases h
          | some pos =>
              have hle : ¬ d.size < pos := by simpa [noEarlyReturn] using h
              simp only [vioStep, if_neg hle]
              rfl
      | _ => cases hs
  | release ret out => exact hs
  | «return» ret out =>
      simp only [seeks, decide_eq_true_eq] at hs
      simp [vioStep, Disk.returns, hs]
  | _ => cases hs

theorem vioStep_relies {s : VioStep} {back : Option FsStep} (h : noEarlyReturn (.vio s back) ctx d = true)
    (hr : Relies (d.ret ctx.tp) (some (.vio s back))) :
    Relies ((vioStep ctx d s).dev.ret ctx.tp) (some (goOn (vioStep ctx d s).next back)) := by
  cases back with
  | none => cases (vioStep ctx d s).next <;> trivial
  | some f =>
      have hseeks := vioStep_seeks h
      cases hn : (vioStep ctx d s).next with
      | some s' =>
          rw [hn] at hseeks
          exact ⟨hr.1, fun hf => hseeks (hr.2 hf)⟩
      | none =>
          rw [hn] at hseeks
          exact fun hf => hseeks (hr.2 hf)

theorem relies_of_not_sought {s : FsStep} {ret : Int} (h : isSought s = false) : Relies ret (some (.fs s)) :=
  fun hs => absurd (h.symm.trans hs) Bool.false_ne_true

theorem fsStep_relies (s : FsStep) : Relies ((fsStep ctx d s).dev.ret ctx.tp) (some (goOnFs (fsStep ctx d s).next)) := by
  cases s with
  | seekInode v => exact ⟨rfl, fun _ => rfl⟩
  | acquire v | sought v | loop v | transfer v =>
      simp only [fsStep]
      split <;> first
        | exact ⟨rfl, fun hs => absurd hs Bool.false_ne_true⟩
        | exact relies_of_not_sought rfl
  | put v acc =>
      simp only [fsStep]
      split
      · exact relies_of_not_sought rfl
      · split <;> first
          | exact ⟨rfl, fun hs => absurd hs Bool.false_ne_true⟩
          | exact relies_of_not_sought rfl
  | putDone v acc =>
      simp only [fsStep]
      split
      · exact relies_of_not_sought rfl
      · split <;> exact relies_of_not_sought rfl
  | «return» ret => trivial
  | _ => first
    | exact ⟨rfl, fun hs => absurd hs Bool.false_ne_true⟩
    | exact relies_of_not_sought rfl

theorem callStep_vioLock {i : DiskCall} (h : noEarlyReturn i ctx d = true) :
    VioLockStep ctx d i (some (callStep ctx d i).next) (callStep ctx d i).dev := by
  cases i with
  | vio s back => exact vioStep_vioLock h
  | fs s =>
      have hf := fsStep_frame ctx d s
      rw [VioLockStep, show (callStep ctx d (.fs s)).dev = (fsStep ctx d s).dev from rfl, hf.vioLock, hf.vioHeld]
      exact .same False.elim
  | _ => exact .same False.elim

theorem callStep_kfsLock {i : DiskCall} (hr : Relies (d.ret ctx.tp) (some i)) :
    KfsLockStep ctx d i (some (callStep ctx d i).next) (callStep ctx d i).dev := by
  cases i with
  | vio s back =>
      refine vioStep_kfsLock s back fun f hf => ?_
      obtain rfl := Option.mem_def.mp hf
      exact hr.1
  | fs s => exact fsStep_kfsLock hr
  | _ => exact .same False.elim

theorem callStep_relies {i : DiskCall} (h : noEarlyReturn i ctx d = true) (hr : Relies (d.ret ctx.tp) (some i)) :
    Relies ((callStep ctx d i).dev.ret ctx.tp) (some (callStep ctx d i).next) := by
  cases i with
  | vio s back => exact vioStep_relies h hr
  | fs s => exact fsStep_relies s
  | fsRead _ _ _ | fsWrite _ _ _ _ => exact relies_of_not_sought rfl
  | _ => trivial

theorem callStep_ret (i : DiskCall) {p : Ptr} (hp : p ≠ ctx.tp) : (callStep ctx d i).dev.ret p = d.ret p := by
  cases i with
  | vio s back => exact (vioStep_frame ctx d s).ret p hp
  | fs s => exact (fsStep_frame ctx d s).ret p hp
  | _ => rfl

end Steps

/-- What the functions of kfs.c and vioblk.c keep as long as none of them returns early. -/
structure Balance (v : View Disk DiskCall) : Prop where
  vio : Kept HoldsVio v.job v.dev.vioLock v.dev.vioHeld
  kfs : Kept HoldsKfs v.job v.dev.kfsLock v.dev.kfsHeld
  relies : ∀ p, Relies (v.dev.ret p) (v.job p)
  inside : ∀ p i, v.job p = some i → starts i = false → p ∈ v.dev.inside

section Moves

variable {v v' : View Disk DiskCall} {i : DiskCall} {ctx : Ctx}

/-- A step of the current thread that does with the locks what it may. -/
theorem Balance.step (h : Balance v) {dev : Disk} {j : Option DiskCall} {w : Nat → Ptr → Prop}
    (hvio : LockStep v.tp (HoldsVio (v.job v.tp)) (HoldsVio j) v.dev.vioLock v.dev.vioHeld dev.vioLock dev.vioHeld)
    (hkfs : LockStep v.tp (HoldsKfs (v.job v.tp)) (HoldsKfs j) v.dev.kfsLock v.dev.kfsHeld dev.kfsLock dev.kfsHeld)
    (hrelies : Relies (dev.ret v.tp) j) (hret : ∀ p, p ≠ v.tp → dev.ret p = v.dev.ret p)
    (hin : ∀ p, p ≠ v.tp → p ∈ v.dev.inside → p ∈ dev.inside) (hin' : ∀ i ∈ j, starts i = false → v.tp ∈ dev.inside) :
    Balance ⟨dev, v.tp, Function.update v.job v.tp j, w⟩ := by
  refine ⟨h.vio.step hvio, h.kfs.step hkfs, fun p => ?_, fun p i hj hs => ?_⟩
  · rcases eq_or_ne p v.tp with rfl | hp
    · simpa using hrelies
    · simpa [hp, hret p hp] using h.relies p
  · rcases eq_or_ne p v.tp with rfl | hp
    · exact hin' i (by simpa using hj) hs
    · exact hin p hp (h.inside p i (by simpa [hp] using hj) hs)

theorem Balance.exec (h : Balance v) (hjob : v.job v.tp = some i) (htp : ctx.tp = v.tp)
    (hret : noEarlyReturn i ctx v.dev = true) : Balance (v.exec (disk false) diskDiscipline i ctx) := by
  by_cases hl : i = .leave
  · subst hl
    have hvio : ¬ HoldsVio (v.job v.tp) := by
      rw [hjob]
      exact id
    have hkfs : ¬ HoldsKfs (v.job v.tp) := by
      rw [hjob]
      exact id
    refine h.step (.same fun hb => absurd hb hvio) (.same fun hb => absurd hb hkfs) trivial (fun _ _ => rfl)
      (fun p hp hm => ?_) fun _ hj => absurd hj (Option.not_mem_none _)
    exact (List.mem_erase_of_ne (by rwa [htp])).mpr hm
  · have hr := h.relies v.tp
    rw [hjob, ← htp] at hr
    have hv : v.exec (disk false) diskDiscipline i ctx = ⟨(callStep ctx v.dev i).dev, v.tp,
        Function.update v.job v.tp (some (callStep ctx v.dev i).next), (v.exec (disk false) diskDiscipline i ctx).waited⟩ :=
      View.ext (congrArg Effect.dev (diskExec_eq ctx v.dev hl)) rfl (job_exec false v hl) rfl
    rw [hv]
    refine h.step ?_ ?_ ?_ (fun p hp => callStep_ret i (by rwa [htp])) (fun p hp hm => ?_) fun j _ _ => ?_
    · rw [hjob, ← htp]
      exact callStep_vioLock hret
    · rw [hjob, ← htp]
      exact callStep_kfsLock hr
    · rw [← htp]
      exact callStep_relies hret hr
    · rw [callStep_inside]
      split
      · exact List.mem_cons_of_mem _ hm
      · exact hm
    · rw [callStep_inside]
      split
      · rw [htp]
        exact List.mem_cons_self
      · rename_i hs
        exact h.inside v.tp i hjob (by simpa using hs)

theorem Balance.move (h : Balance v)
    (hm : MoveIf (fun i ctx d => noEarlyReturn i ctx d = true) (disk false) diskDiscipline rests v v') : Balance v' := by
  cases hm with
  | exec i ctx job tp need awake meets => exact h.exec job tp meets
  | switch next old new => exact ⟨h.vio, h.kfs, h.relies, h.inside⟩
  | entry i ctx job tp entry =>
      have hstart := starts_of_entry ctx v.dev entry
      refine h.step (.same fun hb => ?_) (.same fun hb => ?_) ?_ (fun _ _ => rfl) (fun _ _ hm => hm) fun j hj hs => ?_
      · rw [job] at hb
        exact hb.elim
      · rw [job] at hb
        exact hb.elim
      · cases i <;> trivial
      · rw [← Option.mem_some.mp hj, hstart] at hs
        cases hs
  | isr e => exact ⟨h.vio, h.kfs, h.relies, h.inside⟩
  | env e =>
      have hsame : (device e v.dev).vioLock = v.dev.vioLock ∧ (device e v.dev).vioHeld = v.dev.vioHeld ∧
          (device e v.dev).kfsLock = v.dev.kfsLock ∧ (device e v.dev).kfsHeld = v.dev.kfsHeld ∧
          (device e v.dev).ret = v.dev.ret ∧ (device e v.dev).inside = v.dev.inside := by
        cases e with
        | take | complete status data =>
            simp only [device]
            split <;> exact ⟨rfl, rfl, rfl, rfl, rfl, rfl⟩
        | config => exact ⟨rfl, rfl, rfl, rfl, rfl, rfl⟩
      obtain ⟨h₁, h₂, h₃, h₄, h₅, h₆⟩ := hsame
      refine ⟨?_, ?_, fun p => ?_, fun p i hj hs => ?_⟩
      · simpa only [disk, h₁, h₂] using h.vio
      · simpa only [disk, h₃, h₄] using h.kfs
      · simpa only [disk, h₅] using h.relies p
      · simpa only [disk, h₆] using h.inside p i hj hs

end Moves

/-- A call that has taken its lock has given it back when it returns, and when no thread is
inside one of the functions both locks are free. -/
structure LocksReturned (k : Kernel Disk DiskCall) : Prop where
  vio : ∀ p ret out back, .call (.dev (.vio (.return ret out) back)) ∈ k.code p → k.dev.vioHeld p = false
  kfs : ∀ p ret, .call (.dev (.fs (.return ret))) ∈ k.code p → k.dev.kfsHeld p = false
  outside : ∀ p, p ∉ k.dev.inside → k.dev.vioHeld p = false ∧ k.dev.kfsHeld p = false
  free : k.dev.inside = [] → k.dev.vioLock = -1 ∧ k.dev.kfsLock = -1

/-- Nobody holds a lock. -/
structure Unlocked (d : Disk) : Prop where
  vioLock : d.vioLock = -1
  kfsLock : d.kfsLock = -1
  vioHeld : ∀ p, d.vioHeld p = false
  kfsHeld : ∀ p, d.kfsHeld p = false

theorem Balance.not_held {v : View Disk DiskCall} (h : Balance v) {p : Ptr} (hp : p ∉ v.dev.inside) :
    v.dev.vioHeld p = false ∧ v.dev.kfsHeld p = false := by
  refine ⟨h.vio.not_held fun hh => ?_, h.kfs.not_held fun hh => ?_⟩
  · obtain ⟨i, hj, hs⟩ := hh.starts
    exact hp (h.inside p i hj hs)
  · obtain ⟨i, hj, hs⟩ := hh.starts
    exact hp (h.inside p i hj hs)

theorem locksReturned_of_inv {k : Kernel Disk DiskCall} (hd : Driven nthr diskDiscipline rests k)
    (h : Balance (view diskDiscipline k)) : LocksReturned k := by
  refine ⟨fun p ret out back hc => h.vio.not_held ?_, fun p ret hc => h.kfs.not_held ?_, fun p hp => h.not_held hp,
    fun he => ?_⟩
  · rw [hd.shape.job_eq hc]
    exact Bool.false_ne_true
  · rw [hd.shape.job_eq hc]
    exact Bool.false_ne_true
  · have hno : ∀ p, p ∉ k.dev.inside := fun p => by simp [he]
    exact ⟨h.vio.free fun p => (h.not_held (hno p)).1, h.kfs.free fun p => (h.not_held (hno p)).2⟩

/-- Every call gives back the lock it has taken as long as no function of vioblk.c returns
early. -/
theorem run_locksReturned (hn : 2 ≤ nthr) (dev : Disk) (hdev : Unlocked dev) (satp : Nat) (sie : Bool)
    (ls : List (Label DiskCall Device))
    (hret : along (disk false) nthr (meets noEarlyReturn) (threadInit nthr dev satp sie) ls = true)
    (k : Kernel Disk DiskCall) (hr : run (disk false) nthr (threadInit nthr dev satp sie) ls = .ok k) : LocksReturned k := by
  have hkept (holds : Option DiskCall → Prop) {lock : Int} {held : Ptr → Bool} (hl : lock = -1) (hh : ∀ p, held p = false) :
      Kept holds (fun _ => none) lock held :=
    ⟨fun p hp => by simp [hh] at hp, fun hne => absurd hl hne⟩
  have h₀ : Balance (view diskDiscipline (threadInit nthr dev satp sie)) := by
    rw [view_threadInit]
    exact ⟨hkept _ hdev.vioLock hdev.vioHeld, hkept _ hdev.kfsLock hdev.kfsHeld, fun _ => trivial,
      fun _ _ hj => absurd hj (Option.not_mem_none _)⟩
  obtain ⟨hd, h⟩ := (driven_threadInit hn diskDiscipline rests dev satp sie).run_meets (disk_rules false)
    (fun _ _ h hm => h.move hm) h₀ hret hr
  exact locksReturned_of_inv hd h

/-- The main thread reads four bytes, which it has to wait for. -/
def readFour : List (Label DiskCall Device) :=
  .call (.dev (.vioblkRead 4)) :: (List.replicate 31 .run ++ [.env .take, .env (.complete 0 fun _ => 7), .isr .config] ++
    List.replicate 40 .run)

theorem run_locksReturned_readFour : ∃ k,
    run (disk false) 16 (threadInit 16 (attached 1024 fun _ => Kfs.FileDesc.zero) 0 true) readFour = .ok k ∧
      (k.dev.inside, k.dev.ret mainThread, k.dev.data mainThread) = ([], 4, [7, 7, 7, 7]) ∧ LocksReturned k := by
  have hview : ((run (disk false) 16 (threadInit 16 (attached 1024 fun _ => Kfs.FileDesc.zero) 0 true) readFour).toOption.map
      fun k => (k.dev.inside, k.dev.ret mainThread, k.dev.data mainThread)) = some ([], 4, [7, 7, 7, 7]) := by
    decide +kernel
  have hret : along (disk false) 16 (meets noEarlyReturn)
      (threadInit 16 (attached 1024 fun _ => Kfs.FileDesc.zero) 0 true) readFour = true := by decide +kernel
  cases hr : run (disk false) 16 (threadInit 16 (attached 1024 fun _ => Kfs.FileDesc.zero) 0 true) readFour with
  | error s =>
      rw [hr] at hview
      cases hview
  | ok k =>
      rw [hr] at hview
      exact ⟨k, rfl, Option.some.inj hview,
        run_locksReturned (by decide) _ ⟨rfl, rfl, fun _ => rfl, fun _ => rfl⟩ 0 true readFour hret k hr⟩

/-- The main thread reads nothing. -/
def readNothing : List (Label DiskCall Device) := .call (.dev (.vioblkRead 0)) :: List.replicate 8 .run

theorem readNothing_keeps_vioLock : ¬ ∀ ls k,
    run (disk false) 16 (threadInit 16 (attached 1024 fun _ => Kfs.FileDesc.zero) 0 true) ls = .ok k → LocksReturned k := by
  intro hall
  have hview : ((run (disk false) 16 (threadInit 16 (attached 1024 fun _ => Kfs.FileDesc.zero) 0 true)
      readNothing).toOption.map fun k => (k.dev.inside, k.dev.ret mainThread, k.dev.vioLock)) = some ([], 0, 0) := by
    decide +kernel
  cases hr : run (disk false) 16 (threadInit 16 (attached 1024 fun _ => Kfs.FileDesc.zero) 0 true) readNothing with
  | error s =>
      rw [hr] at hview
      cases hview
  | ok k =>
      rw [hr] at hview
      have hk : (k.dev.inside, k.dev.ret mainThread, k.dev.vioLock) = ([], 0, 0) := Option.some.inj hview
      have hl := ((hall readNothing k hr).free (congrArg Prod.fst hk)).1
      rw [show k.dev.vioLock = 0 from congrArg (·.2.2) hk] at hl
      cases hl

end RiscvKernel.LockBalance
