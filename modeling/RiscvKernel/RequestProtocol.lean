import RiscvKernel.DiskDriver

namespace RiscvKernel.RequestProtocol

open Thread Scheduler StepFrame DriverView DiskDriver Vioblk

variable {nthr : Nat}

/-- avail.idx - used.idx in uint16_t arithmetic. -/
def outstanding (d : Disk) : Nat := (d.availIdx + idxMod - d.usedIdx) % idxMod

/-- The steps that read or write blkbuf, read req_status, or write the request header and
the descriptors. -/
def touches : DiskCall → Bool
  | .vio (.readLoop _ _ _) _ | .vio (.writeLoop _ _) _ | .vio (.writeFill _ _ _) _ | .vio (.status _) _
  | .vio (.finish _) _ => true
  | _ => false

/-- Between the increment of avail.idx and the end of the wait for used.idx. -/
def inFlight : DiskCall → Bool
  | .vio (.notify _) _ | .vio (.waitDisable _) _ | .vio (.waitTest _ _) _ => true
  | _ => false

/-- What the driver and the device tell each other. -/
structure Queue where
  availIdx : Nat
  usedIdx : Nat
  lastAvail : Nat
  busy : Bool
  interruptStatus : BitVec 32

def queue (d : Disk) : Queue := ⟨d.availIdx, d.usedIdx, d.lastAvail, d.busy, d.interruptStatus⟩

namespace Queue

/-- All requests are completed. -/
structure Quiet (q : Queue) : Prop where
  bound : q.availIdx < idxMod
  used : q.usedIdx = q.availIdx
  last : q.lastAvail = q.availIdx
  busy : q.busy = false

/-- One request is available or taken. -/
structure Pending (q : Queue) : Prop where
  bound : q.usedIdx < idxMod
  avail : q.availIdx = (q.usedIdx + 1) % idxMod
  device : q.busy = false ∧ q.lastAvail = q.usedIdx ∨ q.busy = true ∧ q.lastAvail = q.availIdx

/-- A completion interrupt is pending. -/
def Signalled (q : Queue) : Prop := q.interruptStatus &&& 1 ≠ 0

variable {q : Queue}

theorem signalled_iff : q.Signalled ↔ q.interruptStatus.getLsbD 0 = true := by
  rw [Signalled, show (1 : BitVec 32) = 1#32 from rfl, BitVec.and_one_eq_setWidth_ofBool_getLsbD]
  cases q.interruptStatus.getLsbD 0 <;> decide

theorem Pending.ne (h : q.Pending) : q.availIdx ≠ q.usedIdx := by
  have := h.bound
  rw [h.avail]
  unfold idxMod at *
  omega

theorem Quiet.submit (h : q.Quiet) : Pending { q with availIdx := (q.availIdx + 1) % idxMod } where
  bound := by
    simp only [h.used]
    exact h.bound
  avail := by simp only [h.used]
  device := .inl ⟨h.busy, h.last.trans h.used.symm⟩

end Queue

section Steps

variable (ctx : Ctx) (d : Disk)

theorem queue_eq {tp : Ptr} {d d' : Disk} (h : SameDevice tp d d') (havail : d'.availIdx = d.availIdx) : queue d' = queue d := by
  simp only [queue, havail, h.usedIdx, h.lastAvail, h.busy, h.interruptStatus]

/-- Only the increment of avail.idx changes what the device sees. -/
theorem diskExec_queue {i : DiskCall} (hi : ∀ r back, i ≠ .vio (.submit r) back) :
    queue (diskExec i ctx d).dev = queue d := by
  cases i with
  | vio s back =>
      have hf := vioStep_frame ctx d s
      exact queue_eq hf.toSameDevice (hf.availIdx fun r hr => hi r back (by rw [hr]))
  | fs s =>
      have hf := fsStep_frame ctx d s
      exact queue_eq hf.toSameDevice hf.availIdx
  | _ => rfl

/-- The thread stays in flight until used.idx has caught up. -/
theorem inFlight_next {i : DiskCall} (hi : inFlight i = true) :
    inFlight (callStep ctx d i).next = true ∨ d.availIdx = d.usedIdx := by
  cases i with
  | vio s back =>
      cases s with
      | notify r | waitDisable r => exact .inl rfl
      | waitTest r saved =>
          simp only [callStep, vioStep]
          split
          · exact .inl rfl
          · rename_i he
            exact .inr (not_not.mp he)
      | _ => cases hi
  | _ => cases hi

/-- A thread goes to wait only while its request is incomplete. -/
theorem availIdx_ne_of_wait {alone : Bool} {i : DiskCall}
    (hw : ((disk alone).exec i ctx d).push.head? = some (.conditionWait usedUpdated)) : d.availIdx ≠ d.usedIdx := by
  rcases push_cases alone i ctx d with h | ⟨next, sie, calls, hc, h⟩
  · rw [h] at hw
    cases hw
  · rw [h] at hw
    cases hc with
    | none sound => cases hw
    | broadcast n other next_rests sound => cases hw
    | wait n tested guard next_rests sound =>
        cases hw
        exact tested rfl

end Steps

/-- What one driver thread, the device and vioblk_isr keep. -/
structure Protocol (v : View Disk DiskCall) : Prop where
  alone : ∀ p i, v.job p = some i →
    v.dev.inside = [p] ∧ starts i = false ∨ v.dev.inside = [] ∧ p = v.tp ∧ starts i = true
  counters : (queue v.dev).Quiet ∨ (queue v.dev).Pending
  idle : (∀ p i, v.job p = some i → inFlight i = false) → (queue v.dev).Quiet
  waits : ∀ p, v.waited usedUpdated p → (queue v.dev).Pending ∨ (queue v.dev).Signalled

section Moves

variable {v v' : View Disk DiskCall} {i : DiskCall} {ctx : Ctx}

theorem Protocol.job_eq (h : Protocol v) (hjob : v.job v.tp = some i) {p : Ptr} {j : DiskCall} (hj : v.job p = some j) :
    p = v.tp := by
  rcases h.alone _ _ hjob with ⟨hin, -⟩ | ⟨hin, -⟩
  · rcases h.alone _ _ hj with ⟨hin', -⟩ | ⟨-, he, -⟩
    · rw [hin] at hin'
      exact (List.cons.inj hin').1.symm
    · exact he
  · rcases h.alone _ _ hj with ⟨hin', -⟩ | ⟨-, he, -⟩
    · rw [hin] at hin'
      cases hin'
    · exact he

theorem Protocol.quiet (h : Protocol v) (hjob : v.job v.tp = some i) (hi : inFlight i = false) :
    (queue v.dev).Quiet := by
  refine h.idle fun p j hj => ?_
  obtain rfl := h.job_eq hjob hj
  rw [hjob] at hj
  exact Option.some.inj hj ▸ hi

theorem Protocol.alone_exec (h : Protocol v) (hjob : v.job v.tp = some i) (htp : ctx.tp = v.tp) {p : Ptr} {j : DiskCall}
    (hj : (v.exec (disk true) diskDiscipline i ctx).job p = some j) :
    (diskExec i ctx v.dev).dev.inside = [p] ∧ starts j = false := by
  by_cases hl : i = .leave
  · subst hl
    have hne : p ≠ v.tp := by
      rintro rfl
      simp [View.exec, disk, diskExec, devs] at hj
    refine absurd (h.job_eq hjob (p := p) (j := j) ?_) hne
    simpa [View.exec, hne] using hj
  · rw [job_exec true v hl] at hj
    obtain rfl : p = v.tp := by
      by_contra hne
      rw [Function.update_of_ne hne] at hj
      exact hne (h.job_eq hjob hj)
    rw [Function.update_self] at hj
    obtain rfl := Option.some.inj hj
    refine ⟨?_, starts_next _ _ _⟩
    rw [diskExec_eq ctx v.dev hl]
    simp only [callStep_inside]
    rcases h.alone _ _ hjob with ⟨hin, hs⟩ | ⟨hin, -, hs⟩
    · simp [hs, hin]
    · simp [hs, hin, htp]

theorem Protocol.exec (h : Protocol v) (hjob : v.job v.tp = some i) (htp : ctx.tp = v.tp) :
    Protocol (v.exec (disk true) diskDiscipline i ctx) := by
  by_cases hsub : ∃ r back, i = .vio (.submit r) back
  · obtain ⟨r, back, rfl⟩ := hsub
    have hpend := (h.quiet hjob rfl).submit
    refine ⟨fun p j hj => .inl (h.alone_exec hjob htp hj), .inr hpend, fun hno => ?_, fun p hw => .inl hpend⟩
    have := hno v.tp (.vio (.notify r) back) (by simp [job_exec, callStep, vioStep, goOn])
    cases this
  · have hq : queue (v.exec (disk true) diskDiscipline i ctx).dev = queue v.dev :=
      diskExec_queue ctx v.dev fun r back he => hsub ⟨r, back, he⟩
    refine ⟨fun p j hj => .inl (h.alone_exec hjob htp hj), by rw [hq]; exact h.counters, fun hno => ?_, fun p hw => ?_⟩
    · rw [hq]
      cases hf : inFlight i with
      | false => exact h.quiet hjob hf
      | true =>
          have hl : i ≠ .leave := by
            rintro rfl
            cases hf
          rcases inFlight_next ctx v.dev hf with hn | hn
          · have := hno v.tp _ (by rw [job_exec true v hl, Function.update_self])
            rw [hn] at this
            cases this
          · exact h.counters.resolve_right fun hp => hp.ne hn
    · rw [hq]
      rcases hw with hw | ⟨-, -, hw⟩
      · exact h.waits p hw
      · exact .inl (h.counters.resolve_left fun hp => availIdx_ne_of_wait ctx v.dev hw hp.used.symm)

/-- A device event keeps the counters together, and leaves an interrupt behind when it
completes a request. -/
theorem device_queue (e : Device) (d : Disk) :
    ((queue d).Quiet → (queue (device e d)).Quiet) ∧
      ((queue d).Pending → (queue (device e d)).Pending ∨ (queue (device e d)).Quiet ∧ (queue (device e d)).Signalled) ∧
      ((queue d).Signalled → (queue (device e d)).Signalled) ∧ (device e d).inside = d.inside := by
  cases e with
  | take =>
      simp only [device]
      split
      · rename_i hb
        refine ⟨fun h => absurd h.last hb.2, fun h => .inl ⟨h.bound, h.avail, .inr ⟨rfl, ?_⟩⟩, id, rfl⟩
        have hb' : d.busy = false := by simpa using hb.1
        rcases h.device with ⟨-, hl⟩ | ⟨hbusy, -⟩
        · have hl' : d.lastAvail = d.usedIdx := hl
          exact (congrArg (fun x => (x + 1) % idxMod) hl').trans h.avail.symm
        · cases hb'.symm.trans hbusy
      · exact ⟨id, .inl, id, rfl⟩
  | complete status data =>
      simp only [device]
      split
      · rename_i hb
        refine ⟨fun h => ?_, fun h => .inr ⟨⟨?_, h.avail.symm, ?_, rfl⟩, ?_⟩, fun _ => ?_, rfl⟩
        · cases hb.symm.trans h.busy
        · have havail : d.availIdx = (d.usedIdx + 1) % idxMod := h.avail
          show d.availIdx < idxMod
          rw [havail]
          exact Nat.mod_lt _ (by decide)
        · rcases h.device with ⟨hbusy, -⟩ | ⟨-, hl⟩
          · cases hb.symm.trans hbusy
          · exact hl
        · simp [Queue.signalled_iff, queue]
        · simp [Queue.signalled_iff, queue]
      · exact ⟨id, .inl, id, rfl⟩
  | config =>
      refine ⟨fun h => ⟨h.bound, h.used, h.last, h.busy⟩, fun h => .inl ⟨h.bound, h.avail, h.device⟩, fun h => ?_, rfl⟩
      rw [Queue.signalled_iff] at h ⊢
      simpa [queue, device] using h

theorem Protocol.env (h : Protocol v) (e : Device) : Protocol { v with dev := device e v.dev } := by
  obtain ⟨hquiet, hpend, hsig, hin⟩ := device_queue e v.dev
  refine ⟨fun p i hj => ?_, ?_, fun hno => hquiet (h.idle hno), fun p hw => ?_⟩
  · simp only [hin]
    exact h.alone p i hj
  · rcases h.counters with hq | hq
    · exact .inl (hquiet hq)
    · exact (hpend hq).elim .inr fun hq => .inl hq.1
  · rcases h.waits p hw with hq | hq
    · exact (hpend hq).imp_right And.right
    · exact .inr (hsig hq)

theorem Protocol.isr (h : Protocol v) :
    Protocol { v with
      dev := (vioblkIsr v.dev).1, waited := fun n p => v.waited n p ∧ n ∉ (vioblkIsr v.dev).2 } := by
  have hq : (queue (vioblkIsr v.dev).1).Quiet ↔ (queue v.dev).Quiet := ⟨fun h => ⟨h.1, h.2, h.3, h.4⟩, fun h => ⟨h.1, h.2, h.3, h.4⟩⟩
  have hp : (queue (vioblkIsr v.dev).1).Pending ↔ (queue v.dev).Pending := ⟨fun h => ⟨h.1, h.2, h.3⟩, fun h => ⟨h.1, h.2, h.3⟩⟩
  refine ⟨h.alone, ?_, fun hno => hq.mpr (h.idle hno), fun p hw => ?_⟩
  · rw [hq, hp]
    exact h.counters
  · refine .inl (hp.mpr ((h.waits p hw.1).resolve_right fun hs => hw.2 ?_))
    have hs' : v.dev.interruptStatus &&& 1 ≠ 0 := hs
    simp only [vioblkIsr, if_pos hs']
    exact List.mem_singleton_self _

theorem Protocol.move (h : Protocol v) (hm : Move (disk true) diskDiscipline rests v v') : Protocol v' := by
  cases hm with
  | exec i ctx job tp need awake => exact h.exec job tp
  | switch next old new =>
      refine ⟨fun p i hj => (h.alone p i hj).imp_right fun ⟨hin, he, hs⟩ => ?_, h.counters, h.idle, h.waits⟩
      subst he
      have hr := old i hj
      cases i <;> cases hs <;> cases hr
  | entry i ctx job tp entry =>
      have hin : v.dev.inside = [] := by
        cases i <;> first | cases entry | exact List.isEmpty_iff.mp (by simpa [disk] using entry)
      have hstart := starts_of_entry ctx v.dev entry
      have hother : ∀ p j, v.job p = some j → False := fun p j hj => by
        rcases h.alone p j hj with ⟨hin', -⟩ | ⟨-, rfl, -⟩
        · rw [hin] at hin'
          cases hin'
        · rw [job] at hj
          cases hj
      refine ⟨fun p j hj => .inr ⟨hin, ?_⟩, h.counters, fun _ => h.idle fun p j hj => (hother p j hj).elim, h.waits⟩
      rcases eq_or_ne p v.tp with rfl | hne
      · simp only [Function.update_self] at hj
        exact ⟨rfl, Option.some.inj hj ▸ hstart⟩
      · simp only [Function.update_of_ne hne] at hj
        exact (hother p j hj).elim
  | isr e => exact h.isr
  | env e => exact h.env e

end Moves

/-- At most one request is outstanding; while it is, the driver leaves its buffers alone,
and a thread on the list of used_updated will be woken. -/
structure ProtocolSafe (k : Kernel Disk DiskCall) : Prop where
  counters : outstanding k.dev ≤ 1
  buffers : ∀ i rest, k.code k.tp = .call (.dev i) :: rest → touches i = true → outstanding k.dev = 0
  wakeup : tlempty (k.waitList (.ext usedUpdated)) = false → outstanding k.dev = 1 ∨ k.dev.interruptStatus &&& 1 ≠ 0

theorem outstanding_quiet {d : Disk} (h : (queue d).Quiet) : outstanding d = 0 := by
  have hu : d.usedIdx = d.availIdx := h.used
  rw [outstanding, hu, Nat.add_sub_cancel_left, Nat.mod_self]

theorem outstanding_pending {d : Disk} (h : (queue d).Pending) : outstanding d = 1 := by
  have ha : d.availIdx = (d.usedIdx + 1) % idxMod := h.avail
  have hb : d.usedIdx < idxMod := h.bound
  rw [outstanding, ha]
  unfold idxMod at *
  omega

theorem protocolSafe_of_inv {k : Kernel Disk DiskCall} (hd : Driven nthr diskDiscipline rests k)
    (h : Protocol (view diskDiscipline k)) : ProtocolSafe k := by
  refine ⟨?_, fun i rest hcode ht => ?_, fun he => ?_⟩
  · rcases h.counters with hq | hq
    · exact Nat.le_trans (Nat.le_of_eq (outstanding_quiet hq)) (Nat.zero_le _)
    · exact Nat.le_of_eq (outstanding_pending hq)
  · refine outstanding_quiet (h.quiet (i := i) (by simp [view, hcode]) ?_)
    cases i with
    | vio s back => cases s <;> first | rfl | cases ht
    | _ => rfl
  · obtain ⟨p, hp⟩ := hd.waited_of_waitList rfl he
    exact (h.waits p hp).imp_left outstanding_pending

/-- With one driver thread at a time the request protocol is kept by every interleaving of
its steps with the device and vioblk_isr. vioblk_attach starts both counters at 0. -/
theorem run_protocolSafe (hn : 2 ≤ nthr) (dev : Disk) (hdev : (queue dev).Quiet) (satp : Nat) (sie : Bool)
    (ls : List (Label DiskCall Device)) (k : Kernel Disk DiskCall)
    (hr : run (disk true) nthr (threadInit nthr dev satp sie) ls = .ok k) : ProtocolSafe k := by
  have h₀ : Protocol (view diskDiscipline (threadInit nthr dev satp sie)) := by
    rw [view_threadInit]
    exact ⟨fun _ _ hj => absurd hj (Option.not_mem_none _), .inl hdev, fun _ => hdev, fun _ => False.elim⟩
  obtain ⟨hd, h⟩ := (driven_threadInit hn diskDiscipline rests dev satp sie).run (disk_rules true)
    (fun _ _ h hm => h.move hm) h₀ hr
  exact protocolSafe_of_inv hd h

/-- The main thread asks for four bytes and goes to sleep, then the device takes the
request and completes it. -/
def asleep : List (Label DiskCall Device) :=
  .call (.dev (.vioblkRead 4)) :: (List.replicate 31 .run ++ [.env .take, .env (.complete 0 fun _ => 7)])

theorem run_protocolSafe_asleep : ∃ k,
    run (disk true) 16 (threadInit 16 (attached 1024 fun _ => Kfs.FileDesc.zero) 0 true) asleep = .ok k ∧
      (tlempty (k.waitList (.ext usedUpdated)), outstanding k.dev, k.dev.availIdx) = (false, 0, 1) ∧ ProtocolSafe k := by
  have hview : ((run (disk true) 16 (threadInit 16 (attached 1024 fun _ => Kfs.FileDesc.zero) 0 true) asleep).toOption.map
      fun k => (tlempty (k.waitList (.ext usedUpdated)), outstanding k.dev, k.dev.availIdx)) = some (false, 0, 1) := by
    decide +kernel
  cases hr : run (disk true) 16 (threadInit 16 (attached 1024 fun _ => Kfs.FileDesc.zero) 0 true) asleep with
  | error s =>
      rw [hr] at hview
      cases hview
  | ok k =>
      rw [hr] at hview
      exact ⟨k, rfl, Option.some.inj hview, run_protocolSafe (by decide) _ ⟨by decide, rfl, rfl, rfl⟩ 0 true asleep k hr⟩

end RiscvKernel.RequestProtocol
