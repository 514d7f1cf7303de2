import RiscvKernel.SchedulerInv

namespace RiscvKernel.ThreadTree

open Thread Scheduler SchedulerInv

variable {σ ι ε : Type} {nthr : Nat}

/-- Parent pointers followed from a to b. -/
def Leads (parent : Ptr → Option Ptr) : Ptr → Ptr → Prop := Relation.ReflTransGen fun a b => parent a = some b

/-- The threads in thrtab are a tree of which main is the root. -/
structure Family (thrtab : Nat → Option Ptr) (parent : Ptr → Option Ptr) : Prop where
  main : thrtab 0 = some mainThread
  root : parent mainThread = none
  closed : ∀ t p, thrtab t = some p → p ≠ mainThread → ∃ q u, parent p = some q ∧ thrtab u = some q
  reaches : ∀ t p, thrtab t = some p → Leads parent p mainThread

section Family

variable {thrtab : Nat → Option Ptr} {parent : Ptr → Option Ptr} {p q thr child : Ptr} {t tid : Nat}

theorem Family.parent_mem (h : Family thrtab parent) (hp : thrtab t = some p) (hq : parent p = some q) :
    ∃ u, thrtab u = some q := by
  have hne : p ≠ mainThread := by
    rintro rfl
    rw [h.root] at hq
    cases hq
  obtain ⟨q', u, hq', hu⟩ := h.closed t p hp hne
  obtain rfl := Option.some.inj (hq.symm.trans hq')
  exact ⟨u, hu⟩

/-- No thread is its own parent. -/
theorem Family.parent_ne_self (h : Family thrtab parent) (hp : thrtab t = some p) : parent p ≠ some p := by
  intro hself
  have hne : p ≠ mainThread := by
    rintro rfl
    rw [h.root] at hself
    cases hself
  have hstay : ∀ b, Leads parent p b → b = p := by
    intro b hb
    induction hb with
    | refl => rfl
    | tail _ hstep ih =>
        subst ih
        exact (Option.some.inj (hself.symm.trans hstep)).symm
  exact hne (hstay _ (h.reaches t p hp)).symm

/-- A new thread below a thread of the table. -/
theorem Family.spawn (h : Family thrtab parent) (htid : thrtab tid = none) (hfresh : ∀ t, thrtab t ≠ some child)
    (hp : thrtab t = some p) :
    Family (Function.update thrtab tid (some child)) (Function.update parent child (some p)) := by
  have hold : ∀ {u q}, thrtab u = some q → Function.update thrtab tid (some child) u = some q := by
    intro u q hu
    rwa [Function.update_of_ne]
    rintro rfl
    rw [htid] at hu
    cases hu
  have hne : ∀ {u q}, thrtab u = some q → q ≠ child := fun hu he => hfresh _ (he ▸ hu)
  have hlead : ∀ u q, thrtab u = some q → Leads (Function.update parent child (some p)) q mainThread := by
    intro u q hu
    have hpath := h.reaches u q hu
    induction hpath using Relation.ReflTransGen.head_induction_on generalizing u with
    | refl => exact .refl
    | head hstep _ ih =>
        obtain ⟨v, hv⟩ := h.parent_mem hu hstep
        refine .head ?_ (ih v hv)
        rwa [Function.update_of_ne (hne hu)]
  refine ⟨hold h.main, ?_, fun u q hu hq => ?_, fun u q hu => ?_⟩
  · rw [Function.update_of_ne (hne h.main), h.root]
  · rcases eq_or_ne u tid with rfl | hut
    · rw [Function.update_self] at hu
      obtain rfl := Option.some.inj hu
      exact ⟨p, t, Function.update_self .., hold hp⟩
    · rw [Function.update_of_ne hut] at hu
      obtain ⟨r, v, hr, hv⟩ := h.closed u q hu hq
      exact ⟨r, v, by rwa [Function.update_of_ne (hne hu)], hold hv⟩
  · rcases eq_or_ne u tid with rfl | hut
    · rw [Function.update_self] at hu
      obtain rfl := Option.some.inj hu
      exact .head (Function.update_self ..) (hlead t p hp)
    · rw [Function.update_of_ne hut] at hu
      exact hlead u q hu

theorem foldl_reparent (hself : parent thr ≠ some thr) (l : List Nat) (p : Ptr) :
    l.foldl (Kernel.reparent thrtab thr) parent p =
      if (∃ t ∈ l, thrtab t = some p) ∧ parent p = some thr then parent thr else parent p := by
  induction l generalizing parent with
  | nil => simp
  | cons c l ih =>
      rw [List.foldl_cons]
      have hstep : ∀ q, Kernel.reparent thrtab thr parent c q =
          if thrtab c = some q ∧ parent q = some thr then parent thr else parent q := by
        intro q
        unfold Kernel.reparent
        cases hc : thrtab c with
        | none => simp
        | some a =>
            by_cases ha : parent a = some thr
            · simp only [ha, if_true]
              rcases eq_or_ne q a with rfl | hne
              · simp [ha]
              · simp [hne, Ne.symm hne]
            · simp only [ha, if_false]
              rcases eq_or_ne q a with rfl | hne
              · simp [ha]
              · simp [Ne.symm hne]
      have hthr : Kernel.reparent thrtab thr parent c thr = parent thr := by
        rw [hstep]
        simp
      rw [ih (by rw [hthr]; exact hself), hthr, hstep]
      by_cases hp : parent p = some thr
      · by_cases hc : thrtab c = some p
        · simp [hp, hc, hself]
        · simp [hp, hc]
      · simp [hp]

/-- recycle_thread gives the children of the thread it removes to its parent. -/
theorem Family.recycle (h : Family thrtab parent) (hslot : ∀ t p, thrtab t = some p → t < nthr)
    (hinj : ∀ t u p, thrtab t = some p → thrtab u = some p → t = u) (htid : thrtab tid = some thr) (h0 : 0 < tid) :
    Family (Function.update thrtab tid none) ((Kernel.slots nthr).foldl (Kernel.reparent thrtab thr) parent) := by
  have hself := h.parent_ne_self htid
  have hmain : thr ≠ mainThread := by
    rintro rfl
    exact absurd (hinj tid 0 _ htid h.main) (Nat.ne_of_gt h0)
  obtain ⟨up, u, hup, hu⟩ := h.closed tid thr htid hmain
  have hupne : up ≠ thr := by
    rintro rfl
    exact hself hup
  -- main has no parent, and every other slot is visited by the loop
  have hpar : ∀ t p, thrtab t = some p → (Kernel.slots nthr).foldl (Kernel.reparent thrtab thr) parent p =
      if parent p = some thr then some up else parent p := by
    intro t p hp
    rw [foldl_reparent hself, hup]
    by_cases hp' : parent p = some thr
    · have ht : t ∈ Kernel.slots nthr := by
        rw [Kernel.slots, List.mem_range'_1]
        have hlt := hslot t p hp
        have : t ≠ 0 := by
          rintro rfl
          obtain rfl := Option.some.inj (h.main.symm.trans hp)
          rw [h.root] at hp'
          cases hp'
        omega
      rw [if_pos ⟨⟨t, ht, hp⟩, hp'⟩, if_pos hp']
    · rw [if_neg (fun hc => hp' hc.2), if_neg hp']
  have hkeep : ∀ {t p}, thrtab t = some p → p ≠ thr → Function.update thrtab tid none t = some p := by
    intro t p hp hne
    rwa [Function.update_of_ne]
    rintro rfl
    exact hne (Option.some.inj (hp.symm.trans htid))
  have hlead : ∀ t p, thrtab t = some p →
      (p ≠ thr → Leads ((Kernel.slots nthr).foldl (Kernel.reparent thrtab thr) parent) p mainThread) ∧
      (p = thr → Leads ((Kernel.slots nthr).foldl (Kernel.reparent thrtab thr) parent) up mainThread) := by
    intro t p hp
    have hpath := h.reaches t p hp
    induction hpath using Relation.ReflTransGen.head_induction_on generalizing t with
    | refl => exact ⟨fun _ => .refl, fun he => absurd he.symm hmain⟩
    | @head a b hstep _ ih =>
        obtain ⟨v, hv⟩ := h.parent_mem hp hstep
        refine ⟨fun hne => ?_, fun he => ?_⟩
        · by_cases hb : b = thr
          · refine .head ?_ ((ih v hv).2 hb)
            rw [hpar t a hp, if_pos (hb ▸ hstep)]
          · refine .head ?_ ((ih v hv).1 hb)
            rw [hpar t a hp, hstep, if_neg (by simpa using hb)]
        · subst he
          obtain rfl := Option.some.inj (hup.symm.trans hstep)
          exact (ih v hv).1 hupne
  refine ⟨hkeep h.main (Ne.symm hmain), ?_, fun t p hp hne => ?_, fun t p hp => ?_⟩
  · rw [hpar 0 _ h.main, h.root]
    simp
  · have ht : t ≠ tid := by
      rintro rfl
      simp at hp
    rw [Function.update_of_ne ht] at hp
    obtain ⟨q, v, hq, hv⟩ := h.closed t p hp hne
    rw [hpar t p hp, hq]
    by_cases hqt : q = thr
    · exact ⟨up, u, by simp [hqt], hkeep hu hupne⟩
    · exact ⟨q, v, by simp [hqt], hkeep hv hqt⟩
  · have ht : t ≠ tid := by
      rintro rfl
      simp at hp
    rw [Function.update_of_ne ht] at hp
    refine (hlead t p hp).1 ?_
    rintro rfl
    exact ht (hinj t tid _ hp htid)

end Family

section Joins

def isJoin : Pc ι → Bool
  | .joinLoop _ _ | .joinAnyScan => true
  | _ => false

/-- Inside condition_wait or suspend_self. -/
def blocking : Pc ι → Bool
  | .waitEnter _ | .waitDisable _ | .waitInsert _ _ | .waitRestore _ | .suspEnter | .suspDisable | .suspDispatch _
  | .suspEnable _ _ | .suspSpace _ _ | .suspSwtch _ _ | .suspResumed _ | .suspRestore _ => true
  | _ => false

def JoinFree (code : List (Pc ι)) : Prop := ∀ pc ∈ code, isJoin pc = false

/-- The join that a thread is in, if any: at the top, or below the condition_wait it called. -/
def pending : List (Pc ι) → Option (Pc ι)
  | [] => none
  | pc :: K => if isJoin pc then some pc else if blocking pc then K.head?.filter isJoin else none

/-- Apart from that join there is none. -/
def Single : List (Pc ι) → Prop
  | [] => True
  | pc :: K => if isJoin pc then JoinFree K else if blocking pc then JoinFree K.tail else JoinFree K

def HasExitedChild (nthr : Nat) (k : Kernel σ ι) (p : Ptr) : Prop :=
  ∃ t c, 0 < t ∧ t < nthr ∧ k.thrtab t = some c ∧ k.parent c = some p ∧ k.state c = .exited

def AwaitsChild (k : Kernel σ ι) (p : Ptr) : Prop := k.state p = .waiting ∧ k.waitCond p = some (.childExit p)

/-- What the join of a thread relies on: thread_join on its child, thread_join_any on a
child having exited by the time it is woken. -/
def Joining (nthr : Nat) (k : Kernel σ ι) (p : Ptr) (code : List (Pc ι)) : Pc ι → Prop
  | .joinLoop tid child => 0 < tid ∧ tid < nthr ∧ k.thrtab tid = some child ∧ k.parent child = some p
  | .joinAnyScan =>
      code.head? = some (.waitEnter (.childExit p)) ∨ AwaitsChild k p ∨ HasExitedChild nthr k p
  | _ => True

def JoinOk (nthr : Nat) (k : Kernel σ ι) (p : Ptr) (code : List (Pc ι)) : Prop :=
  Single code ∧ ∀ j, pending code = some j → Joining nthr k p code j

variable {k k' : Kernel σ ι} {p : Ptr} {w pc : Pc ι} {K code : List (Pc ι)}

theorem JoinFree.joinOk (h : JoinFree code) : JoinOk nthr k p code := by
  cases code with
  | nil => exact ⟨trivial, fun j hj => by cases hj⟩
  | cons pc K =>
      have hpc : isJoin pc = false := h pc List.mem_cons_self
      have hK : JoinFree K := fun q hq => h q (List.mem_cons_of_mem _ hq)
      refine ⟨?_, fun j hj => ?_⟩
      · simp only [Single, hpc, Bool.false_eq_true, if_false]
        split
        · exact fun q hq => hK q (List.mem_of_mem_tail hq)
        · exact hK
      · simp only [pending, hpc, Bool.false_eq_true, if_false] at hj
        split at hj
        · cases K with
          | nil => cases hj
          | cons q K =>
              have hq : isJoin q = false := hK q List.mem_cons_self
              simp only [List.head?_cons, Option.filter_some, hq, Bool.false_eq_true, if_false] at hj
              cases hj
        · cases hj

/-- A thread that is in no condition_wait has no join below the function it is in. -/
theorem JoinOk.joinFree (h : JoinOk nthr k p (pc :: K)) (hb : blocking pc = false) : JoinFree K := by
  have := h.1
  simp only [Single, hb, Bool.false_eq_true, if_false, ite_self] at this
  exact this

/-- The children of p are still in the table. -/
def Keeps (k k' : Kernel σ ι) (p : Ptr) : Prop :=
  ∀ t c, k.thrtab t = some c → k.parent c = some p → k'.thrtab t = some c ∧ k'.parent c = some p

theorem keeps_of_eq (hthr : k'.thrtab = k.thrtab) (hpar : k'.parent = k.parent) : Keeps k k' p := by
  intro t c ht hp
  rw [hthr, hpar]
  exact ⟨ht, hp⟩

theorem HasExitedChild.mono (h : HasExitedChild nthr k p) (hkeep : Keeps k k' p)
    (hex : ∀ c, k.state c = .exited → k'.state c = .exited) : HasExitedChild nthr k' p := by
  obtain ⟨t, c, h₀, h₁, ht, hp, hs⟩ := h
  exact ⟨t, c, h₀, h₁, (hkeep t c ht hp).1, (hkeep t c ht hp).2, hex c hs⟩

theorem JoinOk.congr (h : JoinOk nthr k p code) (hkeep : Keeps k k' p) (hex : ∀ c, k.state c = .exited → k'.state c = .exited)
    (hw : AwaitsChild k p → AwaitsChild k' p ∨ HasExitedChild nthr k' p) : JoinOk nthr k' p code := by
  refine ⟨h.1, fun j hj => ?_⟩
  have hj' := h.2 j hj
  cases j with
  | joinLoop tid child =>
      obtain ⟨h₀, h₁, ht, hp⟩ := hj'
      exact ⟨h₀, h₁, hkeep tid child ht hp⟩
  | joinAnyScan =>
      rcases hj' with hh | hh | hh
      · exact .inl hh
      · exact .inr (hw hh)
      · exact .inr (.inr (hh.mono hkeep hex))
  | _ => trivial

/-- From one place in condition_wait or suspend_self to the next. -/
theorem JoinOk.advance (h : JoinOk nthr k p (w :: K)) (hw : blocking w = true) (hpc : blocking pc = true)
    (henter : w = .waitEnter (.childExit p) → AwaitsChild k p) : JoinOk nthr k p (pc :: K) := by
  have hj : ∀ {v : Pc ι}, blocking v = true → isJoin v = false := by
    intro v hv
    cases v <;> first | rfl | cases hv
  have hsingle := h.1
  simp only [Single, hj hw, hw, Bool.false_eq_true, if_false, if_true] at hsingle
  refine ⟨?_, fun j hp => ?_⟩
  · simpa only [Single, hj hpc, hpc, Bool.false_eq_true, if_false, if_true] using hsingle
  · have hold := h.2 j (by
      simp only [pending, hj hpc, hpc, Bool.false_eq_true, if_false, if_true] at hp
      simpa only [pending, hj hw, hw, Bool.false_eq_true, if_false, if_true] using hp)
    cases j with
    | joinLoop tid child => exact hold
    | joinAnyScan =>
        rcases hold with hh | hh
        · exact .inr (.inl (henter (Option.some.inj hh)))
        · exact .inr hh
    | _ => trivial

/-- Back from condition_wait. -/
theorem JoinOk.resume (h : JoinOk nthr k p (w :: K)) (hw : blocking w = true) (hne : ∀ c, w ≠ .waitEnter c)
    (hK : Conts K) : JoinOk nthr k p K := by
  have hj : isJoin w = false := by
    cases w <;> first | rfl | cases hw
  have hsingle := h.1
  simp only [Single, hj, hw, Bool.false_eq_true, if_false, if_true] at hsingle
  cases K with
  | nil => exact ⟨trivial, fun j hp => by cases hp⟩
  | cons q K =>
      have hq : blocking q = false := by
        have := hK q List.mem_cons_self
        cases q <;> first | rfl | cases this
      by_cases hqj : isJoin q = true
      · refine ⟨by simpa only [Single, hqj, if_true, List.tail_cons] using hsingle, fun j hp => ?_⟩
        simp only [pending, hqj, if_true, Option.some.injEq] at hp
        subst hp
        have hold := h.2 q (by simp [pending, hj, hw, hqj])
        cases q with
        | joinLoop tid child => exact hold
        | joinAnyScan =>
            rcases hold with hh | hh
            · exact absurd (Option.some.inj hh) (hne _)
            · exact .inr hh
        | _ => trivial
      · refine JoinFree.joinOk fun pc hpc => ?_
        rcases List.mem_cons.mp hpc with rfl | hm
        · exact Bool.eq_false_iff.mpr hqj
        · exact hsingle pc hm

end Joins

/-- The condition that the current thread is broadcasting. -/
def bcastTarget : List (Pc ι) → Option Cond
  | .bcastEnter c :: _ | .bcastDisable c :: _ | .bcastBody c _ :: _ => some c
  | _ => none

/-- The threads of thrtab, their parents, and the joins in progress. -/
structure Tree (nthr : Nat) (k : Kernel σ ι) : Prop where
  family : Family k.thrtab k.parent
  mainAlive : k.state mainThread ≠ .exited
  joins : ∀ p, Alive (k.state p) → JoinOk nthr k p (k.code p)
  exiting : ∀ q, bcastTarget (k.code k.tp) = some (.childExit q) →
    k.state k.tp = .exited ∧ k.parent k.tp = some q ∧ k.thrtab (k.id k.tp) = some k.tp
  joinedNodup : k.joined.Nodup
  joinedGone : ∀ p ∈ k.joined, (∀ t, k.thrtab t ≠ some p) ∧ k.state p ≠ .uninitialized

section Steps

variable {k : Kernel σ ι} {ready : List Ptr} {waits : Cond → List Ptr} {ex sw : Option Ptr} {code : List (Pc ι)}

theorem Conts.bcastTarget {K : List (Pc ι)} (h : Conts K) : bcastTarget K = none := by
  cases K with
  | nil => rfl
  | cons pc K =>
      have hpc := h pc List.mem_cons_self
      cases pc <;> first | rfl | cases hpc

/-- A step of the current thread that changes no thread's state. -/
theorem Tree.move (h : Tree nthr k) (code : List (Pc ι)) (hjoin : Alive (k.state k.tp) → JoinOk nthr k k.tp code)
    (hexit : ∀ q, bcastTarget code = some (.childExit q) →
      k.state k.tp = .exited ∧ k.parent k.tp = some q ∧ k.thrtab (k.id k.tp) = some k.tp)
    (sie : Bool) (satp : Nat) (dev : σ) (ret : Ptr → Int) (next : Links) (ready : ThreadList)
    (wait : Cond → ThreadList) :
    Tree nthr { k with sie, satp, dev, ret, listNext := next, readyList := ready, waitList := wait
                       code := Function.update k.code k.tp code } := by
  refine ⟨h.family, h.mainAlive, fun p ha => ?_, ?_, h.joinedNodup, h.joinedGone⟩
  · rcases eq_or_ne p k.tp with rfl | hne
    · simp only [Function.update_self]
      exact (hjoin ha).congr (keeps_of_eq rfl rfl) (fun _ hs => hs) .inl
    · simp only [Function.update_of_ne hne]
      exact (h.joins p ha).congr (keeps_of_eq rfl rfl) (fun _ hs => hs) .inl
  · simp only [Function.update_self]
    exact hexit

/-- Threads other than exited ones change their states, and wait for the same conditions. -/
theorem Tree.setStates (h : Tree nthr k) {state : Ptr → ThreadState} {cond : Ptr → Option Cond}
    (hex : ∀ p, state p = .exited ↔ k.state p = .exited) (ha : ∀ p, Alive (state p) → Alive (k.state p))
    (hun : ∀ p, state p = .uninitialized → k.state p = .uninitialized)
    (hw : ∀ p, AwaitsChild k p → state p = .waiting ∧ cond p = k.waitCond p ∨ HasExitedChild nthr k p) :
    Tree nthr { k with state, waitCond := cond } := by
  have hmono : ∀ p, HasExitedChild nthr k p → HasExitedChild nthr { k with state, waitCond := cond } p :=
    fun p hp => hp.mono (keeps_of_eq rfl rfl) fun c hc => (hex c).mpr hc
  refine ⟨h.family, fun hm => h.mainAlive ((hex _).mp hm), fun p hp => ?_, fun q hq => ?_, h.joinedNodup, fun p hp => ?_⟩
  · refine (h.joins p (ha p hp)).congr (keeps_of_eq rfl rfl) (fun c hc => (hex c).mpr hc) fun haw => ?_
    rcases hw p haw with ⟨hs, hc⟩ | hc
    · exact .inl ⟨hs, hc.trans haw.2⟩
    · exact .inr (hmono p hc)
  · obtain ⟨hs, hq⟩ := h.exiting q hq
    exact ⟨(hex _).mpr hs, hq⟩
  · exact ⟨(h.joinedGone p hp).1, fun hu => (h.joinedGone p hp).2 (hun p hu)⟩

/-- A broadcast of child_exit is about a child that has exited. -/
theorem Tree.wake (h : Tree nthr k) (hl : Listed k.listNext k.readyList k.waitList k.state k.waitCond ex sw ready waits)
    {c : Cond} (hc : ∀ q, c = .childExit q → HasExitedChild nthr k q) : Tree nthr (woken k (waits c)) := by
  have hst : ∀ p ∈ waits c, k.state p = .waiting := fun p hp => hl.state_of_mem_waits hp
  refine h.setStates (fun p => ?_) (fun p ha => ?_) (fun p hu => ?_) fun p haw => ?_
  · by_cases hm : p ∈ waits c
    · simp [hm, hst p hm]
    · simp [hm]
  · by_cases hm : p ∈ waits c
    · exact .inl (hst p hm)
    · simpa [hm] using ha
  · by_cases hm : p ∈ waits c
    · simp [hm] at hu
    · simpa [hm] using hu
  · by_cases hm : p ∈ waits c
    · have := ((hl.mem_waits p c).mp hm).2.1
      exact .inr (hc p (Option.some.inj (this.symm.trans haw.2)))
    · exact .inl (by simp [hm, haw.1])

/-- The thread that leaves the CPU keeps its place behind _thread_swtch. -/
theorem Tree.swtch (h : Tree nthr k) {n : Ptr} (hn : n ≠ k.tp) (hpark : Parked (k.code n))
    (hjoin : Alive (k.state k.tp) → JoinOk nthr k k.tp code) :
    Tree nthr { k.setCode code with tp := n } := by
  refine ⟨h.family, h.mainAlive, fun p ha => ?_, fun q hq => ?_, h.joinedNodup, h.joinedGone⟩
  · rcases eq_or_ne p k.tp with rfl | hne
    · simp only [Kernel.setCode, Function.update_self]
      exact (hjoin ha).congr (keeps_of_eq rfl rfl) (fun _ hs => hs) .inl
    · simp only [Kernel.setCode, Function.update_of_ne hne]
      exact (h.joins p ha).congr (keeps_of_eq rfl rfl) (fun _ hs => hs) .inl
  · simp only [Kernel.setCode, Function.update_of_ne hn] at hq
    rcases hpark with hK | ⟨s, K, he, -⟩
    · rw [ThreadTree.Conts.bcastTarget hK] at hq
      cases hq
    · rw [he] at hq
      cases hq

theorem Tree.exit (h : Tree nthr k) (htab : k.thrtab (k.id k.tp) = some k.tp) (hmain : k.tp ≠ mainThread) {q : Ptr}
    (hq : k.parent k.tp = some q) (rest : List (Pc ι)) :
    Tree nthr ((k.setState k.tp .exited).setCode (.bcastEnter (.childExit q) :: rest)) := by
  have hex : ∀ c, k.state c = .exited → Function.update k.state k.tp .exited c = .exited := by
    intro c hc
    rcases eq_or_ne c k.tp with rfl | hne
    · exact Function.update_self ..
    · rwa [Function.update_of_ne hne]
  refine ⟨h.family, ?_, fun p ha => ?_, fun q' hq' => ?_, h.joinedNodup, fun p hp => ⟨(h.joinedGone p hp).1, ?_⟩⟩
  · simpa [Kernel.setCode, Kernel.setState, Ne.symm hmain] using h.mainAlive
  · have hne : p ≠ k.tp := by
      rintro rfl
      simp [Kernel.setCode, Kernel.setState, Alive] at ha
    simp only [Kernel.setCode, Kernel.setState, Function.update_of_ne hne] at ha ⊢
    exact (h.joins p ha).congr (keeps_of_eq rfl rfl) hex fun haw => .inl ⟨by simp [Function.update_of_ne hne, haw.1], haw.2⟩
  · simp only [Kernel.setCode, Kernel.setState, Function.update_self, bcastTarget, Option.some.injEq,
      Cond.childExit.injEq] at hq'
    subst hq'
    exact ⟨by simp [Kernel.setCode, Kernel.setState], hq, htab⟩
  · simp only [Kernel.setCode, Kernel.setState]
    rcases eq_or_ne p k.tp with rfl | hne
    · simp
    · rw [Function.update_of_ne hne]
      exact (h.joinedGone p hp).2

theorem Tree.spawn (h : Tree nthr k) (ht : Table nthr k.thrtab k.id k.state k.brk)
    (htp : k.thrtab (k.id k.tp) = some k.tp) {tid page : Nat} (htid : k.thrtab tid = none) (ret : Int)
    {rest : List (Pc ι)} (hrest : JoinFree rest) :
    Tree nthr (((k.spawn tid page).setRet ret).setCode (.spawnDisable k.brk :: rest)) := by
  have hfresh : k.state k.brk = .uninitialized := ht.fresh _ (Nat.le_refl _)
  have hbrk : ∀ t, k.thrtab t ≠ some k.brk := fun t he => (ht.slot t _ he).2.2 hfresh
  have hne : k.tp ≠ k.brk := fun he => hbrk _ (he ▸ htp)
  have hold : ∀ {t c}, k.thrtab t = some c → Function.update k.thrtab tid (some k.brk) t = some c := by
    intro t c hc
    rwa [Function.update_of_ne]
    rintro rfl
    rw [htid] at hc
    cases hc
  have hst : ∀ c, k.state c ≠ .uninitialized → Function.update k.state k.brk .ready c = k.state c := by
    intro c hc
    rw [Function.update_of_ne]
    rintro rfl
    exact hc hfresh
  refine ⟨h.family.spawn htid hbrk htp, ?_, fun p ha => ?_, fun q hq => ?_, h.joinedNodup, fun p hp => ?_⟩
  · have := (ht.slot 0 _ h.family.main).2.2
    simpa [Kernel.setCode, Kernel.setRet, Kernel.spawn, Kernel.setState, hst _ this] using h.mainAlive
  · rcases eq_or_ne p k.tp with rfl | hpt
    · refine JoinFree.joinOk ?_
      simp only [Kernel.setCode, Kernel.setRet, Kernel.spawn, Kernel.setState, Function.update_self]
      exact List.forall_mem_cons.mpr ⟨rfl, hrest⟩
    · simp only [Kernel.setCode, Kernel.setRet, Kernel.spawn, Kernel.setState, Function.update_of_ne hpt] at ha ⊢
      rcases eq_or_ne p k.brk with rfl | hpb
      · rw [Function.update_self]
        exact ⟨trivial, fun j hj => by cases hj⟩
      · rw [Function.update_of_ne hpb] at ha ⊢
        refine (h.joins p ha).congr (fun t c hc hp => ⟨hold hc, ?_⟩) (fun c hc => ?_) fun haw => .inl ⟨?_, haw.2⟩
        · have hcb : c ≠ k.brk := by
            rintro rfl
            exact hbrk t hc
          simpa [hcb] using hp
        · simpa [hst c (by simp [hc])] using hc
        · simpa [Function.update_of_ne hpb] using haw.1
  · simp [Kernel.setCode, Kernel.setRet, Kernel.spawn, Kernel.setState, bcastTarget] at hq
  · obtain ⟨hout, hun⟩ := h.joinedGone p hp
    refine ⟨fun t he => ?_, ?_⟩
    · simp only [Kernel.setCode, Kernel.setRet, Kernel.spawn, Kernel.setState] at he
      rcases eq_or_ne t tid with rfl | htt
      · rw [Function.update_self] at he
        exact hun (Option.some.inj he ▸ hfresh)
      · rw [Function.update_of_ne htt] at he
        exact hout t he
    · simpa [Kernel.setCode, Kernel.setRet, Kernel.spawn, Kernel.setState, hst p hun] using hun

/-- A thread recycles a child of its own that has exited. -/
theorem Tree.recycle (h : Tree nthr k) (ht : Table nthr k.thrtab k.id k.state k.brk) {tid : Nat} {thr : Ptr} (htid : k.thrtab tid = some thr) (h0 : 0 < tid) (hpar : k.parent thr = some k.tp)
    (hex : k.state thr = .exited) (ret : Int) {rest : List (Pc ι)} (hrest : Conts rest) (hfree : JoinFree rest) :
    Tree nthr (({ k with
      parent := (Kernel.slots nthr).foldl (Kernel.reparent k.thrtab thr) k.parent
      thrtab := Function.update k.thrtab tid none
      joined := thr :: k.joined }.setRet ret).setCode rest) := by
  have hinj : ∀ t u p, k.thrtab t = some p → k.thrtab u = some p → t = u := fun t u p h₁ h₂ =>
    (ht.slot t p h₁).2.1.symm.trans (ht.slot u p h₂).2.1
  have hself := h.family.parent_ne_self htid
  refine ⟨h.family.recycle (fun t p hp => (ht.slot t p hp).1) hinj htid h0, h.mainAlive, fun p ha => ?_, fun q hq => ?_,
    ?_, fun p hp => ?_⟩
  · rcases eq_or_ne p k.tp with rfl | hne
    · simp only [Kernel.setCode, Kernel.setRet, Function.update_self]
      exact hfree.joinOk
    · simp only [Kernel.setCode, Kernel.setRet, Function.update_of_ne hne]
      have ha' : Alive (k.state p) := ha
      refine (h.joins p ha).congr (fun t c hc hp => ⟨?_, ?_⟩) (fun _ hs => hs) .inl
      · simp only
        rwa [Function.update_of_ne]
        rintro rfl
        obtain rfl := Option.some.inj (hc.symm.trans htid)
        exact hne (Option.some.inj (hp.symm.trans hpar))
      · simp only
        rw [foldl_reparent hself, if_neg, hp]
        rintro ⟨-, hthr⟩
        obtain rfl := Option.some.inj (hp.symm.trans hthr)
        simp [Alive, hex] at ha'
  · simp only [Kernel.setCode, Kernel.setRet, Function.update_self, ThreadTree.Conts.bcastTarget hrest] at hq
    cases hq
  · exact List.nodup_cons.mpr ⟨fun hm => (h.joinedGone thr hm).1 tid htid, h.joinedNodup⟩
  · simp only [Kernel.setCode, Kernel.setRet]
    rcases List.mem_cons.mp hp with rfl | hm
    · refine ⟨fun t he => ?_, by simp [hex]⟩
      rcases eq_or_ne t tid with rfl | htt
      · simp at he
      · rw [Function.update_of_ne htt] at he
        exact htt (hinj t tid p he htid)
    · refine ⟨fun t he => ?_, (h.joinedGone p hm).2⟩
      rcases eq_or_ne t tid with rfl | htt
      · simp at he
      · rw [Function.update_of_ne htt] at he
        exact (h.joinedGone p hm).1 t he

end Steps

section Exec

variable {cl : Client σ ι ε} {k : Kernel σ ι} {ready : List Ptr} {waits : Cond → List Ptr} {pc : Pc ι}
  {code rest : List (Pc ι)}

/-- The tree after a step, and the reasons to stop that it rules out. -/
def TreeKept (nthr : Nat) (r : Except Stop (Kernel σ ι)) : Prop :=
  Ensures r (Tree nthr) fun s => s ≠ .spuriousChildExit ∧ s ≠ .assert .parent ∧ s ≠ .assert .recycle

/-- The current thread goes on with code in which it joins no thread. -/
theorem Tree.kept_free (h : Tree nthr k) (hfree : JoinFree code) (hb : bcastTarget code = none) (sie : Bool) (satp : Nat)
    (dev : σ) (ret : Ptr → Int) :
    TreeKept nthr (.ok { k with sie, satp, dev, ret, code := Function.update k.code k.tp code }) :=
  h.move code (fun _ => hfree.joinOk) (fun q hq => by rw [hb] at hq; cases hq) _ _ _ _ _ _ _

/-- The current thread goes on inside condition_wait or suspend_self. -/
theorem Tree.kept_block (h : Tree nthr k) (hcode : k.code k.tp = pc :: rest) {w : Pc ι} (hpc : blocking pc = true)
    (hw : blocking w = true) (hne : ∀ c, pc ≠ .waitEnter c) (sie : Bool) (satp : Nat) (dev : σ) (ret : Ptr → Int)
    (next : Links) (ready : ThreadList) (wait : Cond → ThreadList) :
    TreeKept nthr (.ok { k with sie, satp, dev, ret, listNext := next, readyList := ready, waitList := wait
                                code := Function.update k.code k.tp (w :: rest) }) := by
  refine h.move (w :: rest) (fun ha => ?_) (fun q hq => ?_) _ _ _ _ _ _ _
  · have := h.joins k.tp ha
    rw [hcode] at this
    exact this.advance hpc hw fun he => absurd he (hne _)
  · have hnone : bcastTarget (w :: rest) = none := by
      cases w <;> first | rfl | cases hw
    rw [hnone] at hq
    cases hq

/-- A thread in no condition_wait joins no thread below the function it is in. -/
theorem Tree.rest_free (h : Tree nthr k) (ha : Alive (k.state k.tp)) (hcode : k.code k.tp = pc :: rest)
    (hpc : blocking pc = false) : JoinFree rest := by
  have := h.joins k.tp ha
  rw [hcode] at this
  exact this.joinFree hpc

theorem JoinFree.cons (hpc : isJoin pc = false) (h : JoinFree rest) : JoinFree (pc :: rest) :=
  List.forall_mem_cons.mpr ⟨hpc, h⟩

theorem JoinFree.calls (cs : List (Call ι)) (h : JoinFree rest) : JoinFree (cs.map Pc.call ++ rest) := by
  intro pc hpc
  rcases List.mem_append.mp hpc with hm | hm
  · obtain ⟨c, -, rfl⟩ := List.mem_map.mp hm
    rfl
  · exact h pc hm

theorem find_exitedChild {tid : Nat} (h : (Kernel.slots nthr).find? k.isExitedChild = some tid) :
    0 < tid ∧ tid < nthr ∧ ∃ c, k.thrtab tid = some c ∧ k.parent c = some k.tp ∧ k.state c = .exited := by
  have hmem : tid ∈ Kernel.slots nthr := List.mem_of_find?_eq_some h
  rw [Kernel.slots, List.mem_range'_1] at hmem
  refine ⟨by omega, by omega, ?_⟩
  have hp := List.find?_some h
  unfold Kernel.isExitedChild at hp
  split at hp
  · exact ⟨_, ‹_›, by simpa using hp⟩
  · cases hp

theorem Tree.enter (h : Tree nthr k) (hi : Inv nthr k ready waits) {c : Call ι} (hcode : k.code k.tp = .call c :: rest) :
    TreeKept nthr (enter cl nthr k rest c) := by
  obtain ⟨hrun, hK⟩ : k.state k.tp = .running ∧ Conts rest := by
    have := hi.current
    rwa [hcode] at this
  have ha : Alive (k.state k.tp) := .inr (.inl hrun)
  have hfree : JoinFree rest := h.rest_free ha hcode rfl
  have htab := hi.core.table
  have hret : ∀ r : Int, TreeKept nthr (.ok ((k.setRet r).setCode rest)) := fun r =>
    h.kept_free hfree (ThreadTree.Conts.bcastTarget hK) _ _ _ _
  cases c with
  | threadSpawn page =>
      rw [Scheduler.enter]
      cases hf : k.freeSlot nthr with
      | none => exact ⟨by simp, by simp, by simp⟩
      | some tid => exact h.spawn htab (htab.alive _ ha) (freeSlot_spec hf).1 _ hfree
  | threadExit =>
      rw [Scheduler.enter]
      by_cases hm : k.tp = mainThread
      · rw [if_pos hm]
        exact ⟨by simp, by simp, by simp⟩
      · obtain ⟨q, u, hq, -⟩ := h.family.closed _ _ (htab.alive _ ha) hm
        rw [if_neg hm, hq]
        exact h.exit (htab.alive _ ha) hm hq _
  | threadYield =>
      rw [Scheduler.enter, if_pos hrun]
      exact h.kept_free (.cons rfl hfree) rfl _ _ _ _
  | threadJoin tid =>
      rw [Scheduler.enter]
      split
      · exact hret _
      · split
        · split
          · refine h.move (.joinLoop tid.toNat _ :: rest) (fun _ => ⟨hfree, fun j hj => ?_⟩) (fun q hq => by cases hq) _ _ _ _ _ _ _
            obtain rfl := Option.some.inj hj
            exact ⟨by omega, by omega, ‹_›, ‹_›⟩
          · exact hret _
        · exact hret _
  | threadJoinAny =>
      rw [Scheduler.enter]
      split
      · exact h.kept_free (.cons rfl hfree) rfl _ _ _ _
      · split
        · refine h.move (.waitEnter (.childExit k.tp) :: .joinAnyScan :: rest) (fun _ => ⟨hfree, fun j hj => ?_⟩) (fun q hq => by cases hq) _ _ _ _ _ _ _
          obtain rfl := Option.some.inj hj
          exact .inl rfl
        · exact ⟨by simp, by simp, by simp⟩
  | conditionWait n => exact h.kept_free (.cons rfl hfree) rfl _ _ _ _
  | conditionBroadcast n =>
      exact h.move (.bcastEnter (.ext n) :: rest) (fun _ => (JoinFree.cons rfl hfree).joinOk) (fun q hq => by cases hq) _ _ _ _ _ _ _
  | intrDisable | intrEnable => exact h.kept_free hfree (ThreadTree.Conts.bcastTarget hK) _ _ _ _
  | dev i =>
      exact h.kept_free (hfree.calls _) (ThreadTree.Conts.bcastTarget (SchedulerInv.Conts.calls hK)) _ _ _ _

/-- The exiting thread is the exited child its broadcast is about. -/
theorem Tree.exited_child (h : Tree nthr k) (hi : Inv nthr k ready waits) {q : Ptr}
    (hb : bcastTarget (k.code k.tp) = some (.childExit q)) : HasExitedChild nthr k q := by
  obtain ⟨hs, hp, htp⟩ := h.exiting q hb
  obtain ⟨hlt, -, -⟩ := hi.core.table.slot _ _ htp
  refine ⟨k.id k.tp, k.tp, Nat.pos_of_ne_zero fun h0 => ?_, hlt, htp, hp, hs⟩
  rw [h0, h.family.main] at htp
  exact h.mainAlive (Option.some.inj htp ▸ hs)

theorem Tree.exec (h : Tree nthr k) (hi : Inv nthr k ready waits) (hcode : k.code k.tp = pc :: rest) :
    TreeKept nthr (exec cl nthr k rest pc) := by
  have hcore := hi.core
  have hcur := hi.current
  have htab := hi.core.table
  rw [hcode] at hcore hcur
  cases pc with
  | call c => exact h.enter hi hcode
  | waitEnter c =>
      obtain ⟨hrun, hK⟩ := hcur
      rw [Scheduler.exec, if_pos hrun]
      have h₁ : Tree nthr { k with
          state := Function.update k.state k.tp .waiting
          waitCond := Function.update k.waitCond k.tp (some c) } := by
        refine h.setStates (fun p => ?_) (fun p ha => ?_) (fun p hu => ?_) fun p haw => ?_
        all_goals rcases eq_or_ne p k.tp with rfl | hne
        · simp [hrun]
        · simp [hne]
        · exact .inr (.inl hrun)
        · simpa [hne] using ha
        · simp at hu
        · simpa [hne] using hu
        · cases hrun.symm.trans haw.1
        · exact .inl ⟨by simp [hne, haw.1], by simp [hne]⟩
      refine h₁.move (.waitDisable c :: rest) (fun ha => ?_) (fun q hq => by cases hq) _ _ _ _ _ _ _
      have hj := h₁.joins k.tp (by simp [Alive])
      simp only [hcode] at hj
      refine hj.advance rfl rfl fun he => ?_
      obtain rfl := Pc.waitEnter.inj he
      exact ⟨by simp, by simp⟩
  | waitDisable c => exact h.kept_block hcode rfl rfl (by simp) _ _ _ _ _ _ _
  | waitInsert c saved =>
      obtain ⟨hs, hc, hK⟩ := hcur
      obtain ⟨next, list, hins, -⟩ := hcore.insertWait hs hc
      rw [Scheduler.exec, hins]
      exact h.kept_block hcode (w := .waitRestore saved) rfl rfl (by simp) _ _ _ _ _ _ _
  | waitRestore saved => exact h.kept_block hcode rfl rfl (by simp) _ _ _ _ _ _ _
  | bcastEnter c =>
      rw [Scheduler.exec]
      have hfree : Alive (k.state k.tp) → JoinFree rest := fun ha => h.rest_free ha hcode rfl
      by_cases he : tlempty (k.waitList c) = true
      · rw [if_pos he]
        refine h.move rest (fun ha => (hfree ha).joinOk) (fun q hq => ?_) _ _ _ _ _ _ _
        rcases hcur with ⟨-, hK⟩ | ⟨K, rfl, -⟩
        · rw [ThreadTree.Conts.bcastTarget hK] at hq
          cases hq
        · cases hq
      · rw [if_neg he]
        refine h.move (.bcastDisable c :: rest) (fun ha => ((hfree ha).cons rfl).joinOk) (fun q hq => ?_) _ _ _ _ _ _ _
        exact h.exiting q (by rw [hcode]; exact hq)
  | bcastDisable c =>
      have hfree : Alive (k.state k.tp) → JoinFree rest := fun ha => h.rest_free ha hcode rfl
      refine h.move (.bcastBody c k.sie :: rest) (fun ha => ((hfree ha).cons rfl).joinOk) (fun q hq => ?_) _ _ _ _ _ _ _
      exact h.exiting q (by rw [hcode]; exact hq)
  | bcastBody c saved =>
      have hst : k.state k.tp ≠ .waiting := by
        rcases hcur with ⟨hrun, -⟩ | ⟨_, -, hex, -⟩
        · simp [hrun]
        · simp [hex]
      have hm : k.tp ∉ waits c := fun hm => hst (hcore.listed.state_of_mem_waits hm)
      have hfree : Alive (k.state k.tp) → JoinFree rest := fun ha => h.rest_free ha hcode rfl
      obtain ⟨next, list, hwake, -⟩ := hcore.wakeAll c
      have h₁ : Tree nthr (woken k (waits c)) :=
        h.wake hcore.listed fun q hq => h.exited_child hi (by rw [hcode, hq]; rfl)
      rw [Scheduler.exec, hwake]
      refine h₁.move (.bcastRestore saved :: rest) (fun ha => ?_) (fun q hq => by cases hq) _ _ _ _ _ _ _
      refine ((hfree ?_).cons rfl).joinOk
      simpa [woken, hm] using ha
  | bcastRestore saved =>
      refine h.move rest (fun ha => (h.rest_free ha hcode rfl).joinOk) (fun q hq => ?_) _ _ _ _ _ _ _
      rcases hcur with ⟨-, hK⟩ | ⟨K, rfl, -⟩
      · rw [ThreadTree.Conts.bcastTarget hK] at hq
        cases hq
      · cases hq
  | suspEnter =>
      rw [Scheduler.exec]
      split
      · exact ⟨by simp, by simp, by simp⟩
      · exact h.kept_block hcode rfl rfl (by simp) _ _ _ _ _ _ _
  | suspDisable => exact h.kept_block hcode rfl rfl (by simp) _ _ _ _ _ _ _
  | suspDispatch saved =>
      have hnil : ready ≠ [] := by
        rcases eq_or_ne k.tp idleThread with he | hne
        · exact hi.idleYield he (by rw [hcode]; trivial)
        · exact hcore.ready_ne_nil hne
      obtain ⟨n, k', ready', hdisp, -, hmem, hn, hst, hk'⟩ := hcore.dispatch hnil
      have hns : k.state n = .ready := hcore.listed.state_of_mem_ready hmem
      rw [Scheduler.exec, hdisp]
      -- only the two threads that change places have a new state
      have hpt : ∀ p, k'.state p = k.state p ∨ (k.state p = .ready ∨ k.state p = .running) ∧
          (k'.state p = .running ∨ k'.state p = .ready) := by
        intro p
        rcases hst with ⟨hrun, hst⟩ | ⟨-, hst⟩
        · rw [hst]
          rcases eq_or_ne p k.tp with rfl | hpt
          · exact .inr ⟨.inr hrun, .inr (Function.update_self ..)⟩
          · rcases eq_or_ne p n with rfl | hpn
            · exact .inr ⟨.inl hns, .inl (by simp [hpt])⟩
            · exact .inl (by simp [hpt, hpn])
        · rw [hst]
          rcases eq_or_ne p n with rfl | hpn
          · exact .inr ⟨.inl hns, .inl (Function.update_self ..)⟩
          · exact .inl (Function.update_of_ne hpn _ _)
      have h₁ : Tree nthr { k with state := k'.state } := by
        refine h.setStates (fun p => ?_) (fun p ha => ?_) (fun p hu => ?_) fun p haw => ?_
        · rcases hpt p with he | ⟨h₁ | h₁, h₂ | h₂⟩
          · rw [he]
          all_goals simp [h₁, h₂]
        · rcases hpt p with he | ⟨h₁ | h₁, -⟩
          · rwa [he] at ha
          · exact .inr (.inr h₁)
          · exact .inr (.inl h₁)
        · rcases hpt p with he | ⟨-, h₂ | h₂⟩
          · rwa [he] at hu
          · cases h₂.symm.trans hu
          · cases h₂.symm.trans hu
        · rcases hpt p with he | ⟨h₁ | h₁, -⟩
          · exact .inl ⟨he.trans haw.1, rfl⟩
          · cases h₁.symm.trans haw.1
          · cases h₁.symm.trans haw.1
      rw [hk']
      exact h₁.kept_block (w := .suspEnable n saved) hcode rfl rfl (by simp) _ _ _ _ _ _ _
  | suspEnable next saved => exact h.kept_block hcode rfl rfl (by simp) _ _ _ _ _ _ _
  | suspSpace next saved => exact h.kept_block hcode rfl rfl (by simp) _ _ _ _ _ _ _
  | suspSwtch next saved =>
      have hrun : k.state next = .running := (hcore.listed.running next).mpr rfl
      have hn : next ≠ k.tp := by
        rintro rfl
        rcases hcur with ⟨hs | hs, -⟩ | ⟨hs, -⟩ <;> cases hrun.symm.trans hs
      refine h.swtch hn (hcore.parked next hn (.inr (.inl hrun))) fun ha => ?_
      have := h.joins k.tp ha
      rw [hcode] at this
      exact this.advance rfl rfl fun he => by cases he
  | suspResumed saved =>
      obtain ⟨hrun, hK⟩ := hcur
      rw [Scheduler.exec, if_neg (by simp [hrun])]
      exact h.kept_block hcode rfl rfl (by simp) _ _ _ _ _ _ _
  | suspRestore saved =>
      obtain ⟨hrun, hK⟩ := hcur
      refine h.move rest (fun ha => ?_) (fun q hq => ?_) _ _ _ _ _ _ _
      · have := h.joins k.tp ha
        rw [hcode] at this
        exact this.resume rfl (by simp) hK
      · rw [ThreadTree.Conts.bcastTarget hK] at hq
        cases hq
  | spawnDisable child =>
      obtain ⟨hrun, hK⟩ := hcur
      exact h.kept_free ((h.rest_free (.inr (.inl hrun)) hcode rfl).cons rfl) rfl _ _ _ _
  | spawnInsert child saved =>
      obtain ⟨hrun, hK⟩ := hcur
      have hst : k.state child = .ready := hi.spawned child (by rw [hcode]; rfl)
      have hct : child ≠ k.tp := fun he => by cases hrun.symm.trans (he ▸ hst)
      obtain ⟨next, list, hins, -⟩ := hcore.insertReady hst hct
      rw [Scheduler.exec, hins]
      exact h.move (.spawnRestore saved :: rest)
        (fun ha => ((h.rest_free ha hcode rfl).cons rfl).joinOk) (fun q hq => by cases hq) _ _ _ _ _ _ _
  | spawnRestore saved =>
      obtain ⟨hrun, hK⟩ := hcur
      exact h.kept_free (h.rest_free (.inr (.inl hrun)) hcode rfl) (ThreadTree.Conts.bcastTarget hK) _ _ _ _
  | exitFailed => exact hcur.elim
  | joinLoop tid child =>
      obtain ⟨hrun, hK⟩ := hcur
      have ha : Alive (k.state k.tp) := .inr (.inl hrun)
      have hfree := h.rest_free ha hcode rfl
      obtain ⟨h₀, h₁, htid, hpar⟩ : 0 < tid ∧ tid < nthr ∧ k.thrtab tid = some child ∧ k.parent child = some k.tp := by
        have := h.joins k.tp ha
        rw [hcode] at this
        exact this.2 _ rfl
      rw [Scheduler.exec]
      split
      · rw [Kernel.recycleThread, htid]
        simp only [h₀, h₁, true_and]
        rw [if_pos ‹_›]
        exact h.recycle htab htid h₀ hpar ‹_› _ hK hfree
      · refine h.move (.waitEnter (.childExit k.tp) :: .joinLoop tid child :: rest) (fun _ => ⟨hfree, fun j hj => ?_⟩)
          (fun q hq => by cases hq) _ _ _ _ _ _ _
        obtain rfl := Option.some.inj hj
        exact ⟨h₀, h₁, htid, hpar⟩
  | joinAnyScan =>
      obtain ⟨hrun, hK⟩ := hcur
      have ha : Alive (k.state k.tp) := .inr (.inl hrun)
      have hfree := h.rest_free ha hcode rfl
      rw [Scheduler.exec]
      split
      · obtain ⟨h₀, h₁, c, htid, hpar, hex⟩ := find_exitedChild ‹_›
        rw [Kernel.recycleThread, htid]
        simp only [h₀, h₁, true_and]
        rw [if_pos hex]
        exact h.recycle htab htid h₀ hpar hex _ hK hfree
      · rename_i hnone
        exfalso
        have hj : Joining nthr k k.tp (.joinAnyScan :: rest) .joinAnyScan := by
          have := h.joins k.tp ha
          rw [hcode] at this
          exact this.2 _ rfl
        rcases hj with hh | hh | ⟨t, c, h₀, h₁, ht, hp, hs⟩
        · cases hh
        · cases hrun.symm.trans hh.1
        · have hmem : t ∈ Kernel.slots nthr := by
            rw [Kernel.slots, List.mem_range'_1]
            omega
          have := List.find?_eq_none.mp hnone t hmem
          simp [Kernel.isExitedChild, ht, hp, hs] at this
  | idleLoop =>
      obtain ⟨hrun, hK⟩ := hcur
      have hfree := h.rest_free (.inr (.inl hrun)) hcode rfl
      rw [Scheduler.exec]
      split
      · exact h.kept_free (hfree.cons rfl) rfl _ _ _ _
      · exact h.kept_free ((hfree.cons rfl).cons rfl) rfl _ _ _ _
  | idleDisable | idleWfi | idleEnable =>
      obtain ⟨hrun, hK⟩ := hcur
      exact h.kept_free ((h.rest_free (.inr (.inl hrun)) hcode rfl).cons rfl) rfl _ _ _ _

theorem Tree.broadcast (h : Tree nthr k) (hi : Inv nthr k ready waits) (n : Nat) :
    TreeKept nthr (k.broadcast nthr (.ext n)) := by
  unfold Kernel.broadcast
  split
  · exact h
  · obtain ⟨next, list, hwake, -⟩ := hi.core.wakeAll (.ext n)
    have h₁ : Tree nthr (woken k (waits (.ext n))) := h.wake hi.core.listed fun q hq => by cases hq
    rw [hwake]
    exact ⟨h₁.family, h₁.mainAlive, fun p ha => (h₁.joins p ha).congr (keeps_of_eq rfl rfl) (fun _ hs => hs) .inl,
      h₁.exiting, h₁.joinedNodup, h₁.joinedGone⟩

theorem Tree.setDev (h : Tree nthr k) (dev : σ) : Tree nthr { k with dev } :=
  ⟨h.family, h.mainAlive, fun p ha => (h.joins p ha).congr (keeps_of_eq rfl rfl) (fun _ hs => hs) .inl, h.exiting,
    h.joinedNodup, h.joinedGone⟩

theorem Tree.isr (h : Tree nthr k) (hi : Inv nthr k ready waits) (conds : List Nat) :
    TreeKept nthr (conds.foldlM (fun k n => k.broadcast nthr (.ext n)) k) := by
  induction conds generalizing k ready waits with
  | nil => exact h
  | cons n conds ih =>
      rw [List.foldlM_cons]
      have hb := h.broadcast hi n
      have hb' := hi.broadcast (.ext n)
      cases hr : k.broadcast nthr (.ext n) with
      | error s =>
          rw [hr] at hb
          exact hb
      | ok k' =>
          rw [hr] at hb hb'
          obtain ⟨ready', waits', hi'⟩ := hb'
          exact ih hb hi'

theorem Tree.step (h : Tree nthr k) (hi : Inv nthr k ready waits) (l : Label ι ε) :
    TreeKept nthr (step cl nthr k l) := by
  cases l with
  | run =>
      rw [Scheduler.step]
      split
      · exact h
      · exact h.exec hi ‹_›
  | call c =>
      rw [Scheduler.step]
      split
      · exact h.kept_free (.cons rfl fun pc hpc => by cases hpc) rfl _ _ _ _
      · exact h
  | isr e =>
      rw [Scheduler.step]
      split
      · exact (h.setDev _).isr (hi.setDev _) _
      · exact h
  | env e => exact h.setDev _

theorem Tree.run (h : Tree nthr k) (hi : Inv nthr k ready waits) (ls : List (Label ι ε)) :
    TreeKept nthr (run cl nthr k ls) := by
  induction ls generalizing k ready waits with
  | nil => exact h
  | cons l ls ih =>
      have hs : TreeKept nthr (Scheduler.step cl nthr k l) := h.step hi l
      have hs' : Kept nthr (Scheduler.step cl nthr k l) := hi.step l
      rw [Scheduler.run, List.foldlM_cons]
      cases hr : Scheduler.step cl nthr k l with
      | error s =>
          rw [hr] at hs
          exact hs
      | ok k' =>
          rw [hr] at hs hs'
          obtain ⟨ready', waits', hi'⟩ := hs'
          exact ih hs hi'

end Exec

theorem tree_threadInit (hn : 2 ≤ nthr) (dev : σ) (satp : Nat) (sie : Bool) :
    Tree nthr (threadInit nthr dev satp sie : Kernel σ ι) := by
  have hmi : mainThread ≠ idleThread := by decide
  have htab : ∀ t, (threadInit nthr dev satp sie : Kernel σ ι).thrtab t =
      if t = nthr - 1 then some idleThread else if t = 0 then some mainThread else none := fun t => by
    simp [threadInit, Function.update_apply, mainThread]
  have hmain : (threadInit nthr dev satp sie : Kernel σ ι).thrtab 0 = some mainThread := by
    rw [htab, if_neg (by omega), if_pos rfl]
  have hidle : (threadInit nthr dev satp sie : Kernel σ ι).parent idleThread = some mainThread := by
    simp [threadInit]
  have hcases : ∀ t p, (threadInit nthr dev satp sie : Kernel σ ι).thrtab t = some p → p = idleThread ∨ p = mainThread := by
    intro t p hp
    rw [htab] at hp
    split at hp
    · exact .inl (Option.some.inj hp).symm
    · split at hp
      · exact .inr (Option.some.inj hp).symm
      · cases hp
  refine ⟨⟨hmain, ?_, fun t p hp hne => ?_, fun t p hp => ?_⟩, ?_, fun p _ => ?_, (fun q hq => by cases hq),
    List.nodup_nil, fun p hp => absurd hp List.not_mem_nil⟩
  · simp [threadInit, hmi]
  · obtain rfl := (hcases t p hp).resolve_right hne
    exact ⟨mainThread, 0, hidle, hmain⟩
  · rcases hcases t p hp with rfl | rfl
    · exact .single hidle
    · exact .refl
  · simp [threadInit, hmi]
  · refine JoinFree.joinOk fun pc hpc => ?_
    rcases eq_or_ne p idleThread with rfl | hne
    · have : pc = .idleLoop := by simpa [threadInit] using hpc
      rw [this]
      rfl
    · simp [threadInit, hne] at hpc

/-- In every run from thread_init thrtab[t] is the thread with id t, the parents of the
threads in it form a tree with root main, recycle_thread gets a thread at most once, and
neither the panic of thread_join_any nor the assertion of thread_exit about the parent is
reached. -/
theorem run_threadTree (cl : Client σ ι ε) (hn : 2 ≤ nthr) (dev : σ) (satp : Nat) (sie : Bool)
    (ls : List (Label ι ε)) :
    (∀ k, run cl nthr (threadInit nthr dev satp sie) ls = .ok k →
      (∀ t p, k.thrtab t = some p → k.id p = t) ∧
      (∀ t p, k.thrtab t = some p → p ≠ mainThread → ∃ q u, k.parent p = some q ∧ k.thrtab u = some q) ∧
      (∀ t p, k.thrtab t = some p → Leads k.parent p mainThread) ∧
      k.joined.Nodup ∧ ∀ p ∈ k.joined, ∀ t, k.thrtab t ≠ some p) ∧
    ∀ s, run cl nthr (threadInit nthr dev satp sie) ls = .error s →
      s ≠ .spuriousChildExit ∧ s ≠ .assert .parent ∧ s ≠ .assert .recycle := by
  have hi : Inv nthr (threadInit nthr dev satp sie : Kernel σ ι) [idleThread] fun _ => [] :=
    inv_threadInit hn dev satp sie
  have h : TreeKept nthr (run cl nthr (threadInit nthr dev satp sie) ls) := (tree_threadInit hn dev satp sie).run hi ls
  have hk : Kept nthr (run cl nthr (threadInit nthr dev satp sie) ls) := hi.run ls
  refine ⟨fun k hr => ?_, fun s hr => ?_⟩
  · rw [hr] at h hk
    obtain ⟨ready, waits, hk⟩ := hk
    have h : Tree nthr k := h
    exact ⟨fun t p hp => (hk.core.table.slot t p hp).2.1, h.family.closed, h.family.reaches, h.joinedNodup,
      fun p hp => (h.joinedGone p hp).1⟩
  · rw [hr] at h
    exact h

/-- The spawned thread exits and main gets its id. -/
def spawnExitJoin : List (Label Empty Empty) := spawnAndJoin ++ .call .threadExit :: List.replicate 25 .run

theorem run_threadTree_spawnExitJoin : ∃ k, run noDrivers 16 (threadInit 16 () 0 true) spawnExitJoin = .ok k ∧
    k.joined = [2] ∧ k.ret mainThread = 1 ∧ k.thrtab 1 = none ∧
    ∀ t p, k.thrtab t = some p → Leads k.parent p mainThread := by
  have hn : 2 ≤ 16 := by decide
  obtain ⟨h, -⟩ := run_threadTree noDrivers hn () 0 true spawnExitJoin
  have hview : ((run noDrivers 16 (threadInit 16 () 0 true) spawnExitJoin).toOption.map fun k =>
      (k.joined, k.ret mainThread, k.thrtab 1)) = some ([2], 1, none) := by decide +kernel
  cases hr : run noDrivers 16 (threadInit 16 () 0 true) spawnExitJoin with
  | error s =>
      rw [hr] at hview
      cases hview
  | ok k =>
      rw [hr] at hview
      simp only [Except.toOption, Option.map_some, Option.some.injEq, Prod.mk.injEq] at hview
      exact ⟨k, rfl, hview.1, hview.2.1, hview.2.2, (h k hr).2.2.1⟩

end RiscvKernel.ThreadTree
