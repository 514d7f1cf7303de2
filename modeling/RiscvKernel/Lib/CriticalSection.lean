import Mathlib

/-! Calls of threads on a shared state, one action after the other, most of them under a lock. A
thread that finds the lock taken sleeps; it is woken when the lock is given back, and takes the
lock then without looking at it again. -/

namespace RiscvKernel.Lib.CriticalSection

variable {σ α β ι C : Type}

/-- A program on a shared state; what follows an action depends on the state it found. -/
inductive Prog (σ α : Type)
  | done (a : α)
  | act (f : σ → σ) (next : σ → Prog σ α)

namespace Prog

def run : Prog σ α → σ → α × σ
  | done a, s => (a, s)
  | act f next, s => (next s).run (f s)

/-- What a program that runs alone gives, if it gives something. -/
def result (p : Prog σ (Option β)) (s : σ) : Option (β × σ) := (p.run s).1.map fun b => (b, (p.run s).2)

theorem result_act (f : σ → σ) (next : σ → Prog σ (Option β)) (s : σ) :
    (act f next).result s = (next s).result (f s) := rfl

/-- The program p at s comes to q at t. -/
inductive Reaches (p : Prog σ α) (s : σ) : Prog σ α → σ → Prop
  | refl : Reaches p s p s
  | act {f : σ → σ} {next : σ → Prog σ α} {t : σ} (h : Reaches p s (act f next) t) : Reaches p s (next t) (f t)

/-- No action of the program has to do with what g does to the state or takes from it. -/
def Indep (g : σ → β × σ) : Prog σ α → Prop
  | done _ => True
  | act f next => ∀ s, (g (f s)).1 = (g s).1 ∧ (g (f s)).2 = f (g s).2 ∧ next (g s).2 = next s ∧ (next s).Indep g

theorem Reaches.run_eq {p q : Prog σ α} {s t : σ} (h : Reaches p s q t) : q.run t = p.run s := by
  induction h with
  | refl => rfl
  | act h ih => exact ih

theorem Reaches.indep {g : σ → β × σ} {p q : Prog σ α} {s t : σ} (hp : p.Indep g) (h : Reaches p s q t) :
    Reaches p (g s).2 q (g t).2 ∧ (g t).1 = (g s).1 ∧ q.Indep g := by
  induction h with
  | refl => exact ⟨.refl, rfl, hp⟩
  | act h ih =>
      rename_i f next t
      obtain ⟨hr, hres, hq⟩ := ih
      obtain ⟨hf, hstate, hnext, hrest⟩ := hq t
      have hact := hr.act
      rw [← hstate, hnext] at hact
      exact ⟨hact, hf.trans hres, hrest⟩

end Prog

/-- Calls of an object: one that is locked runs its body under the lock, where a result none means
that it does not get to the release; the others are one action, which has nothing to do with the
bodies that it stays apart from. -/
structure Object (σ C β : Type) where
  locked : C → Bool
  body : C → Prog σ (Option β)
  atom : C → σ → β × σ
  apart : C → C → Prop
  indep : ∀ c c', locked c = true → locked c' = false → apart c c' → (body c).Indep (atom c')

/-- A call that runs alone. -/
def Object.call (o : Object σ C β) (c : C) (s : σ) : Option (β × σ) :=
  if o.locked c then (o.body c).result s else some (o.atom c s)

/-- Calls one after the other, each with its result. -/
inductive Serial (o : Object σ C β) (s : σ) : List (C × β) → σ → Prop
  | nil : Serial o s [] s
  | snoc {log : List (C × β)} {t t' : σ} {c : C} {b : β} (h : Serial o s log t) (hc : o.call c t = some (b, t')) :
      Serial o s (log ++ [(c, b)]) t'

inductive Pc (σ C β : Type)
  | idle
  | asleep (c : C)
  | woken (c : C)
  | inside (c : C) (p : Prog σ (Option β))

namespace Pc

def isInside : Pc σ C β → Bool
  | inside _ _ => true
  | _ => false

/-- The call for which a thread sleeps or goes on. -/
def waitsFor : Pc σ C β → Option C
  | asleep c | woken c => some c
  | _ => none

/-- All sleepers are woken. -/
def wake : Pc σ C β → Pc σ C β
  | asleep c => woken c
  | q => q

theorem isInside_wake (q : Pc σ C β) : q.wake.isInside = q.isInside := by
  cases q <;> rfl

theorem waitsFor_wake (q : Pc σ C β) : q.wake.waitsFor = q.waitsFor := by
  cases q <;> rfl

end Pc

/-- The state, the holder of the lock, the threads, and the calls that have returned. -/
structure Config (σ ι C β : Type) where
  state : σ
  lock : Option ι
  pc : ι → Pc σ C β
  log : List (C × β)

/-- Before any call. -/
def start (ι : Type) (C β : Type) (s : σ) : Config σ ι C β := ⟨s, none, fun _ => .idle, []⟩

section Steps

variable [DecidableEq ι] (o : Object σ C β)

inductive Step (k : Config σ ι C β) : Config σ ι C β → Prop
  | enter (i : ι) (c : C) (hpc : k.pc i = .idle) (hlocked : o.locked c = true) (hfree : k.lock = none) :
      Step k { k with lock := some i, pc := Function.update k.pc i (.inside c (o.body c)) }
  | sleep (i : ι) (c : C) (hpc : k.pc i = .idle) (hlocked : o.locked c = true) (htaken : k.lock ≠ none) :
      Step k { k with pc := Function.update k.pc i (.asleep c) }
  | resume (i : ι) {c : C} (hpc : k.pc i = .woken c) :
      Step k { k with lock := some i, pc := Function.update k.pc i (.inside c (o.body c)) }
  | act (i : ι) {c : C} {f : σ → σ} {next : σ → Prog σ (Option β)} (hpc : k.pc i = .inside c (.act f next)) :
      Step k { k with state := f k.state, pc := Function.update k.pc i (.inside c (next k.state)) }
  | release (i : ι) {c : C} {b : β} (hpc : k.pc i = .inside c (.done (some b))) :
      Step k { k with lock := none, pc := Function.update (fun j => (k.pc j).wake) i .idle, log := k.log ++ [(c, b)] }
  | atom (i : ι) (c : C) (hpc : k.pc i = .idle) (hlocked : o.locked c = false)
      (hapart : ∀ j c' p, k.pc j = .inside c' p → o.apart c' c) :
      Step k { k with state := (o.atom c k.state).2, log := k.log ++ [(c, (o.atom c k.state).1)] }

/-- A woken thread that goes on in this step finds the lock free. -/
def WokenFree (k k' : Config σ ι C β) : Prop := ∀ i c, k.pc i = .woken c → k'.pc i ≠ .woken c → k.lock = none

/-- A step in which no thread takes the lock from another one. -/
def FreeStep (k k' : Config σ ι C β) : Prop := Step o k k' ∧ WokenFree k k'

/-- The calls that have returned ran one after the other, and a call inside has begun behind them. -/
inductive Inv (s₀ : σ) (k : Config σ ι C β) : Prop
  | free (hlock : k.lock = none) (hinside : ∀ j, (k.pc j).isInside = false) (hserial : Serial o s₀ k.log k.state)
  | held {i : ι} {c : C} {p : Prog σ (Option β)} {s : σ} (hlock : k.lock = some i) (hpc : k.pc i = .inside c p)
      (hinside : ∀ j, (k.pc j).isInside = true → j = i) (hserial : Serial o s₀ k.log s) (hlocked : o.locked c = true)
      (hreaches : (o.body c).Reaches s p k.state)

variable {o} {s₀ : σ} {k k' : Config σ ι C β}

/-- A thread waits in a locked call only. -/
def Waits (o : Object σ C β) (k : Config σ ι C β) : Prop := ∀ i c, (k.pc i).waitsFor = some c → o.locked c = true

omit [DecidableEq ι] in
theorem Inv.only (hi : Inv o s₀ k) {i : ι} {c : C} {p : Prog σ (Option β)} (hpc : k.pc i = .inside c p) :
    k.lock = some i ∧ (∀ j, (k.pc j).isInside = true → j = i) ∧
      ∃ s, Serial o s₀ k.log s ∧ o.locked c = true ∧ (o.body c).Reaches s p k.state := by
  have hin : (k.pc i).isInside = true := by
    rw [hpc]
    rfl
  cases hi with
  | free hlock hinside => exact absurd ((hinside i).symm.trans hin) (by decide)
  | held hlock hpc' hinside hserial hlocked hreaches =>
      obtain rfl := hinside i hin
      obtain ⟨rfl, rfl⟩ := Pc.inside.inj (hpc.symm.trans hpc')
      exact ⟨hlock, hinside, _, hserial, hlocked, hreaches⟩

theorem isInside_update {f : ι → Pc σ C β} {i j : ι} {q : Pc σ C β} (hq : q.isInside = false) :
    (Function.update f i q j).isInside = true → (f j).isInside = true ∧ j ≠ i := by
  intro h
  by_cases hj : j = i
  · rw [hj, Function.update_self, hq] at h
    cases h
  · rw [Function.update_of_ne hj] at h
    exact ⟨h, hj⟩

/-- A thread takes the free lock for a call. -/
theorem Inv.take (hi : Inv o s₀ k) (i : ι) {c : C} (hlocked : o.locked c = true) (hfree : k.lock = none) :
    Inv o s₀ { k with lock := some i, pc := Function.update k.pc i (.inside c (o.body c)) } := by
  cases hi with
  | held hlock =>
      rw [hfree] at hlock
      cases hlock
  | free hlock hinside hserial =>
      refine .held rfl (Function.update_self ..) (fun j h => ?_) hserial hlocked .refl
      by_contra hj
      dsimp only at h
      rw [Function.update_of_ne hj, hinside j] at h
      cases h

theorem Inv.step (hw : Waits o k) (hi : Inv o s₀ k) (hs : FreeStep o k k') : Inv o s₀ k' := by
  obtain ⟨hs, hfree⟩ := hs
  cases hs with
  | enter i c hpc hlocked hlock => exact hi.take i hlocked hlock
  | resume i hpc =>
      rename_i c
      refine hi.take i (hw i c (by rw [hpc]; rfl)) (hfree i c hpc ?_)
      dsimp only
      rw [Function.update_self]
      simp
  | sleep i c hpc hlocked htaken =>
      cases hi with
      | free hlock => exact absurd hlock htaken
      | held hlock hpc' hinside hserial hlocked' hreaches =>
          rename_i i' c' p s
          have hne : i' ≠ i := fun he => by
            rw [he, hpc] at hpc'
            cases hpc'
          exact .held hlock ((Function.update_of_ne hne _ _).trans hpc') (fun j h => hinside j (isInside_update rfl h).1)
            hserial hlocked' hreaches
  | act i hpc =>
      rename_i c f next
      obtain ⟨hlock, hinside, s, hserial, hlocked, hreaches⟩ := hi.only hpc
      refine .held hlock (Function.update_self ..) (fun j h => ?_) hserial hlocked hreaches.act
      by_contra hj
      dsimp only at h
      rw [Function.update_of_ne hj] at h
      exact hj (hinside j h)
  | release i hpc =>
      rename_i c b
      obtain ⟨hlock, hinside, s, hserial, hlocked, hreaches⟩ := hi.only hpc
      refine .free rfl (fun j => Bool.eq_false_iff.mpr fun h => ?_) (hserial.snoc ?_)
      · dsimp only at h
        obtain ⟨h, hj⟩ := isInside_update rfl h
        exact hj (hinside j ((Pc.isInside_wake _).symm.trans h))
      · rw [Object.call, if_pos hlocked, Prog.result, ← hreaches.run_eq]
        rfl
  | atom i c hpc hlocked hapart =>
      cases hi with
      | free hlock hinside hserial =>
          refine .free hlock hinside (hserial.snoc ?_)
          rw [Object.call, if_neg (by rw [hlocked]; exact Bool.false_ne_true)]
      | held hlock hpc' hinside hserial hlocked' hreaches =>
          obtain ⟨hreaches', hres, -⟩ := hreaches.indep (o.indep _ _ hlocked' hlocked (hapart _ _ _ hpc'))
          refine .held hlock hpc' hinside (hserial.snoc ?_) hlocked' hreaches'
          rw [Object.call, if_neg (by rw [hlocked]; exact Bool.false_ne_true), hres]

theorem Waits.step (hw : Waits o k) (hs : Step o k k') : Waits o k' := by
  intro j c' hj
  cases hs with
  | enter i c hpc hlocked | resume i hpc | act i hpc =>
      by_cases hji : j = i
      · rw [hji] at hj
        dsimp only at hj
        rw [Function.update_self] at hj
        cases hj
      · dsimp only at hj
        rw [Function.update_of_ne hji] at hj
        exact hw j c' hj
  | sleep i c hpc hlocked =>
      by_cases hji : j = i
      · rw [hji] at hj
        dsimp only at hj
        rw [Function.update_self] at hj
        cases hj
        exact hlocked
      · dsimp only at hj
        rw [Function.update_of_ne hji] at hj
        exact hw j c' hj
  | release i hpc =>
      by_cases hji : j = i
      · rw [hji] at hj
        dsimp only at hj
        rw [Function.update_self] at hj
        cases hj
      · dsimp only at hj
        rw [Function.update_of_ne hji, Pc.waitsFor_wake] at hj
        exact hw j c' hj
  | atom => exact hw j c' hj

/-- As long as the woken threads find the lock free, one thread at most is inside a call, and the
calls that have returned have the results they have one after the other, in the order in which
they returned. -/
theorem Inv.run (hr : Relation.ReflTransGen (FreeStep o) (start ι C β s₀) k) : Waits o k ∧ Inv o s₀ k := by
  induction hr with
  | refl => exact ⟨fun i c h => (by cases h), .free rfl (fun _ => rfl) .nil⟩
  | tail _ hs ih => exact ⟨ih.1.step hs.1, ih.2.step ih.1 hs⟩

omit [DecidableEq ι] in
/-- One thread at most is inside. -/
theorem Inv.one_inside (hi : Inv o s₀ k) {i j : ι} (hin : (k.pc i).isInside = true) (hin' : (k.pc j).isInside = true) :
    i = j := by
  cases hi with
  | free hlock hinside => exact absurd ((hinside i).symm.trans hin) (by decide)
  | held hlock hpc hinside => exact (hinside i hin).trans (hinside j hin').symm

omit [DecidableEq ι] in
theorem Inv.serial (hi : Inv o s₀ k) : ∃ s, Serial o s₀ k.log s ∧ (k.lock = none → s = k.state) := by
  cases hi with
  | free hlock hinside hserial => exact ⟨_, hserial, fun _ => rfl⟩
  | held hlock hpc hinside hserial =>
      refine ⟨_, hserial, fun h => ?_⟩
      rw [hlock] at h
      cases h

/-- A step of a thread that was not woken, which leaves the woken threads as they are. -/
theorem freeStep_of_same (hs : Step o k k') (h : ∀ i c, k.pc i = .woken c → k'.pc i = .woken c) : FreeStep o k k' :=
  ⟨hs, fun i c hw hne => absurd (h i c hw) hne⟩

/-- A thread inside a call can do what is left of it alone. -/
theorem runs_inside {i : ι} {c : C} (p : Prog σ (Option β)) (hpc : k.pc i = .inside c p) :
    Relation.ReflTransGen (FreeStep o) k
      { k with state := (p.run k.state).2, pc := Function.update k.pc i (.inside c (.done (p.run k.state).1)) } := by
  induction p generalizing k with
  | done a =>
      have hsame : Function.update k.pc i (.inside c (.done a)) = k.pc := by
        rw [← hpc]
        exact Function.update_eq_self ..
      rw [Prog.run, hsame]
  | act f next ih =>
      refine Relation.ReflTransGen.head (freeStep_of_same (Step.act i hpc) fun j c' hw => ?_) ?_
      · have hne : j ≠ i := fun he => by
          rw [he, hpc] at hw
          cases hw
        exact (Function.update_of_ne hne _ _).trans hw
      · have hrest := @ih k.state { k with state := f k.state, pc := Function.update k.pc i (.inside c (next k.state)) }
          (Function.update_self ..)
        simpa only [Function.update_idem, Prog.run] using hrest

theorem body_result {s t : σ} {c : C} {b : β} (hlocked : o.locked c = true) (hc : o.call c s = some (b, t)) :
    ((o.body c).run s).1 = some b ∧ ((o.body c).run s).2 = t := by
  rw [Object.call, if_pos hlocked, Prog.result] at hc
  obtain ⟨b', hb, he⟩ := Option.map_eq_some_iff.mp hc
  obtain ⟨rfl, rfl⟩ := Prod.mk.inj he
  exact ⟨hb, rfl⟩

/-- A thread that has the lock finishes its call, and wakes the others. -/
theorem runs_finish {s t : σ} {c : C} {b : β} (i : ι) (hlocked : o.locked c = true) (hc : o.call c s = some (b, t))
    {pc : ι → Pc σ C β} (hpc : pc i = .inside c (o.body c)) (log : List (C × β)) :
    Relation.ReflTransGen (FreeStep o) ⟨s, some i, pc, log⟩
      ⟨t, none, Function.update (fun j => (pc j).wake) i .idle, log ++ [(c, b)]⟩ := by
  obtain ⟨hb, rfl⟩ := body_result hlocked hc
  refine (runs_inside (o := o) (k := ⟨s, some i, pc, log⟩) _ hpc).tail ?_
  have hdone : Function.update pc i (.inside c (.done ((o.body c).run s).1)) i = .inside c (.done (some b)) := by
    rw [Function.update_self, hb]
  have hrelease := @Step.release _ _ _ _ _ o (⟨((o.body c).run s).2, some i, Function.update pc i
    (.inside c (.done ((o.body c).run s).1)), log⟩ : Config σ ι C β) i c b hdone
  have hsame : Function.update (fun j => (Function.update pc i (.inside c (.done ((o.body c).run s).1)) j).wake) i .idle =
      Function.update (fun j => (pc j).wake) i (.idle : Pc σ C β) := by
    funext j
    by_cases hj : j = i
    · rw [hj, Function.update_self, Function.update_self]
    · rw [Function.update_of_ne hj, Function.update_of_ne hj, Function.update_of_ne hj]
  dsimp only at hrelease
  rw [hsame] at hrelease
  refine freeStep_of_same hrelease fun j c' hw => ?_
  have hne : j ≠ i := fun he => by
    dsimp only at hw
    rw [he, Function.update_self] at hw
    cases hw
  dsimp only at hw ⊢
  rw [Function.update_of_ne hne] at hw ⊢
  rw [hw]
  rfl

theorem wake_idle (i : ι) (q : Pc σ C β) :
    Function.update (fun j => (Function.update (fun _ : ι => (.idle : Pc σ C β)) i q j).wake) i .idle = fun _ => .idle := by
  funext j
  by_cases hj : j = i
  · rw [hj, Function.update_self]
  · rw [Function.update_of_ne hj, Function.update_of_ne hj]
    rfl

/-- A second thread calls while the first one is inside, sleeps and is woken. -/
theorem runs_woken {s t : σ} {log : List (C × β)} {c c' : C} {b : β} {i j : ι} (hij : i ≠ j) (hlocked : o.locked c = true)
    (hlocked' : o.locked c' = true) (hc : o.call c s = some (b, t)) :
    Relation.ReflTransGen (FreeStep o) (⟨s, none, fun _ => .idle, log⟩ : Config σ ι C β)
      ⟨t, none, Function.update (fun _ => .idle) j (.woken c'), log ++ [(c, b)]⟩ := by
  have hidle : Function.update (fun _ : ι => (.idle : Pc σ C β)) i (.inside c (o.body c)) j = .idle :=
    Function.update_of_ne hij.symm ..
  have hinside : Function.update (Function.update (fun _ : ι => (.idle : Pc σ C β)) i (.inside c (o.body c))) j (.asleep c') i =
      .inside c (o.body c) := by rw [Function.update_of_ne hij, Function.update_self]
  have hpc : Function.update (fun l => (Function.update (Function.update (fun _ : ι => (.idle : Pc σ C β)) i
      (.inside c (o.body c))) j (.asleep c') l).wake) i .idle = Function.update (fun _ => .idle) j (.woken c') := by
    funext l
    by_cases hl : l = j
    · rw [hl, Function.update_of_ne hij.symm, Function.update_self, Function.update_self]
      rfl
    · rw [Function.update_of_ne (a := l) hl]
      by_cases hli : l = i
      · rw [hli, Function.update_self]
      · rw [Function.update_of_ne hli, Function.update_of_ne hl, Function.update_of_ne hli]
        rfl
  have henter : FreeStep o (⟨s, none, fun _ => .idle, log⟩ : Config σ ι C β) _ :=
    freeStep_of_same (Step.enter i c rfl hlocked rfl) fun _ _ h => by cases h
  have hsleep := @Step.sleep _ _ _ _ _ o (⟨s, some i, Function.update (fun _ => .idle) i (.inside c (o.body c)), log⟩ :
    Config σ ι C β) j c' hidle hlocked' (by simp)
  have hnone : ∀ l c'', Function.update (fun _ : ι => (.idle : Pc σ C β)) i (.inside c (o.body c)) l ≠ .woken c'' := by
    intro l c''
    by_cases hl : l = i
    · rw [hl, Function.update_self]
      simp
    · rw [Function.update_of_ne hl]
      simp
  have hfinish := runs_finish i hlocked hc hinside log
  rw [hpc] at hfinish
  exact .head henter (.head (freeStep_of_same hsleep fun l c'' h => absurd h (hnone l c'')) hfinish)

/-- The woken thread goes on when the lock is free. -/
theorem runs_resume {s t : σ} {log : List (C × β)} {c : C} {b : β} (i : ι) (hlocked : o.locked c = true)
    (hc : o.call c s = some (b, t)) :
    Relation.ReflTransGen (FreeStep o) (⟨s, none, Function.update (fun _ => .idle) i (.woken c), log⟩ : Config σ ι C β)
      ⟨t, none, fun _ => .idle, log ++ [(c, b)]⟩ := by
  have hresume := @Step.resume _ _ _ _ _ o (⟨s, none, Function.update (fun _ => .idle) i (.woken c), log⟩ :
    Config σ ι C β) i c (Function.update_self i (Pc.woken c) fun _ : ι => Pc.idle)
  dsimp only at hresume
  rw [Function.update_idem] at hresume
  have hfinish := runs_finish i hlocked hc (Function.update_self i (Pc.inside c (o.body c)) fun _ : ι => Pc.idle) log
  rw [wake_idle] at hfinish
  exact .head ⟨hresume, fun _ _ _ _ => rfl⟩ hfinish

end Steps

end RiscvKernel.Lib.CriticalSection
