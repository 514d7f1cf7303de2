import RiscvKernel.StepFrame

namespace RiscvKernel.CallReturn

open Thread Scheduler SchedulerInv StepFrame

variable {σ ι ε : Type} {nthr : Nat}

/-- The thread p goes on with K for the first time at the end of the run. -/
def Returns (cl : Client σ ι ε) (nthr : Nat) (p : Ptr) (K : List (Pc ι)) :
    Kernel σ ι → List (Label ι ε) → Kernel σ ι → Prop
  | k, [], k' => k.code p = K ∧ k' = k
  | k, l :: ls, k' => k.code p ≠ K ∧ ∃ k₁, step cl nthr k l = .ok k₁ ∧ Returns cl nthr p K k₁ ls k'

/-- The thread p is inside a call that goes back to K with SIE = b. -/
def Inside (d : Discipline ι) (p : Ptr) (K : List (Pc ι)) (b : Bool) (k : Kernel σ ι) : Prop :=
  ∃ new, k.code p = new ++ K ∧ (k.tp = p → Ends d k.sie new b) ∧ (k.tp ≠ p → new ≠ [] ∧ ∀ b', Ends d b' new b)

section Calls

variable {cl : Client σ ι ε} {d : Discipline ι} {p : Ptr} {K : List (Pc ι)} {b : Bool} {k k' : Kernel σ ι}

theorem inside_call (ht : Typed nthr d k) {c : Call ι} (hcode : k.code k.tp = .call c :: K) :
    Inside d k.tp K (outCall d c k.sie) k :=
  ⟨[.call c], hcode, fun _ => ⟨ht.need hcode, .inr rfl⟩, fun h => absurd rfl h⟩

/-- Where nothing of the thread p has changed it is as far as it was. -/
theorem Inside.same (h : Inside d p K b k) (hcode : k'.code p = k.code p) (htp : k'.tp = k.tp)
    (hsie : k'.sie = k.sie) : Inside d p K b k' := by
  obtain ⟨new, hnew, hcur, hpark⟩ := h
  exact ⟨new, hcode.trans hnew, fun hp => by rw [hsie]; exact hcur (htp ▸ hp), fun hp => hpark (htp ▸ hp)⟩

theorem Inside.step (hd : Obeys d cl) (ht : Typed nthr d k) (h : Inside d p K b k) (hne : k.code p ≠ K) {l : Label ι ε}
    (hs : step cl nthr k l = .ok k') : Inside d p K b k' := by
  cases ht.trans hs with
  | idle _ _ same => exact same ▸ h
  | env e same =>
      subst same
      exact h.same rfl rfl rfl
  | isr e sie woke =>
      have hsame := woke.same
      exact h.same (by rw [hsame]) (by rw [hsame]) (by rw [hsame])
  | call c code may same =>
      subst same
      obtain ⟨new, hnew, hcur, hpark⟩ := h
      rcases eq_or_ne p k.tp with rfl | hp
      · refine absurd ?_ hne
        rw [code] at hnew ⊢
        exact (List.append_eq_nil_iff.mp hnew.symm).2.symm
      · exact ⟨new, by rw [setCode_code_of_ne k _ hp]; exact hnew, fun he => absurd he.symm hp, fun _ => hpark hp.symm⟩
  | run pc rest code frame =>
      obtain ⟨new, hnew, hcur, hpark⟩ := h
      rcases eq_or_ne p k.tp with rfl | hp
      · obtain ⟨new, rfl, hrest⟩ : ∃ new', new = pc :: new' ∧ rest = new' ++ K := by
          cases new with
          | nil => exact absurd hnew hne
          | cons q new' =>
              rw [code] at hnew
              obtain ⟨rfl, he⟩ := List.cons.inj hnew
              exact ⟨new', rfl, he⟩
        have hends := hcur rfl
        cases frame.flow with
        | stays new' tp code' becomes ends =>
            exact ⟨new' ++ new, by rw [code', hrest, List.append_assoc], fun _ => ends d hd new b hends,
              fun hp => absurd tp hp⟩
        | switches saved pc_eq ne code' =>
            subst pc_eq
            refine ⟨.suspResumed saved :: new, by rw [code', hrest]; rfl, fun he => absurd he ne, fun _ => ⟨(fun h => by cases h), fun b' => ?_⟩⟩
            exact ⟨trivial, .inr (hends.2.resolve_left (fun h => by cases h))⟩
      · obtain ⟨hnil, hends⟩ := hpark hp.symm
        exact ⟨new, (frame.code p hp).trans hnew, fun _ => hends _, fun _ => ⟨hnil, hends⟩⟩

/-- A call returns with the value of SIE that the discipline gives it. -/
theorem Inside.returns (hd : Obeys d cl) {ls : List (Label ι ε)} (ht : Typed nthr d k) (h : Inside d p K b k)
    (hr : Returns cl nthr p K k ls k') : k'.tp = p ∧ k'.sie = b := by
  induction ls generalizing k with
  | nil =>
      obtain ⟨hcode, rfl⟩ := hr
      obtain ⟨new, hnew, hcur, hpark⟩ := h
      obtain rfl : new = [] := List.append_left_eq_self.mp (hnew.symm.trans hcode)
      by_cases hp : k'.tp = p
      · exact ⟨hp, hcur hp⟩
      · exact absurd rfl (hpark hp).1
  | cons l ls ih =>
      obtain ⟨hne, k₁, hs, hr⟩ := hr
      exact ih (ht.step hd hs) (h.step hd ht hne hs) hr

theorem sie_of_returns (hd : Obeys d cl) {ls : List (Label ι ε)} (ht : Typed nthr d k) {c : Call ι}
    (hcode : k.code k.tp = .call c :: K) (hr : Returns cl nthr k.tp K k ls k') : k'.sie = outCall d c k.sie :=
  ((inside_call ht hcode).returns hd ht hr).2

/-- A run during which the thread always has something to do, and at its end nothing. -/
theorem returns_nil {ls : List (Label ι ε)} (hbusy : along cl nthr (fun k _ => !(k.code p).isEmpty) k ls = true)
    (hr : run cl nthr k ls = .ok k') (hcode : k'.code p = []) : Returns cl nthr p [] k ls k' := by
  induction ls generalizing k with
  | nil =>
      obtain rfl := Except.ok.inj hr
      exact ⟨hcode, rfl⟩
  | cons l ls ih =>
      rw [run, List.foldlM_cons] at hr
      cases hs : step cl nthr k l with
      | error s =>
          rw [hs] at hr
          cases hr
      | ok k₁ =>
          rw [hs] at hr
          rw [along, hs, Bool.and_eq_true] at hbusy
          exact ⟨by simpa using hbusy.1, k₁, hs, ih hbusy.2 hr⟩

end Calls

end RiscvKernel.CallReturn
