import RiscvKernel.Lib.PointerTree

/-! Looking up a path in a tree of tables, and what changing one entry does to it. -/

namespace RiscvKernel.Lib.PathLookup

open PointerTree

variable {P I E : Type} (L : Layout P I E)

/-- The entry of height 0 on the path v, if it is valid. -/
def lookup (valid : E → Bool) : Nat → (P → I → E) → P → (Nat → I) → Option E
  | 0, _, _, _ => none
  | 1, ram, t, v => if valid (ram t (v 0)) then some (ram t (v 0)) else none
  | k + 2, ram, t, v => (L.child (ram t (v (k + 1)))).bind fun c => lookup valid (k + 1) ram c v

/-- The table of height j that the path v reaches. -/
inductive Reaches (ram : P → I → E) (v : Nat → I) : Nat → P → Nat → P → Prop
  | root (k : Nat) (t : P) : Reaches ram v k t k t
  | step {k j : Nat} {t c q : P} (h : L.child (ram t (v k)) = some c) (hn : Reaches ram v k c j q) :
      Reaches ram v (k + 1) t j q

variable {L} {valid : E → Bool} {k j : Nat} {ram ram' : P → I → E} {t c q : P} {v v' : Nat → I} {e e' : E}

theorem Reaches.node (h : Reaches L ram v k t j q) : L.Node ram k t j q := by
  induction h with
  | root k t => exact .root k t
  | step h hn ih => exact .step h ih

theorem Reaches.le (h : Reaches L ram v k t j q) : j ≤ k := by
  induction h with
  | root k t => exact Nat.le_refl k
  | step h hn ih => omega

theorem Reaches.child (h : Reaches L ram v k t (j + 1) q) (hc : L.child (ram q (v j)) = some c) :
    Reaches L ram v k t j c := by
  generalize hj : j + 1 = j' at h
  induction h with
  | root k t =>
      subst hj
      exact .step hc (.root _ _)
  | step h hn ih => exact .step h (ih hc hj)

/-- A table stays on the path when only its own entries change. -/
theorem Reaches.set (h : Reaches L ram v k t j q) (hnd : (L.owned k ram t).Nodup)
    (hp : ∀ p ∈ L.owned k ram t, p ≠ q → ram' p = ram p) : Reaches L ram' v k t j q := by
  induction h with
  | root k t => exact .root k t
  | @step k j t c q hc hn ih =>
      have hq : q ∈ L.children k ram t (v k) := by
        rw [children_some hc]
        exact hn.node.mem
      have ht : ram' t = ram t := hp t (self_mem_owned _ _ _) fun he => root_not_mem_children hnd (v k) (he ▸ hq)
      have hsub : L.owned k ram c ⊆ L.owned (k + 1) ram t := by
        rw [← children_some (k := k) hc]
        exact children_subset (v k)
      refine .step (by rw [ht]; exact hc) (ih ?_ fun p hpc => hp p (hsub hpc))
      rw [← children_some (k := k) hc]
      exact children_nodup hnd (v k)

theorem lookup_reaches (h : Reaches L ram v k t 1 q) :
    lookup L valid k ram t v = if valid (ram q (v 0)) then some (ram q (v 0)) else none := by
  generalize hj : 1 = j at h
  induction h with
  | root k t =>
      subst hj
      rfl
  | @step k j t c q hc hn ih =>
      subst hj
      cases k with
      | zero => exact absurd hn.le (by decide)
      | succ k =>
          rw [lookup, hc, Option.bind_some]
          exact ih rfl

theorem reaches_of_lookup (h : lookup L valid k ram t v = some e) :
    ∃ q, Reaches L ram v k t 1 q ∧ ram q (v 0) = e ∧ valid e = true := by
  induction k generalizing t with
  | zero => cases h
  | succ k ih =>
      cases k with
      | zero =>
          rw [lookup] at h
          split at h
          · exact ⟨t, .root 1 t, Option.some.inj h, Option.some.inj h ▸ ‹_›⟩
          · cases h
      | succ k =>
          obtain ⟨c, hc, h⟩ := Option.bind_eq_some_iff.mp h
          obtain ⟨q, hq, he⟩ := ih h
          exact ⟨q, .step hc hq, he⟩

/-- A lookup reads tables only. -/
theorem lookup_congr (h : ∀ j q, L.Node ram k t (j + 1) q → ram' q = ram q) :
    lookup L valid k ram' t v = lookup L valid k ram t v := by
  induction k generalizing t with
  | zero => rfl
  | succ k ih =>
      have ht : ram' t = ram t := h k t (.root _ _)
      cases k with
      | zero => rw [lookup, lookup, ht]
      | succ k =>
          rw [lookup, lookup, ht]
          cases hc : L.child (ram t (v (k + 1))) with
          | none => rfl
          | some c => exact ih fun j q hn => h j q (.step hc hn)

theorem lookup_empty (hv : ∀ i, valid (ram t i) = false) (hc : ∀ i, L.child (ram t i) = none) :
    lookup L valid k ram t v = none := by
  match k with
  | 0 => rfl
  | 1 => rw [lookup, hv, if_neg (by decide)]
  | k + 2 => rw [lookup, hc, Option.bind_none]

/-- A subtree of another entry is left alone. -/
theorem lookup_other {i : I} (hnd : (L.owned (k + 1) ram t).Nodup) (hc : L.child (ram t (v k)) = some c) (hi : v k ≠ i)
    (hq : q ∈ L.children k ram t i) (hp : ∀ p ∈ L.owned (k + 1) ram t, p ≠ q → ram' p = ram p) :
    lookup L valid k ram' c v = lookup L valid k ram c v := by
  refine lookup_congr fun j p hn => hp p ?_ fun he => children_disjoint hnd hi hq ?_
  · exact children_subset (v k) (by rw [children_some hc]; exact hn.mem)
  · rw [children_some hc, ← he]
    exact hn.mem

/-- Changing the entry of height 0 on the path v changes no other lookup. -/
theorem lookup_set_ne (h : Reaches L ram v k t 1 q) (hnd : (L.owned k ram t).Nodup)
    (hp : ∀ p ∈ L.owned k ram t, p ≠ q → ram' p = ram p) (hi : ∀ i, i ≠ v 0 → ram' q i = ram q i)
    (hne : ¬ ∀ i < k, v' i = v i) : lookup L valid k ram' t v' = lookup L valid k ram t v' := by
  generalize hj : 1 = j at h
  induction h with
  | root k t =>
      subst hj
      have h0 : v' 0 ≠ v 0 := fun he => hne fun i hi => by
        obtain rfl : i = 0 := by omega
        exact he
      rw [lookup, lookup, hi _ h0]
  | @step k j t c q hc hn ih =>
      subst hj
      have hq : q ∈ L.children k ram t (v k) := by
        rw [children_some hc]
        exact hn.node.mem
      have ht : ram' t = ram t := hp t (self_mem_owned _ _ _) fun he => root_not_mem_children hnd (v k) (he ▸ hq)
      cases k with
      | zero => exact absurd hn.le (by decide)
      | succ k =>
          rw [lookup, lookup, ht]
          cases hc' : L.child (ram t (v' (k + 1))) with
          | none => rfl
          | some c' =>
              rw [Option.bind_some, Option.bind_some]
              by_cases hv : v' (k + 1) = v (k + 1)
              · obtain rfl : c' = c := Option.some.inj (hc'.symm.trans (hv ▸ hc))
                have howned : L.children (k + 1) ram t (v (k + 1)) = L.owned (k + 1) ram c' := children_some hc
                refine ih (howned ▸ children_nodup hnd _) (fun p hpc => hp p ?_) hi (fun hall => hne fun i hi => ?_) rfl
                · exact children_subset (v (k + 1)) (howned ▸ hpc)
                · rcases Nat.lt_succ_iff_lt_or_eq.mp hi with hi | rfl
                  · exact hall i hi
                  · exact hv
              · exact lookup_other hnd hc' hv hq hp

/-- A new table without entries behind an entry that led nowhere changes no lookup. -/
theorem lookup_enter {i : I} (h : L.Node ram k t (j + 2) q) (hnd : (L.owned k ram t).Nodup)
    (hp : ∀ p ∈ L.owned k ram t, p ≠ q → ram' p = ram p) (hi : ∀ i', i' ≠ i → ram' q i' = ram q i')
    (hnone : L.child (ram q i) = none)
    (hempty : ∀ c, L.child (ram' q i) = some c → ∀ i', valid (ram' c i') = false ∧ L.child (ram' c i') = none) :
    lookup L valid k ram' t v = lookup L valid k ram t v := by
  classical
  generalize hj : j + 2 = j' at h
  induction h with
  | root k t =>
      subst hj
      rw [lookup, lookup]
      by_cases hv : v (j + 1) = i
      · rw [hv, hnone]
        cases hc : L.child (ram' t i) with
        | none => rfl
        | some c => exact lookup_empty (fun i' => (hempty c hc i').1) fun i' => (hempty c hc i').2
      · rw [hi _ hv]
        cases hc : L.child (ram t (v (j + 1))) with
        | none => rfl
        | some c =>
            refine lookup_congr fun j' p hn => hp p ?_ fun he => root_not_mem_children hnd (v (j + 1)) ?_
            · exact children_subset (v (j + 1)) (by rw [children_some hc]; exact hn.mem)
            · rw [children_some hc, ← he]
              exact hn.mem
  | @step k j' t c q i₀ hc hn ih =>
      have hq : q ∈ L.children k ram t i₀ := by
        rw [children_some hc]
        exact hn.mem
      have ht : ram' t = ram t := hp t (self_mem_owned _ _ _) fun he => root_not_mem_children hnd i₀ (he ▸ hq)
      cases k with
      | zero => cases hn with | root => cases hj
      | succ k =>
          rw [lookup, lookup, ht]
          cases hc' : L.child (ram t (v (k + 1))) with
          | none => rfl
          | some c' =>
              rw [Option.bind_some, Option.bind_some]
              by_cases hv : v (k + 1) = i₀
              · obtain rfl : c' = c := Option.some.inj (hc'.symm.trans (hv ▸ hc))
                have howned : L.children (k + 1) ram t i₀ = L.owned (k + 1) ram c' := children_some hc
                refine ih (howned ▸ children_nodup hnd _) (fun p hpc => hp p ?_) hi hnone hempty hj
                exact children_subset i₀ (howned ▸ hpc)
              · exact lookup_other hnd hc' hv hq hp

/-- A node of the tree is reached by one path. -/
theorem reaches_unique {j' : Nat} (hnd : (L.owned k ram t).Nodup) (h : Reaches L ram v k t j q)
    (h' : Reaches L ram v' k t j' q) : j = j' ∧ ∀ i, j ≤ i → i < k → v i = v' i := by
  classical
  induction k generalizing t with
  | zero =>
      have hj := h.le
      have hj' := h'.le
      exact ⟨by omega, fun i _ hi => absurd hi (Nat.not_lt_zero i)⟩
  | succ k ih =>
      cases h with
      | root =>
          cases h' with
          | root => exact ⟨rfl, fun i hi hi' => by omega⟩
          | step hd hn =>
              refine absurd ?_ (root_not_mem_children hnd (v' k))
              rw [children_some hd]
              exact hn.node.mem
      | @step _ _ _ d _ hd hn =>
          have hmem : q ∈ L.children k ram t (v k) := by
            rw [children_some hd]
            exact hn.node.mem
          cases h' with
          | root => exact absurd hmem (root_not_mem_children hnd (v k))
          | @step _ _ _ d' _ hd' hn' =>
              have hmem' : q ∈ L.children k ram t (v' k) := by
                rw [children_some hd']
                exact hn'.node.mem
              have hv : v k = v' k := by
                by_contra hne
                exact children_disjoint hnd hne hmem' hmem
              obtain rfl : d = d' := Option.some.inj (hd.symm.trans (hv ▸ hd'))
              have hndc := children_nodup hnd (v k)
              rw [children_some hd] at hndc
              obtain ⟨hj, hpath⟩ := ih hndc hn hn'
              refine ⟨hj, fun i hi hi' => ?_⟩
              rcases Nat.lt_succ_iff_lt_or_eq.mp hi' with hi' | rfl
              · exact hpath i hi hi'
              · exact hv

/-- Two paths with the same page behind their entries are one. -/
theorem lookup_inj (hnd : (L.owned k ram t).Nodup) (h : lookup L valid k ram t v = some e)
    (h' : lookup L valid k ram t v' = some e') (hc : L.child e = some c) (hc' : L.child e' = some c) :
    ∀ i < k, v i = v' i := by
  obtain ⟨q, hq, he, -⟩ := reaches_of_lookup h
  obtain ⟨q', hq', he', -⟩ := reaches_of_lookup h'
  have hn : Reaches L ram v k t 0 c := hq.child (by rw [he]; exact hc)
  have hn' : Reaches L ram v' k t 0 c := hq'.child (by rw [he']; exact hc')
  exact fun i hi => (reaches_unique hnd hn hn').2 i (Nat.zero_le i) hi

end RiscvKernel.Lib.PathLookup
