import Mathlib

/-! Trees of a fixed depth whose inner nodes are tables of entries in a memory. -/

namespace RiscvKernel.Lib.PointerTree

/-- The entries of a table and which of them point to a subtree. -/
structure Layout (P I E : Type) where
  idx : List I
  nodup : idx.Nodup
  complete : ∀ i, i ∈ idx
  child : E → Option P

variable {P I E : Type} (L : Layout P I E)

/-- The nodes of the tree of depth k at t: t itself and those of its subtrees. -/
def Layout.owned : Nat → (P → I → E) → P → List P
  | 0, _, t => [t]
  | k + 1, ram, t => t :: L.idx.flatMap (fun i => (L.child (ram t i)).elim [] (owned k ram))

/-- The nodes below one entry of the table t. -/
def Layout.children (k : Nat) (ram : P → I → E) (t : P) (i : I) : List P :=
  (L.child (ram t i)).elim [] (L.owned k ram)

variable {L} {k j : Nat} {ram ram' : P → I → E} {t q : P} {i : I}

theorem owned_succ (k : Nat) (ram : P → I → E) (t : P) :
    L.owned (k + 1) ram t = t :: L.idx.flatMap (L.children k ram t) := rfl

theorem children_some {c : P} (h : L.child (ram t i) = some c) : L.children k ram t i = L.owned k ram c := by
  rw [Layout.children, h, Option.elim_some]

theorem children_none (h : L.child (ram t i) = none) : L.children k ram t i = [] := by
  rw [Layout.children, h, Option.elim_none]

theorem self_mem_owned (k : Nat) (ram : P → I → E) (t : P) : t ∈ L.owned k ram t := by
  cases k with
  | zero => exact List.mem_singleton_self t
  | succ k => exact List.mem_cons_self

theorem children_subset (i : I) : L.children k ram t i ⊆ L.owned (k + 1) ram t := by
  intro p hp
  rw [owned_succ]
  exact List.mem_cons_of_mem _ (List.mem_flatMap.mpr ⟨i, L.complete i, hp⟩)

/-- A tree is where its nodes are. -/
theorem owned_congr (h : ∀ p ∈ L.owned k ram t, ram' p = ram p) : L.owned k ram' t = L.owned k ram t := by
  induction k generalizing t with
  | zero => rfl
  | succ k ih =>
      have ht : ram' t = ram t := h t (self_mem_owned _ _ _)
      rw [owned_succ, owned_succ]
      congr 1
      refine List.flatMap_congr fun i _ => ?_
      cases hc : L.child (ram t i) with
      | none => rw [children_none hc, children_none (by rw [ht]; exact hc)]
      | some c =>
          rw [children_some hc, children_some (by rw [ht]; exact hc)]
          exact ih fun p hp => h p (children_subset i (by rw [children_some hc]; exact hp))

theorem children_congr (ht : ram' t i = ram t i) (h : ∀ p ∈ L.children k ram t i, ram' p = ram p) :
    L.children k ram' t i = L.children k ram t i := by
  cases hc : L.child (ram t i) with
  | none => rw [children_none hc, children_none (by rw [ht]; exact hc)]
  | some c =>
      rw [children_some hc] at h ⊢
      rw [children_some (by rw [ht]; exact hc)]
      exact owned_congr h

/-- The depth-j tree at q is a subtree of the depth-k tree at t. -/
inductive Layout.Node (L : Layout P I E) (ram : P → I → E) : Nat → P → Nat → P → Prop
  | root (k : Nat) (t : P) : Layout.Node L ram k t k t
  | step {k j : Nat} {t c q : P} {i : I} (h : L.child (ram t i) = some c) (hn : Layout.Node L ram k c j q) :
      Layout.Node L ram (k + 1) t j q

theorem Layout.Node.mem (h : L.Node ram k t j q) : q ∈ L.owned k ram t := by
  induction h with
  | root k t => exact self_mem_owned _ _ _
  | step h hn ih => exact children_subset _ (by rw [children_some h]; exact ih)

theorem Layout.Node.child {c : P} (h : L.Node ram k t (j + 1) q) (hc : L.child (ram q i) = some c) :
    L.Node ram k t j c := by
  generalize hj : j + 1 = j' at h
  induction h with
  | root k t =>
      subst hj
      exact .step hc (.root _ _)
  | step h hn ih => exact .step h (ih hc hj)

/-- The nodes are those that the own entries lead to. -/
theorem Layout.Node.of_child (hc : ∀ p i, L.child (ram' p i) = L.child (ram p i)) (h : L.Node ram' k t j q) :
    L.Node ram k t j q := by
  induction h with
  | root k t => exact .root k t
  | step h hn ih => exact .step ((hc _ _).symm.trans h) ih

/-- The list of a table, split at one of its entries. -/
theorem owned_split (k : Nat) (t : P) (i : I) :
    ∃ is₁ is₂ : List I, i ∉ is₁ ∧ i ∉ is₂ ∧ ∀ ram : P → I → E, L.owned (k + 1) ram t =
      t :: (is₁.flatMap (L.children k ram t) ++ L.children k ram t i ++ is₂.flatMap (L.children k ram t)) := by
  obtain ⟨is₁, is₂, hidx⟩ := List.append_of_mem (L.complete i)
  have hnd := L.nodup
  rw [hidx, List.nodup_append, List.nodup_cons] at hnd
  obtain ⟨-, ⟨h₂, -⟩, h₁⟩ := hnd
  refine ⟨is₁, is₂, fun h => h₁ i h i (by simp) rfl, h₂, fun ram => ?_⟩
  rw [owned_succ, hidx]
  simp

/-- Entries whose subtrees do not contain q keep them when only q changes. -/
theorem flatMap_children_congr (is : List I) (hp : ∀ p, p ≠ q → ram' p = ram p)
    (ht : ∀ i ∈ is, ram' t i = ram t i) (hq : q ∉ is.flatMap (L.children k ram t)) :
    is.flatMap (L.children k ram' t) = is.flatMap (L.children k ram t) := by
  refine List.flatMap_congr fun i hi => children_congr (ht i hi) fun p hpc => ?_
  exact hp p fun h => hq (List.mem_flatMap.mpr ⟨i, hi, h ▸ hpc⟩)

/-- Changing one entry of a table of the tree exchanges the nodes below it. -/
theorem owned_set (hn : L.Node ram k t (j + 1) q) (hnd : (L.owned k ram t).Nodup)
    (hp : ∀ p, p ≠ q → ram' p = ram p) (hi : ∀ i', i' ≠ i → ram' q i' = ram q i') :
    ∃ rest, (L.owned k ram t).Perm (rest ++ L.children j ram q i) ∧
      (L.owned k ram' t).Perm (rest ++ L.children j ram' q i) := by
  generalize hj : j + 1 = j' at hn
  induction hn with
  | root k t =>
      subst hj
      obtain ⟨is₁, is₂, h₁, h₂, hsplit⟩ := owned_split (L := L) j t i
      rw [hsplit, List.nodup_cons, List.mem_append, List.mem_append] at hnd
      have he₁ := flatMap_children_congr is₁ hp (fun i' h => hi i' fun he => h₁ (he ▸ h))
        fun h => hnd.1 (.inl (.inl h))
      have he₂ := flatMap_children_congr is₂ hp (fun i' h => hi i' fun he => h₂ (he ▸ h))
        fun h => hnd.1 (.inr h)
      refine ⟨t :: (is₁.flatMap (L.children j ram t) ++ is₂.flatMap (L.children j ram t)), ?_, ?_⟩
      · rw [hsplit]
        simp only [List.cons_append, List.append_assoc]
        exact (List.perm_append_comm.append_left _).cons _
      · rw [hsplit, he₁, he₂]
        simp only [List.cons_append, List.append_assoc]
        exact (List.perm_append_comm.append_left _).cons _
  | @step k j'' t c q i₀ h hn ih =>
      obtain ⟨is₁, is₂, h₁, h₂, hsplit⟩ := owned_split (L := L) k t i₀
      have hq : q ∈ L.owned k ram c := hn.mem
      rw [hsplit, children_some h, List.nodup_cons] at hnd
      obtain ⟨ht, hnd⟩ := hnd
      obtain ⟨hnd₁, hnd₂, hdis₂⟩ := List.nodup_append.mp hnd
      obtain ⟨-, hndc, hdis₁⟩ := List.nodup_append.mp hnd₁
      have htq : ram' t = ram t := hp t fun he => ht (by simp [he, hq])
      obtain ⟨rest, hold, hnew⟩ := ih hndc hp hi hj
      have he₁ := flatMap_children_congr is₁ (t := t) (k := k) hp (fun i' _ => by rw [htq])
        fun hm => hdis₁ q hm q hq rfl
      have he₂ := flatMap_children_congr is₂ (t := t) (k := k) hp (fun i' _ => by rw [htq])
        fun hm => hdis₂ q (List.mem_append_right _ hq) q hm rfl
      refine ⟨t :: (is₁.flatMap (L.children k ram t) ++ (rest ++ is₂.flatMap (L.children k ram t))), ?_, ?_⟩
      · rw [hsplit, children_some h]
        simp only [List.cons_append, List.append_assoc]
        refine (List.Perm.append_left _ ?_).cons _
        exact (hold.append_right _).trans (by simpa using List.perm_append_comm.append_left rest)
      · rw [hsplit, he₁, he₂, children_some (by rw [htq]; exact h)]
        simp only [List.cons_append, List.append_assoc]
        refine (List.Perm.append_left _ ?_).cons _
        exact (hnew.append_right _).trans (by simpa using List.perm_append_comm.append_left rest)

section All

variable {Q : Nat → E → Prop}

theorem Layout.Node.congr (h : L.Node ram k t j q) (hp : ∀ p ∈ L.owned k ram t, ram' p = ram p) :
    L.Node ram' k t j q := by
  induction h with
  | root k t => exact .root k t
  | @step k j t c q i hc hn ih =>
      have ht : ram' t = ram t := hp t (self_mem_owned _ _ _)
      refine .step (i := i) (by rw [ht]; exact hc) (ih fun p hpc => hp p ?_)
      exact children_subset i (by rw [children_some hc]; exact hpc)

/-- The lists below two entries of a table without repetition have nothing in common. -/
theorem children_disjoint {i i' : I} (hnd : (L.owned (k + 1) ram t).Nodup) (hne : i' ≠ i) (hq : q ∈ L.children k ram t i) :
    q ∉ L.children k ram t i' := by
  have hflat := (List.nodup_cons.mp (owned_succ (L := L) k ram t ▸ hnd)).2
  have : Std.Symm (Function.onFun List.Disjoint (L.children k ram t)) := ⟨fun _ _ h _ h₁ h₂ => h h₂ h₁⟩
  have hdis := (List.nodup_flatMap.mp hflat).2.forall (L.complete i) (L.complete i') hne.symm
  exact fun hq' => hdis hq hq'

theorem root_not_mem_children (hnd : (L.owned (k + 1) ram t).Nodup) (i : I) : t ∉ L.children k ram t i := by
  rw [owned_succ] at hnd
  exact fun h => (List.nodup_cons.mp hnd).1 (List.mem_flatMap.mpr ⟨i, L.complete i, h⟩)

theorem children_nodup (hnd : (L.owned (k + 1) ram t).Nodup) (i : I) : (L.children k ram t i).Nodup := by
  rw [owned_succ] at hnd
  exact (List.nodup_flatMap.mp (List.nodup_cons.mp hnd).2).1 i (L.complete i)

/-- A node stays where it is when only its own entries change. -/
theorem Layout.Node.set (h : L.Node ram k t j q) (hnd : (L.owned k ram t).Nodup)
    (hp : ∀ p, p ≠ q → ram' p = ram p) : L.Node ram' k t j q := by
  induction h with
  | root k t => exact .root k t
  | @step k j t c q i hc hn ih =>
      have hq : q ∈ L.children k ram t i := by
        rw [children_some hc]
        exact hn.mem
      have ht : ram' t = ram t := hp t fun he => root_not_mem_children hnd i (he ▸ hq)
      refine .step (i := i) (by rw [ht]; exact hc) (ih ?_ hp)
      rw [← children_some (k := k) hc]
      exact children_nodup hnd i

variable (L) in
/-- Every entry of the tables of the tree satisfies Q, with its level. -/
def Layout.All (Q : Nat → E → Prop) : Nat → (P → I → E) → P → Prop
  | 0, _, _ => True
  | k + 1, ram, t => ∀ i, Q k (ram t i) ∧ ∀ c, L.child (ram t i) = some c → All Q k ram c

theorem Layout.All.congr (h : L.All Q k ram t) (hp : ∀ p ∈ L.owned k ram t, ram' p = ram p) : L.All Q k ram' t := by
  induction k generalizing t with
  | zero => trivial
  | succ k ih =>
      intro i
      have ht : ram' t = ram t := hp t (self_mem_owned _ _ _)
      rw [ht]
      refine ⟨(h i).1, fun c hc => ih ((h i).2 c hc) fun p hpc => hp p ?_⟩
      exact children_subset i (by rw [children_some hc]; exact hpc)

theorem Layout.All.mono {Q' : Nat → E → Prop} (hQ : ∀ k e, Q k e → Q' k e) (h : L.All Q k ram t) :
    L.All Q' k ram t := by
  induction k generalizing t with
  | zero => trivial
  | succ k ih => exact fun i => ⟨hQ _ _ (h i).1, fun c hc => ih ((h i).2 c hc)⟩

theorem Layout.All.node (h : L.All Q k ram t) (hn : L.Node ram k t j q) : L.All Q j ram q := by
  induction hn with
  | root k t => exact h
  | step hc hn ih => exact ih ((h _).2 _ hc)

theorem Layout.All.of_node (h : ∀ j q i, L.Node ram k t (j + 1) q → Q j (ram q i)) : L.All Q k ram t := by
  induction k generalizing t with
  | zero => trivial
  | succ k ih => exact fun i => ⟨h k t i (.root _ _), fun c hc => ih fun j q i' hn => h j q i' (.step hc hn)⟩

/-- A table of the tree is no node of depth 0. -/
theorem Layout.Node.ne_leaf {p : P} (hnd : (L.owned k ram t).Nodup) (hq : L.Node ram k t (j + 1) q)
    (hp : L.Node ram k t 0 p) : q ≠ p := by
  classical
  induction k generalizing t with
  | zero => cases hq
  | succ k ih =>
      cases hp with
      | @step _ _ _ c _ i hc hp =>
          have hmem : p ∈ L.children k ram t i := by
            rw [children_some hc]
            exact hp.mem
          cases hq with
          | root => exact fun he => root_not_mem_children hnd i (he ▸ hmem)
          | @step _ _ _ c' _ i' hc' hq =>
              by_cases hi : i' = i
              · subst hi
                obtain rfl : c' = c := Option.some.inj (hc'.symm.trans hc)
                refine ih ?_ hq hp
                rw [← children_some (k := k) hc]
                exact children_nodup hnd i'
              · intro he
                refine children_disjoint hnd hi hmem ?_
                rw [children_some hc', ← he]
                exact hq.mem

/-- Changing one entry of a table of the tree keeps Q when the new subtree has it. -/
theorem Layout.All.set (hn : L.Node ram k t (j + 1) q) (h : L.All Q k ram t) (hnd : (L.owned k ram t).Nodup)
    (hp : ∀ p, p ≠ q → ram' p = ram p) (hi : ∀ i', i' ≠ i → ram' q i' = ram q i') (hnew : Q j (ram' q i))
    (hsub : ∀ c, L.child (ram' q i) = some c → L.All Q j ram' c) : L.All Q k ram' t := by
  classical
  generalize hj : j + 1 = j' at hn
  induction hn with
  | root k t =>
      subst hj
      intro i'
      by_cases he : i' = i
      · subst he
        exact ⟨hnew, hsub⟩
      · rw [hi i' he]
        refine ⟨(h i').1, fun c hc => ((h i').2 c hc).congr fun p hpc => hp p fun he => ?_⟩
        refine root_not_mem_children hnd i' ?_
        rw [children_some hc, ← he]
        exact hpc
  | @step k j'' t c₀ q i₀ hc₀ hn ih =>
      have hq : q ∈ L.children k ram t i₀ := by
        rw [children_some hc₀]
        exact hn.mem
      have htq : ram' t = ram t := hp t fun he => root_not_mem_children hnd i₀ (he ▸ hq)
      intro i'
      rw [htq]
      refine ⟨(h i').1, fun c hc => ?_⟩
      by_cases he : i' = i₀
      · subst he
        obtain rfl : c₀ = c := Option.some.inj (hc₀.symm.trans hc)
        refine ih ((h i').2 _ hc) ?_ hp hi hnew hsub hj
        rw [← children_some (k := k) hc₀]
        exact children_nodup hnd i'
      · refine ((h i').2 c hc).congr fun p hpc => hp p fun he' => children_disjoint hnd he hq ?_
        rw [children_some hc, ← he']
        exact hpc

/-- The tree does not depend on what its nodes of depth 0 hold. -/
theorem owned_leaf (hn : L.Node ram k t 0 q) (hnd : (L.owned k ram t).Nodup) (hp : ∀ p, p ≠ q → ram' p = ram p) :
    L.owned k ram' t = L.owned k ram t ∧ (L.All Q k ram t → L.All Q k ram' t) := by
  classical
  generalize hj : 0 = j at hn
  induction hn with
  | root k t =>
      subst hj
      exact ⟨rfl, fun _ => trivial⟩
  | @step k j t c₀ q i₀ hc₀ hn ih =>
      have hq : q ∈ L.children k ram t i₀ := by
        rw [children_some hc₀]
        exact hn.mem
      have htq : ram' t = ram t := hp t fun he => root_not_mem_children hnd i₀ (he ▸ hq)
      have hoff : ∀ i, i ≠ i₀ → ∀ p ∈ L.children k ram t i, ram' p = ram p :=
        fun i hi p hpc => hp p fun he => children_disjoint hnd hi hq (he ▸ hpc)
      obtain ⟨howned, hall⟩ := ih (by rw [← children_some (k := k) hc₀]; exact children_nodup hnd i₀) hp hj
      constructor
      · rw [owned_succ, owned_succ]
        refine congrArg (t :: ·) (List.flatMap_congr fun i _ => ?_)
        by_cases hi : i = i₀
        · subst hi
          rw [children_some hc₀, children_some (by rw [htq]; exact hc₀), howned]
        · exact children_congr (by rw [htq]) (hoff i hi)
      · intro h i
        rw [htq]
        refine ⟨(h i).1, fun c hc => ?_⟩
        by_cases hi : i = i₀
        · subst hi
          obtain rfl : c₀ = c := Option.some.inj (hc₀.symm.trans hc)
          exact hall ((h i).2 _ hc)
        · exact ((h i).2 c hc).congr fun p hpc => hoff i hi p (by rw [children_some hc]; exact hpc)

end All

end RiscvKernel.Lib.PointerTree
