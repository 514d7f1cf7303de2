import Mathlib

/-! Counting the slots that refer to an object. -/

namespace RiscvKernel.Lib.References

variable {ι ω : Type} [DecidableEq ω] {S T : Finset ι} {f g : ι → Option ω} {i : ι} {o o' : ω}

/-- The number of slots of S that refer to o. -/
def refs (S : Finset ι) (f : ι → Option ω) (o : ω) : Nat := (S.filter fun i => f i = some o).card

theorem refs_congr (h : ∀ i ∈ S, f i = g i) : refs S f o = refs S g o :=
  congrArg Finset.card (Finset.filter_congr fun i hi => by rw [h i hi])

theorem refs_le_card : refs S f o ≤ S.card := Finset.card_filter_le _ _

theorem refs_pos (hi : i ∈ S) (hf : f i = some o) : 0 < refs S f o :=
  Finset.card_pos.mpr ⟨i, Finset.mem_filter.mpr ⟨hi, hf⟩⟩

theorem refs_mono (h : S ⊆ T) : refs S f o ≤ refs T f o := Finset.card_le_card (Finset.filter_subset_filter _ h)

/-- The objects of the list are those whose last reference goes, each once. -/
def Last (n n' : ω → Nat) (closed : List ω) : Prop := ∀ o, closed.count o = if 0 < n o ∧ n' o = 0 then 1 else 0

theorem Last.none {n n' : ω → Nat} (h : ∀ o, n o ≤ n' o) : Last n n' [] := fun o => by
  have := h o
  rw [List.count_nil, if_neg (by omega)]

theorem Last.trans {n₀ n₁ n₂ : ω → Nat} {c₁ c₂ : List ω} (h₁ : Last n₀ n₁ c₁) (h₂ : Last n₁ n₂ c₂)
    (hle₁ : ∀ o, n₁ o ≤ n₀ o) (hle₂ : ∀ o, n₂ o ≤ n₁ o) : Last n₀ n₂ (c₁ ++ c₂) := fun o => by
  have := hle₁ o
  have := hle₂ o
  rw [List.count_append, h₁ o, h₂ o]
  split_ifs <;> omega

variable [DecidableEq ι]

theorem refs_insert (hi : i ∉ S) : refs (insert i S) f o = refs S f o + if f i = some o then 1 else 0 := by
  rw [refs, refs, Finset.filter_insert]
  split
  · exact Finset.card_insert_of_notMem fun hm => hi (Finset.mem_filter.mp hm).1
  · rfl

/-- A slot outside S does not count. -/
theorem refs_update (hi : i ∉ S) (v : Option ω) : refs S (Function.update f i v) o = refs S f o :=
  refs_congr fun j hj => by
    have hne : j ≠ i := fun he => hi (he ▸ hj)
    exact Function.update_of_ne hne v f

theorem refs_erase (hi : i ∈ S) : refs S f o = refs (S.erase i) f o + if f i = some o then 1 else 0 := by
  rw [← refs_insert (Finset.notMem_erase i S), Finset.insert_erase hi]

/-- Another value in a slot of S. -/
theorem refs_store (hi : i ∈ S) (v : Option ω) :
    refs S (Function.update f i v) o = refs (S.erase i) f o + if v = some o then 1 else 0 := by
  rw [refs_erase hi, refs_update (Finset.notMem_erase i S), Function.update_self]

end RiscvKernel.Lib.References
