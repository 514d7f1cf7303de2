import RiscvKernel.AddressSpace

namespace RiscvKernel.Unmap

open Memory PageTree AddressSpace Lib.LinkedList Lib.PointerTree

/-! Freeing a list of pages. -/

def freeAll (m : Mem) (l : List Ppn) : Mem := l.foldl (fun m p => memoryFreePage m (pagenumToPageptr p)) m

section FreeAll

variable {m : Mem} {l l' free : List Ppn} {p q : Ppn}

theorem freeAll_append : freeAll m (l ++ l') = freeAll (freeAll m l) l' := List.foldl_append

theorem memoryFreePage_ram (h : q ≠ p) : (memoryFreePage m (pagenumToPageptr p)).ram q = m.ram q := by
  unfold memoryFreePage
  exact setWord_ram_of_ne (by rw [pageptrToPagenum_pagenumToPageptr]; exact h)

theorem freeAll_ram (h : q ∉ l) : (freeAll m l).ram q = m.ram q := by
  induction l generalizing m with
  | nil => rfl
  | cons p l ih =>
      rw [List.mem_cons, not_or] at h
      exact (ih h.2).trans (memoryFreePage_ram h.1)

theorem freeAll_satp : (freeAll m l).satp = m.satp := by
  induction l generalizing m with
  | nil => rfl
  | cons p l ih => exact ih

theorem freeAll_freeList (h : l ≠ []) : (freeAll m l).freeList = pagenumToPageptr (l.getLast h) := by
  obtain ⟨l', p, rfl⟩ := List.eq_nil_or_concat' l |>.resolve_left h
  rw [freeAll_append]
  simp [freeAll, memoryFreePage]

theorem freeList_memoryFreePage (h : FreeList m free) (hp : p ∉ free) (h₀ : p ≠ 0) :
    FreeList (memoryFreePage m (pagenumToPageptr p)) (p :: free) := by
  have hnz : pagenumToPageptr p ≠ 0 := fun he => by
    have := congrArg pageptrToPagenum he
    rw [pageptrToPagenum_pagenumToPageptr] at this
    exact h₀ (this.trans (by decide))
  have hword : (memoryFreePage m (pagenumToPageptr p)).ram p 0 = m.freeList := by
    unfold memoryFreePage
    rw [pageptrToPagenum_pagenumToPageptr]
    exact setWord_ram_self
  refine ⟨?_, ?_⟩
  · show derefPage (pagenumToPageptr p) = some p
    rw [derefPage, if_neg hnz, pageptrToPagenum_pagenumToPageptr]
  · show Linked _ _ ((memoryFreePage m (pagenumToPageptr p)).ram p 0) free
    rw [hword]
    refine Linked.congr h fun x hx => ?_
    have hxp : x ≠ p := fun he => hp (he ▸ hx)
    rw [memoryFreePage_ram hxp]

theorem freeList_freeAll (h : FreeList m free) (hnd : (l ++ free).Nodup) (h₀ : 0 ∉ l) :
    FreeList (freeAll m l) (l.reverse ++ free) := by
  induction l generalizing m free with
  | nil => exact h
  | cons p l ih =>
      rw [List.mem_cons, not_or] at h₀
      rw [List.cons_append, List.nodup_cons, List.mem_append, not_or] at hnd
      obtain ⟨⟨hpl, hpf⟩, hnd⟩ := hnd
      rw [List.reverse_cons, List.append_assoc]
      refine ih (freeList_memoryFreePage h hpf (Ne.symm h₀.1)) ?_ h₀.2
      exact (List.perm_middle.nodup_iff).mpr (List.nodup_cons.mpr ⟨fun hm => (List.mem_append.mp hm).elim hpl hpf, hnd⟩)

end FreeAll

/-! The pages of the leaves of a space. -/

def hasU (e : BitVec 64) : Bool := has e pteU

section Targets

variable {sel : BitVec 64 → Bool} {k : Nat} {ram ram' : Ppn → Page} {t p q : Ppn}

/-- The pages of the valid level-0 entries that sel selects, in the order of the tables. -/
def targets (sel : BitVec 64 → Bool) : Nat → (Ppn → Page) → Ppn → List Ppn
  | 0, _, _ => []
  | 1, ram, t => layout.idx.flatMap fun i => if has (ram t i) pteV && sel (ram t i) then [ppnOf (ram t i)] else []
  | k + 2, ram, t => layout.idx.flatMap fun i => (child (ram t i)).elim [] (targets sel (k + 1) ram)

theorem mem_targets : p ∈ targets sel k ram t ↔ ∃ q i, layout.Node ram k t 1 q ∧ has (ram q i) pteV = true ∧
    sel (ram q i) = true ∧ ppnOf (ram q i) = p := by
  induction k generalizing t with
  | zero =>
      constructor
      · intro h
        cases h
      · rintro ⟨q, i, hn, -⟩
        cases hn
  | succ k ih =>
      cases k with
      | zero =>
          rw [targets, List.mem_flatMap]
          constructor
          · rintro ⟨i, -, hp⟩
            split at hp
            · rename_i hv
              rw [Bool.and_eq_true] at hv
              exact ⟨t, i, .root _ _, hv.1, hv.2, (List.mem_singleton.mp hp).symm⟩
            · cases hp
          · rintro ⟨q, i, hn, hv, hs, rfl⟩
            cases hn with
            | root =>
                refine ⟨i, layout.complete i, ?_⟩
                rw [if_pos (by rw [hv, hs]; rfl)]
                exact List.mem_singleton_self _
            | step hc hn => cases hn
      | succ k =>
          rw [targets, List.mem_flatMap]
          constructor
          · rintro ⟨i, -, hp⟩
            cases hc : child (ram t i) with
            | none =>
                rw [hc] at hp
                cases hp
            | some c =>
                rw [hc] at hp
                obtain ⟨q, i', hn, h⟩ := ih.mp hp
                exact ⟨q, i', .step hc hn, h⟩
          · rintro ⟨q, i, hn, h⟩
            cases hn with
            | @step _ _ _ c _ i₀ hc hn =>
                refine ⟨i₀, layout.complete i₀, ?_⟩
                rw [show child (ram t i₀) = some c from hc]
                exact ih.mpr ⟨q, i, hn, h⟩

/-- The targets depend on the tables only. -/
theorem targets_congr (h : ∀ j q, layout.Node ram k t (j + 1) q → ram' q = ram q) :
    targets sel k ram' t = targets sel k ram t := by
  induction k generalizing t with
  | zero => rfl
  | succ k ih =>
      have ht : ram' t = ram t := h k t (.root _ _)
      cases k with
      | zero => simp only [targets, ht]
      | succ k =>
          simp only [targets, ht]
          refine List.flatMap_congr fun i _ => ?_
          cases hc : child (ram t i) with
          | none => rw [Option.elim_none, Option.elim_none]
          | some c =>
              rw [Option.elim_some, Option.elim_some]
              exact ih fun j q hn => h j q (.step hc hn)

/-- The targets that are not global are pages of the space. -/
theorem targets_sublist (h : layout.All (fun k e => k = 0 → has e pteV = true → sel e = true → has e pteG = false) k ram t) :
    List.Sublist (targets sel k ram t) (layout.owned k ram t) := by
  induction k generalizing t with
  | zero => exact List.nil_sublist _
  | succ k ih =>
      rw [owned_succ]
      refine List.Sublist.cons _ ?_
      cases k with
      | zero =>
          rw [targets]
          refine List.Sublist.flatMap_right _ fun i _ => ?_
          split
          · rename_i hv
            rw [Bool.and_eq_true] at hv
            have hc : layout.child (ram t i) = some (ppnOf (ram t i)) :=
              child_eq_some.mpr ⟨hv.1, (h i).1 rfl hv.1 hv.2, rfl⟩
            rw [children_some hc]
            exact List.Sublist.refl _
          · exact List.nil_sublist _
      | succ k =>
          rw [targets]
          refine List.Sublist.flatMap_right _ fun i _ => ?_
          cases hc : child (ram t i) with
          | none => exact List.nil_sublist _
          | some c =>
              rw [children_some hc]
              exact ih ((h i).2 c hc)

end Targets

/-! memory_unmap_and_free_user by the height of the table. -/

def unmapLevel : Nat → Ppn → Mem → Mem
  | 0 => fun _ m => m
  | 1 => unmapPt0
  | k + 2 => unmapTable (unmapLevel (k + 1))

theorem memoryUnmapAndFreeUser_level (m : Mem) :
    memoryUnmapAndFreeUser m = unmapLevel 3 (rootOf m.satp) m := rfl

theorem unmapLevel_one (t : Ppn) (m : Mem) : unmapLevel 1 t m = layout.idx.foldl (unmapLeaf t) m := by
  rw [unmapLevel, unmapPt0, layout]

theorem unmapLevel_succ (k : Nat) (t : Ppn) (m : Mem) :
    unmapLevel (k + 2) t m = layout.idx.foldl (unmapEntry (unmapLevel (k + 1)) t) m := by
  rw [unmapLevel, unmapTable, layout]

section Loop

variable {m : Mem} {l : List Ppn}

/-- A loop whose steps free the pages T i, from the list l. -/
theorem foldl_freeAll {step : Mem → Vpn → Mem} {T : Vpn → List Ppn} (hT : ∀ i, T i ⊆ l)
    (hstep : ∀ d, d ⊆ l → ∀ i, step (freeAll m d) i = freeAll (freeAll m d) (T i)) (todo : List Vpn) {d : List Ppn}
    (hd : d ⊆ l) : todo.foldl step (freeAll m d) = freeAll m (d ++ todo.flatMap T) := by
  induction todo generalizing d with
  | nil => rw [List.flatMap_nil, List.append_nil, List.foldl_nil]
  | cons i todo ih =>
      rw [List.foldl_cons, hstep d hd i, ← freeAll_append, ih (List.append_subset.mpr ⟨hd, hT i⟩), List.flatMap_cons,
        List.append_assoc]

theorem isTable_flags {e : BitVec 64} (h : isLeaf e = false) :
    has e pteR = false ∧ has e pteW = false ∧ has e pteX = false := by
  have hor : ∀ f : BitVec 8, (f &&& (pteR ||| pteW ||| pteX) != 0) = false →
      (f &&& pteR != 0) = false ∧ (f &&& pteW != 0) = false ∧ (f &&& pteX != 0) = false := by
    decide +kernel
  exact hor (flagsOf e) h

/-- When no page freed is one of the tables, the three loops free the user targets. -/
theorem unmapLevel_eq {k : Nat} {t : Ppn} (hall : layout.All IsTable k m.ram t)
    (hl : targets hasU k m.ram t ⊆ l) (htab : ∀ j q, layout.Node m.ram k t (j + 1) q → q ∉ l) {d : List Ppn} (hd : d ⊆ l) :
    unmapLevel k t (freeAll m d) = freeAll (freeAll m d) (targets hasU k m.ram t) := by
  induction k generalizing t d with
  | zero => rfl
  | succ k ih =>
      have ht : ∀ d, d ⊆ l → (freeAll m d).ram t = m.ram t :=
        fun d hd => freeAll_ram fun hm => htab k t (.root _ _) (hd hm)
      cases k with
      | zero =>
          rw [← freeAll_append, unmapLevel_one]
          unfold targets at hl ⊢
          refine foldl_freeAll (fun i x hx => hl (List.mem_flatMap.mpr ⟨i, layout.complete i, hx⟩)) ?_ _ hd
          intro d hd i
          simp only [unmapLeaf, ht d hd]
          cases hv : has (m.ram t i) pteV with
          | false => rfl
          | true =>
              cases hu : has (m.ram t i) pteU with
              | false => simp [hasU, hu, freeAll]
              | true => simp [hasU, hu, freeAll]
      | succ k =>
          rw [← freeAll_append, unmapLevel_succ]
          unfold targets at hl ⊢
          refine foldl_freeAll (fun i x hx => hl (List.mem_flatMap.mpr ⟨i, layout.complete i, hx⟩)) ?_ _ hd
          intro d hd i
          simp only [unmapEntry, ht d hd]
          cases hc : child (m.ram t i) with
          | none =>
              cases hv : has (m.ram t i) pteV with
              | false => rfl
              | true =>
                  cases hg : has (m.ram t i) pteG with
                  | true => simp [freeAll]
                  | false => cases hc.symm.trans (child_eq_some.mpr ⟨hv, hg, rfl⟩)
          | some c =>
              obtain ⟨hv, hg, rfl⟩ := child_eq_some.mp hc
              obtain ⟨hr, hw, hx⟩ := isTable_flags ((hall i).1 (by omega) (Option.ne_none_iff_exists'.mpr ⟨_, hc⟩))
              simp only [hv, hr, hw, hx, hg, Bool.not_true, Bool.false_eq_true, if_false, Option.elim_some]
              refine ih ((hall i).2 _ hc) (fun x hx => hl ?_) (fun j q hn => htab j q (.step hc hn)) hd
              exact List.mem_flatMap.mpr ⟨i, layout.complete i, by rw [hc]; exact hx⟩

end Loop

end RiscvKernel.Unmap
