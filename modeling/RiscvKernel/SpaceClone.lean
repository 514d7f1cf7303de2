import RiscvKernel.MapPage

namespace RiscvKernel.SpaceClone

open Memory PageTree MapPage Lib.LinkedList Lib.PointerTree

/-- The loops of memory_space_clone by the height of the table they copy. -/
def cloneLevel : Nat → Ppn → Ppn → Mem → Option Mem
  | 0 => copyPage
  | k + 1 => cloneTable (mkEntry k) (cloneLevel k)

theorem clonePt2_eq : clonePt2 = cloneLevel 3 := rfl

theorem cloneLevel_succ (k : Nat) (new old : Ppn) (m : Mem) : cloneLevel (k + 1) new old m =
    layout.idx.foldlM (cloneEntry (mkEntry k) (cloneLevel k) new old) m := by
  rw [cloneLevel, cloneTable, layout]

/-- The table at t' is a deep copy of the table at t: own entries point to copies
and get the flags added, all others are the same. -/
def IsCopy : Nat → (Ppn → Page) → Ppn → (Ppn → Page) → Ppn → Prop
  | 0, ram, t, ram', t' => ram' t' = ram t
  | k + 1, ram, t, ram', t' => ∀ i, (child (ram t i)).elim (ram' t' i = ram t i) fun c =>
      flagsOf (ram' t' i) = flagsOf (ram t i) ||| added k ∧ IsCopy k ram c ram' (ppnOf (ram' t' i))

def EntryCopy (k : Nat) (ram : Ppn → Page) (t : Ppn) (ram' : Ppn → Page) (t' : Ppn) (i : Vpn) : Prop :=
  (child (ram t i)).elim (ram' t' i = ram t i) fun c =>
    flagsOf (ram' t' i) = flagsOf (ram t i) ||| added k ∧ IsCopy k ram c ram' (ppnOf (ram' t' i))

section Copy

variable {k : Nat} {ram ram' ram₁ ram₁' : Ppn → Page} {t t' c : Ppn} {i : Vpn}

theorem entryCopy_none (h : child (ram t i) = none) : EntryCopy k ram t ram' t' i ↔ ram' t' i = ram t i := by
  rw [EntryCopy, h, Option.elim_none]

theorem entryCopy_some (h : child (ram t i) = some c) : EntryCopy k ram t ram' t' i ↔
    flagsOf (ram' t' i) = flagsOf (ram t i) ||| added k ∧ IsCopy k ram c ram' (ppnOf (ram' t' i)) := by
  rw [EntryCopy, h, Option.elim_some]

theorem EntryCopy.children_eq (h : EntryCopy k ram t ram' t' i) (hc : child (ram t i) = some c) :
    layout.children k ram' t' i = layout.owned k ram' (ppnOf (ram' t' i)) :=
  children_some (child_of_flags hc ((entryCopy_some hc).mp h).1)

/-- A copy depends on the pages of the original and of the copy only. -/
theorem IsCopy.congr (h : IsCopy k ram t ram' t') (ho : ∀ p ∈ layout.owned k ram t, ram₁ p = ram p)
    (hn : ∀ p ∈ layout.owned k ram' t', ram₁' p = ram' p) : IsCopy k ram₁ t ram₁' t' := by
  induction k generalizing t t' with
  | zero =>
      have h₀ := ho t (self_mem_owned (L := layout) 0 ram t)
      have h₁ := hn t' (self_mem_owned (L := layout) 0 ram' t')
      have he : ram' t' = ram t := h
      exact h₁.trans (he.trans h₀.symm)
  | succ k ih =>
      intro i
      have ht : ram₁ t = ram t := ho t (self_mem_owned _ _ _)
      have ht' : ram₁' t' = ram' t' := hn t' (self_mem_owned _ _ _)
      have hi : EntryCopy k ram t ram' t' i := h i
      cases hc : child (ram t i) with
      | none =>
          rw [entryCopy_none hc] at hi
          rw [ht, ht', hc]
          exact hi
      | some c =>
          have hsub := hi.children_eq hc
          rw [entryCopy_some hc] at hi
          rw [ht, ht', hc]
          refine ⟨hi.1, ih hi.2 (fun p hp => ho p ?_) (fun p hp => hn p ?_)⟩
          · exact children_subset i (by rw [children_some hc]; exact hp)
          · exact children_subset i (by rw [hsub]; exact hp)

theorem EntryCopy.congr (h : EntryCopy k ram t ram' t' i) (ht : ram₁ t i = ram t i) (ht' : ram₁' t' i = ram' t' i)
    (ho : ∀ p ∈ layout.children k ram t i, ram₁ p = ram p) (hn : ∀ p ∈ layout.children k ram' t' i, ram₁' p = ram' p) :
    EntryCopy k ram₁ t ram₁' t' i := by
  cases hc : child (ram t i) with
  | none =>
      rw [entryCopy_none (by rw [ht]; exact hc), ht, ht']
      exact (entryCopy_none hc).mp h
  | some c =>
      rw [h.children_eq hc] at hn
      rw [children_some hc] at ho
      rw [entryCopy_some (by rw [ht]; exact hc), ht, ht']
      obtain ⟨hf, hcopy⟩ := (entryCopy_some hc).mp h
      exact ⟨hf, hcopy.congr ho hn⟩

theorem IsCopy.length (h : IsCopy k ram t ram' t') : (layout.owned k ram' t').length = (layout.owned k ram t).length := by
  induction k generalizing t t' with
  | zero => rfl
  | succ k ih =>
      rw [owned_succ, owned_succ, List.length_cons, List.length_cons, List.length_flatMap, List.length_flatMap]
      refine congrArg (fun l => List.sum l + 1) (List.map_congr_left fun i _ => ?_)
      have hi : EntryCopy k ram t ram' t' i := h i
      cases hc : child (ram t i) with
      | none =>
          have he := (entryCopy_none hc).mp hi
          have hc' : layout.child (ram' t' i) = none := by
            rw [he]
            exact hc
          rw [children_none hc', children_none hc]
      | some c =>
          rw [hi.children_eq hc, children_some hc]
          exact ih ((entryCopy_some hc).mp hi).2

/-- What holds of the entries of a table, and of new ones with the same flags, holds in
a copy. -/
theorem IsCopy.all {Q : Nat → BitVec 64 → Prop} (h : IsCopy k ram t ram' t')
    (hQ : ∀ {k e e' c}, child e = some c → Q k e → flagsOf e' = flagsOf e ||| added k → Q k e')
    (hall : layout.All Q k ram t) : layout.All Q k ram' t' := by
  induction k generalizing t t' with
  | zero => trivial
  | succ k ih =>
      intro i
      have hi : EntryCopy k ram t ram' t' i := h i
      obtain ⟨hq, hsub⟩ := hall i
      cases hc : child (ram t i) with
      | none =>
          rw [(entryCopy_none hc).mp hi]
          exact ⟨hq, fun c hc' => by cases hc.symm.trans hc'⟩
      | some c =>
          obtain ⟨hf, hcopy⟩ := (entryCopy_some hc).mp hi
          refine ⟨hQ hc hq hf, fun c' hc' => ?_⟩
          rw [← (child_eq_some.mp hc').2.2]
          exact ih hcopy (hsub c hc)

end Copy

/-- What copying the table old to the page new does, when l is the free list: the
first pages of l become the tables and pages of the copy. -/
structure Cloned (k : Nat) (m : Mem) (old new : Ppn) (l : List Ppn) (m' : Mem) (u l' : List Ppn) : Prop where
  split : l = u ++ l'
  free : FreeList m' l'
  owned : layout.owned k m'.ram new = new :: u
  frame : ∀ q, q ∉ new :: u → m'.ram q = m.ram q
  copy : IsCopy k m.ram old m'.ram new
  satp : m'.satp = m.satp

/-- The same for the entries done so far. -/
structure Cloning (k : Nat) (m : Mem) (old new : Ppn) (l : List Ppn) (done : List Vpn) (m' : Mem)
    (u l' : List Ppn) : Prop where
  split : l = u ++ l'
  free : FreeList m' l'
  children : done.flatMap (layout.children k m'.ram new) = u
  frame : ∀ q, q ∉ new :: u → m'.ram q = m.ram q
  copy : ∀ i ∈ done, EntryCopy k m.ram old m'.ram new i
  count : u.length = (done.flatMap (layout.children k m.ram old)).length
  satp : m'.satp = m.satp

section Loop

variable {k : Nat} {m m' : Mem} {old new : Ppn} {l u l' : List Ppn} {done : List Vpn} {i : Vpn}

/-- What the loop needs: pages to allocate, apart from the original and the copy. -/
structure Room (k : Nat) (m : Mem) (old new : Ppn) (l : List Ppn) : Prop where
  nodup : (new :: l).Nodup
  apart : ∀ q ∈ layout.owned k m.ram old, q ∉ new :: l

theorem Cloning.old_word (h : Cloning k m old new l done m' u l') (hr : Room (k + 1) m old new l) :
    m'.ram old = m.ram old := by
  refine h.frame old fun hmem => hr.apart old (self_mem_owned _ _ _) ?_
  rw [h.split]
  rcases List.mem_cons.mp hmem with he | hu
  · exact he ▸ List.mem_cons_self
  · exact List.mem_cons_of_mem _ (List.mem_append_left _ hu)

/-- An entry that is copied as it is. -/
theorem Cloning.step_none (h : Cloning k m old new l done m' u l') (hr : Room (k + 1) m old new l) (hi : i ∉ done)
    (hc : child (m.ram old i) = none) :
    Cloning k m old new l (done ++ [i]) (m'.setWord new i (m.ram old i)) u l' := by
  have hnd := hr.nodup
  rw [h.split, List.nodup_cons, List.mem_append] at hnd
  have hnew : ∀ q ∈ u, (m'.setWord new i (m.ram old i)).ram q = m'.ram q :=
    fun q hq => setWord_ram_of_ne fun he => hnd.1 (.inl (he ▸ hq))
  have hword : ∀ j ∈ done, (m'.setWord new i (m.ram old i)).ram new j = m'.ram new j :=
    fun j hj => setWord_ram_idx fun he => hi (he ▸ hj)
  have hsub : ∀ j ∈ done, ∀ q ∈ layout.children k m'.ram new j, q ∈ u := by
    intro j hj q hq
    rw [← h.children]
    exact List.mem_flatMap.mpr ⟨j, hj, hq⟩
  refine ⟨h.split, h.free.setWord (fun hm => hnd.1 (.inr hm)) _ _, ?_, ?_, ?_, ?_, h.satp⟩
  · rw [List.flatMap_append, List.flatMap_singleton, children_none (by rw [setWord_ram_self]; exact hc),
      List.append_nil, ← h.children]
    exact List.flatMap_congr fun j hj => children_congr (hword j hj) fun q hq => hnew q (hsub j hj q hq)
  · intro q hq
    have hne : q ≠ new := fun he => hq (he ▸ List.mem_cons_self)
    rw [setWord_ram_of_ne hne, h.frame q hq]
  · intro j hj
    rcases List.mem_append.mp hj with hj | hj
    · exact (h.copy j hj).congr rfl (hword j hj) (fun _ _ => rfl) fun q hq => hnew q (hsub j hj q hq)
    · rw [List.mem_singleton.mp hj, entryCopy_none hc, setWord_ram_self]
  · rw [List.flatMap_append, List.flatMap_singleton, children_none hc, List.append_nil]
    exact h.count

/-- An own entry: a new page is taken from the free list, entered and filled. -/
theorem Cloning.step_some (h : Cloning k m old new l done m' u l') (hr : Room (k + 1) m old new l) (hi : i ∉ done)
    {c p : Ppn} {l₂ u₂ l₃ : List Ppn} (hc : child (m.ram old i) = some c) (hl : l' = p :: l₂) {m₁ m₂ : Mem}
    (hsatp : m₁.satp = m'.satp) (hpage : ∀ q, q ≠ new → q ≠ p → m₁.ram q = m'.ram q)
    (hentry : flagsOf (m₁.ram new i) = flagsOf (m.ram old i) ||| added k ∧ ppnOf (m₁.ram new i) = p)
    (hword : ∀ j, j ≠ i → m₁.ram new j = m'.ram new j) (hcl : Cloned k m₁ c p l₂ m₂ u₂ l₃) :
    Cloning k m old new l (done ++ [i]) m₂ (u ++ p :: u₂) l₃ := by
  have hnd := hr.nodup
  have hsplit : l = u ++ p :: (u₂ ++ l₃) := by rw [h.split, hl, hcl.split]
  rw [hsplit, List.nodup_cons] at hnd
  obtain ⟨hnew, hnd⟩ := hnd
  obtain ⟨-, hnd₂, hdis⟩ := List.nodup_append.mp hnd
  -- the pages in use so far are left alone
  have hu : ∀ q ∈ u, m₂.ram q = m'.ram q := by
    intro q hq
    have hqp : q ∉ p :: u₂ := fun hmem => hdis q hq q (by
      rcases List.mem_cons.mp hmem with he | hmem
      · exact he ▸ List.mem_cons_self
      · exact List.mem_cons_of_mem _ (List.mem_append_left _ hmem)) rfl
    rw [hcl.frame q hqp, hpage q (fun he => hnew (he ▸ List.mem_append_left _ hq))
      (fun he => hqp (he ▸ List.mem_cons_self))]
  have hnewp : new ∉ p :: u₂ := fun hmem => hnew (List.mem_append_right _ (by
    rcases List.mem_cons.mp hmem with he | hmem
    · exact he ▸ List.mem_cons_self
    · exact List.mem_cons_of_mem _ (List.mem_append_left _ hmem)))
  have hdone : ∀ j ∈ done, m₂.ram new j = m'.ram new j := by
    intro j hj
    rw [hcl.frame new hnewp, hword j fun he => hi (he ▸ hj)]
  have hsub : ∀ j ∈ done, ∀ q ∈ layout.children k m'.ram new j, q ∈ u := by
    intro j hj q hq
    rw [← h.children]
    exact List.mem_flatMap.mpr ⟨j, hj, hq⟩
  have hsrc : ∀ q ∈ layout.owned k m.ram c, m₁.ram q = m.ram q := by
    intro q hq
    have hapart := hr.apart q (children_subset i (by rw [children_some hc]; exact hq))
    rw [hsplit, List.mem_cons, List.mem_append, List.mem_cons] at hapart
    rw [hpage q (fun he => hapart (.inl he)) (fun he => hapart (.inr (.inr (.inl he)))), h.frame q]
    rw [List.mem_cons]
    exact fun hmem => hapart (hmem.imp id .inl)
  have hcopy : IsCopy k m.ram c m₂.ram p := hcl.copy.congr (fun q hq => by
    rw [owned_congr hsrc] at hq
    exact (hsrc q hq).symm) fun _ _ => rfl
  have hentry₂ : m₂.ram new i = m₁.ram new i := by rw [hcl.frame new hnewp]
  have hcopyi : EntryCopy k m.ram old m₂.ram new i := by
    rw [entryCopy_some hc, hentry₂, hentry.2]
    exact ⟨hentry.1, hcopy⟩
  have hchild : layout.children k m₂.ram new i = p :: u₂ := by
    rw [hcopyi.children_eq hc, hentry₂, hentry.2, hcl.owned]
  refine ⟨by rw [hsplit]; simp, hcl.free, ?_, ?_, ?_, ?_, by rw [hcl.satp, hsatp, h.satp]⟩
  · rw [List.flatMap_append, List.flatMap_singleton, hchild, ← h.children]
    refine congrArg (· ++ p :: u₂) (List.flatMap_congr fun j hj => ?_)
    exact children_congr (hdone j hj) fun q hq => hu q (hsub j hj q hq)
  · intro q hq
    rw [List.mem_cons, List.mem_append, List.mem_cons] at hq
    rw [hcl.frame q (by rw [List.mem_cons]; exact fun hmem => hq (.inr (.inr hmem))),
      hpage q (fun he => hq (.inl he)) (fun he => hq (.inr (.inr (.inl he)))), h.frame q]
    rw [List.mem_cons]
    exact fun hmem => hq (hmem.imp id .inl)
  · intro j hj
    rcases List.mem_append.mp hj with hj | hj
    · exact (h.copy j hj).congr rfl (hdone j hj) (fun _ _ => rfl) fun q hq => hu q (hsub j hj q hq)
    · rw [List.mem_singleton.mp hj]
      exact hcopyi
  · rw [List.flatMap_append, List.flatMap_singleton, children_some hc, List.length_append, List.length_append,
      ← h.count, ← hcopy.length, hcl.owned]

/-- The copy of a subtree of height k, as the loop one level up uses it: it panics when
there are too few free pages. -/
def Copies (k : Nat) : Prop := ∀ {m : Mem} {old new : Ppn} {l : List Ppn}, FreeList m l → Room k m old new l →
  cloneLevel k new old m = none ∧ l.length + 1 < (layout.owned k m.ram old).length ∨
  ∃ m' u l', cloneLevel k new old m = some m' ∧ Cloned k m old new l m' u l'

theorem cloneEntry_step (ih : Copies k) (h : Cloning k m old new l done m' u l') (hr : Room (k + 1) m old new l)
    (hi : i ∉ done) :
    cloneEntry (mkEntry k) (cloneLevel k) new old m' i = none ∧
      l.length < (done.flatMap (layout.children k m.ram old)).length + (layout.children k m.ram old i).length ∨
    ∃ m₂ u₂ l₂, cloneEntry (mkEntry k) (cloneLevel k) new old m' i = some m₂ ∧
      Cloning k m old new l (done ++ [i]) m₂ u₂ l₂ := by
  have hold := h.old_word hr
  unfold cloneEntry
  rw [hold]
  cases hc : child (m.ram old i) with
  | none =>
      refine .inr ⟨_, u, l', ?_, h.step_none hr hi hc⟩
      unfold child at hc
      cases hv : has (m.ram old i) pteV with
      | false => simp [hv]
      | true =>
          cases hg : has (m.ram old i) pteG with
          | false => simp [hv, hg] at hc
          | true => simp [hv, hg]
  | some c =>
      obtain ⟨hv, hg, hppn⟩ := child_eq_some.mp hc
      have hnd := hr.nodup
      rw [h.split, List.nodup_cons, List.mem_append] at hnd
      obtain ⟨hnew, hnd⟩ := hnd
      obtain ⟨-, hnd', hdis⟩ := List.nodup_append.mp hnd
      have hfree := h.free.setWord (p := new) (fun hm => hnew (.inr hm)) i (m.ram old i)
      have hlen_eq : l.length = u.length + l'.length := by rw [h.split, List.length_append]
      rw [children_some hc, ← h.count]
      simp only [hv, hg, Bool.not_true, Bool.false_eq_true, if_false]
      cases l' with
      | nil =>
          refine .inl ⟨by rw [hfree.alloc_nil]; rfl, ?_⟩
          have := List.length_pos_of_mem (self_mem_owned (L := layout) k m.ram c)
          rw [List.length_nil] at hlen_eq
          omega
      | cons p l₂ =>
          obtain ⟨hp₂, hnd₂⟩ := List.nodup_cons.mp hnd'
          obtain ⟨w, m₁, halloc, hw, hzero, hsame, hfree₁, hsatp⟩ := hfree.alloc hp₂
          have hpn : p ≠ new := fun he => hnew (.inr (he ▸ List.mem_cons_self))
          have hnew₂ : new ∉ l₂ := fun hm => hnew (.inr (List.mem_cons_of_mem _ hm))
          have hpage : ∀ q, q ≠ new → q ≠ p →
              (m₁.setWord new i (mkEntry k w (flagsOf (m.ram old i)))).ram q = m'.ram q := by
            intro q hqn hqp
            rw [setWord_ram_of_ne hqn, hsame q hqp, setWord_ram_of_ne hqn]
          have hsrc : ∀ q ∈ layout.owned k m.ram c,
              (m₁.setWord new i (mkEntry k w (flagsOf (m.ram old i)))).ram q = m.ram q ∧ q ∉ p :: l₂ := by
            intro q hq
            have hapart := hr.apart q (children_subset i (by rw [children_some hc]; exact hq))
            rw [h.split, List.mem_cons, List.mem_append, List.mem_cons] at hapart
            refine ⟨?_, fun hm => hapart (.inr (.inr (List.mem_cons.mp hm)))⟩
            rw [hpage q (fun he => hapart (.inl he)) (fun he => hapart (.inr (.inr (.inl he)))), h.frame q]
            rw [List.mem_cons]
            exact fun hmem => hapart (hmem.imp id .inl)
          have hcongr := owned_congr fun q hq => (hsrc q hq).1
          simp only [halloc, Option.bind_eq_bind, Option.bind_some, hw, hppn]
          rcases @ih _ c _ _ (hfree₁.setWord hnew₂ i (mkEntry k w (flagsOf (m.ram old i))))
            ⟨hnd', fun q hq => (hsrc q (hcongr ▸ hq)).2⟩ with ⟨hnone, hlen⟩ | ⟨m₂, u₂, l₃, hrun, hcl⟩
          · refine .inl ⟨hnone, ?_⟩
            rw [hcongr] at hlen
            rw [List.length_cons] at hlen_eq
            omega
          · refine .inr ⟨m₂, u ++ p :: u₂, l₃, hrun, h.step_some hr hi hc rfl ?_ hpage ⟨?_, ?_⟩ ?_ hcl⟩
            · rw [setWord_satp, hsatp, setWord_satp]
            · rw [setWord_ram_self, flagsOf_mkEntry]
            · rw [setWord_ram_self, ppnOf_mkEntry, hw]
            · intro j hj
              rw [setWord_ram_idx hj, hsame new hpn.symm, setWord_ram_idx hj]

theorem cloneLoop (ih : Copies k) (hr : Room (k + 1) m old new l) {todo : List Vpn} (hidx : layout.idx = done ++ todo)
    (h : Cloning k m old new l done m' u l') :
    todo.foldlM (cloneEntry (mkEntry k) (cloneLevel k) new old) m' = none ∧
      l.length + 1 < (layout.owned (k + 1) m.ram old).length ∨
    ∃ m₂ u₂ l₂, todo.foldlM (cloneEntry (mkEntry k) (cloneLevel k) new old) m' = some m₂ ∧
      Cloning k m old new l layout.idx m₂ u₂ l₂ := by
  induction todo generalizing done m' u l' with
  | nil =>
      rw [List.append_nil] at hidx
      exact .inr ⟨m', u, l', rfl, hidx ▸ h⟩
  | cons i todo iht =>
      have hnd := layout.nodup
      rw [hidx] at hnd
      have hi : i ∉ done := fun hm => (List.nodup_append.mp hnd).2.2 i hm i List.mem_cons_self rfl
      rw [List.foldlM_cons]
      rcases cloneEntry_step ih h hr hi with ⟨hnone, hlen⟩ | ⟨m₁, u₁, l₁, hstep, h₁⟩
      · refine .inl ⟨by rw [hnone]; rfl, ?_⟩
        rw [owned_succ, hidx, List.length_cons, List.flatMap_append, List.flatMap_cons, List.length_append,
          List.length_append]
        omega
      · rw [hstep]
        exact iht (by rw [hidx]; simp) h₁

end Loop

/-- Copying a table of any height gives a deep copy made of free pages. -/
theorem cloneLevel_copies (k : Nat) : Copies k := by
  induction k with
  | zero =>
      intro m old new l hfree hr
      have hnew : new ∉ l := (List.nodup_cons.mp hr.nodup).1
      have hne : old ≠ new := fun he => hr.apart old (self_mem_owned _ _ _) (he ▸ List.mem_cons_self)
      refine .inr ⟨m.setPage new (m.ram old), [], l, rfl, rfl, ?_, rfl, ?_, setPage_ram_self, rfl⟩
      · exact hfree.congr rfl fun q hq => setPage_ram_of_ne fun he => hnew (he ▸ hq)
      · intro q hq
        exact setPage_ram_of_ne fun he => hq (he ▸ List.mem_cons_self)
  | succ k ih =>
      intro m old new l hfree hr
      have h₀ : Cloning k m old new l [] m [] l :=
        ⟨rfl, hfree, List.flatMap_nil, fun _ _ => rfl, fun _ hi => (List.not_mem_nil hi).elim, rfl, rfl⟩
      rw [cloneLevel_succ]
      rcases cloneLoop ih hr (List.nil_append _).symm h₀ with hnone | ⟨m', u, l', hrun, h⟩
      · exact .inl hnone
      · have howned : layout.owned (k + 1) m'.ram new = new :: u := by rw [owned_succ, h.children]
        have hcopy : IsCopy (k + 1) m.ram old m'.ram new := fun i => h.copy i (layout.complete i)
        exact .inr ⟨m', u, l', hrun, ⟨h.split, h.free, howned, h.frame, hcopy, h.satp⟩⟩

/-- The memory after memory_space_clone, of whose free pages the first become the new
space and the others stay free. -/
structure Forked (m : Mem) (free : List Ppn) (mtag : BitVec 64) (m' : Mem) (u free' : List Ppn) : Prop where
  split : free = rootOf mtag :: u ++ free'
  list : FreeList m' free'
  owned : layout.owned 3 m'.ram (rootOf mtag) = rootOf mtag :: u
  frame : ∀ q, q ∉ rootOf mtag :: u → m'.ram q = m.ram q
  copy : IsCopy 3 m.ram (rootOf m.satp) m'.ram (rootOf mtag)
  satp : m'.satp = m.satp

/-- memory_space_clone panics when there are too few free pages, and forks the space
otherwise. -/
theorem memorySpaceClone_forked {m : Mem} {free : List Ppn} (hfree : FreeList m free)
    (hnd : (layout.owned 3 m.ram (rootOf m.satp) ++ free).Nodup) :
    memorySpaceClone m = none ∧ free.length < (layout.owned 3 m.ram (rootOf m.satp)).length ∨
    ∃ mtag m' u free', memorySpaceClone m = some (mtag, m') ∧ Forked m free mtag m' u free' := by
  obtain ⟨-, hndf, hdis⟩ := List.nodup_append.mp hnd
  unfold memorySpaceClone
  rw [clonePt2_eq]
  cases free with
  | nil =>
      refine .inl ⟨by rw [hfree.alloc_nil]; rfl, ?_⟩
      exact List.length_pos_of_mem (self_mem_owned (L := layout) 3 m.ram (rootOf m.satp))
  | cons new l =>
      obtain ⟨hnew, hndl⟩ := List.nodup_cons.mp hndf
      obtain ⟨w, m₁, halloc, rfl, hzero, hsame, hfree₁, hsatp⟩ := hfree.alloc hnew
      have hsame₂ : ∀ q, q ≠ pageptrToPagenum w → (m₁.setPage (pageptrToPagenum w) fun _ => 0).ram q = m.ram q := by
        intro q hq
        rw [setPage_ram_of_ne hq, hsame q hq]
      have hfree₂ : FreeList (m₁.setPage (pageptrToPagenum w) fun _ => 0) l :=
        hfree₁.congr rfl fun q hq => setPage_ram_of_ne fun he => hnew (he ▸ hq)
      have hown : ∀ q ∈ layout.owned 3 m.ram (rootOf m.satp), q ∉ pageptrToPagenum w :: l :=
        fun q hq hm => hdis q hq q hm rfl
      have howned := owned_congr fun q hq => hsame₂ q fun he => hown q hq (he ▸ List.mem_cons_self)
      have hroot : rootOf (rootToMtag w) = pageptrToPagenum w := root_rootToMtag w
      have hroom : Room 3 (m₁.setPage (pageptrToPagenum w) fun _ => 0) (rootOf m.satp) (pageptrToPagenum w) l :=
        ⟨hndf, fun q hq => hown q (howned ▸ hq)⟩
      simp only [halloc, Option.bind_eq_bind, Option.bind_some, Mem.activeSpaceRoot]
      rw [show pageptrToPagenum (mtagToRoot m.satp) = rootOf m.satp from rfl]
      rcases cloneLevel_copies 3 hfree₂ hroom with ⟨hnone, hlen⟩ | ⟨m', u, free', hrun, hcl⟩
      · rw [howned] at hlen
        exact .inl ⟨by rw [hnone]; rfl, hlen⟩
      · refine .inr ⟨rootToMtag w, m', u, free', by rw [hrun]; rfl, ⟨?_, hcl.free, ?_, ?_, ?_, ?_⟩⟩
        · rw [hroot, hcl.split, List.cons_append]
        · rw [hroot, hcl.owned]
        · intro q hq
          rw [hroot] at hq
          rw [hcl.frame q hq, hsame₂ q fun he => hq (he ▸ List.mem_cons_self)]
        · rw [hroot]
          exact hcl.copy.congr (fun q hq => (hsame₂ q fun he => hown q (howned ▸ hq) (he ▸ List.mem_cons_self)).symm)
            fun _ _ => rfl
        · rw [hcl.satp]
          exact hsatp

section Forked

variable {Q : Nat → BitVec 64 → Prop} {m m' : Mem} {free u free' : List Ppn} {mtag : BitVec 64}

theorem Forked.unchanged (hf : Forked m free mtag m' u free') : ∀ p, p ∉ free → m'.ram p = m.ram p := by
  intro p hp
  refine hf.frame p fun hm => hp ?_
  rw [hf.split]
  exact List.mem_append_left _ hm

theorem Forked.region_eq (hf : Forked m free mtag m' u free') : region m' (rootOf mtag) free' = free := by
  rw [region, hf.owned, hf.split]

theorem Forked.sublist (hf : Forked m free mtag m' u free') : List.Sublist free' free := by
  rw [hf.split]
  exact List.sublist_append_right _ _

/-- A space that was there before keeps its pages. -/
theorem Forked.oldSpace (hf : Forked m free mtag m' u free') {root : Ppn} (h : Space Q m root free) :
    Space Q m' root free' ∧ layout.owned 3 m'.ram root = layout.owned 3 m.ram root := by
  have hown : ∀ p ∈ layout.owned 3 m.ram root, m'.ram p = m.ram p :=
    fun p hp => hf.unchanged p fun hm => (List.nodup_append.mp h.nodup).2.2 p hp p hm rfl
  refine ⟨⟨hf.list, ?_, h.all.congr hown⟩, owned_congr hown⟩
  rw [owned_congr hown]
  exact h.nodup.sublist (hf.sublist.append_left _)

theorem Forked.newSpace (hf : Forked m free mtag m' u free') (h : Space Q m (rootOf m.satp) free)
    (hQ : ∀ {k e e' c}, child e = some c → Q k e → flagsOf e' = flagsOf e ||| added k → Q k e') :
    Space Q m' (rootOf mtag) free' := by
  refine ⟨hf.list, ?_, hf.copy.all hQ h.all⟩
  have hnd := (List.nodup_append.mp h.nodup).2.1
  rw [← hf.region_eq] at hnd
  exact hnd

end Forked

end RiscvKernel.SpaceClone
