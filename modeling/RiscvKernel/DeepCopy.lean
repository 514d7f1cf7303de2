import RiscvKernel.MapPage
import RiscvKernel.SpaceClone

namespace RiscvKernel.DeepCopy

open Memory PageTree AddressSpace MapPage SpaceClone Lib.LinkedList Lib.PointerTree

/-- The contents of the page of a user address. -/
def userPage (ram : Ppn → Page) (root : Ppn) (vma : BitVec 64) : Option Page :=
  (translate ram root vma).bind fun tr => if has tr.entry pteU then some (ram (tr.page vma)) else none

/-- The same translations and the same user bytes. -/
def SameSpace (ram ram' : Ppn → Page) (root : Ppn) : Prop :=
  ∀ vma, translate ram' root vma = translate ram root vma ∧ userPage ram' root vma = userPage ram root vma

def wordOf (vma : BitVec 64) : Vpn := ⟨(vma >>> 3).toNat % 512, Nat.mod_lt _ (by decide)⟩

/-- A store of a user program in the active space; none is a page fault. -/
def userStore (m : Mem) (vma w : BitVec 64) : Option Mem := do
  let tr ← translate m.ram (rootOf m.satp) vma
  if has tr.entry pteU && has tr.entry pteW then some (m.setWord (tr.page vma) (wordOf vma) w) else none

inductive SpaceOp
  | store (vma w : BitVec 64)
  | map (vma : BitVec 64) (rwxugFlags : BitVec 8)

def SpaceOp.run (m : Mem) : SpaceOp → Option Mem
  | .store vma w => userStore m vma w
  | .map vma rwxugFlags => memoryAllocAndMapPage m vma rwxugFlags

/-- The operation meets no global entry. -/
def SpaceOp.own (m : Mem) : SpaceOp → Bool
  | .store vma _ => (translate m.ram (rootOf m.satp) vma).all fun tr => !tr.global
  | .map vma _ => ownWay m.ram (rootOf m.satp) vma

inductive OwnRun : Mem → Mem → Prop
  | nil (m : Mem) : OwnRun m m
  | cons {m m' m'' : Mem} (op : SpaceOp) (hown : op.own m = true) (hrun : op.run m = some m') (h : OwnRun m' m'') :
      OwnRun m m''

/-- What happens in the active space leaves the other one alone. -/
def Independent (m : Mem) (active other : BitVec 64) : Prop :=
  ∀ m', OwnRun (memorySpaceSwitch m active) m' → SameSpace m.ram m'.ram (rootOf other)

/-- Own entries are tables above level 0 and leaves with A and D at level 0. -/
def Shape : Nat → BitVec 64 → Prop
  | 0, e => child e ≠ none → isLeaf e = true ∧ has e pteA = true ∧ has e pteD = true
  | _ + 1, e => child e ≠ none → isLeaf e = false

/-- The active space is a well-formed tree: its own tables and pages are used once,
and the shared tables and user pages are neither of them nor free. -/
structure WellFormed (m : Mem) (free : List Ppn) : Prop where
  space : Space Shape m (rootOf m.satp) free
  tables : ∀ vma p, (p, true) ∈ path 3 m.ram (rootOf m.satp) vma false → p ∉ region m (rootOf m.satp) free
  pages : ∀ vma tr, translate m.ram (rootOf m.satp) vma = some tr → tr.global = true → has tr.entry pteU = true →
    tr.page vma ∉ region m (rootOf m.satp) free

section Independence

variable {Q : Nat → BitVec 64 → Prop} {m m' : Mem} {root other : Ppn} {free free' zone : List Ppn}

/-- No translation or user byte of a space depends on the zone. -/
structure Shielded (m : Mem) (other : Ppn) (zone : List Ppn) : Prop where
  tables : ∀ vma, ∀ x ∈ path 3 m.ram other vma false, x.1 ∉ zone
  pages : ∀ vma tr, translate m.ram other vma = some tr → has tr.entry pteU = true → tr.page vma ∉ zone

theorem Shielded.translate_eq (h : Shielded m other zone) (hf : ∀ p, p ∉ zone → m'.ram p = m.ram p) (vma : BitVec 64) :
    translate m'.ram other vma = translate m.ram other vma := by
  unfold AddressSpace.translate
  rw [walk_congr fun x hx => hf x.1 (h.tables vma x hx)]

theorem Shielded.same (h : Shielded m other zone) (hf : ∀ p, p ∉ zone → m'.ram p = m.ram p) :
    SameSpace m.ram m'.ram other := by
  intro vma
  have htr := h.translate_eq hf vma
  refine ⟨htr, ?_⟩
  unfold userPage
  rw [htr]
  cases heq : translate m.ram other vma with
  | none => rfl
  | some tr =>
      simp only [Option.bind_some]
      split
      · rw [hf _ (h.pages vma tr heq ‹_›)]
      · rfl

theorem Shielded.step (h : Shielded m other zone) (hf : ∀ p, p ∉ zone → m'.ram p = m.ram p) {zone' : List Ppn}
    (hsub : zone' ⊆ zone) : Shielded m' other zone' := by
  refine ⟨fun vma x hx hm => ?_, fun vma tr htr hu hm => ?_⟩
  · rw [path_congr fun x hx => hf x.1 (h.tables vma x hx)] at hx
    exact h.tables vma x hx (hsub hm)
  · rw [h.translate_eq hf vma] at htr
    exact h.pages vma tr htr hu (hsub hm)

theorem isTable_zero (k : Nat) : IsTable k 0 := fun _ h => absurd child_zero h

theorem isTable_ptabPte (k : Nat) (w : BitVec 64) : IsTable (k + 1) (ptabPte w 0) := by
  intro _ _
  rw [isLeaf, has, ptabPte, flagsOf_mkPte]
  decide

theorem isTable_leaf (e : BitVec 64) : IsTable 0 e := fun h => absurd rfl h

/-- A store through a mapping that is not global writes a page of the space. -/
theorem userStore_within {vma w : BitVec 64} (h : Space IsTable m (rootOf m.satp) free)
    (hown : (SpaceOp.store vma w).own m = true) (hrun : userStore m vma w = some m') :
    Within IsTable (rootOf m.satp) m free m' free := by
  unfold userStore at hrun
  obtain ⟨tr, htr, hrun⟩ := Option.bind_eq_some_iff.mp hrun
  simp only [SpaceOp.own, htr, Option.all_some, Bool.not_eq_true'] at hown
  split at hrun
  · obtain rfl := Option.some.inj hrun
    have hlevel := walk_level h.all (translate_walk htr) hown
    have hn := walk_node (translate_walk htr) hown
    rw [page_level_zero hlevel]
    rw [hlevel] at hn
    obtain ⟨hndo, -, hdis⟩ := List.nodup_append.mp h.nodup
    have hset : ∀ x, x ≠ ppnOf tr.entry → (m.setWord (ppnOf tr.entry) (wordOf vma) w).ram x = m.ram x :=
      fun x hx => setWord_ram_of_ne hx
    obtain ⟨howned, hall⟩ := owned_leaf hn hndo hset
    refine ⟨⟨h.list.setWord (fun hm => hdis _ hn.mem _ hm rfl) _ _, ?_, hall h.all⟩, ?_, ?_, rfl⟩
    · rw [howned]
      exact h.nodup
    · rw [region, howned]
      exact List.Subset.refl _
    · intro x hx
      exact setWord_ram_of_ne fun he => hx (he ▸ List.mem_append_left _ hn.mem)
  · cases hrun

theorem SpaceOp.own_within {op : SpaceOp} (h : Space IsTable m (rootOf m.satp) free) (hown : op.own m = true)
    (hrun : op.run m = some m') : ∃ free', Within IsTable (rootOf m.satp) m free m' free' := by
  cases op with
  | store vma w => exact ⟨free, userStore_within h hown hrun⟩
  | map vma flags =>
      obtain ⟨w, free', hmap⟩ :=
        memoryAllocAndMapPage_within isTable_zero isTable_ptabPte (fun w _ => isTable_leaf _) h hown hrun
      exact ⟨free', hmap.within⟩

theorem OwnRun.same (hrun : OwnRun m m') (h : Space IsTable m (rootOf m.satp) free)
    (hs : Shielded m other (region m (rootOf m.satp) free)) : SameSpace m.ram m'.ram other := by
  induction hrun generalizing free with
  | nil m => exact fun vma => ⟨rfl, rfl⟩
  | cons op hown hrun _ ih =>
      obtain ⟨free', hwithin⟩ := op.own_within h hown hrun
      have hstep := hs.same hwithin.frame
      have hrest := ih (hwithin.satp ▸ hwithin.space) (hwithin.satp ▸ hs.step hwithin.frame hwithin.sub)
      exact fun vma => ⟨(hrest vma).1.trans (hstep vma).1, (hrest vma).2.trans (hstep vma).2⟩

end Independence

section Copy

variable {k : Nat} {ram ram' : Ppn → Page} {t t' c : Ppn} {vma : BitVec 64} {e e' : BitVec 64}

theorem flags_idem : ∀ f : BitVec 8, (f &&& pteV != 0) = true → (f ||| pteV = f ∧
    ((f &&& pteA != 0) = true → (f &&& pteD != 0) = true → f ||| (pteA ||| pteD ||| pteV) = f)) := by
  decide +kernel

/-- On entries of the right shape leaf_pte and ptab_pte add no flag. -/
theorem Shape.flags (h : Shape k e) (hc : child e = some c) : flagsOf e ||| added k = flagsOf e := by
  have hidem := flags_idem (flagsOf e) (child_eq_some.mp hc).1
  have hne : child e ≠ none := Option.ne_none_iff_exists'.mpr ⟨c, hc⟩
  cases k with
  | zero => exact hidem.2 (h hne).2.1 (h hne).2.2
  | succ k => exact hidem.1

theorem has_congr (h : flagsOf e' = flagsOf e) (flag : BitVec 8) : has e' flag = has e flag := by
  rw [has, h, has]

/-- How a translation of the copy corresponds to one of the original. -/
structure Copied (ram ram' : Ppn → Page) (vma : BitVec 64) (tr tr' : Translation) : Prop where
  level : tr'.level = tr.level
  flags : flagsOf tr'.entry = flagsOf tr.entry
  global : tr'.global = tr.global
  shared : tr.global = true → tr' = tr
  contents : tr.global = false → ram' (tr'.page vma) = ram (tr.page vma)

theorem Copied.of_global {tr : Translation} (h : tr.global = true) : Copied ram ram' vma tr tr :=
  ⟨rfl, rfl, rfl, fun _ => rfl, fun hg => by rw [h] at hg; cases hg⟩

theorem path_tail (hv : has (ram t (vpn k vma)) pteV = true) (hl : isLeaf (ram t (vpn k vma)) = false) {p : Ppn} :
    (p, true) ∈ path (k + 1) ram t vma false ↔
      (p, true) ∈ path k ram (ppnOf (ram t (vpn k vma))) vma (has (ram t (vpn k vma)) pteG) := by
  rw [path_table hv hl, List.mem_cons, Bool.false_or]
  exact ⟨fun h => h.resolve_left (by simp), .inr⟩

theorem path_stop_not_mem (h : has (ram t (vpn k vma)) pteV = false ∨ isLeaf (ram t (vpn k vma)) = true) {p : Ppn} :
    (p, true) ∉ path (k + 1) ram t vma false := by
  rw [path_stop h]
  simp

/-- Behind an entry that is copied as it is, the walks go on in the same tables. -/
theorem walk_shared (hsame : ram' t' (vpn k vma) = ram t (vpn k vma)) (hnone : child (ram t (vpn k vma)) = none)
    (hp : ∀ p, (p, true) ∈ path (k + 1) ram t vma false → ram' p = ram p) :
    Option.Rel (Copied ram ram' vma) (walk (k + 1) ram t vma false) (walk (k + 1) ram' t' vma false) ∧
      ∀ p, (p, true) ∈ path (k + 1) ram' t' vma false → (p, true) ∈ path (k + 1) ram t vma false := by
  cases hv : has (ram t (vpn k vma)) pteV with
  | false =>
      have hv' : has (ram' t' (vpn k vma)) pteV = false := by rw [hsame, hv]
      rw [walk_invalid hv, walk_invalid hv']
      exact ⟨.none, fun p hm => absurd hm (path_stop_not_mem (.inl hv'))⟩
  | true =>
      have hg : has (ram t (vpn k vma)) pteG = true := by
        by_contra hg
        cases hnone.symm.trans (child_eq_some.mpr ⟨hv, Bool.eq_false_iff.mpr hg, rfl⟩)
      have hv' : has (ram' t' (vpn k vma)) pteV = true := by rw [hsame, hv]
      cases hl : isLeaf (ram t (vpn k vma)) with
      | true =>
          have hl' : isLeaf (ram' t' (vpn k vma)) = true := by rw [hsame, hl]
          rw [walk_leaf hv hl, walk_leaf hv' hl', hsame, hg]
          refine ⟨?_, fun p hm => absurd hm (path_stop_not_mem (.inr hl'))⟩
          split
          · exact .some (.of_global rfl)
          · exact .none
      | false =>
          have hl' : isLeaf (ram' t' (vpn k vma)) = false := by rw [hsame, hl]
          simp only [path_tail hv hl, path_tail hv' hl', hsame, hg] at hp ⊢
          have hcongr : ∀ x ∈ path k ram (ppnOf (ram t (vpn k vma))) vma true, ram' x.1 = ram x.1 := by
            rintro ⟨p, b⟩ hx
            obtain rfl : b = true := path_global hx
            exact hp p hx
          rw [walk_table hv hl, walk_table hv' hl', hsame, hg, Bool.or_true, walk_congr hcongr, path_congr hcongr]
          refine ⟨?_, fun p hm => hm⟩
          cases hw : walk k ram (ppnOf (ram t (vpn k vma))) vma true with
          | none => exact .none
          | some tr => exact .some (.of_global (walk_global hw))

/-- The walks of an original and of its copy correspond, and the tables they share are
those of the original. -/
theorem walk_copy (hcopy : IsCopy k ram t ram' t') (hall : layout.All Shape k ram t)
    (hp : ∀ p, (p, true) ∈ path k ram t vma false → ram' p = ram p) :
    Option.Rel (Copied ram ram' vma) (walk k ram t vma false) (walk k ram' t' vma false) ∧
      ∀ p, (p, true) ∈ path k ram' t' vma false → (p, true) ∈ path k ram t vma false := by
  induction k generalizing t t' with
  | zero => exact ⟨.none, fun p hm => hm⟩
  | succ k ih =>
      have hi : EntryCopy k ram t ram' t' (vpn k vma) := hcopy _
      obtain ⟨hshape, hsub⟩ := hall (vpn k vma)
      cases hc : child (ram t (vpn k vma)) with
      | none => exact walk_shared ((entryCopy_none hc).mp hi) hc hp
      | some c =>
          obtain ⟨hf, hcopy'⟩ := (entryCopy_some hc).mp hi
          rw [hshape.flags hc] at hf
          obtain ⟨hv, hg, rfl⟩ := child_eq_some.mp hc
          have hv' := (has_congr hf pteV).trans hv
          have hg' := (has_congr hf pteG).trans hg
          have hl' : isLeaf (ram' t' (vpn k vma)) = isLeaf (ram t (vpn k vma)) := has_congr hf _
          cases hl : isLeaf (ram t (vpn k vma)) with
          | true =>
              rw [hl] at hl'
              refine ⟨?_, fun p hm => absurd hm (path_stop_not_mem (.inr hl'))⟩
              cases k with
              | succ k => rw [hshape (Option.ne_none_iff_exists'.mpr ⟨_, hc⟩)] at hl; cases hl
              | zero =>
                  have hok : leafOk 0 (ram' t' (vpn 0 vma)) = leafOk 0 (ram t (vpn 0 vma)) := by
                    simp only [leafOk, has_congr hf, Nat.pow_zero, Nat.mod_one]
                  rw [walk_leaf hv hl, walk_leaf hv' hl', hg, hg', hok]
                  split
                  · refine .some ⟨rfl, hf, rfl, fun h => (by cases h), fun _ => ?_⟩
                    rw [page_level_zero rfl, page_level_zero rfl]
                    exact hcopy'
                  · exact .none
          | false =>
              rw [hl] at hl'
              simp only [path_tail hv hl, path_tail hv' hl', hg, hg'] at hp ⊢
              rw [walk_table hv hl, walk_table hv' hl', hg, hg', Bool.or_false]
              exact ih hcopy' (hsub _ hc) hp

theorem Shape.congr (h : Shape k e) (hf : flagsOf e' = flagsOf e) : Shape k e' := by
  have hchild : child e' ≠ none → child e ≠ none := by
    intro hne hnone
    apply hne
    unfold child at hnone ⊢
    rw [has_congr hf, has_congr hf]
    split at hnone
    · cases hnone
    · rw [if_neg ‹_›]
  cases k with
  | zero =>
      intro hne
      simp only [isLeaf, has_congr hf]
      exact h (hchild hne)
  | succ k =>
      intro hne
      rw [isLeaf, has_congr hf]
      exact h (hchild hne)

theorem Shape.copy (hc : child e = some c) (h : Shape k e) (hf : flagsOf e' = flagsOf e ||| added k) : Shape k e' :=
  h.congr (hf.trans (h.flags hc))

theorem Shape.isTable (h : Shape k e) : IsTable k e := by
  cases k with
  | zero => exact isTable_leaf e
  | succ k => exact fun _ => h

end Copy

section Clone

variable {m : Mem} {free : List Ppn}

/-- What the space mtag of m' is to the active space of m. -/
structure IsDeepCopy (m : Mem) (free : List Ppn) (mtag : BitVec 64) (m' : Mem) (free' : List Ppn) : Prop where
  list : FreeList m' free'
  nodup : (region m' (rootOf mtag) free').Nodup
  copied : ∀ vma, Option.Rel (Copied m.ram m'.ram vma) (translate m.ram (rootOf m.satp) vma)
    (translate m'.ram (rootOf mtag) vma)
  fresh : ∀ vma tr, translate m'.ram (rootOf mtag) vma = some tr → tr.global = false →
    tr.page vma ∈ free ∧ tr.page vma ∉ free'
  unchanged : ∀ p, p ∉ free → m'.ram p = m.ram p
  same : SameSpace m.ram m'.ram (rootOf m.satp)
  satp : m'.satp = m.satp
  old : Independent m' m.satp mtag
  new : Independent m' mtag m.satp

/-- The free pages are no part of a well-formed space. -/
theorem WellFormed.shielded (h : WellFormed m free) : Shielded m (rootOf m.satp) free := by
  have hdis := (List.nodup_append.mp h.space.nodup).2.2
  constructor
  · rintro vma ⟨p, b⟩ hx hm
    cases b with
    | false => exact hdis p (path_own hx) p hm rfl
    | true => exact h.tables vma p hx (List.mem_append_right _ hm)
  · intro vma tr htr hu hm
    cases hg : tr.global with
    | false =>
        rw [page_level_zero (walk_level (h.space.all.mono fun _ _ => Shape.isTable) (translate_walk htr) hg)] at hm
        exact hdis _ (walk_node (translate_walk htr) hg).mem _ hm rfl
    | true => exact h.pages vma tr htr hg hu (List.mem_append_right _ hm)

theorem Independent.of_shielded {active other : BitVec 64} (h : Space IsTable m (rootOf active) free)
    (hs : Shielded m (rootOf other) (region m (rootOf active) free)) : Independent m active other :=
  fun _ hrun => OwnRun.same (m := memorySpaceSwitch m active) hrun ⟨h.list, h.nodup, h.all⟩ ⟨hs.tables, hs.pages⟩

section Forked

variable {mtag : BitVec 64} {m' : Mem} {u free' : List Ppn}

theorem WellFormed.newSpace (h : WellFormed m free) (hf : Forked m free mtag m' u free') :
    Space Shape m' (rootOf mtag) free' :=
  hf.newSpace h.space fun hc hs hf => hs.copy hc hf

theorem WellFormed.walks (h : WellFormed m free) (hf : Forked m free mtag m' u free') (vma : BitVec 64) :
    Option.Rel (Copied m.ram m'.ram vma) (walk 3 m.ram (rootOf m.satp) vma false)
      (walk 3 m'.ram (rootOf mtag) vma false) ∧
    ∀ p, (p, true) ∈ path 3 m'.ram (rootOf mtag) vma false → (p, true) ∈ path 3 m.ram (rootOf m.satp) vma false :=
  walk_copy hf.copy h.space.all fun p hp => hf.unchanged p fun hm => h.tables vma p hp (List.mem_append_right _ hm)

theorem WellFormed.copied (h : WellFormed m free) (hf : Forked m free mtag m' u free') (vma : BitVec 64) :
    Option.Rel (Copied m.ram m'.ram vma) (translate m.ram (rootOf m.satp) vma)
      (translate m'.ram (rootOf mtag) vma) := by
  unfold AddressSpace.translate
  split
  · exact (h.walks hf vma).1
  · exact .none

theorem WellFormed.new_page (h : WellFormed m free) (hf : Forked m free mtag m' u free') {vma : BitVec 64}
    {tr : Translation} (htr : translate m'.ram (rootOf mtag) vma = some tr) (hg : tr.global = false) :
    tr.page vma ∈ rootOf mtag :: u := by
  have hw := translate_walk htr
  rw [page_level_zero (walk_level ((h.newSpace hf).all.mono fun _ _ => Shape.isTable) hw hg), ← hf.owned]
  exact (walk_node hw hg).mem

/-- The new space does not depend on the old one or on the pages still free. -/
theorem WellFormed.fork_shielded (h : WellFormed m free) (hf : Forked m free mtag m' u free') :
    Shielded m' (rootOf mtag) (region m' (rootOf m.satp) free') := by
  have hold := (hf.oldSpace h.space).2
  have hsub : region m' (rootOf m.satp) free' ⊆ region m (rootOf m.satp) free := by
    rw [region, hold]
    exact (hf.sublist.append_left _).subset
  have hown : ∀ p ∈ rootOf mtag :: u, p ∉ region m' (rootOf m.satp) free' := by
    intro p hp hm
    have hnd := (h.newSpace hf).nodup
    rw [hf.owned] at hnd
    rcases List.mem_append.mp hm with ho | hfr
    · have hpf : p ∈ free := by
        rw [hf.split]
        exact List.mem_append_left _ hp
      rw [hold] at ho
      exact (List.nodup_append.mp h.space.nodup).2.2 p ho p hpf rfl
    · exact (List.nodup_append.mp hnd).2.2 p hp p hfr rfl
  constructor
  · rintro vma ⟨p, b⟩ hx hm
    cases b with
    | false => exact hown p (hf.owned ▸ path_own hx) hm
    | true => exact h.tables vma p ((h.walks hf vma).2 p hx) (hsub hm)
  · intro vma tr' htr' hu hm
    have hrel := h.copied hf vma
    rw [htr'] at hrel
    cases hg : tr'.global with
    | false => exact hown _ (h.new_page hf htr' hg) hm
    | true =>
        generalize htr : translate m.ram (rootOf m.satp) vma = o at hrel
        cases hrel with
        | @some tr _ hcop =>
            obtain rfl := hcop.shared (hcop.global ▸ hg)
            exact h.pages vma _ htr hg hu (hsub hm)

end Forked

/-- memory_space_clone makes a faithful and independent deep copy. -/
theorem memorySpaceClone_isDeepCopy (h : WellFormed m free)
    (hlen : (layout.owned 3 m.ram (rootOf m.satp)).length ≤ free.length) :
    ∃ mtag m' free', memorySpaceClone m = some (mtag, m') ∧ IsDeepCopy m free mtag m' free' := by
  obtain ⟨mtag, m', u, free', hrun, hf⟩ :=
    (memorySpaceClone_forked h.space.list h.space.nodup).resolve_left fun hn => absurd hlen (by omega)
  have hnew := h.newSpace hf
  have hold := (hf.oldSpace h.space).1
  have htables : ∀ k e, Shape k e → IsTable k e := fun _ _ => Shape.isTable
  refine ⟨mtag, m', free', hrun, ⟨hf.list, hnew.nodup, h.copied hf, ?_, hf.unchanged, h.shielded.same hf.unchanged,
    hf.satp, ?_, ?_⟩⟩
  · intro vma tr htr hg
    have hm := h.new_page hf htr hg
    have hnd := hnew.nodup
    rw [hf.owned] at hnd
    refine ⟨?_, fun hm' => (List.nodup_append.mp hnd).2.2 _ hm _ hm' rfl⟩
    rw [hf.split]
    exact List.mem_append_left _ hm
  · exact .of_shielded ⟨hold.list, hold.nodup, hold.all.mono htables⟩ (h.fork_shielded hf)
  · refine .of_shielded ⟨hnew.list, hnew.nodup, hnew.all.mono htables⟩ ?_
    rw [hf.region_eq]
    exact h.shielded.step hf.unchanged fun _ hx => hx

end Clone

section Sample

/-- A space with one page of its own at 0xC0000000 and a global user page at 0. -/
def sampleWords : List (Ppn × Vpn × BitVec 64) :=
  [(1, 0, ptabPte (pagenumToPageptr 2) pteG), (1, 3, ptabPte (pagenumToPageptr 9) 0),
    (2, 0, ptabPte (pagenumToPageptr 7) pteG), (7, 0, leafPte (pagenumToPageptr 8) (pteR ||| pteW ||| pteU ||| pteG)),
    (9, 0, ptabPte (pagenumToPageptr 10) 0), (10, 0, leafPte (pagenumToPageptr 11) (pteR ||| pteW ||| pteU)),
    (3, 0, pagenumToPageptr 4), (4, 0, pagenumToPageptr 5), (5, 0, pagenumToPageptr 6), (6, 0, pagenumToPageptr 12),
    (12, 0, pagenumToPageptr 13)]

def sampleMem : Mem where
  ram p i := (((sampleWords.find? fun x => x.1 == p && x.2.1 == i).map fun x => x.2.2)).getD 0
  freeList := pagenumToPageptr 3
  satp := rootToMtag (pagenumToPageptr 1)

def sampleFree : List Ppn := [3, 4, 5, 6, 12, 13]

theorem sample_valid {p : Ppn} {i : Vpn} (h : has (sampleMem.ram p i) pteV = true) :
    (p, i) ∈ [((1 : Ppn), (0 : Vpn)), (1, 3), (2, 0), (7, 0), (9, 0), (10, 0)] := by
  cases hf : sampleWords.find? fun x => x.1 == p && x.2.1 == i with
  | none => simp [sampleMem, hf, has, flagsOf] at h
  | some x =>
      have hx := List.find?_some hf
      simp only [sampleMem, hf, Option.map_some, Option.getD_some] at h
      have hall : sampleWords.all (fun x => !has x.2.2 pteV ||
          [((1 : Ppn), (0 : Vpn)), (1, 3), (2, 0), (7, 0), (9, 0), (10, 0)].contains (x.1, x.2.1)) = true := by
        decide +kernel
      have hmem := List.all_eq_true.mp hall x (List.mem_of_find?_eq_some hf)
      rw [h, Bool.not_true, Bool.false_or] at hmem
      rw [Bool.and_eq_true, beq_iff_eq, beq_iff_eq] at hx
      rw [← hx.1, ← hx.2]
      exact List.contains_iff_mem.mp hmem

theorem owned_single {k : Nat} {ram : Ppn → Page} {t c : Ppn} {i : Vpn} (hc : child (ram t i) = some c)
    (h : ∀ i', i' ≠ i → child (ram t i') = none) : layout.owned (k + 1) ram t = t :: layout.owned k ram c := by
  obtain ⟨is₁, is₂, h₁, h₂, hsplit⟩ := owned_split (L := layout) k t i
  have hnil : ∀ is : List Vpn, i ∉ is → is.flatMap (layout.children k ram t) = [] := fun is hi =>
    List.flatMap_eq_nil_iff.mpr fun i' hi' => children_none (h i' fun he => hi (he ▸ hi'))
  rw [hsplit, hnil is₁ h₁, hnil is₂ h₂, children_some hc]
  simp

/-- The own entries. -/
def sampleOwn : List (Ppn × Vpn × Ppn) := [(1, 3, 9), (9, 0, 10), (10, 0, 11)]

theorem sample_child {p : Ppn} {i : Vpn} {c : Ppn} (h : child (sampleMem.ram p i) = some c) :
    (p, i, c) ∈ sampleOwn := by
  obtain ⟨hv, hg, rfl⟩ := child_eq_some.mp h
  have hmem := sample_valid hv
  simp only [List.mem_cons, Prod.mk.injEq, List.not_mem_nil, or_false] at hmem
  rcases hmem with ⟨rfl, rfl⟩ | ⟨rfl, rfl⟩ | ⟨rfl, rfl⟩ | ⟨rfl, rfl⟩ | ⟨rfl, rfl⟩ | ⟨rfl, rfl⟩
  all_goals first | exact absurd hg (by decide) | decide

theorem sample_owned : layout.owned 3 sampleMem.ram (rootOf sampleMem.satp) = [1, 9, 10, 11] := by
  have hnone : ∀ {p : Ppn} {i : Vpn}, (∀ c, (p, i, c) ∉ sampleOwn) → child (sampleMem.ram p i) = none := by
    intro p i h
    cases hc : child (sampleMem.ram p i) with
    | none => rfl
    | some c => exact absurd (sample_child hc) (h c)
  have hroot : rootOf sampleMem.satp = 1 := by decide
  rw [hroot, owned_single (c := 9) (i := 3) (by decide) fun i hi => hnone (by simp [sampleOwn, hi]),
    owned_single (c := 10) (i := 0) (by decide) fun i hi => hnone (by simp [sampleOwn, hi]),
    owned_single (c := 11) (i := 0) (by decide) fun i hi => hnone (by simp [sampleOwn, hi])]
  rfl

/-- The tables of the space, with their heights and whether they are shared. -/
def SampleTable (k : Nat) (t : Ppn) (g : Bool) : Prop :=
  (k, t, g) ∈ [(3, (1 : Ppn), false), (2, 2, true), (1, 7, true), (2, 9, false), (1, 10, false)]

instance (k : Nat) (t : Ppn) (g : Bool) : Decidable (SampleTable k t g) := inferInstanceAs (Decidable (_ ∈ _))

theorem sample_closed (k : Nat) (t : Ppn) (g : Bool) (i : Vpn) (h : SampleTable (k + 1) t g)
    (hv : has (sampleMem.ram t i) pteV = true) (hl : isLeaf (sampleMem.ram t i) = false) :
    SampleTable k (ppnOf (sampleMem.ram t i)) (g || has (sampleMem.ram t i) pteG) := by
  have hmem := sample_valid hv
  simp only [SampleTable, List.mem_cons, Prod.mk.injEq, List.not_mem_nil, or_false, Nat.succ.injEq] at h hmem
  rcases h with ⟨rfl, rfl, rfl⟩ | ⟨rfl, rfl, rfl⟩ | ⟨rfl, rfl, rfl⟩ | ⟨rfl, rfl, rfl⟩ | ⟨rfl, rfl, rfl⟩ <;>
    simp at hmem
  · rcases hmem with rfl | rfl <;> decide
  · subst hmem
    decide
  · subst hmem
    exact absurd hl (by decide)
  · subst hmem
    decide
  · subst hmem
    exact absurd hl (by decide)

theorem sample_region : region sampleMem (rootOf sampleMem.satp) sampleFree = [1, 9, 10, 11, 3, 4, 5, 6, 12, 13] := by
  rw [region, sample_owned]
  rfl

theorem sample_shape {p : Ppn} {i : Vpn} {k : Nat} (hk : ∀ c, (p, i, c) ∈ sampleOwn →
    isLeaf (sampleMem.ram p i) = (k == 0) ∧ has (sampleMem.ram p i) pteA = (k == 0) ∧ has (sampleMem.ram p i) pteD = (k == 0)) :
    Shape k (sampleMem.ram p i) := by
  have h : child (sampleMem.ram p i) ≠ none → isLeaf (sampleMem.ram p i) = (k == 0) ∧
      has (sampleMem.ram p i) pteA = (k == 0) ∧ has (sampleMem.ram p i) pteD = (k == 0) := by
    intro hne
    obtain ⟨c, hc⟩ := Option.ne_none_iff_exists'.mp hne
    exact hk c (sample_child hc)
  cases k with
  | zero => exact h
  | succ k => exact fun hne => (h hne).1

theorem sample_all : layout.All Shape 3 sampleMem.ram (rootOf sampleMem.satp) := by
  have h10 : layout.All Shape 1 sampleMem.ram 10 := by
    intro i
    refine ⟨sample_shape fun c hc => ?_, fun _ _ => trivial⟩
    simp [sampleOwn] at hc
    rw [hc.1]
    decide
  have h9 : layout.All Shape 2 sampleMem.ram 9 := by
    intro i
    refine ⟨sample_shape fun c hc => ?_, fun c hc => ?_⟩
    · simp [sampleOwn] at hc
      rw [hc.1]
      decide
    · have := sample_child hc
      simp [sampleOwn] at this
      rw [this.2]
      exact h10
  intro i
  rw [show rootOf sampleMem.satp = 1 by decide]
  refine ⟨sample_shape fun c hc => ?_, fun c hc => ?_⟩
  · simp [sampleOwn] at hc
    rw [hc.1]
    decide
  · have := sample_child hc
    simp [sampleOwn] at this
    rw [this.2]
    exact h9

theorem sample_wellFormed : WellFormed sampleMem sampleFree := by
  refine ⟨⟨⟨by decide, by decide, by decide, by decide, by decide, by decide,
    (by decide : derefPage (sampleMem.ram 13 0) = none)⟩, ?_, sample_all⟩, ?_, ?_⟩
  · have := sample_region
    rw [region] at this
    rw [this]
    decide
  · intro vma p hp
    obtain ⟨j, hj⟩ := path_closed sample_closed (t := rootOf sampleMem.satp) (show SampleTable 3 _ false by decide) _ hp
    rw [sample_region]
    simp only [SampleTable, List.mem_cons, Prod.mk.injEq, List.not_mem_nil, or_false, Bool.true_eq_false, and_false, false_or,
      and_true] at hj
    rcases hj with ⟨-, rfl⟩ | ⟨-, rfl⟩ <;> decide
  · intro vma tr htr hg hu
    obtain ⟨t', g', i, ht, he, hv, hl, hglobal⟩ :=
      walk_closed sample_closed (t := rootOf sampleMem.satp) (show SampleTable 3 _ false by decide) (translate_walk htr)
    have hmem := sample_valid hv
    rw [sample_region]
    simp only [SampleTable, List.mem_cons, Prod.mk.injEq, List.not_mem_nil, or_false, Nat.succ.injEq] at ht hmem
    rcases ht with ⟨hlev, rfl, rfl⟩ | ⟨hlev, rfl, rfl⟩ | ⟨hlev, rfl, rfl⟩ | ⟨hlev, rfl, rfl⟩ | ⟨hlev, rfl, rfl⟩ <;>
      simp at hmem
    · rcases hmem with rfl | rfl <;> exact absurd hl (by decide)
    · subst hmem
      exact absurd hl (by decide)
    · subst hmem
      rw [page_level_zero (by omega), he]
      decide
    · subst hmem
      exact absurd hl (by decide)
    · subst hmem
      rw [hg] at hglobal
      exact absurd hglobal (by decide)

theorem memorySpaceClone_isDeepCopy_sample : ∃ mtag m' free', memorySpaceClone sampleMem = some (mtag, m') ∧
    IsDeepCopy sampleMem sampleFree mtag m' free' :=
  memorySpaceClone_isDeepCopy sample_wellFormed (by rw [sample_owned]; decide)

/-- The clone of the space, and what it holds behind the global entry. -/
theorem sample_forked : ∃ mtag m', memorySpaceClone sampleMem = some (mtag, m') ∧
    Forked sampleMem sampleFree mtag m' [4, 5, 6] [12, 13] ∧ rootOf mtag = 3 ∧ m'.ram 3 0 = sampleMem.ram 1 0 := by
  obtain ⟨mtag, m', u, free', hrun, hf⟩ :=
    (memorySpaceClone_forked sample_wellFormed.space.list sample_wellFormed.space.nodup).resolve_left fun hn =>
      absurd hn.2 (by rw [sample_owned]; decide)
  have hlen := hf.copy.length
  rw [hf.owned, sample_owned] at hlen
  obtain ⟨a, b, c, rfl⟩ := List.length_eq_three.mp (Nat.succ.inj hlen)
  have hsplit := hf.split
  simp only [sampleFree, List.cons_append, List.nil_append, List.cons.injEq] at hsplit
  obtain ⟨hroot, rfl, rfl, rfl, rfl⟩ := hsplit
  refine ⟨mtag, m', hrun, hf, hroot.symm, ?_⟩
  have hentry : EntryCopy 2 sampleMem.ram (rootOf sampleMem.satp) m'.ram (rootOf mtag) 0 := hf.copy 0
  rw [entryCopy_none (by decide), ← hroot] at hentry
  exact hentry

/-- The translation of the address 0, from any root that has the global entry. -/
theorem sample_translate {ram : Ppn → Page} {r : Ppn} (h₁ : ram r 0 = sampleMem.ram 1 0) (h₂ : ram 2 0 = sampleMem.ram 2 0)
    (h₇ : ram 7 0 = sampleMem.ram 7 0) : translate ram r 0 = some ⟨0, sampleMem.ram 7 0, true⟩ := by
  have hvpn : ∀ k < 3, vpn k 0 = 0 := by decide
  rw [AddressSpace.translate, if_pos (by decide), walk_table (by rw [hvpn 2 (by decide), h₁]; decide)
    (by rw [hvpn 2 (by decide), h₁]; decide), hvpn 2 (by decide), h₁, show ppnOf (sampleMem.ram 1 0) = 2 by decide,
    walk_table (by rw [hvpn 1 (by decide), h₂]; decide) (by rw [hvpn 1 (by decide), h₂]; decide), hvpn 1 (by decide), h₂,
    show ppnOf (sampleMem.ram 2 0) = 7 by decide, walk_leaf (by rw [hvpn 0 (by decide), h₇]; decide)
    (by rw [hvpn 0 (by decide), h₇]; decide), hvpn 0 (by decide), h₇, if_pos (by decide)]
  rfl

/-- Mapping the page at 0x200000, below the global table. -/
theorem sample_map {mtag : BitVec 64} {m' : Mem} (hf : Forked sampleMem sampleFree mtag m' [4, 5, 6] [12, 13])
    (hroot : rootOf mtag = 3) (hentry : m'.ram 3 0 = sampleMem.ram 1 0) :
    ∃ m'', memoryAllocAndMapPage m' 0x200000 (pteR ||| pteW ||| pteU) = some m'' ∧
      (translate m''.ram (rootOf mtag) 0x200000).isSome = true := by
  have hsame : ∀ q, q ∉ [(3 : Ppn), 4, 5, 6] → m'.ram q = sampleMem.ram q := fun q hq => hf.frame q (by rw [hroot]; exact hq)
  obtain ⟨w, m₁, halloc, hw, -, hs, hfree₁, hsatp⟩ := hf.list.alloc (by decide)
  obtain ⟨w', m₂, halloc', hw', -, hs', -, -⟩ := hfree₁.alloc (by decide)
  have hvpn : vpn 2 0x200000 = 0 ∧ vpn 1 0x200000 = 1 ∧ vpn 0 0x200000 = 0 := by decide
  have h₁ : m₁.ram 1 0 = sampleMem.ram 1 0 := by rw [hs 1 (by decide), hsame 1 (by decide)]
  have h₂ : m₁.ram 2 1 = sampleMem.ram 2 1 := by rw [hs 2 (by decide), hsame 2 (by decide)]
  have hstep₂ : walkStep m₁ 1 0 = some (2, m₁) := by
    rw [walkStep, h₁, if_pos (by decide)]
    simp only [Option.bind_eq_bind, Option.bind_some, Option.pure_def, h₁]
    rw [show ppnOf (sampleMem.ram 1 0) = 2 by decide]
  have hstep₁ : walkStep m₁ 2 1 = some (13, m₂.setWord 2 1 (ptabPte w' 0)) := by
    rw [walkStep, h₂, if_neg (by decide), createTable, halloc']
    simp only [Option.bind_eq_bind, Option.bind_some, Option.pure_def, setWord_ram_self, ptabPte, ppnOf_mkPte, hw']
  refine ⟨(m₂.setWord 2 1 (ptabPte w' 0)).setWord 13 0 (leafPte w (pteR ||| pteW ||| pteU)), ?_, ?_⟩
  · unfold memoryAllocAndMapPage walkPt
    have hactive : pageptrToPagenum m₁.activeSpaceRoot = 1 := by
      rw [Mem.activeSpaceRoot, hsatp, hf.satp]
      decide
    rw [if_neg (by decide), halloc]
    simp only [Option.bind_eq_bind, Option.bind_some, Option.pure_def, hactive, hvpn, hstep₂, hstep₁]
  · have hflags : flagsOf (ptabPte w' 0) = pteV := by
      rw [ptabPte, flagsOf_mkPte]
      rfl
    have hleaf : flagsOf (leafPte w (pteR ||| pteW ||| pteU)) = pteR ||| pteW ||| pteU ||| pteA ||| pteD ||| pteV := by
      rw [leafPte, flagsOf_mkPte]
    generalize hram : ((m₂.setWord 2 1 (ptabPte w' 0)).setWord 13 0 (leafPte w (pteR ||| pteW ||| pteU))).ram = ram
    have hr₃ : ram 3 0 = sampleMem.ram 1 0 := by
      rw [← hram, setWord_ram_of_ne (by decide), setWord_ram_of_ne (by decide), hs' 3 (by decide), hs 3 (by decide), hentry]
    have hr₂ : ram 2 1 = ptabPte w' 0 := by rw [← hram, setWord_ram_of_ne (by decide), setWord_ram_self]
    have hr₁ : ram 13 0 = leafPte w (pteR ||| pteW ||| pteU) := by rw [← hram, setWord_ram_self]
    rw [hroot, AddressSpace.translate, if_pos (by decide), walk_table (by rw [hvpn.1, hr₃]; decide) (by rw [hvpn.1, hr₃]; decide),
      hvpn.1, hr₃, show ppnOf (sampleMem.ram 1 0) = 2 by decide,
      walk_table (by rw [hvpn.2.1, hr₂, has, hflags]; decide) (by rw [hvpn.2.1, hr₂, isLeaf, has, hflags]; decide),
      hvpn.2.1, hr₂, show ppnOf (ptabPte w' 0) = 13 by rw [ptabPte, ppnOf_mkPte, hw'],
      walk_leaf (by rw [hvpn.2.2, hr₁, has, hleaf]; decide) (by rw [hvpn.2.2, hr₁, isLeaf, has, hleaf]; decide),
      hvpn.2.2, hr₁, if_pos]
    · rfl
    · simp only [leafOk, has, hleaf, Nat.pow_zero, Nat.mod_one]
      decide

/-- A store through a global user mapping, and a page mapped below a global table. -/
theorem memorySpaceClone_global_shared : WellFormed sampleMem sampleFree ∧
    (layout.owned 3 sampleMem.ram (rootOf sampleMem.satp)).length ≤ sampleFree.length ∧
    ∃ mtag m', memorySpaceClone sampleMem = some (mtag, m') ∧ m'.satp = sampleMem.satp ∧
      (∃ m'', userStore m' 0 1 = some m'' ∧ userPage m''.ram (rootOf mtag) 0 ≠ userPage m'.ram (rootOf mtag) 0) ∧
      (∃ m'', memoryAllocAndMapPage m' 0x200000 (pteR ||| pteW ||| pteU) = some m'' ∧
        translate m''.ram (rootOf mtag) 0x200000 ≠ translate m'.ram (rootOf mtag) 0x200000) := by
  obtain ⟨mtag, m', hrun, hf, hroot, hentry⟩ := sample_forked
  refine ⟨sample_wellFormed, by rw [sample_owned]; decide, mtag, m', hrun, hf.satp, ?_, ?_⟩
  · have hsame : ∀ q, q ∉ [(3 : Ppn), 4, 5, 6] → m'.ram q = sampleMem.ram q :=
      fun q hq => hf.frame q (by rw [hroot]; exact hq)
    have hold : translate m'.ram (rootOf m'.satp) 0 = some ⟨0, sampleMem.ram 7 0, true⟩ := by
      refine sample_translate ?_ ?_ ?_
      · rw [hf.satp, show rootOf sampleMem.satp = 1 by decide, hsame 1 (by decide)]
      · rw [hsame 2 (by decide)]
      · rw [hsame 7 (by decide)]
    refine ⟨m'.setWord 8 0 1, ?_, ?_⟩
    · have hidx : wordOf 0 = 0 := by decide
      unfold userStore
      rw [hold, Option.bind_eq_bind, Option.bind_some, if_pos (by decide), page_level_zero rfl, hidx,
        show ppnOf (sampleMem.ram 7 0) = 8 by decide]
    · rw [hroot, userPage, userPage, sample_translate hentry (by rw [hsame 2 (by decide)]) (by rw [hsame 7 (by decide)]),
        sample_translate]
      · simp only [Option.bind_some]
        rw [if_pos (by decide), if_pos (by decide), page_level_zero rfl, show ppnOf (sampleMem.ram 7 0) = 8 by decide]
        intro he
        have := congrFun (Option.some.inj he) 0
        rw [setWord_ram_self, hsame 8 (by decide)] at this
        exact absurd this (by decide)
      · rw [setWord_ram_of_ne (by decide), hentry]
      · rw [setWord_ram_of_ne (by decide), hsame 2 (by decide)]
      · rw [setWord_ram_of_ne (by decide), hsame 7 (by decide)]
  · obtain ⟨m'', hmap, hsome⟩ := sample_map hf hroot hentry
    refine ⟨m'', hmap, fun he => ?_⟩
    have hnone : translate m'.ram (rootOf mtag) 0x200000 = none := by
      have hrel := sample_wellFormed.copied hf 0x200000
      rw [show translate sampleMem.ram (rootOf sampleMem.satp) 0x200000 = none by decide] at hrel
      generalize translate m'.ram (rootOf mtag) 0x200000 = o at hrel ⊢
      cases hrel
      rfl
    rw [he, hnone] at hsome
    cases hsome

end Sample

end RiscvKernel.DeepCopy
