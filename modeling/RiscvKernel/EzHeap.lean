import Mathlib

namespace RiscvKernel.EzHeap

def pageSize : Nat := 4096

/-- heap_start and heap_end, and how many pages memory_alloc_page has given. -/
structure Heap where
  heapStart : Nat
  heapEnd : Nat
  taken : Nat

def heapInit (start finish : Nat) : Option Heap := if start < finish then some ⟨start, finish, 0⟩ else none

/-- The size that kmalloc works with, of type size_t. -/
def roundUp (size : Nat) : Nat := (size + 16 - 1) % 2 ^ 64 / 16 * 16

/-- kmalloc with the pages of memory_alloc_page in their order; no address when it panics. -/
def kmalloc (page : Nat → Nat) (h : Heap) (size : Nat) : Option Nat × Heap :=
  let size := roundUp size
  if pageSize < size then (none, h)
  else if size ≤ h.heapEnd - h.heapStart then (some (h.heapEnd - size), { h with heapEnd := h.heapEnd - size })
  else
    let newBlock := page h.taken
    let h := { h with taken := h.taken + 1 }
    if h.heapEnd - h.heapStart < pageSize - size then
      (some (newBlock + pageSize - size), { h with heapStart := newBlock, heapEnd := newBlock + pageSize - size })
    else (some newBlock, h)

structure Block where
  addr : Nat
  size : Nat

def Block.bytes (b : Block) : Set Nat := Set.Ico b.addr (b.addr + b.size)

/-- The blocks that a sequence of requests gets, until one of them panics. -/
def kmallocs (page : Nat → Nat) : Heap → List Nat → List Block × Heap
  | h, [] => ([], h)
  | h, size :: sizes =>
      match kmalloc page h size with
      | (none, h) => ([], h)
      | (some addr, h) => (⟨addr, roundUp size⟩ :: (kmallocs page h sizes).1, (kmallocs page h sizes).2)

def pageBytes (page : Nat → Nat) (i : Nat) : Set Nat := Set.Ico (page i) (page i + pageSize)

/-- memory_alloc_page gives aligned pages, apart from each other and from the heap. -/
structure Fresh (page : Nat → Nat) (start finish : Nat) : Prop where
  aligned : ∀ i, pageSize ∣ page i
  apart : ∀ i j, i < j → Disjoint (pageBytes page i) (pageBytes page j)
  outside : ∀ i, Disjoint (Set.Ico start finish) (pageBytes page i)

/-- The memory the heap has had so far: its first range and the pages taken. -/
def Owned (page : Nat → Nat) (start finish taken : Nat) (s : Set Nat) : Prop :=
  s ⊆ Set.Ico start finish ∨ ∃ i, i < taken ∧ s ⊆ pageBytes page i

/-- A block as kmalloc returns it. -/
structure Good (page : Nat → Nat) (start finish taken : Nat) (b : Block) : Prop where
  aligned : 16 ∣ b.addr
  owned : Owned page start finish taken b.bytes

/-- What kmalloc keeps: the blocks are apart from each other and from what is left. -/
structure HeapInv (page : Nat → Nat) (start finish : Nat) (h : Heap) (blocks : List Block) : Prop where
  range : h.heapStart ≤ h.heapEnd
  aligned : 16 ∣ h.heapEnd
  owned : Owned page start finish h.taken (Set.Ico h.heapStart h.heapEnd)
  good : ∀ b ∈ blocks, Good page start finish h.taken b
  apart : blocks.Pairwise fun b c => Disjoint b.bytes c.bytes
  left : ∀ b ∈ blocks, Disjoint (Set.Ico h.heapStart h.heapEnd) b.bytes

section Step

variable {page : Nat → Nat} {start finish taken : Nat} {s : Set Nat} {h : Heap} {blocks : List Block} {size : Nat}

theorem dvd_roundUp (size : Nat) : 16 ∣ roundUp size := Nat.dvd_mul_left _ _

theorem le_roundUp (hs : size + 15 < 2 ^ 64) : size ≤ roundUp size := by
  unfold roundUp
  omega

theorem roundUp_le_pageSize {size : Nat} (hs : size + 15 < 2 ^ 64) : roundUp size ≤ pageSize ↔ size ≤ pageSize := by
  simp only [roundUp, pageSize]
  omega

theorem kmalloc_large (page : Nat → Nat) (h : Heap) {size : Nat} (hs : pageSize < roundUp size) :
    kmalloc page h size = (none, h) := if_pos hs

/-- kmalloc panics for a request of more than a page only. -/
theorem kmalloc_some_iff (page : Nat → Nat) (h : Heap) (size : Nat) :
    (∃ addr h', kmalloc page h size = (some addr, h')) ↔ roundUp size ≤ pageSize := by
  constructor
  · rintro ⟨addr, h', he⟩
    by_contra hlarge
    rw [kmalloc_large page h (Nat.lt_of_not_le hlarge)] at he
    cases he
  · intro hs
    unfold kmalloc
    simp only
    rw [if_neg (Nat.not_lt_of_le hs)]
    split
    · exact ⟨_, _, rfl⟩
    · split
      · exact ⟨_, _, rfl⟩
      · exact ⟨_, _, rfl⟩

theorem Owned.mono {taken' : Nat} (h : Owned page start finish taken s) (ht : taken ≤ taken') :
    Owned page start finish taken' s := by
  rcases h with h | ⟨i, hi, h⟩
  · exact .inl h
  · exact .inr ⟨i, Nat.lt_of_lt_of_le hi ht, h⟩

theorem Owned.subset {s' : Set Nat} (h : Owned page start finish taken s) (hs : s' ⊆ s) : Owned page start finish taken s' := by
  rcases h with h | ⟨i, hi, h⟩
  · exact .inl (hs.trans h)
  · exact .inr ⟨i, hi, hs.trans h⟩

/-- The next page is apart from all that the heap has had. -/
theorem Owned.disjoint_next (h : Owned page start finish taken s) (hf : Fresh page start finish) :
    Disjoint s (pageBytes page taken) := by
  rcases h with h | ⟨i, hi, h⟩
  · exact (hf.outside taken).mono_left h
  · exact (hf.apart i taken hi).mono_left h

theorem owned_next : Owned page start finish (taken + 1) (pageBytes page taken) :=
  .inr ⟨taken, Nat.lt_succ_self _, Set.Subset.rfl⟩

theorem Good.mono {taken' : Nat} {b : Block} (h : Good page start finish taken b) (ht : taken ≤ taken') :
    Good page start finish taken' b := ⟨h.aligned, h.owned.mono ht⟩

theorem HeapInv.cons {b : Block} {h' : Heap} (hi : HeapInv page start finish h blocks) (ht : h.taken ≤ h'.taken)
    (hrange : h'.heapStart ≤ h'.heapEnd) (haligned : 16 ∣ h'.heapEnd)
    (howned : Owned page start finish h'.taken (Set.Ico h'.heapStart h'.heapEnd)) (hb : Good page start finish h'.taken b)
    (hapart : ∀ c ∈ blocks, Disjoint b.bytes c.bytes) (hleft : Disjoint (Set.Ico h'.heapStart h'.heapEnd) b.bytes)
    (hrest : ∀ c ∈ blocks, Disjoint (Set.Ico h'.heapStart h'.heapEnd) c.bytes) :
    HeapInv page start finish h' (b :: blocks) := by
  refine ⟨hrange, haligned, howned, fun c hc => ?_, List.pairwise_cons.mpr ⟨hapart, hi.apart⟩, fun c hc => ?_⟩
  · rcases List.mem_cons.mp hc with rfl | hc
    · exact hb
    · exact (hi.good c hc).mono ht
  · rcases List.mem_cons.mp hc with rfl | hc
    · exact hleft
    · exact hrest c hc

/-- A request that fits is carved off the end. -/
theorem HeapInv.carve (hi : HeapInv page start finish h blocks) (hfit : roundUp size ≤ h.heapEnd - h.heapStart) :
    HeapInv page start finish { h with heapEnd := h.heapEnd - roundUp size } (⟨h.heapEnd - roundUp size, roundUp size⟩ :: blocks) := by
  have hrange := hi.range
  have hd := dvd_roundUp size
  have haligned : 16 ∣ h.heapEnd - roundUp size := Nat.dvd_sub hi.aligned hd
  have hlow : Set.Ico h.heapStart (h.heapEnd - roundUp size) ⊆ Set.Ico h.heapStart h.heapEnd :=
    Set.Ico_subset_Ico_right (Nat.sub_le _ _)
  have hblock : Block.bytes ⟨h.heapEnd - roundUp size, roundUp size⟩ ⊆ Set.Ico h.heapStart h.heapEnd :=
    Set.Ico_subset_Ico (by simp only; omega) (by simp only; omega)
  refine hi.cons (Nat.le_refl _) (by simp only; omega) haligned (hi.owned.subset hlow) ⟨haligned, hi.owned.subset hblock⟩
    (fun c hc => (hi.left c hc).mono_left hblock) ?_ fun c hc => (hi.left c hc).mono_left hlow
  exact Set.Ico_disjoint_Ico.mpr (by simp only; omega)

/-- A request gets the end of a new page, and the rest of the page is what is left then. -/
theorem HeapInv.switch (hf : Fresh page start finish) (hi : HeapInv page start finish h blocks) (hsize : roundUp size ≤ pageSize) :
    HeapInv page start finish ⟨page h.taken, page h.taken + pageSize - roundUp size, h.taken + 1⟩
      (⟨page h.taken + pageSize - roundUp size, roundUp size⟩ :: blocks) := by
  have hd := dvd_roundUp size
  have hpage : 16 ∣ page h.taken + pageSize :=
    Nat.dvd_add ((by decide : 16 ∣ pageSize).trans (hf.aligned _)) (by decide)
  have haligned : 16 ∣ page h.taken + pageSize - roundUp size := Nat.dvd_sub hpage hd
  have hlow : Set.Ico (page h.taken) (page h.taken + pageSize - roundUp size) ⊆ pageBytes page h.taken :=
    Set.Ico_subset_Ico_right (Nat.sub_le _ _)
  have hblock : Block.bytes ⟨page h.taken + pageSize - roundUp size, roundUp size⟩ ⊆ pageBytes page h.taken :=
    Set.Ico_subset_Ico (by simp only; omega) (by simp only; omega)
  have hnext : ∀ c ∈ blocks, Disjoint (pageBytes page h.taken) c.bytes := fun c hc =>
    ((hi.good c hc).owned.disjoint_next hf).symm
  refine hi.cons (Nat.le_succ _) (by simp only; omega) haligned (owned_next.subset hlow) ⟨haligned, owned_next.subset hblock⟩
    (fun c hc => (hnext c hc).mono_left hblock) ?_ fun c hc => (hnext c hc).mono_left hlow
  exact Set.Ico_disjoint_Ico.mpr (by simp only; omega)

/-- A request gets the start of a new page, and what was left stays. -/
theorem HeapInv.whole (hf : Fresh page start finish) (hi : HeapInv page start finish h blocks) (hsize : roundUp size ≤ pageSize) :
    HeapInv page start finish { h with taken := h.taken + 1 } (⟨page h.taken, roundUp size⟩ :: blocks) := by
  have hpage : 16 ∣ page h.taken := (by decide : 16 ∣ pageSize).trans (hf.aligned _)
  have hblock : Block.bytes ⟨page h.taken, roundUp size⟩ ⊆ pageBytes page h.taken :=
    Set.Ico_subset_Ico_right (by simp only; omega)
  have hnext : ∀ c ∈ blocks, Disjoint (pageBytes page h.taken) c.bytes := fun c hc =>
    ((hi.good c hc).owned.disjoint_next hf).symm
  exact hi.cons (Nat.le_succ _) hi.range hi.aligned (hi.owned.mono (Nat.le_succ _)) ⟨hpage, owned_next.subset hblock⟩
    (fun c hc => (hnext c hc).mono_left hblock) ((hi.owned.disjoint_next hf).mono_right hblock) hi.left

/-- A request of more than a page panics and changes nothing, any other one gets a block. -/
theorem kmalloc_spec (hf : Fresh page start finish) (hi : HeapInv page start finish h blocks) (size : Nat) :
    (pageSize < roundUp size ∧ kmalloc page h size = (none, h)) ∨
      roundUp size ≤ pageSize ∧ ∃ addr h', kmalloc page h size = (some addr, h') ∧
        HeapInv page start finish h' (⟨addr, roundUp size⟩ :: blocks) := by
  unfold kmalloc
  by_cases hbig : pageSize < roundUp size
  · exact .inl ⟨hbig, kmalloc_large page h hbig⟩
  · have hsize := Nat.le_of_not_lt hbig
    refine .inr ⟨hsize, ?_⟩
    simp only
    rw [if_neg hbig]
    by_cases hfit : roundUp size ≤ h.heapEnd - h.heapStart
    · rw [if_pos hfit]
      exact ⟨_, _, rfl, hi.carve hfit⟩
    · rw [if_neg hfit]
      split
      · exact ⟨_, _, rfl, hi.switch hf hsize⟩
      · exact ⟨_, _, rfl, hi.whole hf hsize⟩

/-- Every sequence of requests keeps the blocks apart, and gives each as much as it asks for. -/
theorem kmallocs_inv (hf : Fresh page start finish) (sizes : List Nat) (hsizes : ∀ size ∈ sizes, size + 15 < 2 ^ 64)
    (hi : HeapInv page start finish h blocks) :
    HeapInv page start finish (kmallocs page h sizes).2 ((kmallocs page h sizes).1.reverse ++ blocks) ∧
      List.Forall₂ (fun size b => size ≤ b.size) (sizes.take (kmallocs page h sizes).1.length) (kmallocs page h sizes).1 := by
  induction sizes generalizing h blocks with
  | nil => exact ⟨hi, .nil⟩
  | cons size sizes ih =>
      rcases kmalloc_spec hf hi size with ⟨-, he⟩ | ⟨-, addr, h', he, hi'⟩
      · rw [kmallocs, he]
        exact ⟨hi, .nil⟩
      · obtain ⟨hinv, hlarge⟩ := ih (fun s hs => hsizes s (List.mem_cons_of_mem _ hs)) hi'
        rw [kmallocs, he]
        refine ⟨?_, .cons (le_roundUp (hsizes size List.mem_cons_self)) hlarge⟩
        rw [List.reverse_cons, List.append_assoc]
        exact hinv

theorem heapInv_heapInit (hlt : start < finish) (hend : pageSize ∣ finish) :
    HeapInv page start finish ⟨start, finish, 0⟩ [] :=
  ⟨Nat.le_of_lt hlt, (by decide : 16 ∣ pageSize).trans hend, .inl Set.Subset.rfl, fun _ hb => absurd hb List.not_mem_nil,
    .nil, fun _ hb => absurd hb List.not_mem_nil⟩

end Step

/-- The blocks that a sequence of requests gets, and the heap that it leaves. -/
structure HeapSafe (page : Nat → Nat) (start finish : Nat) (sizes : List Nat) (blocks : List Block) (h : Heap) : Prop where
  aligned : ∀ b ∈ blocks, 16 ∣ b.addr
  large : List.Forall₂ (fun size b => size ≤ b.size) (sizes.take blocks.length) blocks
  inside : ∀ b ∈ blocks, b.bytes ⊆ Set.Ico start finish ∨ ∃ i, i < h.taken ∧ b.bytes ⊆ pageBytes page i
  apart : blocks.Pairwise fun b c => Disjoint b.bytes c.bytes
  panics : ∀ size, kmalloc page h size = (none, h) ↔ pageSize < roundUp size
  returns : ∀ size, roundUp size ≤ pageSize → ∃ addr h', kmalloc page h size = (some addr, h')

/-- After heap_init blocks never overlap, whatever is asked for. -/
theorem kmallocs_safe (page : Nat → Nat) (start finish : Nat) (hlt : start < finish) (hend : pageSize ∣ finish)
    (hf : Fresh page start finish) (sizes : List Nat) (hsizes : ∀ size ∈ sizes, size + 15 < 2 ^ 64) :
    ∃ h, heapInit start finish = some h ∧
      HeapSafe page start finish sizes (kmallocs page h sizes).1 (kmallocs page h sizes).2 := by
  refine ⟨⟨start, finish, 0⟩, if_pos hlt, ?_⟩
  obtain ⟨hi, hlarge⟩ := kmallocs_inv hf sizes hsizes (heapInv_heapInit hlt hend)
  rw [List.append_nil] at hi
  have hgood : ∀ b ∈ (kmallocs page ⟨start, finish, 0⟩ sizes).1, Good page start finish _ b := fun b hb =>
    hi.good b (List.mem_reverse.mpr hb)
  refine ⟨fun b hb => (hgood b hb).aligned, hlarge, fun b hb => (hgood b hb).owned, ?_, fun size => ?_, fun size hle => ?_⟩
  · exact (List.pairwise_reverse.mp hi.apart).imp fun hd => hd.symm
  · constructor
    · intro he
      rcases kmalloc_spec hf hi size with ⟨hbig, -⟩ | ⟨-, addr, h', he', -⟩
      · exact hbig
      · rw [he] at he'
        cases he'
    · intro hbig
      rcases kmalloc_spec hf hi size with ⟨-, he⟩ | ⟨hle, -⟩
      · exact he
      · exact absurd hbig (Nat.not_lt_of_le hle)
  · rcases kmalloc_spec hf hi size with ⟨hbig, -⟩ | ⟨-, addr, h', he, -⟩
    · exact absurd hbig (Nat.not_lt_of_le hle)
    · exact ⟨addr, h', he⟩

/-- Pages in a row from 0x80500000 on. -/
def pagesFrom (i : Nat) : Nat := pageSize * (0x80500 + i)

/-- A heap of 40 bytes: the third request gets a new page, the fourth one a page of its own. -/
theorem kmallocs_safe_small : ((kmallocs pagesFrom ⟨0x804FFFD8, 0x80500000, 0⟩ [1, 16, 100, 4090, 32]).1.map Block.addr) =
      [0x804FFFF0, 0x804FFFE0, 0x80500F90, 0x80501000, 0x80500F70] ∧
    ∃ h, heapInit 0x804FFFD8 0x80500000 = some h ∧
      HeapSafe pagesFrom 0x804FFFD8 0x80500000 [1, 16, 100, 4090, 32]
        (kmallocs pagesFrom h [1, 16, 100, 4090, 32]).1 (kmallocs pagesFrom h [1, 16, 100, 4090, 32]).2 := by
  have hf : Fresh pagesFrom 0x804FFFD8 0x80500000 := by
    refine ⟨fun i => Nat.dvd_mul_right _ _, fun i j hij => ?_, fun i => ?_⟩
    · exact Set.Ico_disjoint_Ico.mpr (by unfold pagesFrom pageSize; omega)
    · exact Set.Ico_disjoint_Ico.mpr (by unfold pagesFrom pageSize; omega)
  exact ⟨by decide, kmallocs_safe pagesFrom 0x804FFFD8 0x80500000 (by decide) (by decide) hf _ (by decide)⟩

end RiscvKernel.EzHeap
