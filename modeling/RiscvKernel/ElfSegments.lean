import RiscvKernel.ElfScan
import RiscvKernel.UserRange

namespace RiscvKernel.ElfSegments

open Memory PageOwnership VirtualMemory ElfLoad ElfScan UserImage UserRange

/-! Loading segments, on the image of the user region. -/

/-- A segment that was read whole and lies in the user region. -/
structure Fits (seg : Segment) : Prop where
  region : InRegion seg.header.pVaddr seg.header.pMemsz.toNat
  size : seg.header.pFilesz.toNat ≤ seg.header.pMemsz.toNat
  data : seg.data.length = seg.header.pFilesz.toNat
  whole : seg.whole = true

/-- The pages that are mapped for a segment. -/
def Maps (seg : Segment) (n : Nat) : Prop := InPages seg.header.pVaddr seg.header.pMemsz.toNat n

/-- The addresses of a segment's bytes. -/
def Covers (seg : Segment) (a : BitVec 64) : Prop :=
  seg.header.pVaddr.toNat ≤ a.toNat ∧ a.toNat < seg.header.pVaddr.toNat + seg.header.pMemsz.toNat

instance decidableMaps (seg : Segment) (n : Nat) : Decidable (Maps seg n) := inferInstanceAs (Decidable (InPages _ _ _))

instance decidableCovers (seg : Segment) (a : BitVec 64) : Decidable (Covers seg a) := inferInstanceAs (Decidable (_ ∧ _))

/-- The bytes after those of the file. -/
def zeroes (ph : Phdr) : List UInt8 := List.replicate (ph.pMemsz - ph.pFilesz).toNat 0

def loadImage (I : Image) (seg : Segment) : Option Image := do
  let ph := seg.header
  let I ← storeBytes (mapPages I (pteW ||| pteR ||| pteU) (pageNo ph.pVaddr) (pageCount ph.pMemsz.toNat)) ph.pVaddr seg.data
  let I := protectPages I ph.rwxFlags (pageNo ph.pVaddr) (pageCount ph.pMemsz.toNat)
  if ph.pMemsz > ph.pFilesz then storeBytes I (ph.pVaddr + ph.pFilesz) (zeroes ph) else return I

def loadImages (I : Image) (segs : List Segment) : Option Image := segs.foldlM loadImage I

section Sizes

variable {seg : Segment} (hs : Fits seg)
include hs

theorem Fits.data_region : InRegion seg.header.pVaddr seg.data.length := by
  have hr := inRegion_iff.mp hs.region
  have hsize := hs.size
  rw [inRegion_iff, hs.data]
  omega

theorem Fits.zeroes_length : (zeroes seg.header).length = seg.header.pMemsz.toNat - seg.header.pFilesz.toNat := by
  rw [zeroes, List.length_replicate, BitVec.toNat_sub_of_le hs.size]

theorem Fits.tail_toNat :
    (seg.header.pVaddr + seg.header.pFilesz).toNat = seg.header.pVaddr.toNat + seg.header.pFilesz.toNat := by
  have hr := inRegion_iff.mp hs.region
  have hsize := hs.size
  rw [BitVec.toNat_add, Nat.mod_eq_of_lt (by omega)]

theorem Fits.tail_region : InRegion (seg.header.pVaddr + seg.header.pFilesz) (zeroes seg.header).length := by
  have hr := inRegion_iff.mp hs.region
  have hsize := hs.size
  rw [inRegion_iff, hs.tail_toNat, hs.zeroes_length]
  omega

end Sizes

theorem rwxFlags_user (ph : Phdr) : ph.rwxFlags &&& pteG = 0 := by
  unfold Phdr.rwxFlags
  split <;> split <;> split <;> decide

section Load

variable {m m' : Mem} {free : List Ppn} {I I' : Image} {seg : Segment}

theorem mapped_flags (I : Image) (flags : BitVec 8) (n₀ cnt i : Nat) (hi : i < cnt) :
    flagsAt (mapPages I flags n₀ cnt) (n₀ + i) ≠ none := by
  rw [flagsAt_mapPages, if_pos (by omega)]
  exact Option.some_ne_none _

theorem flagsAt_ne_none {n : Nat} : flagsAt I n ≠ none ↔ I n ≠ none := by
  rw [flagsAt, Ne, Option.map_eq_none_iff]

/-- The kernel loads a segment as the image does, as long as there are pages. -/
theorem load_shows (hs : Fits seg) (h : UserSpace m free) (hI : Shows m I) :
    Segment.load kernelVm m seg = none ∧
        (free.length < 3 * pageCount seg.header.pMemsz.toNat ∨ loadImage I seg = none) ∨
      ∃ m' I' free', Segment.load kernelVm m seg = some m' ∧ loadImage I seg = some I' ∧ UserSpace m' free' ∧
        Shows m' I' ∧ free.length ≤ free'.length + 3 * pageCount seg.header.pMemsz.toNat := by
  have hload : ∀ μ : Type, ∀ vm : VmOps μ, ∀ m : μ, Segment.load vm m seg = (do
      let m ← vm.allocAndMapRange m seg.header.pVaddr seg.header.pMemsz (pteW ||| pteR ||| pteU)
      let m ← vm.store m seg.header.pVaddr seg.data
      let m ← vm.setRangeFlags m seg.header.pVaddr seg.header.pMemsz seg.header.rwxFlags
      if seg.header.pMemsz > seg.header.pFilesz then
        vm.store m (seg.header.pVaddr + seg.header.pFilesz) (zeroes seg.header)
      else return m) := by
    intro μ vm m
    simp only [Segment.load, hs.whole, Bool.not_true, Bool.false_eq_true, if_false, zeroes]
  rw [hload]
  unfold loadImage
  simp only [kernelVm, Option.bind_eq_bind, Option.pure_def]
  rcases memoryAllocAndMapRange_shows h hI hs.region (by decide : (pteW ||| pteR ||| pteU) &&& pteG = 0) with
    ⟨hnone, hlen⟩ | ⟨m₁, free₁, hrun, h₁, hI₁, hlen⟩
  · rw [hnone]
    exact .inl ⟨rfl, .inl hlen⟩
  rw [hrun, Option.bind_some]
  rcases store_shows seg.data h₁ hI₁ hs.data_region with ⟨hnone, hnone'⟩ | ⟨m₂, I₂, hrun, hrun', h₂, hI₂⟩
  · rw [hnone, hnone']
    exact .inl ⟨rfl, .inr rfl⟩
  rw [hrun, hrun', Option.bind_some, Option.bind_some]
  have hdata := inRegion_iff.mp hs.data_region
  have hflags := (storeBytes_spec seg.data (by omega) hrun').1
  obtain ⟨m₃, hrun, h₃, hI₃⟩ := memorySetRangeFlags_shows h₂ hI₂ hs.region (rwxFlags_user seg.header) fun i hi => by
    rw [← flagsAt_ne_none, hflags]
    exact mapped_flags I _ _ _ i hi
  rw [hrun, Option.bind_some]
  by_cases hbss : seg.header.pMemsz > seg.header.pFilesz
  · rw [if_pos hbss, if_pos hbss]
    rcases store_shows (zeroes seg.header) h₃ hI₃ hs.tail_region with ⟨hnone, hnone'⟩ | ⟨m₄, I₄, hrun, hrun', h₄, hI₄⟩
    · rw [hnone, hnone']
      exact .inl ⟨rfl, .inr rfl⟩
    · exact .inr ⟨m₄, I₄, free₁, hrun, hrun', h₄, hI₄, hlen⟩
  · rw [if_neg hbss, if_neg hbss]
    exact .inr ⟨m₃, _, free₁, rfl, rfl, h₃, hI₃, hlen⟩

/-- The pages that loading some segments may take. -/
def pagesFor (segs : List Segment) : Nat := (segs.map fun seg => 3 * pageCount seg.header.pMemsz.toNat).sum

theorem loadAll_shows {segs : List Segment} (hs : ∀ seg ∈ segs, Fits seg) (h : UserSpace m free) (hI : Shows m I) :
    loadAll kernelVm m segs = none ∧ (free.length < pagesFor segs ∨ loadImages I segs = none) ∨
      ∃ m' I' free', loadAll kernelVm m segs = some m' ∧ loadImages I segs = some I' ∧ UserSpace m' free' ∧ Shows m' I' := by
  induction segs generalizing m free I with
  | nil => exact .inr ⟨m, I, free, rfl, rfl, h, hI⟩
  | cons seg segs ih =>
      rw [loadAll_cons, loadImages, List.foldlM_cons, pagesFor, List.map_cons, List.sum_cons]
      rcases load_shows (hs seg List.mem_cons_self) h hI with ⟨hnone, hwhy⟩ | ⟨m₁, I₁, free₁, hrun, hrun', h₁, hI₁, hlen⟩
      · rw [hnone]
        refine .inl ⟨rfl, hwhy.imp (fun hlen => by omega) fun hnone' => ?_⟩
        rw [hnone']
        rfl
      · rw [hrun, hrun']
        rcases ih (fun seg hseg => hs seg (List.mem_cons_of_mem _ hseg)) h₁ hI₁ with ⟨hnone, hwhy⟩ | hsome
        · refine .inl ⟨hnone, hwhy.imp (fun hlen' => ?_) fun hnone' => hnone'⟩
          rw [pagesFor] at hlen'
          omega
        · exact .inr hsome

end Load

section Image

variable {I I' : Image} {seg : Segment} {a : BitVec 64} {n : Nat}

/-- The flags and the bytes of the region after a segment is loaded. -/
theorem loadImage_spec (hs : Fits seg) (h : loadImage I seg = some I') :
    (∀ n, flagsAt I' n = if Maps seg n then some (leafFlags seg.header.rwxFlags) else flagsAt I n) ∧
    ∀ a, byteAt I' a =
      if seg.header.pVaddr.toNat ≤ a.toNat ∧ a.toNat < seg.header.pVaddr.toNat + seg.data.length then
        seg.data[a.toNat - seg.header.pVaddr.toNat]?
      else if Covers seg a ∨ Maps seg (pageNo a) then some 0 else byteAt I a := by
  obtain ⟨I₁, h₁, h⟩ := Option.bind_eq_some_iff.mp h
  have hdata := inRegion_iff.mp hs.data_region
  have htail := inRegion_iff.mp hs.tail_region
  have hsize := hs.size
  obtain ⟨hf₁, hb₁⟩ := storeBytes_spec seg.data (by omega) h₁
  have hf₂ : ∀ n, flagsAt (protectPages I₁ seg.header.rwxFlags (pageNo seg.header.pVaddr)
      (pageCount seg.header.pMemsz.toNat)) n =
      if Maps seg n then some (leafFlags seg.header.rwxFlags) else flagsAt I n := by
    intro n
    rw [flagsAt_protectPages fun i hi => by rw [hf₁]; exact mapped_flags I _ _ _ i hi]
    by_cases hn : Maps seg n
    · have hin : pageNo seg.header.pVaddr ≤ n ∧ n < pageNo seg.header.pVaddr + pageCount seg.header.pMemsz.toNat := hn
      rw [if_pos hin, if_pos hn]
    · have hin : ¬ (pageNo seg.header.pVaddr ≤ n ∧ n < pageNo seg.header.pVaddr + pageCount seg.header.pMemsz.toNat) := hn
      rw [if_neg hin, if_neg hn, hf₁, flagsAt_mapPages, if_neg hin]
  have hb₂ : ∀ a, byteAt (protectPages I₁ seg.header.rwxFlags (pageNo seg.header.pVaddr)
      (pageCount seg.header.pMemsz.toNat)) a =
      if seg.header.pVaddr.toNat ≤ a.toNat ∧ a.toNat < seg.header.pVaddr.toNat + seg.data.length then
        seg.data[a.toNat - seg.header.pVaddr.toNat]?
      else if Maps seg (pageNo a) then some 0 else byteAt I a := by
    intro a
    rw [byteAt_protectPages, hb₁, byteAt_mapPages]
    rfl
  rw [hs.data] at hb₂ ⊢
  simp only at h
  split at h
  · rename_i hbss
    obtain ⟨hf₃, hb₃⟩ := storeBytes_spec (zeroes seg.header) (by omega) h
    refine ⟨fun n => (hf₃ n).trans (hf₂ n), fun a => ?_⟩
    rw [hb₃, hb₂, hs.tail_toNat, hs.zeroes_length]
    have hzero : ∀ i < seg.header.pMemsz.toNat - seg.header.pFilesz.toNat, (zeroes seg.header)[i]? = some 0 := by
      intro i hi
      rw [zeroes, List.getElem?_replicate, if_pos]
      rw [BitVec.toNat_sub_of_le hs.size]
      exact hi
    by_cases hin : seg.header.pVaddr.toNat + seg.header.pFilesz.toNat ≤ a.toNat ∧
        a.toNat < seg.header.pVaddr.toNat + seg.header.pFilesz.toNat +
          (seg.header.pMemsz.toNat - seg.header.pFilesz.toNat)
    · have hcov : Covers seg a := by
        unfold Covers
        omega
      rw [if_pos hin, if_neg (by omega), if_pos (.inl hcov), hzero _ (by omega)]
    · rw [if_neg hin]
      by_cases hfile : seg.header.pVaddr.toNat ≤ a.toNat ∧ a.toNat < seg.header.pVaddr.toNat + seg.header.pFilesz.toNat
      · rw [if_pos hfile, if_pos hfile]
      · have hcov : ¬ Covers seg a := by
          unfold Covers
          omega
        rw [if_neg hfile, if_neg hfile]
        refine if_congr ?_ rfl rfl
        rw [or_iff_right hcov]
  · rename_i hbss
    obtain rfl := Option.some.inj h
    have heq : seg.header.pFilesz.toNat = seg.header.pMemsz.toNat := by
      rw [gt_iff_lt, BitVec.lt_def] at hbss
      omega
    refine ⟨hf₂, fun a => ?_⟩
    rw [hb₂, heq]
    by_cases hin : seg.header.pVaddr.toNat ≤ a.toNat ∧ a.toNat < seg.header.pVaddr.toNat + seg.header.pMemsz.toNat
    · rw [if_pos hin, if_pos hin]
    · have hcov : ¬ Covers seg a := hin
      rw [if_neg hin, if_neg hin]
      refine if_congr ?_ rfl rfl
      rw [or_iff_right hcov]

/-- A segment can be loaded when its bytes lie in its pages and those after the file's
in writable ones. -/
theorem loadImage_some (hs : Fits seg) (hcov : ∀ a, Covers seg a → Maps seg (pageNo a))
    (hw : seg.header.pFilesz < seg.header.pMemsz → writable (leafFlags seg.header.rwxFlags) = true) :
    ∃ I', loadImage I seg = some I' := by
  have hdata := inRegion_iff.mp hs.data_region
  have htail := inRegion_iff.mp hs.tail_region
  have hregion := inRegion_iff.mp hs.region
  have hsize := hs.size
  have hmaps : ∀ i < seg.header.pMemsz.toNat, Maps seg ((seg.header.pVaddr.toNat + i) / 4096) := by
    intro i hi
    have hi' : (seg.header.pVaddr + BitVec.ofNat 64 i).toNat = seg.header.pVaddr.toNat + i := toNat_add_ofNat (by omega)
    have hc : Covers seg (seg.header.pVaddr + BitVec.ofNat 64 i) := by
      unfold Covers
      rw [hi']
      omega
    have hpage := hcov _ hc
    rwa [pageNo, hi'] at hpage
  obtain ⟨I₁, h₁⟩ := @storeBytes_some (mapPages I (pteW ||| pteR ||| pteU) (pageNo seg.header.pVaddr)
    (pageCount seg.header.pMemsz.toNat)) seg.header.pVaddr seg.data (by omega) fun i hi => by
      rw [hs.data] at hi
      have hpage : _ ∧ _ := hmaps i (by omega)
      exact ⟨leafFlags (pteW ||| pteR ||| pteU), by rw [flagsAt_mapPages, if_pos hpage], by decide⟩
  have hf₁ := (storeBytes_spec seg.data (by omega) h₁).1
  simp only [loadImage, Option.bind_eq_bind, Option.pure_def, h₁, Option.bind_some]
  split
  · rename_i hbss
    refine storeBytes_some _ (by omega) fun i hi => ?_
    rw [hs.zeroes_length] at hi
    have hpage : _ ∧ _ := hmaps (seg.header.pFilesz.toNat + i) (by omega)
    refine ⟨leafFlags seg.header.rwxFlags, ?_, hw hbss⟩
    rw [flagsAt_protectPages fun i hi => by rw [hf₁]; exact mapped_flags I _ _ _ i hi, hs.tail_toNat, Nat.add_assoc,
      if_pos hpage]
  · exact ⟨_, rfl⟩

theorem loadImages_some {segs : List Segment} (h : ∀ seg ∈ segs, ∀ I, ∃ I', loadImage I seg = some I') (I : Image) :
    ∃ I', loadImages I segs = some I' := by
  induction segs generalizing I with
  | nil => exact ⟨I, rfl⟩
  | cons seg segs ih =>
      obtain ⟨I₁, h₁⟩ := h seg List.mem_cons_self I
      rw [loadImages, List.foldlM_cons, h₁]
      exact ih (fun s hs => h s (List.mem_cons_of_mem _ hs)) I₁

end Image

end RiscvKernel.ElfSegments
