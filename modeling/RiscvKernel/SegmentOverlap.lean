import RiscvKernel.ElfSegments
import RiscvKernel.Literal

namespace RiscvKernel.SegmentOverlap

open MemoryInit hiding Image
open Memory Io PageTree AddressSpace MapPage PageOwnership VirtualMemory ElfLoad ElfScan UserImage UserRange ElfSegments
  Literal Lib.PointerTree Lib.PathLookup

/-- The byte at an address, in the page behind the entry that walk_pt finds. -/
def contentAt (m : Mem) (vma : BitVec 64) : Option UInt8 := do
  let (pt0, i) ← walkPtFind m (rootOf m.satp) vma
  let e := m.ram pt0 i
  if has e pteV then some (byteOf (m.ram (ppnOf e)) vma) else none

section Content

variable {m : Mem} {free : List Ppn} {I : Image} {vma : BitVec 64}

theorem contentAt_eq (h : UserSpace m free) (hI : Shows m I) (hu : IsUser vma) : contentAt m vma = byteAt I vma := by
  cases he : entryAt m.ram (rootOf m.satp) vma with
  | some e =>
      obtain ⟨q, hwalk, -, heq⟩ := walkPtFind_entry hu he
      have hv : has e pteV = true := (child_eq_some.mp (h.reaches_own he)).1
      have hleaf : I (pageNo vma) = some (leafOf m e) := by
        rw [← hI vma hu, viewAt, he, Option.map_some]
      rw [contentAt, hwalk, byteAt, hleaf]
      simp only [Option.bind_eq_bind, Option.bind_some, heq, hv, if_true, Option.map_some, leafOf, byteOf_eq]
  | none =>
      have hw := h.walk hu
      have hnone : I (pageNo vma) = none := by
        rw [← hI vma hu, viewAt, he, Option.map_none]
      rw [byteAt, hnone, Option.map_none, contentAt, VirtualMemory.walkPtFind, hu.wellformed]
      rw [entryAt_eq] at he
      cases hv : has (m.ram (rootOf m.satp) (vpn 2 vma)) pteV with
      | false => simp [hv]
      | true =>
          rw [child_eq_some.mpr ⟨hv, (hw.entry2 hv).1, rfl⟩, Option.bind_some] at he
          cases hv' : has (m.ram (ppnOf (m.ram (rootOf m.satp) (vpn 2 vma))) (vpn 1 vma)) pteV with
          | false => simp [hv']
          | true =>
              rw [child_eq_some.mpr ⟨hv', (hw.entry1 hv hv').1, rfl⟩, Option.bind_some] at he
              split at he
              · cases he
              · rename_i hinv
                simp [hv, hv', hinv]

/-- The user region of a space as an image. -/
def imageOf (m : Mem) (n : Nat) : Option Leaf := viewAt m (BitVec.ofNat 64 (n * 4096))

theorem shows_imageOf (m : Mem) : Shows m (imageOf m) := by
  intro vma hu
  have hb := hu.bounds
  have htn : (BitVec.ofNat 64 (pageNo vma * 4096)).toNat = pageNo vma * 4096 := by
    rw [BitVec.toNat_ofNat]
    unfold pageNo
    omega
  have hu' : IsUser (BitVec.ofNat 64 (pageNo vma * 4096)) := by
    rw [isUser_iff, htn]
    unfold pageNo
    omega
  have hpage : pageNo vma = pageNo (BitVec.ofNat 64 (pageNo vma * 4096)) := by
    have hdiv : pageNo (BitVec.ofNat 64 (pageNo vma * 4096)) = pageNo vma * 4096 / 4096 := congrArg (· / 4096) htn
    omega
  rw [imageOf, viewAt, viewAt, vpns_congr ((vpns_eq_iff hu hu').mpr hpage)]

end Content

section Overlap

variable {I I' : Image} {a : BitVec 64} {x : UInt8} {segs : List Segment}

/-- A byte that no later segment has is lost when one of them maps its page. -/
theorem loadImages_byte (hs : ∀ seg ∈ segs, Fits seg) (hout : ∀ seg ∈ segs, ¬ Covers seg a) (hx : byteAt I a = some x)
    (h : loadImages I segs = some I') : byteAt I' a = some (if ∃ seg ∈ segs, Maps seg (pageNo a) then 0 else x) := by
  induction segs generalizing I x with
  | nil =>
      obtain rfl := Option.some.inj h
      simpa using hx
  | cons seg segs ih =>
      rw [loadImages, List.foldlM_cons] at h
      obtain ⟨I₁, h₁, h⟩ := Option.bind_eq_some_iff.mp h
      have hfit := hs seg List.mem_cons_self
      have hcov := hout seg List.mem_cons_self
      have hfile : ¬ (seg.header.pVaddr.toNat ≤ a.toNat ∧ a.toNat < seg.header.pVaddr.toNat + seg.data.length) := by
        have hsize := hfit.size
        rw [hfit.data]
        unfold Covers at hcov
        omega
      have hstep := (loadImage_spec hfit h₁).2 a
      rw [if_neg hfile] at hstep
      have ih := @ih I₁
      simp only [List.mem_cons, exists_eq_or_imp]
      by_cases hmap : Maps seg (pageNo a)
      · rw [if_pos (.inr hmap)] at hstep
        rw [ih (fun s h => hs s (List.mem_cons_of_mem _ h)) (fun s h => hout s (List.mem_cons_of_mem _ h)) hstep h,
          if_pos (Or.inl hmap), ite_self]
      · rw [if_neg (not_or.mpr ⟨hcov, hmap⟩), hx] at hstep
        rw [ih (fun s h => hs s (List.mem_cons_of_mem _ h)) (fun s h => hout s (List.mem_cons_of_mem _ h)) hstep h]
        exact congrArg some (if_congr (or_iff_right hmap).symm rfl rfl)

/-- The segment's bytes in the file are at their addresses. -/
def Present (I : Image) (seg : Segment) : Prop :=
  ∀ k (hk : k < seg.data.length), byteAt I (seg.header.pVaddr + BitVec.ofNat 64 k) = some seg.data[k]

/-- The pages mapped for the segment b hold no byte of the segment a but zeroes. -/
def Spares (a b : Segment) : Prop :=
  ∀ k (hk : k < a.data.length), Maps b (pageNo (a.header.pVaddr + BitVec.ofNat 64 k)) → a.data[k] = 0

def Apart (a b : Segment) : Prop := ∀ x, Covers a x → ¬ Covers b x

theorem loadImages_present (hs : ∀ seg ∈ segs, Fits seg) (hdis : segs.Pairwise Apart) (h : loadImages I segs = some I') :
    (∀ seg ∈ segs, Present I' seg) ↔ segs.Pairwise Spares := by
  induction segs generalizing I with
  | nil => simp
  | cons seg segs ih =>
      rw [loadImages, List.foldlM_cons] at h
      obtain ⟨I₁, h₁, h⟩ := Option.bind_eq_some_iff.mp h
      rw [List.pairwise_cons] at hdis ⊢
      have hfit := hs seg List.mem_cons_self
      have hrest : ∀ s ∈ segs, Fits s := fun s hs' => hs s (List.mem_cons_of_mem _ hs')
      rw [List.forall_mem_cons, ih hrest hdis.2 h]
      refine and_congr_left fun _ => ?_
      have hdata := inRegion_iff.mp hfit.data_region
      have hbyte : ∀ k (hk : k < seg.data.length), byteAt I' (seg.header.pVaddr + BitVec.ofNat 64 k) =
          some (if ∃ s ∈ segs, Maps s (pageNo (seg.header.pVaddr + BitVec.ofNat 64 k)) then 0 else seg.data[k]) := by
        intro k hk
        have hadd : (seg.header.pVaddr + BitVec.ofNat 64 k).toNat = seg.header.pVaddr.toNat + k := toNat_add_ofNat (by omega)
        have hin : Covers seg (seg.header.pVaddr + BitVec.ofNat 64 k) := by
          have hsize := hfit.size
          have hlen := hfit.data
          unfold Covers
          rw [hadd]
          omega
        refine loadImages_byte hrest (fun s hs' => hdis.1 s hs' _ hin) ?_ h
        rw [(loadImage_spec hfit h₁).2, hadd, if_pos (by omega), Nat.add_sub_cancel_left, List.getElem?_eq_getElem hk]
      constructor
      · intro hp s hs' k hk hmap
        have := hp k hk
        rw [hbyte k hk, if_pos ⟨s, hs', hmap⟩] at this
        exact (Option.some.inj this).symm
      · intro hsp k hk
        rw [hbyte k hk]
        split
        · rename_i hmap
          obtain ⟨s, hs', hmap⟩ := hmap
          rw [hsp s hs' k hk hmap]
        · rfl

end Overlap

/-- elf_load, where it returns 0. -/
theorem elfLoad_zero {σ : Type} {ops : IoOps σ} {st : Locals} {s s' : σ} {m m' : Mem} {entry : Option (BitVec 64)}
    (h : elfLoad ops kernelVm st s m = some (0, entry, s', m')) :
    (scan ops st s).result = 0 ∧ loadAll kernelVm m (scan ops st s).segments = some m' ∧
      entry = some (headerOf ops st s).eEntry := by
  rw [elfLoad_scan] at h
  obtain ⟨m₁, hm₁, he⟩ := Option.map_eq_some_iff.mp h
  obtain ⟨hr, he⟩ := Prod.mk.inj he
  rw [hr, if_neg (by decide)] at he
  obtain ⟨hentry, he⟩ := Prod.mk.inj he
  obtain ⟨-, rfl⟩ := Prod.mk.inj he
  exact ⟨hr, hm₁, hentry.symm⟩

theorem loadAll_content {m m' : Mem} {free : List Ppn} {segs : List Segment} (hm : UserSpace m free)
    (hs : ∀ seg ∈ segs, Fits seg) (hdis : segs.Pairwise Apart) (h : loadAll kernelVm m segs = some m') :
    (∀ seg ∈ segs, ∀ k (hk : k < seg.data.length),
      contentAt m' (seg.header.pVaddr + BitVec.ofNat 64 k) = some seg.data[k]) ↔ segs.Pairwise Spares := by
  rcases loadAll_shows hs hm (shows_imageOf m) with ⟨hnone, -⟩ | ⟨m₁, I', free', hrun, himg, hm', hI'⟩
  · cases hnone.symm.trans h
  obtain rfl := Option.some.inj (hrun.symm.trans h)
  rw [← loadImages_present hs hdis himg]
  refine forall₂_congr fun seg hseg => forall₂_congr fun k hk => ?_
  rw [contentAt_eq hm' hI' ((hs seg hseg).data_region.isUser hk)]

/-- For segments in the user region with disjoint bytes: when elf_load returns 0 the bytes
of the file are in memory exactly if no page mapped for a segment holds a byte, other than
a zero, of one before it. The reads are taken to deliver what they return. -/
theorem segments_preserved_iff {σ : Type} (ops : IoOps σ) (st : Locals) (s s' : σ) (m m' : Mem) (free : List Ppn)
    (entry : Option (BitVec 64)) (hm : UserSpace m free) (hload : elfLoad ops kernelVm st s m = some (0, entry, s', m'))
    (hs : ∀ seg ∈ (scan ops st s).segments, InRegion seg.header.pVaddr seg.header.pMemsz.toNat ∧
      seg.header.pFilesz.toNat ≤ seg.header.pMemsz.toNat)
    (hread : ∀ seg ∈ (scan ops st s).segments, seg.data.length = seg.header.pFilesz.toNat)
    (hdis : (scan ops st s).segments.Pairwise Apart) :
    (∀ seg ∈ (scan ops st s).segments, ∀ k (hk : k < seg.data.length),
      contentAt m' (seg.header.pVaddr + BitVec.ofNat 64 k) = some seg.data[k]) ↔
      (scan ops st s).segments.Pairwise Spares := by
  obtain ⟨hr, hall, -⟩ := elfLoad_zero hload
  have hwhole := scan_whole s hr
  have hfit : ∀ seg ∈ (scan ops st s).segments, Fits seg := fun seg hseg =>
    ⟨(hs seg hseg).1, (hs seg hseg).2, hread seg hseg, hwhole seg hseg⟩
  exact loadAll_content hm hfit hdis hall

section Sample

theorem userSpace_of_booted {img : MemoryInit.Image} {m : Mem} {free : List Ppn} (h : Booted img m free) :
    UserSpace m free := by
  refine ⟨⟨h.list, ?_, h.all fun i hv hg => ?_⟩, fun hv => ?_⟩
  · rw [h.owned]
    exact List.nodup_cons.mpr ⟨h.apart _ (by simp), h.nodup⟩
  · exact absurd ((h.map.root i hv).1.symm.trans hg) (by decide)
  · rw [h.root, h.map.user 3 (by decide)]
    decide

def leBytes (n : Nat) : Nat → List UInt8
  | 0 => []
  | k + 1 => UInt8.ofNat n :: leBytes (n / 256) k

def phdrBytes (ph : Phdr) : List UInt8 :=
  leBytes ph.pType 4 ++ leBytes ph.pFlags 4 ++ leBytes ph.pOffset.toNat 8 ++ leBytes ph.pVaddr.toNat 8 ++
    leBytes ph.pVaddr.toNat 8 ++ leBytes ph.pFilesz.toNat 8 ++ leBytes ph.pMemsz.toNat 8 ++ leBytes 4096 8

/-- A file of a header, the program headers and what follows them. -/
def exeOf (phs : List Phdr) (data : List UInt8) : List UInt8 :=
  let ident : List UInt8 := [0x7F, 0x45, 0x4C, 0x46, 2, 1, 1, 0, 0, 0, 0, 0, 0, 0, 0, 0]
  let ehdr := ident ++ leBytes 2 2 ++ leBytes 243 2 ++ leBytes 1 4 ++ leBytes 0xC0000000 8 ++ leBytes 64 8 ++
    leBytes 0 8 ++ leBytes 0 4 ++ leBytes 64 2 ++ leBytes 56 2 ++ leBytes phs.length 2 ++ leBytes 0 6
  ehdr ++ phs.flatMap phdrBytes ++ data

def samplePhdr (off a filesz memsz : Nat) : Phdr :=
  ⟨1, 6, BitVec.ofNat 64 off, BitVec.ofNat 64 a, BitVec.ofNat 64 filesz, BitVec.ofNat 64 memsz⟩

/-- An executable with two segments of one byte each. -/
def sampleExe (a b : Nat) : List UInt8 := exeOf [samplePhdr 176 a 1 1, samplePhdr 177 b 1 1] [1, 2]

def sampleLocals : Locals := ⟨fun _ => 0, fun _ _ => 0⟩

def sampleSegment (off a : Nat) (b : UInt8) : Segment := ⟨samplePhdr off a 1 1, [b], true⟩

theorem sampleSegment_fits {off a : Nat} {b : UInt8} (h : 0xC0000000 ≤ a) (h' : a < 0xD0000000) :
    Fits (sampleSegment off a b) ∧ ∀ I, ∃ I', loadImage I (sampleSegment off a b) = some I' := by
  have ha : (BitVec.ofNat 64 a).toNat = a := by
    rw [BitVec.toNat_ofNat]
    omega
  have hfit : Fits (sampleSegment off a b) := by
    refine ⟨inRegion_iff.mpr ?_, Nat.le_refl _, rfl, rfl⟩
    simp only [sampleSegment, samplePhdr, ha]
    exact ⟨h, by rw [show (BitVec.ofNat 64 1).toNat = 1 from rfl]; omega⟩
  refine ⟨hfit, fun I => loadImage_some hfit (fun x hx => ?_) fun hlt => absurd hlt (by decide : ¬ (1 : BitVec 64) < 1)⟩
  simp only [Covers, sampleSegment, samplePhdr, ha, show (BitVec.ofNat 64 1).toNat = 1 from rfl] at hx
  simp only [Maps, InPages, sampleSegment, samplePhdr, show (BitVec.ofNat 64 1).toNat = 1 from rfl, pageCount, pageNo, ha]
  omega

/-- After memory_init the kernel loads an executable that needs six pages at most. -/
theorem sample_load {iol : Lit} {segs : List Segment} (hscan : (scan iolitOps sampleLocals iol).segments = segs)
    (hr : (scan iolitOps sampleLocals iol).result = 0)
    (hs : ∀ seg ∈ segs, Fits seg ∧ ∀ I, ∃ I', loadImage I seg = some I') (hpages : pagesFor segs ≤ 6) :
    ∃ m free s' m' entry, UserSpace m free ∧ elfLoad iolitOps kernelVm sampleLocals iol m = some (0, entry, s', m') := by
  obtain ⟨m, free, -, hb, -⟩ := sample_booted
  have hlen : 6 ≤ free.length := by
    rw [hb.length]
    decide
  have hm := userSpace_of_booted hb
  rcases loadAll_shows (fun seg hseg => (hs seg hseg).1) hm (shows_imageOf m) with ⟨-, hshort | hnone⟩ | ⟨m', -, -, hrun, -⟩
  · omega
  · obtain ⟨I', hI'⟩ := loadImages_some (fun seg hseg => (hs seg hseg).2) (imageOf m)
    cases hnone.symm.trans hI'
  · refine ⟨m, free, (scan iolitOps sampleLocals iol).file, m', some (headerOf iolitOps sampleLocals iol).eEntry, hm, ?_⟩
    rw [elfLoad_scan, hscan, hrun, hr]
    rfl

theorem sampleSegment_covers {off a : Nat} {b : UInt8} (ha : a < 0xD0000000) {x : BitVec 64} :
    Covers (sampleSegment off a b) x ↔ x.toNat = a := by
  have hto : (BitVec.ofNat 64 a).toNat = a := by
    rw [BitVec.toNat_ofNat]
    omega
  simp only [Covers, sampleSegment, samplePhdr, hto, show (BitVec.ofNat 64 1).toNat = 1 from rfl]
  omega

/-- Two segments of one byte each are what the law is about. -/
theorem sample_pair {a b : Nat} (ha : 0xC0000000 ≤ a ∧ a < 0xD0000000) (hb : 0xC0000000 ≤ b ∧ b < 0xD0000000) (hne : a ≠ b)
    (hscan : (scan iolitOps sampleLocals ⟨sampleExe a b, 0⟩).segments = [sampleSegment 176 a 1, sampleSegment 177 b 2])
    (hr : (scan iolitOps sampleLocals ⟨sampleExe a b, 0⟩).result = 0) :
    ∃ m free s' m' entry, UserSpace m free ∧
      elfLoad iolitOps kernelVm sampleLocals ⟨sampleExe a b, 0⟩ m = some (0, entry, s', m') ∧
      (∀ seg ∈ (scan iolitOps sampleLocals ⟨sampleExe a b, 0⟩).segments,
        InRegion seg.header.pVaddr seg.header.pMemsz.toNat ∧ seg.header.pFilesz.toNat ≤ seg.header.pMemsz.toNat) ∧
      (∀ seg ∈ (scan iolitOps sampleLocals ⟨sampleExe a b, 0⟩).segments, seg.data.length = seg.header.pFilesz.toNat) ∧
      (scan iolitOps sampleLocals ⟨sampleExe a b, 0⟩).segments.Pairwise Apart := by
  have hfit : ∀ seg ∈ [sampleSegment 176 a 1, sampleSegment 177 b 2], Fits seg ∧ ∀ I, ∃ I', loadImage I seg = some I' := by
    intro seg hseg
    simp only [List.mem_cons, List.not_mem_nil, or_false] at hseg
    rcases hseg with rfl | rfl
    · exact sampleSegment_fits ha.1 ha.2
    · exact sampleSegment_fits hb.1 hb.2
  obtain ⟨m, free, s', m', entry, hm, hrun⟩ := sample_load hscan hr hfit (by decide : 3 * pageCount 1 + (3 * pageCount 1 + 0) ≤ 6)
  refine ⟨m, free, s', m', entry, hm, hrun, ?_, ?_, ?_⟩
  · rw [hscan]
    exact fun seg hseg => ⟨(hfit seg hseg).1.region, (hfit seg hseg).1.size⟩
  · rw [hscan]
    exact fun seg hseg => (hfit seg hseg).1.data
  · rw [hscan, List.pairwise_pair]
    intro x hx hx'
    rw [sampleSegment_covers ha.2] at hx
    rw [sampleSegment_covers hb.2] at hx'
    exact hne (hx.symm.trans hx')

/-- Segments on two pages. -/
theorem segments_preserved_twoPages : ∃ m free s' m' entry, UserSpace m free ∧
    elfLoad iolitOps kernelVm sampleLocals ⟨sampleExe 0xC0000000 0xC0001000, 0⟩ m = some (0, entry, s', m') ∧
    ∀ seg ∈ (scan iolitOps sampleLocals ⟨sampleExe 0xC0000000 0xC0001000, 0⟩).segments,
      ∀ k (hk : k < seg.data.length), contentAt m' (seg.header.pVaddr + BitVec.ofNat 64 k) = some seg.data[k] := by
  have hscan : (scan iolitOps sampleLocals ⟨sampleExe 0xC0000000 0xC0001000, 0⟩).segments =
      [sampleSegment 176 0xC0000000 1, sampleSegment 177 0xC0001000 2] := by decide +kernel
  obtain ⟨m, free, s', m', entry, hm, hrun, hs, hread, hdis⟩ := sample_pair (by decide) (by decide) (by decide) hscan
    (by decide +kernel)
  refine ⟨m, free, s', m', entry, hm, hrun,
    (segments_preserved_iff iolitOps sampleLocals _ s' m m' free entry hm hrun hs hread hdis).mpr ?_⟩
  rw [hscan, List.pairwise_pair]
  intro k hk hmap
  have hk0 : k = 0 := Nat.lt_one_iff.mp hk
  subst hk0
  exact absurd hmap (by decide)

/-- A segment that starts on the page on which the one before it ends: its byte is lost. -/
theorem segments_shared_page : ∃ m free s' m' entry, UserSpace m free ∧
    elfLoad iolitOps kernelVm sampleLocals ⟨sampleExe 0xC0000000 0xC0000001, 0⟩ m = some (0, entry, s', m') ∧
    (∀ seg ∈ (scan iolitOps sampleLocals ⟨sampleExe 0xC0000000 0xC0000001, 0⟩).segments,
      InRegion seg.header.pVaddr seg.header.pMemsz.toNat ∧ seg.header.pFilesz.toNat ≤ seg.header.pMemsz.toNat) ∧
    (scan iolitOps sampleLocals ⟨sampleExe 0xC0000000 0xC0000001, 0⟩).segments.Pairwise Apart ∧
    ¬ ∀ seg ∈ (scan iolitOps sampleLocals ⟨sampleExe 0xC0000000 0xC0000001, 0⟩).segments,
      ∀ k (hk : k < seg.data.length), contentAt m' (seg.header.pVaddr + BitVec.ofNat 64 k) = some seg.data[k] := by
  have hscan : (scan iolitOps sampleLocals ⟨sampleExe 0xC0000000 0xC0000001, 0⟩).segments =
      [sampleSegment 176 0xC0000000 1, sampleSegment 177 0xC0000001 2] := by decide +kernel
  obtain ⟨m, free, s', m', entry, hm, hrun, hs, hread, hdis⟩ := sample_pair (by decide) (by decide) (by decide) hscan
    (by decide +kernel)
  refine ⟨m, free, s', m', entry, hm, hrun, hs, hdis, fun h => ?_⟩
  obtain ⟨hr, hall, -⟩ := elfLoad_zero hrun
  have hwhole := scan_whole _ hr
  rw [loadAll_content hm (fun seg hseg => ⟨(hs seg hseg).1, (hs seg hseg).2, hread seg hseg, hwhole seg hseg⟩) hdis hall,
    hscan, List.pairwise_pair] at h
  exact absurd (h 0 Nat.one_pos (by decide)) (by decide)

end Sample

end RiscvKernel.SegmentOverlap
