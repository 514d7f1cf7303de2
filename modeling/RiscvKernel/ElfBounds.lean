import RiscvKernel.SegmentOverlap

namespace RiscvKernel.ElfBounds

open Memory Io PageOwnership VirtualMemory ElfLoad ElfScan UserImage UserRange Literal

/-- The addresses that elf_load maps, protects and writes for a segment. -/
structure Touched where
  start : BitVec 64
  size : BitVec 64
  addrs : List (BitVec 64)

/-- The addresses of the 4 KiB page that an address is in. -/
def pageAround (vma : BitVec 64) : List (BitVec 64) := (List.range 4096).map fun i => BitVec.ofNat 64 (pageNo vma * 4096 + i)

/-- The addresses that a range operation maps or protects: whole pages. -/
def pagesOf (vma size : BitVec 64) : List (BitVec 64) :=
  (List.range (numPages size).toNat).flatMap fun x => pageAround (vma + BitVec.ofNat 64 (x * 4096))

/-- The addresses of a store of n bytes. -/
def bytesFrom (vma : BitVec 64) (n : Nat) : List (BitVec 64) := (List.range n).map fun i => vma + BitVec.ofNat 64 i

def touch (addrs : List (BitVec 64)) : List Touched → List Touched
  | [] => []
  | t :: log => { t with addrs := t.addrs ++ addrs } :: log

/-- A memory in which nothing fails and that records what it is asked, the last segment first. -/
def traceVm : VmOps (List Touched) where
  unmapAndFreeUser log := log
  allocAndMapRange log vma size _ := some (⟨vma, size, pagesOf vma size⟩ :: log)
  setRangeFlags log vma size _ := some (touch (pagesOf vma size) log)
  store log vma bytes := some (touch (bytesFrom vma bytes.length) log)

/-- In the user region and in the segment. -/
def Touched.Inside (t : Touched) : Prop :=
  ∀ a ∈ t.addrs, IsUser a ∧ t.start.toNat ≤ a.toNat ∧ a.toNat < t.start.toNat + t.size.toNat

/-- The x-th page of a range is one of the user region and has nothing but bytes of the range. -/
def PageInside (vma size : BitVec 64) (x : Nat) : Prop :=
  vma.toNat % 4096 = 0 ∧ vma.toNat + (x + 1) * 4096 ≤ userEnd.toNat ∧ (x + 1) * 4096 ≤ size.toNat

/-- All the pages of a segment are inside. For one that was read whole the end does not overflow
and the file has no more bytes than the memory; for one that was cut short the bytes delivered
are inside as well. -/
def Contained (seg : Segment) : Prop :=
  let ph := seg.header
  (∀ x < (numPages ph.pMemsz).toNat, PageInside ph.pVaddr ph.pMemsz x) ∧
    if seg.whole then ph.pVaddr.toNat + ph.pMemsz.toNat < 2 ^ 64 ∧ ph.pFilesz.toNat ≤ ph.pMemsz.toNat
    else seg.data = [] ∨ ph.pVaddr.toNat + seg.data.length ≤ userEnd.toNat ∧ seg.data.length ≤ ph.pMemsz.toNat

/-- What loading a segment records. -/
def touchedBy (seg : Segment) : Touched where
  start := seg.header.pVaddr
  size := seg.header.pMemsz
  addrs := pagesOf seg.header.pVaddr seg.header.pMemsz ++ bytesFrom seg.header.pVaddr seg.data.length ++
    if seg.whole then pagesOf seg.header.pVaddr seg.header.pMemsz ++
      if seg.header.pMemsz > seg.header.pFilesz then
        bytesFrom (seg.header.pVaddr + seg.header.pFilesz) (seg.header.pMemsz - seg.header.pFilesz).toNat else []
    else []

section Trace

variable {seg : Segment} {segs : List Segment} {log : List Touched}

theorem load_trace (seg : Segment) (log : List Touched) : Segment.load traceVm log seg = some (touchedBy seg :: log) := by
  simp only [Segment.load, traceVm, touch, touchedBy, Option.bind_eq_bind, Option.bind_some, Option.pure_def,
    List.length_replicate]
  cases seg.whole with
  | false => simp
  | true =>
      by_cases hbss : seg.header.pMemsz > seg.header.pFilesz
      · simp [hbss]
      · simp [hbss]

theorem loadAll_trace (segs : List Segment) (log : List Touched) :
    loadAll traceVm log segs = some ((segs.map touchedBy).reverse ++ log) := by
  induction segs generalizing log with
  | nil => rfl
  | cons seg segs ih =>
      rw [loadAll_cons, load_trace, Option.bind_some, ih]
      simp

end Trace

section Bounds

variable {vma size start : BitVec 64} {n : Nat}

/-- Addresses that follow each other stay in the user region when the last one is in it. -/
theorem bytesFrom_user (h : userStart ≤ vma) :
    (∀ a ∈ bytesFrom vma n, IsUser a) ↔ n = 0 ∨ vma.toNat + n ≤ userEnd.toNat := by
  rw [BitVec.le_def, userStart_toNat] at h
  have hlt := vma.isLt
  simp only [bytesFrom, List.forall_mem_map, List.mem_range, userEnd_toNat, isUser_iff]
  constructor
  · intro hall
    by_contra hnot
    rw [not_or] at hnot
    have hfirst := (hall 0 (by omega)).2
    rw [toNat_add_ofNat (by omega)] at hfirst
    have hlast := (hall (0xD0000000 - vma.toNat) (by omega)).2
    rw [toNat_add_ofNat (by omega)] at hlast
    omega
  · intro hor i hi
    rw [toNat_add_ofNat (by omega)]
    omega

theorem bytesFrom_toNat (hend : vma.toNat + n < 2 ^ 64) {a : BitVec 64} (ha : a ∈ bytesFrom vma n) :
    vma.toNat ≤ a.toNat ∧ a.toNat < vma.toNat + n := by
  obtain ⟨i, hi, rfl⟩ := List.mem_map.mp ha
  rw [List.mem_range] at hi
  rw [toNat_add_ofNat (by omega)]
  omega

theorem bytesFrom_mem {i : Nat} (hi : i < n) : vma + BitVec.ofNat 64 i ∈ bytesFrom vma n :=
  List.mem_map_of_mem (List.mem_range.mpr hi)

theorem numPages_lt (size : BitVec 64) : (numPages size).toNat < 2 ^ 31 := by
  have hlt : ∀ x : BitVec 32, x.toInt.toNat < 2 ^ 31 := fun x => by
    have := BitVec.toInt_lt (x := x)
    omega
  unfold numPages
  simp only
  split <;> exact hlt _

theorem pageAround_toNat {a : BitVec 64} {n : Nat} (hn : vma.toNat = n) (ha : a ∈ pageAround vma) :
    n / 4096 * 4096 ≤ a.toNat ∧ a.toNat < n / 4096 * 4096 + 4096 := by
  obtain ⟨i, hi, rfl⟩ := List.mem_map.mp ha
  rw [List.mem_range] at hi
  have hlt := vma.isLt
  rw [pageNo, hn, BitVec.toNat_ofNat]
  omega

theorem pageAround_mem {n i : Nat} (hn : vma.toNat = n) (hi : i < 4096) :
    BitVec.ofNat 64 (n / 4096 * 4096 + i) ∈ pageAround vma ∧
      (BitVec.ofNat 64 (n / 4096 * 4096 + i)).toNat = n / 4096 * 4096 + i := by
  have hlt := vma.isLt
  refine ⟨List.mem_map.mpr ⟨i, List.mem_range.mpr hi, by rw [pageNo, hn]⟩, ?_⟩
  rw [BitVec.toNat_ofNat]
  omega

/-- The pages of a range that starts in or behind the user region, one by one. -/
theorem pagesOf_inside (h : userStart ≤ vma) :
    (∀ a ∈ pagesOf vma size, IsUser a ∧ vma.toNat ≤ a.toNat ∧ a.toNat < vma.toNat + size.toNat) ↔
      ∀ x < (numPages size).toNat, PageInside vma size x := by
  rw [BitVec.le_def, userStart_toNat] at h
  have hn := numPages_lt size
  simp only [pagesOf, List.mem_flatMap, List.mem_range, forall_exists_index, and_imp, isUser_iff, PageInside, userEnd_toNat]
  constructor
  · intro hall x hx
    have hfirst := hall _ 0 (by omega) (@pageAround_mem (vma + BitVec.ofNat 64 (0 * 4096)) vma.toNat 0 (by simp) (by omega)).1
    rw [(@pageAround_mem vma vma.toNat 0 rfl (by omega)).2] at hfirst
    have hx' : (vma + BitVec.ofNat 64 (x * 4096)).toNat = vma.toNat + x * 4096 := toNat_add_ofNat (by omega)
    have hlast := hall _ x hx (pageAround_mem hx' (by omega : 4095 < 4096)).1
    rw [(pageAround_mem hx' (by omega : 4095 < 4096)).2] at hlast
    omega
  · intro hall a x hx ha
    have hin := hall x hx
    have hx' : (vma + BitVec.ofNat 64 (x * 4096)).toNat = vma.toNat + x * 4096 := toNat_add_ofNat (by omega)
    have hpage := pageAround_toNat hx' ha
    omega

end Bounds

theorem tail_toNat (ph : Phdr) (h : ph.pVaddr.toNat + ph.pFilesz.toNat < 2 ^ 64) :
    (ph.pVaddr + ph.pFilesz).toNat = ph.pVaddr.toNat + ph.pFilesz.toNat := by
  rw [BitVec.toNat_add, Nat.mod_eq_of_lt h]

/-- A segment is loaded inside the user region and itself when its sizes are consistent. -/
theorem touchedBy_inside {seg : Segment} (hr : seg.header.inRange = true)
    (hread : seg.whole = true → seg.data.length = seg.header.pFilesz.toNat) :
    (touchedBy seg).Inside ↔ Contained seg := by
  simp only [Phdr.inRange, Bool.not_or, Bool.and_eq_true, Bool.not_eq_true', decide_eq_false_iff_not, BitVec.not_lt,
    gt_iff_lt] at hr
  obtain ⟨hlow, hhigh⟩ := hr
  have hlow' := hlow
  rw [BitVec.le_def, userStart_toNat] at hlow'
  have hlt := seg.header.pVaddr.isLt
  unfold Touched.Inside Contained touchedBy
  cases hw : seg.whole with
  | false =>
      simp only [Bool.false_eq_true, if_false, List.append_nil, List.forall_mem_append, pagesOf_inside hlow]
      refine and_congr_right fun _ => ?_
      constructor
      · intro hall
        refine or_iff_not_imp_left.mpr fun hne => ?_
        have hpos : 0 < seg.data.length := List.length_pos_of_ne_nil hne
        have hend := ((bytesFrom_user hlow).mp fun a ha => (hall a ha).1).resolve_left (by omega)
        rw [userEnd_toNat] at hend ⊢
        have hlast := (hall _ (@bytesFrom_mem seg.header.pVaddr _ (seg.data.length - 1) (by omega))).2.2
        rw [toNat_add_ofNat (by omega)] at hlast
        omega
      · rintro (hnil | ⟨hend, hsize⟩) a ha
        · rw [hnil] at ha
          cases ha
        · have hin := bytesFrom_toNat (by rw [userEnd_toNat] at hend; omega) ha
          exact ⟨(bytesFrom_user hlow).mpr (.inr hend) a ha, hin.1, by omega⟩
  | true =>
      have hlen := hread hw
      simp only [if_true, List.forall_mem_append, pagesOf_inside hlow]
      constructor
      · rintro ⟨⟨hpages, hdata⟩, -, hzero⟩
        have hend := (bytesFrom_user hlow).mp fun a ha => (hdata a ha).1
        rw [hlen, userEnd_toNat] at hend
        have hsize : seg.header.pFilesz.toNat ≤ seg.header.pMemsz.toNat := by
          by_contra hgt
          have hlast := (hdata _ (@bytesFrom_mem seg.header.pVaddr _ seg.header.pMemsz.toNat (by omega))).2.2
          rw [toNat_add_ofNat (by omega)] at hlast
          omega
        refine ⟨hpages, ?_, hsize⟩
        by_cases hbss : seg.header.pMemsz > seg.header.pFilesz
        · rw [if_pos hbss] at hzero
          rw [gt_iff_lt, BitVec.lt_def] at hbss
          have htail := tail_toNat seg.header (by omega)
          have hlow'' : userStart ≤ seg.header.pVaddr + seg.header.pFilesz := by
            rw [BitVec.le_def, htail, userStart_toNat]
            omega
          have hend' := (bytesFrom_user hlow'').mp fun a ha => (hzero a ha).1
          rw [BitVec.toNat_sub_of_le hsize, htail, userEnd_toNat] at hend'
          omega
        · rw [gt_iff_lt, BitVec.lt_def] at hbss
          omega
      · rintro ⟨hpages, hwrap, hsize⟩
        have hsum : (seg.header.pVaddr + seg.header.pMemsz).toNat = seg.header.pVaddr.toNat + seg.header.pMemsz.toNat := by
          rw [BitVec.toNat_add, Nat.mod_eq_of_lt hwrap]
        rw [BitVec.le_def, hsum, userEnd_toNat] at hhigh
        refine ⟨⟨hpages, fun a ha => ?_⟩, hpages, fun a ha => ?_⟩
        · have hin := bytesFrom_toNat (by omega) ha
          refine ⟨(bytesFrom_user hlow).mpr (.inr ?_) a ha, hin.1, by omega⟩
          rw [userEnd_toNat]
          omega
        · split at ha
          · have htail := tail_toNat seg.header (by omega)
            have hlow'' : userStart ≤ seg.header.pVaddr + seg.header.pFilesz := by
              rw [BitVec.le_def, htail, userStart_toNat]
              omega
            have hcnt : (seg.header.pMemsz - seg.header.pFilesz).toNat =
                seg.header.pMemsz.toNat - seg.header.pFilesz.toNat := BitVec.toNat_sub_of_le hsize
            have hin := bytesFrom_toNat (by rw [htail, hcnt]; omega) ha
            rw [htail, hcnt] at hin
            refine ⟨(bytesFrom_user hlow'').mpr (.inr ?_) a ha, by omega, by omega⟩
            rw [htail, hcnt, userEnd_toNat]
            omega
          · cases ha

theorem elfLoad_trace {σ : Type} (ops : IoOps σ) (st : Locals) (s : σ) :
    ∃ r entry s', elfLoad ops traceVm st s [] = some (r, entry, s', ((scan ops st s).segments.map touchedBy).reverse) := by
  rw [elfLoad_scan, loadAll_trace, List.append_nil]
  exact ⟨_, _, _, rfl⟩

/-- Whatever the file says, elf_load stays in the user region and in each segment exactly
if the pages and the sizes of the segments it loads are. The reads are taken to deliver what
they return. -/
theorem elf_inside_iff {σ : Type} (ops : IoOps σ) (st : Locals) (s s' : σ) (r : Int) (entry : Option (BitVec 64))
    (log : List Touched) (hload : elfLoad ops traceVm st s [] = some (r, entry, s', log))
    (hread : ∀ seg ∈ (scan ops st s).segments, seg.whole = true → seg.data.length = seg.header.pFilesz.toNat) :
    (∀ t ∈ log, t.Inside) ↔ ∀ seg ∈ (scan ops st s).segments, Contained seg := by
  obtain ⟨r₁, entry₁, s₁, hrun⟩ := elfLoad_trace ops st s
  have hlog : log = ((scan ops st s).segments.map touchedBy).reverse := by
    cases hrun.symm.trans hload
    rfl
  simp only [hlog, List.mem_reverse, List.forall_mem_map]
  exact forall₂_congr fun seg hseg => touchedBy_inside (scan_inRange s seg hseg) (hread seg hseg)

section Sample

open SegmentOverlap

/-- Two segments of a page, each with one byte in the file. -/
def pageExe : List UInt8 := exeOf [samplePhdr 176 0xC0000000 1 4096, samplePhdr 177 0xC0001000 1 4096] [1, 2]

/-- A segment that is the last page of all addresses, so that its end is 0. -/
def lastPageExe : List UInt8 := exeOf [samplePhdr 120 0xFFFFFFFFFFFFF000 0 4096] []

def lastPage : Segment := ⟨samplePhdr 120 0xFFFFFFFFFFFFF000 0 4096, [], true⟩

theorem elf_inside_twoPages : ∃ r entry s' log,
    elfLoad iolitOps traceVm sampleLocals ⟨pageExe, 0⟩ [] = some (r, entry, s', log) ∧ ∀ t ∈ log, t.Inside := by
  have hscan : (scan iolitOps sampleLocals ⟨pageExe, 0⟩).segments =
      [⟨samplePhdr 176 0xC0000000 1 4096, [1], true⟩, ⟨samplePhdr 177 0xC0001000 1 4096, [2], true⟩] := by decide +kernel
  obtain ⟨r, entry, s', hrun⟩ := elfLoad_trace iolitOps sampleLocals ⟨pageExe, 0⟩
  refine ⟨r, entry, s', _, hrun, (elf_inside_iff iolitOps sampleLocals _ s' r entry _ hrun ?_).mpr ?_⟩
  · rw [hscan]
    decide
  · rw [hscan]
    have hone : ∀ x < (numPages 4096).toNat, x = 0 := by decide
    intro seg hseg
    simp only [List.mem_cons, List.not_mem_nil, or_false] at hseg
    rcases hseg with rfl | rfl
    · exact ⟨fun x hx => by rw [hone x hx]; exact ⟨by decide, by decide, by decide⟩, by decide, by decide⟩
    · exact ⟨fun x hx => by rw [hone x hx]; exact ⟨by decide, by decide, by decide⟩, by decide, by decide⟩

/-- The last page is outside the user region. -/
theorem elf_inside_lastPage : ∃ r entry s' log,
    elfLoad iolitOps traceVm sampleLocals ⟨lastPageExe, 0⟩ [] = some (r, entry, s', log) ∧ ¬ ∀ t ∈ log, t.Inside := by
  have hscan : (scan iolitOps sampleLocals ⟨lastPageExe, 0⟩).segments = [lastPage] := by decide +kernel
  obtain ⟨r, entry, s', hrun⟩ := elfLoad_trace iolitOps sampleLocals ⟨lastPageExe, 0⟩
  refine ⟨r, entry, s', _, hrun, fun h => ?_⟩
  rw [hscan] at h
  have hmem : 0xFFFFFFFFFFFFF000 ∈ (touchedBy lastPage).addrs := by
    refine List.mem_append_left _ (List.mem_append_left _ (List.mem_flatMap.mpr ⟨0, by decide, ?_⟩))
    exact (@pageAround_mem (0xFFFFFFFFFFFFF000 + BitVec.ofNat 64 (0 * 4096)) 0xFFFFFFFFFFFFF000 0 (by decide) (by decide)).1
  exact absurd (h (touchedBy lastPage) (List.mem_singleton_self _) _ hmem).1.2 (by decide)

end Sample

end RiscvKernel.ElfBounds
