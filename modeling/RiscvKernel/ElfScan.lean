import RiscvKernel.ElfLoad

namespace RiscvKernel.ElfScan

open Memory Io PageOwnership VirtualMemory ElfLoad

/-! What elf_load reads from a file does not depend on the memory. -/

/-- A segment for which pages are mapped, with the bytes the read delivered and whether
these were all that was asked for. -/
structure Segment where
  header : Phdr
  data : List UInt8
  whole : Bool
  deriving DecidableEq

/-- What a file makes elf_load do: the segments it loads, its result and the file after. -/
structure Scan (σ : Type) where
  segments : List Segment
  result : Int
  file : σ

def Scan.cons {σ : Type} (seg : Segment) (sc : Scan σ) : Scan σ := ⟨seg :: sc.segments, sc.result, sc.file⟩

section Scan

variable {σ μ : Type} (ops : IoOps σ) (vm : VmOps μ) (st : Locals)

/-- The program header that a turn of the loop reads. -/
def phdrAt (i : Nat) (bytes : List UInt8) : Phdr := phdrOf (overwrite (st.progHeader i) bytes)

def phdrPos (eh : Ehdr) (i : Nat) : Nat := (eh.ePhoff + BitVec.ofNat 64 (i * phdrSize)).toNat

def scanHeaders (eh : Ehdr) : Nat → Nat → σ → Scan σ
  | _, 0, s => ⟨[], 0, s⟩
  | i, cnt + 1, s =>
      let (r, s) := ioseek ops s (phdrPos eh i)
      if r < 0 then ⟨[], -efor, s⟩
      else
        let (r, bytes, s) := ioread ops s phdrSize
        if r ≠ phdrSize then ⟨[], -5, s⟩
        else
          let ph := phdrAt st i bytes
          if ph.pType ≠ ptLoad then scanHeaders eh (i + 1) cnt s
          else if !ph.inRange then ⟨[], -ebadfmt, s⟩
          else
            let (r, s) := ioseek ops s ph.pOffset.toNat
            if r < 0 then ⟨[], -esev, s⟩
            else
              let (r, bytes, s) := ioread ops s ph.pFilesz.toNat
              if r ≠ ph.pFilesz.toInt then ⟨[⟨ph, bytes, false⟩], -eaccess, s⟩
              else (scanHeaders eh (i + 1) cnt s).cons ⟨ph, bytes, true⟩

/-- The header that elf_load reads. -/
def headerOf (s : σ) : Ehdr := ehdrOf (overwrite st.elfHeader (ioread ops (ioctl ops s .getpos 0).2.2 ehdrSize).2.1)

def scan (s : σ) : Scan σ :=
  let r := ioread ops (ioctl ops s .getpos 0).2.2 ehdrSize
  if r.1 ≠ ehdrSize then ⟨[], -1, r.2.2⟩
  else if checkHeader (headerOf ops st s) < 0 then ⟨[], checkHeader (headerOf ops st s), r.2.2⟩
  else scanHeaders ops st (headerOf ops st s) 0 (headerOf ops st s).ePhnum r.2.2

/-- The effect of a segment on the memory. -/
def Segment.load (m : μ) (seg : Segment) : Option μ := do
  let ph := seg.header
  let m ← vm.allocAndMapRange m ph.pVaddr ph.pMemsz (pteW ||| pteR ||| pteU)
  let m ← vm.store m ph.pVaddr seg.data
  if !seg.whole then return m
  let m ← vm.setRangeFlags m ph.pVaddr ph.pMemsz ph.rwxFlags
  if ph.pMemsz > ph.pFilesz then
    vm.store m (ph.pVaddr + ph.pFilesz) (List.replicate (ph.pMemsz - ph.pFilesz).toNat 0)
  else return m

def loadAll (m : μ) (segs : List Segment) : Option μ := segs.foldlM (Segment.load vm) m

/-- The program headers from the i-th on can be read, and of each segment the addresses
are in range and all its bytes are there. -/
def HeadersLoadable (eh : Ehdr) : Nat → Nat → σ → Prop
  | _, 0, _ => True
  | i, cnt + 1, s =>
      let seek := ioseek ops s (phdrPos eh i)
      let read := ioread ops seek.2 phdrSize
      let ph := phdrAt st i read.2.1
      0 ≤ seek.1 ∧ read.1 = phdrSize ∧
        if ph.pType = ptLoad then
          let seek := ioseek ops read.2.2 ph.pOffset.toNat
          let read := ioread ops seek.2 ph.pFilesz.toNat
          ph.inRange = true ∧ 0 ≤ seek.1 ∧ read.1 = ph.pFilesz.toInt ∧ HeadersLoadable eh (i + 1) cnt read.2.2
        else HeadersLoadable eh (i + 1) cnt read.2.2

/-- The file holds an executable. -/
def Loadable (s : σ) : Prop :=
  let read := ioread ops (ioctl ops s .getpos 0).2.2 ehdrSize
  read.1 = ehdrSize ∧ checkHeader (headerOf ops st s) = 0 ∧
    HeadersLoadable ops st (headerOf ops st s) 0 (headerOf ops st s).ePhnum read.2.2

end Scan

section Lemmas

variable {σ μ : Type} {ops : IoOps σ} {vm : VmOps μ} {st : Locals} {eh : Ehdr} {s : σ} {m : μ}

theorem checkHeader_cases (eh : Ehdr) : checkHeader eh = 0 ∨ checkHeader eh < 0 := by
  unfold checkHeader ebusy ebadfd eother ewrong
  split
  · exact .inr (by decide)
  split
  · exact .inr (by decide)
  split
  · exact .inr (by decide)
  split
  · exact .inr (by decide)
  split
  · exact .inr (by decide)
  · exact .inl rfl

theorem loadAll_cons (seg : Segment) (segs : List Segment) :
    loadAll vm m (seg :: segs) = (seg.load vm m).bind fun m => loadAll vm m segs := by
  rw [loadAll, List.foldlM_cons]
  rfl

/-- A segment in range, sought and read: what loadSegment does with the memory. -/
theorem loadSegment_eq {ph : Phdr} {pos : Int × σ} {read : Int × List UInt8 × σ} (hrange : ph.inRange = true)
    (hpos : ioseek ops s ph.pOffset.toNat = pos) (hseek : ¬ pos.1 < 0) (hread : ioread ops pos.2 ph.pFilesz.toNat = read) :
    loadSegment ops vm ph s m = (Segment.load vm m ⟨ph, read.2.1, decide (read.1 = ph.pFilesz.toInt)⟩).map fun m' =>
      (if read.1 = ph.pFilesz.toInt then 0 else -eaccess, read.2.2, m') := by
  simp only [loadSegment, hrange, hpos, hread, hseek, Segment.load, Bool.not_true, Bool.false_eq_true, if_false,
    Option.bind_eq_bind, Option.pure_def]
  cases vm.allocAndMapRange m ph.pVaddr ph.pMemsz (pteW ||| pteR ||| pteU) with
  | none => rfl
  | some m₁ =>
      simp only [Option.bind_some]
      cases vm.store m₁ ph.pVaddr read.2.1 with
      | none => rfl
      | some m₂ =>
          by_cases hwhole : read.1 = ph.pFilesz.toInt
          · simp only [hwhole, Option.bind_some, decide_true, Bool.not_true, Bool.false_eq_true, if_false, if_true,
              ne_eq, not_true_eq_false]
            cases vm.setRangeFlags m₂ ph.pVaddr ph.pMemsz ph.rwxFlags with
            | none => rfl
            | some m₃ =>
                simp only [Option.bind_some]
                split
                · cases vm.store m₃ (ph.pVaddr + ph.pFilesz) (List.replicate (ph.pMemsz - ph.pFilesz).toNat 0) <;> rfl
                · rfl
          · simp [hwhole]

/-- elf_load does with the memory what the scan of the program headers says. -/
theorem loadHeaders_scan (i cnt : Nat) (s : σ) (m : μ) :
    loadHeaders ops vm st eh i cnt s m =
      (loadAll vm m (scanHeaders ops st eh i cnt s).segments).map fun m' =>
        ((scanHeaders ops st eh i cnt s).result, (scanHeaders ops st eh i cnt s).file, m') := by
  induction cnt generalizing i s m with
  | zero => rfl
  | succ cnt ih =>
      simp only [loadHeaders, scanHeaders, ← phdrPos.eq_def, ← phdrAt.eq_def, Option.bind_eq_bind, Option.pure_def]
      split
      · rfl
      rename_i hseek
      split
      · rfl
      rename_i hread
      by_cases hload : (phdrAt st i (ioread ops (ioseek ops s (phdrPos eh i)).2 phdrSize).2.1).pType = ptLoad
      · simp only [hload, if_true, ne_eq, not_true_eq_false, if_false]
        generalize phdrAt st i (ioread ops (ioseek ops s (phdrPos eh i)).2 phdrSize).2.1 = ph
        generalize (ioread ops (ioseek ops s (phdrPos eh i)).2 phdrSize).2.2 = s₁
        cases hrange : ph.inRange with
        | false => simp [loadSegment, hrange, loadAll, ebadfmt]
        | true =>
            by_cases hpos : (ioseek ops s₁ ph.pOffset.toNat).1 < 0
            · simp [loadSegment, hrange, hpos, loadAll, esev]
            rw [loadSegment_eq hrange rfl hpos rfl]
            simp only [hpos, Bool.not_true, Bool.false_eq_true, if_false]
            by_cases hwhole : (ioread ops (ioseek ops s₁ ph.pOffset.toNat).2 ph.pFilesz.toNat).1 = ph.pFilesz.toInt
            · simp only [hwhole, decide_true, if_true, not_true_eq_false, if_false, Scan.cons, loadAll_cons]
              cases Segment.load vm m ⟨ph, _, true⟩ with
              | none => rfl
              | some m₁ => exact ih ..
            · simp only [hwhole, decide_false, if_false, not_false_eq_true, if_true, loadAll_cons]
              cases Segment.load vm m ⟨ph, _, false⟩ with
              | none => rfl
              | some m₁ => rfl
      · simp only [hload, if_false, ne_eq, not_false_eq_true, if_true]
        exact ih ..

/-- The checks pass exactly when the scan's result is 0; else it is an error. -/
theorem scanHeaders_result (i cnt : Nat) (s : σ) :
    HeadersLoadable ops st eh i cnt s ∧ (scanHeaders ops st eh i cnt s).result = 0 ∨
      ¬ HeadersLoadable ops st eh i cnt s ∧ (scanHeaders ops st eh i cnt s).result < 0 := by
  induction cnt generalizing i s with
  | zero => exact .inl ⟨trivial, rfl⟩
  | succ cnt ih =>
      simp only [HeadersLoadable, scanHeaders]
      by_cases hseek : (ioseek ops s (phdrPos eh i)).1 < 0
      · exact .inr ⟨fun h => absurd h.1 (Int.not_le.mpr hseek), by rw [if_pos hseek]; exact (by decide : -efor < 0)⟩
      rw [if_neg hseek]
      by_cases hread : (ioread ops (ioseek ops s (phdrPos eh i)).2 phdrSize).1 = phdrSize
      case neg => exact .inr ⟨fun h => hread h.2.1, by rw [if_pos hread]; exact (by decide : (-5 : Int) < 0)⟩
      rw [if_neg (not_not.mpr hread)]
      generalize phdrAt st i (ioread ops (ioseek ops s (phdrPos eh i)).2 phdrSize).2.1 = ph
      generalize (ioread ops (ioseek ops s (phdrPos eh i)).2 phdrSize).2.2 = s₁
      by_cases hload : ph.pType = ptLoad
      case neg =>
        rw [if_neg hload, if_pos hload]
        simpa only [Int.not_lt.mp hseek, hread, true_and] using ih (i + 1) s₁
      rw [if_pos hload, if_neg (not_not.mpr hload)]
      cases hrange : ph.inRange with
      | false => exact .inr ⟨fun h => absurd h.2.2.1 (by decide), (by decide : -ebadfmt < 0)⟩
      | true =>
          simp only [Bool.not_true, Bool.false_eq_true, if_false]
          by_cases hpos : (ioseek ops s₁ ph.pOffset.toNat).1 < 0
          · exact .inr ⟨fun h => absurd h.2.2.2.1 (Int.not_le.mpr hpos), by rw [if_pos hpos]; exact (by decide : -esev < 0)⟩
          rw [if_neg hpos]
          by_cases hwhole : (ioread ops (ioseek ops s₁ ph.pOffset.toNat).2 ph.pFilesz.toNat).1 = ph.pFilesz.toInt
          case neg => exact .inr ⟨fun h => hwhole h.2.2.2.2.1, by rw [if_pos hwhole]; exact (by decide : -eaccess < 0)⟩
          rw [if_neg (not_not.mpr hwhole)]
          simpa only [Int.not_lt.mp hseek, Int.not_lt.mp hpos, hread, hwhole, true_and, Scan.cons] using
            ih (i + 1) (ioread ops (ioseek ops s₁ ph.pOffset.toNat).2 ph.pFilesz.toNat).2.2

theorem scan_result (s : σ) : Loadable ops st s ∧ (scan ops st s).result = 0 ∨
    ¬ Loadable ops st s ∧ (scan ops st s).result < 0 := by
  simp only [Loadable, scan]
  by_cases hread : (ioread ops (ioctl ops s .getpos 0).2.2 ehdrSize).1 = ehdrSize
  case neg => exact .inr ⟨fun h => hread h.1, by rw [if_pos hread]; exact (by decide : (-1 : Int) < 0)⟩
  rw [if_neg (not_not.mpr hread)]
  rcases checkHeader_cases (headerOf ops st s) with hc | hc
  · rw [hc, if_neg (by decide)]
    simpa only [hread, true_and] using scanHeaders_result 0 _ _
  · rw [if_pos hc]
    exact .inr ⟨fun h => absurd h.2.1 (Int.ne_of_lt hc), hc⟩

theorem scanHeaders_whole (i cnt : Nat) (s : σ) (h : (scanHeaders ops st eh i cnt s).result = 0) :
    ∀ seg ∈ (scanHeaders ops st eh i cnt s).segments, seg.whole = true := by
  induction cnt generalizing i s with
  | zero => exact fun seg hseg => absurd hseg List.not_mem_nil
  | succ cnt ih =>
      rw [scanHeaders] at h ⊢
      simp only at h ⊢
      split at h
      · exact absurd h (by decide : ¬ -efor = 0)
      rename_i hseek
      rw [if_neg hseek]
      split at h
      · exact absurd h (by decide : ¬ (-5 : Int) = 0)
      rename_i hread
      rw [if_neg hread]
      split at h
      · rename_i hload
        rw [if_pos hload]
        exact ih _ _ h
      rename_i hload
      rw [if_neg hload]
      split at h
      · exact absurd h (by decide : ¬ -ebadfmt = 0)
      rename_i hrange
      rw [if_neg hrange]
      split at h
      · exact absurd h (by decide : ¬ -esev = 0)
      rename_i hpos
      rw [if_neg hpos]
      split at h
      · exact absurd h (by decide : ¬ -eaccess = 0)
      rename_i hwhole
      rw [if_neg hwhole]
      intro seg hseg
      rcases List.mem_cons.mp hseg with rfl | hseg
      · rfl
      · exact ih _ _ h seg hseg

/-- Of a file that elf_load accepts every segment was read whole. -/
theorem scan_whole (s : σ) (h : (scan ops st s).result = 0) : ∀ seg ∈ (scan ops st s).segments, seg.whole = true := by
  simp only [scan] at h ⊢
  split at h
  · exact absurd h (by decide : ¬ (-1 : Int) = 0)
  rename_i hread
  rw [if_neg hread]
  split at h
  · rename_i hcheck
    exact absurd h (Int.ne_of_lt hcheck)
  rename_i hcheck
  rw [if_neg hcheck]
  exact scanHeaders_whole _ _ _ h

theorem scanHeaders_inRange (i cnt : Nat) (s : σ) :
    ∀ seg ∈ (scanHeaders ops st eh i cnt s).segments, seg.header.inRange = true := by
  induction cnt generalizing i s with
  | zero => exact fun seg hseg => absurd hseg List.not_mem_nil
  | succ cnt ih =>
      simp only [scanHeaders]
      split
      · exact fun seg hseg => absurd hseg List.not_mem_nil
      split
      · exact fun seg hseg => absurd hseg List.not_mem_nil
      split
      · exact ih _ _
      split
      · exact fun seg hseg => absurd hseg List.not_mem_nil
      rename_i hrange
      rw [Bool.not_eq_true', Bool.not_eq_false] at hrange
      split
      · exact fun seg hseg => absurd hseg List.not_mem_nil
      split
      · intro seg hseg
        rw [List.mem_singleton.mp hseg]
        exact hrange
      · intro seg hseg
        rcases List.mem_cons.mp hseg with rfl | hseg
        · exact hrange
        · exact ih _ _ seg hseg

/-- The segments that are loaded passed the check of their addresses. -/
theorem scan_inRange (s : σ) : ∀ seg ∈ (scan ops st s).segments, seg.header.inRange = true := by
  simp only [scan]
  split
  · exact fun seg hseg => absurd hseg List.not_mem_nil
  split
  · exact fun seg hseg => absurd hseg List.not_mem_nil
  · exact scanHeaders_inRange _ _ _

/-- elf_load scans the file and loads the segments it meets. -/
theorem elfLoad_scan (s : σ) (m : μ) :
    elfLoad ops vm st s m = (loadAll vm m (scan ops st s).segments).map fun m' => ((scan ops st s).result,
      if (scan ops st s).result < 0 then none else some (headerOf ops st s).eEntry, (scan ops st s).file, m') := by
  simp only [elfLoad, scan, Option.bind_eq_bind, Option.pure_def]
  split
  · rfl
  rename_i hread
  rw [← headerOf.eq_def]
  split
  · rename_i hneg
    simp [loadAll]
  · rw [loadHeaders_scan]
    cases hall : loadAll vm m (scanHeaders ops st (headerOf ops st s) 0 (headerOf ops st s).ePhnum _).segments with
    | none => rfl
    | some m₁ =>
        rcases @scanHeaders_result σ ops st (headerOf ops st s) 0 (headerOf ops st s).ePhnum
          (ioread ops (ioctl ops s .getpos 0).2.2 ehdrSize).2.2 with ⟨-, hr⟩ | ⟨-, hr⟩
        · simp [hr]
        · simp [hr]

end Lemmas

end RiscvKernel.ElfScan
