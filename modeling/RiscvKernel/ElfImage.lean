import RiscvKernel.SegmentOverlap
import RiscvKernel.RangeCoverage
import RiscvKernel.FlatDisk

namespace RiscvKernel.ElfImage

open Memory Io PageOwnership VirtualMemory ElfLoad ElfScan UserImage UserRange ElfSegments SegmentOverlap RangeCoverage
  Literal

/-! The image that an executable describes, and that elf_load builds it. -/

/-- An object that reads as a file of these bytes, where At says at which position it is. -/
structure Seekable {σ : Type} (ops : IoOps σ) (file : List UInt8) (At : σ → Nat → Prop) : Prop where
  size : file.length < 2 ^ 63
  getpos : ∀ s p, At s p → At (ioctl ops s .getpos 0).2.2 p
  seek : ∀ s p q, At s p → q ≤ file.length → 0 ≤ (ioseek ops s q).1 ∧ At (ioseek ops s q).2 q
  read : ∀ s p n, At s p → p + n ≤ file.length → (ioread ops s n).1 = n ∧
    (ioread ops s n).2.1 = (file.drop p).take n ∧ At (ioread ops s n).2.2 (p + n)

section File

variable (file : List UInt8)

/-- The bytes of the file from p on. -/
def bytesAt (p i : Nat) : UInt8 := file.getD (p + i) 0

def elfHeader (p : Nat) : Ehdr := ehdrOf (bytesAt file p)

def programHeader (eh : Ehdr) (i : Nat) : Phdr := phdrOf (bytesAt file (eh.ePhoff.toNat + i * phdrSize))

/-- The program headers of type PT_LOAD. -/
def loads (eh : Ehdr) : List Phdr := ((List.range eh.ePhnum).map (programHeader file eh)).filter (·.pType = ptLoad)

def segmentOf (ph : Phdr) : Segment := ⟨ph, (file.drop ph.pOffset.toNat).take ph.pFilesz.toNat, true⟩

/-- A 64-bit little-endian RISC-V header of type ET_EXEC. -/
structure RiscvExec (eh : Ehdr) : Prop where
  magic : eh.eIdent 0 = 0x7F ∧ eh.eIdent 1 = 0x45 ∧ eh.eIdent 2 = 0x4C ∧ eh.eIdent 3 = 0x46
  elfClass : eh.eIdent 4 = 2
  data : eh.eIdent 5 = 1
  machine : eh.eMachine = 243
  type : eh.eType = 2

/-- The pages of a program header's addresses. -/
def PagesOf (ph : Phdr) (n : Nat) : Prop := InPages ph.pVaddr ph.pMemsz.toNat n

/-- A segment as user.ld lays it out: on pages of its own in the user region. -/
structure LaidOut (ph : Phdr) : Prop where
  aligned : ph.pVaddr.toNat % 4096 = 0
  region : InRegion ph.pVaddr ph.pMemsz.toNat
  size : ph.pFilesz.toNat ≤ ph.pMemsz.toNat
  inFile : ph.pOffset.toNat + ph.pFilesz.toNat ≤ file.length
  writable : ph.pFilesz < ph.pMemsz → ph.pFlags &&& 2 ≠ 0

/-- The file has an executable at p. -/
structure Executable (p : Nat) : Prop where
  header : p + ehdrSize ≤ file.length
  exec : RiscvExec (elfHeader file p)
  headers : (elfHeader file p).ePhoff.toNat + (elfHeader file p).ePhnum * phdrSize ≤ file.length
  segments : ∀ ph ∈ loads file (elfHeader file p), LaidOut file ph
  disjoint : (loads file (elfHeader file p)).Pairwise fun a b => ∀ n, PagesOf a n → ¬ PagesOf b n

end File

section Scan

variable {σ : Type} {ops : IoOps σ} {file : List UInt8} {At : σ → Nat → Prop} {st : Locals} {s : σ} {p : Nat} {eh : Ehdr}
  {ph : Phdr}

theorem le_congr {b b' : Nat → UInt8} {off n : Nat} (h : ∀ i, off ≤ i → i < off + n → b i = b' i) : le b off n = le b' off n := by
  induction n generalizing off with
  | zero => rfl
  | succ n ih =>
      rw [le, le, h off (Nat.le_refl _) (by omega), ih fun i hlo hhi => h i (by omega) (by omega)]

theorem overwrite_bytes {n : Nat} (old : Nat → UInt8) (h : p + n ≤ file.length) {i : Nat} (hi : i < n) :
    overwrite old ((file.drop p).take n) i = bytesAt file p i := by
  rw [overwrite, bytesAt, List.getD_eq_getElem?_getD, List.getD_eq_getElem?_getD, List.getElem?_take_of_lt hi,
    List.getElem?_drop, List.getElem?_eq_getElem (by omega)]
  rfl

theorem phdrOf_bytes (old : Nat → UInt8) (h : p + phdrSize ≤ file.length) :
    phdrOf (overwrite old ((file.drop p).take phdrSize)) = phdrOf (bytesAt file p) := by
  have hle : ∀ off n, off + n ≤ phdrSize → le (overwrite old ((file.drop p).take phdrSize)) off n = le (bytesAt file p) off n :=
    fun off n hn => le_congr fun i _ hi => overwrite_bytes old h (by omega)
  simp only [phdrOf, hle 0 4 (by decide), hle 4 4 (by decide), hle 8 8 (by decide), hle 16 8 (by decide),
    hle 32 8 (by decide), hle 40 8 (by decide)]

theorem ehdrOf_bytes (old : Nat → UInt8) (h : p + ehdrSize ≤ file.length) :
    (∀ i < 16, (ehdrOf (overwrite old ((file.drop p).take ehdrSize))).eIdent i = (elfHeader file p).eIdent i) ∧
    ehdrOf (overwrite old ((file.drop p).take ehdrSize)) =
      { elfHeader file p with eIdent := overwrite old ((file.drop p).take ehdrSize) } := by
  have hle : ∀ off n, off + n ≤ ehdrSize → le (overwrite old ((file.drop p).take ehdrSize)) off n = le (bytesAt file p) off n :=
    fun off n hn => le_congr fun i _ hi => overwrite_bytes old h (by omega)
  refine ⟨fun i hi => overwrite_bytes old h (hi.trans (by decide)), ?_⟩
  simp only [elfHeader, ehdrOf, hle 16 2 (by decide), hle 18 2 (by decide), hle 24 8 (by decide), hle 32 8 (by decide),
    hle 56 2 (by decide)]

theorem RiscvExec.check {eh' : Ehdr} (h : RiscvExec eh) (hid : ∀ i < 16, eh'.eIdent i = eh.eIdent i)
    (hm : eh'.eMachine = eh.eMachine) (ht : eh'.eType = eh.eType) : checkHeader eh' = 0 := by
  obtain ⟨h0, h1, h2, h3⟩ := h.magic
  have hid' := fun i (hi : i < 16) => hid i hi
  simp only [checkHeader, hid' 0 (by decide), hid' 1 (by decide), hid' 2 (by decide), hid' 3 (by decide),
    hid' 4 (by decide), hid' 5 (by decide), hm, ht, h0, h1, h2, h3, h.elfClass, h.data, h.machine, h.type]
  decide

theorem LaidOut.inRange (h : LaidOut file ph) : ph.inRange = true := by
  have hr := inRegion_iff.mp h.region
  have hlo : ¬ ph.pVaddr < userStart := by
    rw [BitVec.lt_def, userStart_toNat]
    omega
  have hhi : ¬ ph.pVaddr + ph.pMemsz > userEnd := by
    rw [gt_iff_lt, BitVec.lt_def, userEnd_toNat, BitVec.toNat_add]
    omega
  simp [Phdr.inRange, hlo, hhi]

theorem LaidOut.filesz_toInt (h : LaidOut file ph) (hsize : file.length < 2 ^ 63) : ph.pFilesz.toInt = ph.pFilesz.toNat := by
  have hin := h.inFile
  exact BitVec.toInt_eq_toNat_of_lt (by omega)

/-- The loop over the program headers reads them all. -/
theorem scanHeaders_file (hf : Seekable ops file At) (cnt i : Nat) (hs : At s p)
    (hend : eh.ePhoff.toNat + (i + cnt) * phdrSize ≤ file.length)
    (hsegs : ∀ ph ∈ ((List.range' i cnt).map (programHeader file eh)).filter (·.pType = ptLoad), LaidOut file ph) :
    (scanHeaders ops st eh i cnt s).segments =
        (((List.range' i cnt).map (programHeader file eh)).filter (·.pType = ptLoad)).map (segmentOf file) ∧
      (scanHeaders ops st eh i cnt s).result = 0 := by
  induction cnt generalizing i s p with
  | zero => exact ⟨rfl, rfl⟩
  | succ cnt ih =>
      have hsize := hf.size
      have hend' : eh.ePhoff.toNat + (i + (cnt + 1)) * 56 ≤ file.length := hend
      have hstep : phdrSize = 56 := rfl
      have hmul : i * phdrSize = i * 56 := rfl
      have hpos : phdrPos eh i = eh.ePhoff.toNat + i * phdrSize := by
        rw [phdrPos, toNat_add_ofNat (by omega)]
      have hfits : phdrPos eh i + phdrSize ≤ file.length := by
        rw [hpos]
        omega
      obtain ⟨hseek, hat₁⟩ := hf.seek s p (phdrPos eh i) hs (by omega)
      obtain ⟨hread, hbytes, hat₂⟩ := hf.read _ _ phdrSize hat₁ hfits
      have hphdr : phdrAt st i (ioread ops (ioseek ops s (phdrPos eh i)).2 phdrSize).2.1 = programHeader file eh i := by
        rw [phdrAt, hbytes, phdrOf_bytes _ hfits, hpos]
        rfl
      rw [List.range'_succ, List.map_cons] at hsegs ⊢
      simp only [scanHeaders, Int.not_lt.mpr hseek, if_false, hread, ne_eq, not_true_eq_false, hphdr]
      have hnext : eh.ePhoff.toNat + (i + 1 + cnt) * phdrSize ≤ file.length := by
        rw [Nat.add_right_comm, Nat.add_assoc]
        exact hend
      by_cases hload : (programHeader file eh i).pType = ptLoad
      · rw [List.filter_cons_of_pos (by simpa using hload)] at hsegs ⊢
        have hlaid := hsegs _ List.mem_cons_self
        have hin := hlaid.inFile
        obtain ⟨hseek', hat₃⟩ := hf.seek _ _ (programHeader file eh i).pOffset.toNat hat₂ (by omega)
        obtain ⟨hread', hbytes', hat₄⟩ := hf.read _ _ (programHeader file eh i).pFilesz.toNat hat₃ hin
        obtain ⟨ih₁, ih₂⟩ := ih (i + 1) hat₄ hnext fun ph hph => hsegs ph (List.mem_cons_of_mem _ hph)
        simp only [hload, not_true_eq_false, if_false, hlaid.inRange, Bool.not_true, Bool.false_eq_true,
          Int.not_lt.mpr hseek', hread', hlaid.filesz_toInt hsize, Scan.cons, hbytes', ih₁, ih₂, List.map_cons, and_true]
        rfl
      · rw [List.filter_cons_of_neg (by simpa using hload)] at hsegs ⊢
        simp only [hload, not_false_eq_true, if_true]
        exact ih (i + 1) hat₂ hnext hsegs

/-- What elf_load reads from an executable: its PT_LOAD segments and its entry. -/
theorem scan_file (hf : Seekable ops file At) (hs : At s p) (hx : Executable file p) :
    (scan ops st s).segments = (loads file (elfHeader file p)).map (segmentOf file) ∧ (scan ops st s).result = 0 ∧
      (headerOf ops st s).eEntry = (elfHeader file p).eEntry := by
  have hat₁ := hf.getpos s p hs
  obtain ⟨hread, hbytes, hat₂⟩ := hf.read _ _ ehdrSize hat₁ hx.header
  obtain ⟨hid, heq⟩ := ehdrOf_bytes st.elfHeader hx.header
  have hhead : headerOf ops st s = { elfHeader file p with eIdent := (headerOf ops st s).eIdent } := by
    rw [headerOf, hbytes]
    exact heq
  have hcheck : checkHeader (headerOf ops st s) = 0 := by
    refine hx.exec.check (fun i hi => ?_) (by rw [hhead]) (by rw [hhead])
    rw [headerOf, hbytes]
    exact hid i hi
  have hphoff : (headerOf ops st s).ePhoff = (elfHeader file p).ePhoff := by rw [hhead]
  have hphnum : (headerOf ops st s).ePhnum = (elfHeader file p).ePhnum := by rw [hhead]
  have hloads : ((List.range' 0 (headerOf ops st s).ePhnum).map (programHeader file (headerOf ops st s))).filter
      (·.pType = ptLoad) = loads file (elfHeader file p) := by
    have hph : programHeader file (headerOf ops st s) = programHeader file (elfHeader file p) := by
      funext i
      rw [programHeader, programHeader, hphoff]
    rw [loads, List.range_eq_range', hph, hphnum]
  obtain ⟨hsegs, hresult⟩ := @scanHeaders_file _ _ _ _ st _ _ (headerOf ops st s) hf (headerOf ops st s).ePhnum 0 hat₂
    (by rw [hphoff, hphnum, Nat.zero_add]; exact hx.headers) (by rw [hloads]; exact hx.segments)
  refine ⟨?_, ?_, by rw [hhead]⟩
  · simp only [scan, hread, ne_eq, not_true_eq_false, if_false, hcheck, Int.lt_irrefl]
    rw [hsegs, hloads]
  · simp only [scan, hread, ne_eq, not_true_eq_false, if_false, hcheck, Int.lt_irrefl]
    exact hresult

end Scan

section Image

variable {I I' : Image} {segs : List Segment} {file : List UInt8} {ph : Phdr} {a : BitVec 64} {n : Nat}

/-- Segments leave the pages that are not theirs as they are. -/
theorem loadImages_other (hs : ∀ seg ∈ segs, Fits seg) (hcov : ∀ seg ∈ segs, ∀ a, Covers seg a → Maps seg (pageNo a))
    (h : loadImages I segs = some I') : (∀ n, (∀ seg ∈ segs, ¬ Maps seg n) → flagsAt I' n = flagsAt I n) ∧
      ∀ a, (∀ seg ∈ segs, ¬ Maps seg (pageNo a)) → byteAt I' a = byteAt I a := by
  induction segs generalizing I with
  | nil =>
      obtain rfl := Option.some.inj h
      exact ⟨fun _ _ => rfl, fun _ _ => rfl⟩
  | cons seg segs ih =>
      rw [loadImages, List.foldlM_cons] at h
      obtain ⟨I₁, h₁, h⟩ := Option.bind_eq_some_iff.mp h
      have hfit := hs seg List.mem_cons_self
      obtain ⟨hf₁, hb₁⟩ := loadImage_spec hfit h₁
      obtain ⟨hf, hb⟩ := ih (fun s h => hs s (List.mem_cons_of_mem _ h)) (fun s h => hcov s (List.mem_cons_of_mem _ h)) h
      refine ⟨fun n hn => ?_, fun a ha => ?_⟩
      · rw [hf n fun s hs => hn s (List.mem_cons_of_mem _ hs), hf₁, if_neg (hn seg List.mem_cons_self)]
      · have hout : ¬ Covers seg a := fun hc => ha seg List.mem_cons_self (hcov seg List.mem_cons_self a hc)
        have hfile : ¬ (seg.header.pVaddr.toNat ≤ a.toNat ∧ a.toNat < seg.header.pVaddr.toNat + seg.data.length) := by
          have hsize := hfit.size
          rw [hfit.data]
          unfold Covers at hout
          omega
        rw [hb a fun s hs => ha s (List.mem_cons_of_mem _ hs), hb₁, if_neg hfile,
          if_neg (not_or.mpr ⟨hout, ha seg List.mem_cons_self⟩)]

/-- Segments on pages of their own are all there at the end. -/
theorem loadImages_own (hs : ∀ seg ∈ segs, Fits seg) (hcov : ∀ seg ∈ segs, ∀ a, Covers seg a → Maps seg (pageNo a))
    (hdis : segs.Pairwise fun a b => ∀ n, Maps a n → ¬ Maps b n) (h : loadImages I segs = some I') :
    ∀ seg ∈ segs, (∀ n, Maps seg n → flagsAt I' n = some (leafFlags seg.header.rwxFlags)) ∧
      ∀ a, Maps seg (pageNo a) → byteAt I' a =
        if seg.header.pVaddr.toNat ≤ a.toNat ∧ a.toNat < seg.header.pVaddr.toNat + seg.data.length then
          seg.data[a.toNat - seg.header.pVaddr.toNat]?
        else some 0 := by
  induction segs generalizing I with
  | nil => exact fun seg hseg => absurd hseg List.not_mem_nil
  | cons seg segs ih =>
      rw [loadImages, List.foldlM_cons] at h
      obtain ⟨I₁, h₁, hload⟩ := Option.bind_eq_some_iff.mp h
      obtain ⟨hf₁, hb₁⟩ := loadImage_spec (hs seg List.mem_cons_self) h₁
      rw [List.pairwise_cons] at hdis
      have hrest : ∀ s ∈ segs, Fits s := fun s h => hs s (List.mem_cons_of_mem _ h)
      have hcovRest : ∀ s ∈ segs, ∀ a, Covers s a → Maps s (pageNo a) := fun s h => hcov s (List.mem_cons_of_mem _ h)
      intro seg' hseg'
      rcases List.mem_cons.mp hseg' with rfl | hin
      · obtain ⟨hf, hb⟩ := loadImages_other hrest hcovRest hload
        refine ⟨fun n hn => ?_, fun a ha => ?_⟩
        · rw [hf n fun s hs => hdis.1 s hs n hn, hf₁, if_pos hn]
        · rw [hb a fun s hs => hdis.1 s hs _ ha, hb₁]
          split
          · rfl
          · rw [if_pos (.inr ha)]
      · exact ih hrest hcovRest hdis.2 hload seg' hin

theorem LaidOut.fits (h : LaidOut file ph) : Fits (segmentOf file ph) := by
  refine ⟨h.region, h.size, ?_, rfl⟩
  have hin := h.inFile
  simp only [segmentOf, List.length_take, List.length_drop]
  omega

theorem LaidOut.covers (h : LaidOut file ph) (a : BitVec 64) (ha : Covers (segmentOf file ph) a) :
    Maps (segmentOf file ph) (pageNo a) := by
  have hal := h.aligned
  obtain ⟨hlo, hhi⟩ := ha
  simp only [segmentOf] at hlo hhi
  simp only [Maps, InPages, pageCount, pageNo, segmentOf]
  omega

theorem writable_rwxFlags (hw : ph.pFlags &&& 2 ≠ 0) (hr : ph.pFlags &&& 4 ≠ 0) :
    UserImage.writable (leafFlags ph.rwxFlags) = true := by
  rw [Phdr.rwxFlags, if_pos hw, if_pos hr]
  split <;> decide

theorem flagsAt_shows {m : Mem} (h : Shows m I) (ha : IsUser a) : leafFlagsAt m a = flagsAt I (pageNo a) := by
  rw [flagsAt, ← h a ha, viewAt, leafFlagsAt, Option.map_map]
  rfl

end Image

/-- The memory m' has what the program header describes. -/
structure HasSegment (file : List UInt8) (m' : Mem) (ph : Phdr) : Prop where
  data : ∀ k < ph.pFilesz.toNat, contentAt m' (ph.pVaddr + BitVec.ofNat 64 k) = file[ph.pOffset.toNat + k]?
  zeroes : ∀ k, ph.pFilesz.toNat ≤ k → k < ph.pMemsz.toNat → contentAt m' (ph.pVaddr + BitVec.ofNat 64 k) = some 0
  flags : ∀ a, IsUser a → PagesOf ph (pageNo a) → leafFlagsAt m' a = some (leafFlags ph.rwxFlags)

section Load

variable {σ : Type} {ops : IoOps σ} {file : List UInt8} {At : σ → Nat → Prop} {st : Locals} {s : σ} {p : Nat} {m : Mem}
  {free : List Ppn}

/-- elf_load of an executable runs out of pages, or it returns 0 and the entry of the header, the user
region has every PT_LOAD segment, and it is as it was on all other pages. -/
theorem elf_load_image (hf : Seekable ops file At) (hs : At s p) (hx : Executable file p)
    (hread : ∀ ph ∈ loads file (elfHeader file p), ph.pFilesz < ph.pMemsz → ph.pFlags &&& 4 ≠ 0) (hm : UserSpace m free) :
    elfLoad ops kernelVm st s m = none ∧
        free.length < pagesFor ((loads file (elfHeader file p)).map (segmentOf file)) ∨
      ∃ s' m', elfLoad ops kernelVm st s m = some (0, some (elfHeader file p).eEntry, s', m') ∧
        (∀ ph ∈ loads file (elfHeader file p), HasSegment file m' ph) ∧
        ∀ a, IsUser a → (∀ ph ∈ loads file (elfHeader file p), ¬ PagesOf ph (pageNo a)) →
          contentAt m' a = contentAt m a ∧ leafFlagsAt m' a = leafFlagsAt m a := by
  obtain ⟨hsegs, hresult, hentry⟩ := @scan_file _ _ _ _ st _ _ hf hs hx
  have hfit : ∀ seg ∈ (loads file (elfHeader file p)).map (segmentOf file), Fits seg :=
    List.forall_mem_map.mpr fun ph hph => (hx.segments ph hph).fits
  have hcov : ∀ seg ∈ (loads file (elfHeader file p)).map (segmentOf file), ∀ a, Covers seg a → Maps seg (pageNo a) :=
    List.forall_mem_map.mpr fun ph hph => (hx.segments ph hph).covers
  have hdis : ((loads file (elfHeader file p)).map (segmentOf file)).Pairwise fun a b => ∀ n, Maps a n → ¬ Maps b n :=
    List.pairwise_map.mpr hx.disjoint
  obtain ⟨I', hI'⟩ := @loadImages_some ((loads file (elfHeader file p)).map (segmentOf file))
    (List.forall_mem_map.mpr fun ph hph I => loadImage_some (hx.segments ph hph).fits (hx.segments ph hph).covers
      fun hlt => writable_rwxFlags ((hx.segments ph hph).writable hlt) (hread ph hph hlt)) (imageOf m)
  rw [elfLoad_scan, hsegs, hresult, hentry, if_neg (by decide)]
  rcases loadAll_shows hfit hm (shows_imageOf m) with ⟨hnone, hwhy⟩ | ⟨m', I₁, free', hrun, himg, hm', hshow⟩
  · rw [hnone]
    exact .inl ⟨rfl, hwhy.resolve_right fun h => Option.some_ne_none I' (hI'.symm.trans h)⟩
  rw [hrun]
  have hown := loadImages_own hfit hcov hdis himg
  obtain ⟨hflags, hbytes⟩ := loadImages_other hfit hcov himg
  refine .inr ⟨_, m', rfl, fun ph hph => ?_, fun a ha hout => ?_⟩
  · have hlaid := hx.segments ph hph
    have hregion := inRegion_iff.mp hlaid.region
    have hsize := hlaid.size
    have hin := hlaid.inFile
    obtain ⟨hownFlags, hownBytes⟩ := hown _ (List.mem_map_of_mem hph)
    have hbyte : ∀ k < ph.pMemsz.toNat, contentAt m' (ph.pVaddr + BitVec.ofNat 64 k) =
        if k < ph.pFilesz.toNat then file[ph.pOffset.toNat + k]? else some 0 := by
      intro k hk
      have hadd : (ph.pVaddr + BitVec.ofNat 64 k).toNat = ph.pVaddr.toNat + k := toNat_add_ofNat (by omega)
      have hmap : Maps (segmentOf file ph) (pageNo (ph.pVaddr + BitVec.ofNat 64 k)) := by
        refine hlaid.covers _ ⟨?_, ?_⟩
        · exact hadd.symm ▸ Nat.le_add_right _ _
        · exact hadd.symm ▸ Nat.add_lt_add_left hk _
      have hdata : (segmentOf file ph).data.length = ph.pFilesz.toNat := hlaid.fits.data
      rw [contentAt_eq hm' hshow (hlaid.region.isUser hk), hownBytes _ hmap, hdata, hadd]
      simp only [segmentOf, Nat.add_sub_cancel_left]
      by_cases hlt : k < ph.pFilesz.toNat
      · rw [if_pos (by omega), if_pos hlt, List.getElem?_take_of_lt hlt, List.getElem?_drop]
      · rw [if_neg (by omega), if_neg hlt]
    refine ⟨fun k hk => ?_, fun k hlo hhi => ?_, fun a ha hpage => ?_⟩
    · rw [hbyte k (by omega), if_pos hk]
    · rw [hbyte k hhi, if_neg (by omega)]
    · rw [flagsAt_shows hshow ha]
      exact hownFlags _ hpage
  · have hout' : ∀ seg ∈ (loads file (elfHeader file p)).map (segmentOf file), ¬ Maps seg (pageNo a) :=
      List.forall_mem_map.mpr hout
    rw [contentAt_eq hm' hshow ha, contentAt_eq hm (shows_imageOf m) ha, flagsAt_shows hshow ha,
      flagsAt_shows (shows_imageOf m) ha]
    exact ⟨hbytes a hout', hflags _ hout'⟩

end Load

/-! Objects that are files. -/

theorem seekable_literal {file : List UInt8} (h : file.length < 2 ^ 63) :
    Seekable iolitOps file fun iol p => iol.buf = file ∧ iol.pos = p := by
  refine ⟨h, fun iol p hat => hat, fun iol p q hat hq => ?_, fun iol p n hat hn => ?_⟩
  · obtain ⟨rfl, rfl⟩ := hat
    have hle : ¬ q > iol.size := Nat.not_lt.mpr hq
    simp [ioseek, ioctl, iolitOps, iolitCtl, hle]
  · obtain ⟨rfl, rfl⟩ := hat
    have hsize : iol.size = iol.buf.length := rfl
    have hread : ioread iolitOps iol n = _ := @iolitRead_eq iol n (by omega) (by omega) (by omega)
    have hmin : min n (iol.size - iol.pos) = n := by omega
    rw [hread, hmin]
    exact ⟨rfl, rfl, rfl, rfl⟩

section Sample

/-- A segment of one byte from the file and one more, with these flags. -/
def bssPhdr (flags : Nat) : Phdr := ⟨1, flags, 120, 0xC0000000, 1, 2⟩

def bssExe (flags : Nat) : List UInt8 := exeOf [bssPhdr flags] [7]

theorem bssExe_executable {flags : Nat} (hx : RiscvExec (elfHeader (bssExe flags) 0)) (hlen : (bssExe flags).length = 121)
    (hoff : (elfHeader (bssExe flags) 0).ePhoff.toNat + (elfHeader (bssExe flags) 0).ePhnum * phdrSize ≤ 121)
    (hloads : loads (bssExe flags) (elfHeader (bssExe flags) 0) = [bssPhdr flags]) (hw : flags &&& 2 ≠ 0) :
    Executable (bssExe flags) 0 := by
  refine ⟨by rw [hlen]; decide, hx, by rw [hlen]; exact hoff, ?_, by rw [hloads]; exact List.pairwise_singleton _ _⟩
  rw [hloads, List.forall_mem_singleton]
  refine ⟨(by decide : (0xC0000000 : BitVec 64).toNat % 4096 = 0), inRegion_iff.mpr ?_, ?_, ?_, fun _ => hw⟩
  · exact (by decide : 0xC0000000 ≤ 0xC0000000 ∧ 0xC0000000 + 2 ≤ 0xD0000000)
  · exact (by decide : 1 ≤ 2)
  · rw [hlen]
    exact (by decide : 120 + 1 ≤ 121)

instance decidableRiscvExec (eh : Ehdr) : Decidable (RiscvExec eh) :=
  decidable_of_iff ((eh.eIdent 0 = 0x7F ∧ eh.eIdent 1 = 0x45 ∧ eh.eIdent 2 = 0x4C ∧ eh.eIdent 3 = 0x46) ∧
    eh.eIdent 4 = 2 ∧ eh.eIdent 5 = 1 ∧ eh.eMachine = 243 ∧ eh.eType = 2)
    ⟨fun ⟨h₁, h₂, h₃, h₄, h₅⟩ => ⟨h₁, h₂, h₃, h₄, h₅⟩, fun h => ⟨h.magic, h.elfClass, h.data, h.machine, h.type⟩⟩

theorem bssExe_loads : loads (bssExe 6) (elfHeader (bssExe 6) 0) = [bssPhdr 6] := by decide +kernel

theorem elf_load_image_bss : ∃ m free s' m', UserSpace m free ∧
    elfLoad iolitOps kernelVm sampleLocals ⟨bssExe 6, 0⟩ m = some (0, some (elfHeader (bssExe 6) 0).eEntry, s', m') ∧
    (∀ ph ∈ loads (bssExe 6) (elfHeader (bssExe 6) 0), HasSegment (bssExe 6) m' ph) ∧
    ∀ a, IsUser a → (∀ ph ∈ loads (bssExe 6) (elfHeader (bssExe 6) 0), ¬ PagesOf ph (pageNo a)) →
      contentAt m' a = contentAt m a ∧ leafFlagsAt m' a = leafFlagsAt m a := by
  obtain ⟨m, free, -, hb, -⟩ := sample_booted
  have hlen : 3 ≤ free.length := by
    rw [hb.length]
    decide
  rcases @elf_load_image _ _ _ _ sampleLocals ⟨bssExe 6, 0⟩ _ _ _ (seekable_literal (by decide +kernel)) ⟨rfl, rfl⟩
    (bssExe_executable (by decide +kernel) (by decide +kernel) (by decide +kernel) bssExe_loads (by decide))
    (by rw [bssExe_loads, List.forall_mem_singleton]; exact fun _ => by decide) (userSpace_of_booted hb) with
    ⟨-, hshort⟩ | ⟨s', m', hrun, hall⟩
  · rw [bssExe_loads] at hshort
    exact absurd hshort (Nat.not_lt.mpr hlen)
  · exact ⟨m, free, s', m', userSpace_of_booted hb, hrun, hall⟩

/-- Bytes after those of the file cannot be cleared in pages that are not writable. -/
theorem loadImage_none {I : Image} {seg : Segment} (hs : Fits seg) (hcov : ∀ a, Covers seg a → Maps seg (pageNo a))
    (hlt : seg.header.pFilesz < seg.header.pMemsz) (hw : UserImage.writable (leafFlags seg.header.rwxFlags) = false) :
    loadImage I seg = none := by
  rw [Option.eq_none_iff_forall_ne_some]
  intro I' h
  obtain ⟨I₁, h₁, h⟩ := Option.bind_eq_some_iff.mp h
  simp only at h
  rw [if_pos hlt] at h
  have hdata := inRegion_iff.mp hs.data_region
  have hlt' : seg.header.pFilesz.toNat < seg.header.pMemsz.toNat := hlt
  obtain ⟨k, hk⟩ : ∃ k, zeroes seg.header = 0 :: List.replicate k 0 :=
    ⟨(zeroes seg.header).length - 1, by
      rw [hs.zeroes_length, zeroes, BitVec.toNat_sub_of_le hs.size, ← List.replicate_succ]
      congr 1
      omega⟩
  rw [hk] at h
  obtain ⟨I₂, h₂, -⟩ := Option.bind_eq_some_iff.mp h
  obtain ⟨l, hl, hl'⟩ := Option.bind_eq_some_iff.mp h₂
  have hmap := hcov (seg.header.pVaddr + seg.header.pFilesz) (by
    unfold Covers
    rw [hs.tail_toNat]
    omega)
  have hpage : _ ∧ _ := hmap
  have hf₁ := (storeBytes_spec seg.data (by omega) h₁).1
  have hflags : flagsAt (protectPages I₁ seg.header.rwxFlags (pageNo seg.header.pVaddr)
      (pageCount seg.header.pMemsz.toNat)) (pageNo (seg.header.pVaddr + seg.header.pFilesz)) =
      some (leafFlags seg.header.rwxFlags) := by
    rw [flagsAt_protectPages fun i hi => by rw [hf₁]; exact mapped_flags I _ _ _ i hi, if_pos hpage]
  rw [flagsAt, hl, Option.map_some, Option.some.injEq] at hflags
  rw [hflags, hw] at hl'
  cases hl'

/-- A segment that is writable and not readable makes elf_load fault when it clears the bytes after the file's,
however many pages are free. -/
theorem elf_load_writeOnly : ¬ ∀ file iol m free, Seekable iolitOps file (fun iol p => iol.buf = file ∧ iol.pos = p) →
    iol.buf = file ∧ iol.pos = 0 → Executable file 0 → UserSpace m free →
    pagesFor ((loads file (elfHeader file 0)).map (segmentOf file)) ≤ free.length →
      ∃ s' m', elfLoad iolitOps kernelVm sampleLocals iol m = some (0, some (elfHeader file 0).eEntry, s', m') := by
  intro hall
  have hloads : loads (bssExe 2) (elfHeader (bssExe 2) 0) = [bssPhdr 2] := by decide +kernel
  have hx : Executable (bssExe 2) 0 :=
    bssExe_executable (by decide +kernel) (by decide +kernel) (by decide +kernel) hloads (by decide)
  have hf := @seekable_literal (bssExe 2) (by decide +kernel)
  obtain ⟨m, free, -, hb, -⟩ := sample_booted
  have hm := userSpace_of_booted hb
  have hlen : 3 ≤ free.length := by
    rw [hb.length]
    decide
  have hlaid := hx.segments (bssPhdr 2) (by rw [hloads]; exact List.mem_singleton_self _)
  obtain ⟨s', m', hrun⟩ := hall (bssExe 2) ⟨bssExe 2, 0⟩ m free hf ⟨rfl, rfl⟩ hx hm (by rw [hloads]; exact hlen)
  obtain ⟨hsegs, -, -⟩ := @scan_file _ _ _ _ sampleLocals ⟨bssExe 2, 0⟩ _ hf ⟨rfl, rfl⟩ hx
  obtain ⟨-, hload, -⟩ := elfLoad_zero hrun
  rw [hsegs, hloads] at hload
  have hfit : ∀ seg ∈ [bssPhdr 2].map (segmentOf (bssExe 2)), Fits seg :=
    List.forall_mem_map.mpr (List.forall_mem_singleton.mpr hlaid.fits)
  rcases loadAll_shows hfit hm (shows_imageOf m) with ⟨hnone, -⟩ | ⟨m₁, I', free', -, himg, -⟩
  · cases hnone.symm.trans hload
  · rw [loadImages, List.map_cons, List.foldlM_cons] at himg
    obtain ⟨I₁, h₁, -⟩ := Option.bind_eq_some_iff.mp himg
    cases (loadImage_none hlaid.fits hlaid.covers (by decide) (by decide)).symm.trans h₁

end Sample

end RiscvKernel.ElfImage
