import RiscvKernel.PageOwnership

namespace RiscvKernel.BootMap

open Memory PageTree AddressSpace MemoryInit

/-! The kernel map that memory_init leaves, as the hardware reads it. -/

/-- The bytes that an entry of a table of the level maps. -/
def unit (level : Nat) : Nat := 2 ^ (12 + 9 * level)

/-- Where the bytes of the entry of an address start. -/
def start (level : Nat) (vma : BitVec 64) : BitVec 64 := BitVec.ofNat 64 (unit level * (vma.toNat / unit level))

/-- The physical address of a translated address. -/
def physical (tr : Translation) (vma : BitVec 64) : BitVec 64 := pagenumToPageptr (tr.page vma) ||| (vma &&& 0xfff)

section Loops

variable {m : Mem} {pt : Ppn} {level : Nat} {flags : BitVec 8} {as : List Nat} {a first last step : Nat} {vma : BitVec 64}

theorem mapLeaves_miss {j : Vpn} (h : ∀ a ∈ as, vpn level (BitVec.ofNat 64 a) ≠ j) :
    (mapLeaves pt level flags as m).ram pt j = m.ram pt j := by
  induction as generalizing m with
  | nil => rfl
  | cons a as ih =>
      refine (ih fun b hb => h b (List.mem_cons_of_mem _ hb)).trans ?_
      exact setWord_ram_idx (Ne.symm (h a List.mem_cons_self))

/-- A loop that comes to an entry once leaves its leaf there. -/
theorem mapLeaves_hit (ha : a ∈ as)
    (huniq : ∀ b ∈ as, vpn level (BitVec.ofNat 64 b) = vpn level (BitVec.ofNat 64 a) → b = a) :
    (mapLeaves pt level flags as m).ram pt (vpn level (BitVec.ofNat 64 a)) = leafPte (BitVec.ofNat 64 a) flags := by
  induction as generalizing m with
  | nil => cases ha
  | cons b as ih =>
      by_cases htail : a ∈ as
      · exact ih htail fun c hc => huniq c (List.mem_cons_of_mem _ hc)
      · obtain rfl : a = b := (List.mem_cons.mp ha).resolve_right htail
        have hnot : ∀ c ∈ as, vpn level (BitVec.ofNat 64 c) ≠ vpn level (BitVec.ofNat 64 a) := fun c hc he =>
          htail (huniq c (List.mem_cons_of_mem _ hc) he ▸ hc)
        exact (mapLeaves_miss hnot).trans setWord_ram_self

theorem mem_addrs (hstep : 0 < step) : a ∈ addrs first last step ↔ ∃ i, a = first + step * i ∧ a < last := by
  have hlt : ∀ i, i < (last - first + step - 1) / step ↔ first + step * i < last := by
    intro i
    rw [Nat.lt_iff_add_one_le, Nat.le_div_iff_mul_le hstep, Nat.succ_mul, Nat.mul_comm i]
    omega
  simp only [addrs, List.mem_map, List.mem_range]
  constructor
  · rintro ⟨i, hi, rfl⟩
    exact ⟨i, rfl, (hlt i).mp hi⟩
  · rintro ⟨i, rfl, ha⟩
    exact ⟨i, (hlt i).mpr ha, rfl⟩

theorem unit_pos (level : Nat) : 0 < unit level := Nat.two_pow_pos _

theorem unit_succ (level : Nat) : unit (level + 1) = unit level * 512 := by
  rw [unit, unit, show 12 + 9 * (level + 1) = 12 + 9 * level + 9 by omega, Nat.pow_add]

theorem vpn_mul {q : Nat} (h : unit level * q < 2 ^ 64) : (vpn level (BitVec.ofNat 64 (unit level * q))).val = q % 512 := by
  rw [vpn_val, BitVec.toNat_ofNat, Nat.mod_eq_of_lt h, ← unit, Nat.mul_div_cancel_left q (unit_pos level)]

theorem lt_roundUp_iff {n u : Nat} (hu : 0 < u) : n < roundUp last u ↔ u * (n / u) < last := by
  rw [roundUp, ← Nat.div_lt_iff_lt_mul hu, Nat.lt_iff_add_one_le, Nat.le_div_iff_mul_le hu, Nat.succ_mul, Nat.mul_comm _ u]
  omega

/-- What a loop leaves in the entry of an address, if the entries it writes belong to the
addresses around this one. -/
theorem mapLeaves_addrs (hstep : step = unit level) (hfirst : step ∣ first) (hlast : last ≤ 2 ^ 64)
    (hblock : ∀ a, first ≤ a → a < last → a / unit (level + 1) = vma.toNat / unit (level + 1)) :
    (mapLeaves pt level flags (addrs first last step) m).ram pt (vpn level vma) =
      if first ≤ vma.toNat ∧ vma.toNat < roundUp last step then leafPte (start level vma) flags
      else m.ram pt (vpn level vma) := by
  subst hstep
  have hpos := unit_pos level
  obtain ⟨f, rfl⟩ := hfirst
  -- the loop comes to the entry of the address only with the start of its bytes
  have hown : ∀ b ∈ addrs (unit level * f) last (unit level), vpn level (BitVec.ofNat 64 b) = vpn level vma →
      b = unit level * (vma.toNat / unit level) ∧ unit level * f ≤ b ∧ b < last := by
    intro b hb he
    obtain ⟨i, rfl, hlt⟩ := (mem_addrs hpos).mp hb
    have hsame := hblock _ (Nat.le_add_right _ _) hlt
    rw [← Nat.mul_add] at he hsame hlt ⊢
    have hval := congrArg Fin.val he
    rw [vpn_mul (Nat.lt_of_lt_of_le hlt hlast), vpn_val, ← unit] at hval
    rw [unit_succ, ← Nat.div_div_eq_div_mul, ← Nat.div_div_eq_div_mul, Nat.mul_div_cancel_left _ hpos] at hsame
    have hq : f + i = vma.toNat / unit level := by omega
    exact ⟨congrArg _ hq, Nat.mul_le_mul_left _ (Nat.le_add_right f i), hlt⟩
  have hle : unit level * f ≤ vma.toNat ↔ unit level * f ≤ unit level * (vma.toNat / unit level) := by
    rw [Nat.mul_le_mul_left_iff hpos, Nat.le_div_iff_mul_le hpos, Nat.mul_comm]
  simp only [lt_roundUp_iff hpos, hle]
  split
  · rename_i hin
    have hvpn : vpn level (start level vma) = vpn level vma := by
      apply Fin.ext
      rw [start, vpn_mul (Nat.lt_of_lt_of_le hin.2 hlast), vpn_val, unit]
    have hmem : unit level * (vma.toNat / unit level) ∈ addrs (unit level * f) last (unit level) := by
      have hf := Nat.le_of_mul_le_mul_left hin.1 hpos
      refine (mem_addrs hpos).mpr ⟨vma.toNat / unit level - f, ?_, hin.2⟩
      rw [← Nat.mul_add, Nat.add_sub_cancel' hf]
    rw [← hvpn]
    exact mapLeaves_hit hmem fun b hb he => (hown b hb (he.trans hvpn)).1
  · rename_i hout
    refine mapLeaves_miss fun b hb he => hout ?_
    obtain ⟨rfl, hf, hlt⟩ := hown b hb he
    exact ⟨hf, hlt⟩

end Loops

section Leaves

variable {k : Nat} {ram : Ppn → Page} {t q : Ppn} {vma : BitVec 64} {g : Bool} {flags : BitVec 8}

theorem unit_eq (k : Nat) : unit k = 4096 * 512 ^ k := by
  rw [unit, Nat.pow_add, Nat.pow_mul]

theorem pageptrToPagenum_toNat (p : BitVec 64) : (pageptrToPagenum p).toNat = p.toNat / 4096 % 2 ^ 44 := by
  simp [pageptrToPagenum, BitVec.toNat_ushiftRight, Nat.shiftRight_eq_div_pow]

theorem ppnOf_leafPte (p : BitVec 64) (flags : BitVec 8) : ppnOf (leafPte p flags) = pageptrToPagenum p := ppnOf_mkPte _ _

/-- The page number of the first page of an entry. -/
theorem ppn_start (hlt : vma.toNat < 2 ^ 38) :
    (ppnOf (leafPte (start k vma) flags)).toNat = 512 ^ k * (vma.toNat / 4096 / 512 ^ k) := by
  have hle : unit k * (vma.toNat / unit k) ≤ vma.toNat := Nat.mul_div_le _ _
  have hdiv : unit k * (vma.toNat / unit k) / 4096 = 512 ^ k * (vma.toNat / 4096 / 512 ^ k) := by
    rw [unit_eq, Nat.mul_assoc, Nat.mul_div_cancel_left _ (by decide), Nat.div_div_eq_div_mul]
  rw [ppnOf_leafPte, pageptrToPagenum_toNat, start, BitVec.toNat_ofNat, Nat.mod_eq_of_lt (by omega), ← hdiv,
    Nat.mod_eq_of_lt (by omega)]

/-- A leaf of the kernel map takes each of its addresses to itself. -/
theorem leaf_physical (hlt : vma.toNat < 2 ^ 38) : physical ⟨k, leafPte (start k vma) flags, g⟩ vma = vma := by
  have hpage : (Translation.mk k (leafPte (start k vma) flags) g).page vma = pageptrToPagenum vma := by
    apply BitVec.eq_of_toNat_eq
    rw [Translation.page, BitVec.toNat_add, ppn_start hlt, BitVec.toNat_ofNat, pageptrToPagenum_toNat,
      BitVec.toNat_ushiftRight, Nat.shiftRight_eq_div_pow, Nat.add_mod_mod, Nat.div_add_mod]
  rw [physical, hpage]
  apply BitVec.eq_of_toNat_eq
  have hnum : (pagenumToPageptr (pageptrToPagenum vma)).toNat = (vma.toNat / 4096) <<< 12 := by
    rw [pagenumToPageptr, BitVec.toNat_shiftLeft, BitVec.toNat_setWidth, pageptrToPagenum_toNat, Nat.shiftLeft_eq,
      Nat.shiftLeft_eq]
    omega
  have hoff : (vma &&& 0xfff).toNat = vma.toNat % 2 ^ 12 := Nat.and_two_pow_sub_one_eq_mod _ 12
  rw [BitVec.toNat_or, hnum, hoff, ← Nat.shiftLeft_add_eq_or_of_lt (Nat.mod_lt _ (by decide)), Nat.shiftLeft_eq]
  exact Nat.div_add_mod' _ _

theorem walk_start (h : ram t (vpn k vma) = leafPte (start k vma) flags) (hlt : vma.toNat < 2 ^ 38)
    (hr : has (leafPte (start k vma) flags) pteR = true) :
    ∃ g', walk (k + 1) ram t vma g = some ⟨k, leafPte (start k vma) flags, g'⟩ := by
  have hbits : ∀ f : BitVec 8, (f ||| pteA ||| pteD ||| pteV) &&& pteR != 0 →
      ((f ||| pteA ||| pteD ||| pteV) &&& pteV != 0) = true ∧
      ((f ||| pteA ||| pteD ||| pteV) &&& (pteR ||| pteW ||| pteX) != 0) = true := by
    decide +kernel
  have hok : leafOk k (leafPte (start k vma) flags) = true := by
    rw [leafOk, hr, ppn_start hlt, Nat.mul_mod_right]
    rfl
  rw [has, flagsOf_leafPte] at hr
  obtain ⟨hv, hl⟩ := hbits flags hr
  rw [walk_leaf (by rw [h, has, flagsOf_leafPte, hv]) (by rw [h, isLeaf, has, flagsOf_leafPte, hl]), h, if_pos hok]
  exact ⟨_, rfl⟩

theorem walk_next (h : ram t (vpn k vma) = ptabPte (pagenumToPageptr q) pteG) :
    walk (k + 1) ram t vma g = walk k ram q vma true := by
  have hg : has (ptabPte (pagenumToPageptr q) pteG) pteG = true := by
    rw [has, ptabPte, flagsOf_mkPte]
    decide
  rw [walk_table, h, hg, Bool.or_true, ptabPte, ppnOf_mkPte, pageptrToPagenum_pagenumToPageptr]
  · rw [h, has, ptabPte, flagsOf_mkPte]
    decide
  · rw [h, isLeaf, has, ptabPte, flagsOf_mkPte]
    decide

end Leaves

/-- The layout that kernel.ld gives the image, and a memory of whole megapages. -/
structure Laid (img : Image) : Prop where
  text : img.textStart = ramStart
  text_le : img.textStart ≤ img.textEnd
  rodata : img.rodataStart = roundUp img.textEnd pageSize
  rodata_le : img.rodataStart ≤ img.rodataEnd
  data : img.dataStart = roundUp img.rodataEnd pageSize
  data_le : img.dataStart ≤ img.imgEnd
  ram_dvd : megaSize ∣ img.ramSize
  ram_le : megaSize ≤ img.ramSize

/-- The flags for an address of the memory or below. -/
def flagsAt (img : Image) (a : Nat) : BitVec 8 :=
  if a < ramStart then pteR ||| pteW ||| pteG
  else if a < img.rodataStart then pteR ||| pteX ||| pteG
  else if a < img.dataStart then pteR ||| pteG
  else pteR ||| pteW ||| pteG

section Tables

variable {img : Image} {m m' : Mem} {vma : BitVec 64}

/-- The tables before memory_init: they are in the bss. -/
def Cleared (img : Image) (m : Mem) : Prop := ∀ p ∈ [img.mainPt2, img.mainPt1, img.mainPt0], m.ram p = fun _ => 0

theorem Laid.bounds (h : Laid img) (hfit : img.imgEnd - img.imgStart ≤ megaSize) :
    ramStart ≤ img.textEnd ∧ img.textEnd ≤ img.rodataStart ∧ img.rodataStart ≤ img.rodataEnd ∧
      img.rodataEnd ≤ img.dataStart ∧ img.dataStart ≤ ramStart + megaSize := by
  have htext := roundUp_ge img.textEnd
  have hrodata := roundUp_ge img.rodataEnd
  have hstart := img.start
  rw [← h.rodata] at htext
  rw [← h.data] at hrodata
  refine ⟨h.text ▸ h.text_le, htext, h.rodata_le, hrodata, ?_⟩
  have := h.data_le
  omega

theorem root_entry (hz : Cleared img m) (hlt : vma.toNat < 2 ^ 38) : (mapKernel img m).ram img.mainPt2 (vpn 2 vma) =
    if vma.toNat < ramStart then leafPte (start 2 vma) (pteR ||| pteW ||| pteG)
    else if vma.toNat / 2 ^ 30 = 2 then ptabPte (pagenumToPageptr img.mainPt1) pteG else 0 := by
  have hnd := img.nodup
  simp only [List.nodup_cons, List.mem_cons, List.not_mem_nil, or_false, not_or] at hnd
  obtain ⟨⟨h21, h20⟩, -, -⟩ := hnd
  have hgiga : (mapLeaves img.mainPt2 2 (pteR ||| pteW ||| pteG) (addrs 0 ramStart gigaSize) m).ram img.mainPt2 (vpn 2 vma) = _ :=
    mapLeaves_addrs (by decide) (Nat.dvd_zero _) (by decide) fun a _ ha => by
      simp only [unit, ramStart] at ha ⊢
      omega
  have hroot : (mapKernel img m).ram img.mainPt2 = ((mapLeaves img.mainPt2 2 (pteR ||| pteW ||| pteG)
      (addrs 0 ramStart gigaSize) m).setWord img.mainPt2 (vpn 2 (BitVec.ofNat 64 ramStart))
        (ptabPte (pagenumToPageptr img.mainPt1) pteG)).ram img.mainPt2 := by
    rw [mapKernel]
    simp only [mapLeaves_ram_of_ne h21, mapLeaves_ram_of_ne h20, setWord_ram_of_ne h21]
  have hval : (vpn 2 vma).val = vma.toNat / 2 ^ 30 := by
    rw [vpn_val]
    omega
  have hidx : (vpn 2 (BitVec.ofNat 64 ramStart)).val = 2 := by decide
  rw [hroot]
  by_cases htab : vma.toNat / 2 ^ 30 = 2
  · have heq : vpn 2 vma = vpn 2 (BitVec.ofNat 64 ramStart) := Fin.ext (by omega)
    rw [heq, setWord_ram_self, if_neg, if_pos htab]
    simp only [ramStart]
    omega
  · have hne : vpn 2 vma ≠ vpn 2 (BitVec.ofNat 64 ramStart) := fun he => by
      rw [← he] at hidx
      omega
    rw [setWord_ram_idx hne, hgiga, if_neg htab, hz _ (by simp)]
    have hround : roundUp ramStart gigaSize = ramStart := by decide
    simp only [hround, Nat.zero_le, true_and]

theorem mid_entry (h : Laid img) (hz : Cleared img m) (hn : vma.toNat / 2 ^ 30 = 2) :
    (mapKernel img m).ram img.mainPt1 (vpn 1 vma) =
      if vma.toNat / 2 ^ 21 = 1024 then ptabPte (pagenumToPageptr img.mainPt0) pteG
      else if vma.toNat < img.ramEnd then leafPte (start 1 vma) (pteR ||| pteW ||| pteG) else 0 := by
  have hnd := img.nodup
  simp only [List.nodup_cons, List.mem_cons, List.not_mem_nil, or_false, not_or] at hnd
  obtain ⟨⟨h21, -⟩, h10, -⟩ := hnd
  have hsize := img.ramSize_le
  obtain ⟨c, hc⟩ := h.ram_dvd
  have hend : roundUp img.ramEnd megaSize = img.ramEnd := by
    simp only [roundUp, Image.ramEnd, hc, ramStart, megaSize, pageSize]
    omega
  have hmega : ∀ M : Mem, (mapLeaves img.mainPt1 1 (pteR ||| pteW ||| pteG)
      (addrs (ramStart + megaSize) img.ramEnd megaSize) M).ram img.mainPt1 (vpn 1 vma) =
      if ramStart + megaSize ≤ vma.toNat ∧ vma.toNat < roundUp img.ramEnd megaSize
      then leafPte (start 1 vma) (pteR ||| pteW ||| pteG) else M.ram img.mainPt1 (vpn 1 vma) := by
    intro M
    refine mapLeaves_addrs (by decide) (by decide) ?_ fun a hge hlt => ?_
    · simp only [Image.ramEnd, gigaSize, megaSize, pageSize, ramStart] at hsize ⊢
      omega
    · simp only [Image.ramEnd, gigaSize, megaSize, pageSize, ramStart, unit] at hsize hge hlt ⊢
      omega
  have hidx : (vpn 1 (BitVec.ofNat 64 ramStart)).val = 0 := by decide
  have hval : (vpn 1 vma).val = vma.toNat / 2 ^ 21 % 512 := vpn_val 1 vma
  have hbefore : ∀ M : Mem, M.ram img.mainPt1 = (fun _ => 0) →
      (M.setWord img.mainPt1 (vpn 1 (BitVec.ofNat 64 ramStart)) (ptabPte (pagenumToPageptr img.mainPt0) pteG)).ram
        img.mainPt1 (vpn 1 vma) = if vma.toNat / 2 ^ 21 = 1024 then ptabPte (pagenumToPageptr img.mainPt0) pteG else 0 := by
    intro M hM
    split
    · rename_i htab
      have heq : vpn 1 vma = vpn 1 (BitVec.ofNat 64 ramStart) := Fin.ext (by omega)
      rw [heq, setWord_ram_self]
    · rename_i htab
      have hne : vpn 1 vma ≠ vpn 1 (BitVec.ofNat 64 ramStart) := fun he => by
        rw [← he] at hidx
        omega
      rw [setWord_ram_idx hne, hM]
  have hlow : vma.toNat / 2 ^ 21 = 1024 ↔ ¬ ramStart + megaSize ≤ vma.toNat := by
    simp only [ramStart, megaSize, pageSize]
    omega
  rw [mapKernel, hmega, mapLeaves_ram_of_ne h10, mapLeaves_ram_of_ne h10, mapLeaves_ram_of_ne h10, hbefore, hend]
  · by_cases htab : vma.toNat / 2 ^ 21 = 1024
    · rw [if_neg fun hin => hlow.mp htab hin.1]
      simp only [if_pos htab]
    · have hge := Decidable.not_not.mp (mt hlow.mpr htab)
      simp only [if_neg htab, hge, true_and]
  · rw [setWord_ram_of_ne (Ne.symm h21), mapLeaves_ram_of_ne (Ne.symm h21), hz _ (by simp)]

theorem low_entry (h : Laid img) (hfit : img.imgEnd - img.imgStart ≤ megaSize) (hn : vma.toNat / 2 ^ 21 = 1024) :
    (mapKernel img m).ram img.mainPt0 (vpn 0 vma) = leafPte (start 0 vma) (flagsAt img vma.toNat) := by
  have hnd := img.nodup
  simp only [List.nodup_cons, List.mem_cons, List.not_mem_nil, or_false, not_or] at hnd
  obtain ⟨-, h10, -⟩ := hnd
  obtain ⟨htext, hrodata, hrodata', hdata, hdata'⟩ := h.bounds hfit
  have hloop : ∀ (flags : BitVec 8) (first last : Nat) (M : Mem), pageSize ∣ first → ramStart ≤ first →
      last ≤ ramStart + megaSize →
      (mapLeaves img.mainPt0 0 flags (addrs first last pageSize) M).ram img.mainPt0 (vpn 0 vma) =
        if first ≤ vma.toNat ∧ vma.toNat < roundUp last pageSize then leafPte (start 0 vma) flags
        else M.ram img.mainPt0 (vpn 0 vma) := by
    intro flags first last M hdvd hfirst hlast
    simp only [ramStart, megaSize, pageSize] at hfirst hlast
    refine mapLeaves_addrs (by decide) hdvd (by omega) fun a _ _ => ?_
    simp only [unit]
    omega
  have hround : roundUp (ramStart + megaSize) pageSize = ramStart + megaSize := by decide
  rw [mapKernel, mapLeaves_ram_of_ne (Ne.symm h10)]
  rw [hloop _ _ _ _ (h.data ▸ Nat.dvd_of_mod_eq_zero (roundUp_mod _)) (by omega) (Nat.le_refl _)]
  rw [hloop _ _ _ _ (h.rodata ▸ Nat.dvd_of_mod_eq_zero (roundUp_mod _)) (by omega) (by omega)]
  rw [hloop _ _ _ _ (h.text ▸ (by decide : pageSize ∣ ramStart)) (Nat.le_of_eq h.text.symm) (by omega)]
  rw [hround, ← h.rodata, ← h.data, h.text, flagsAt]
  have hlow : ramStart ≤ vma.toNat ∧ vma.toNat < ramStart + megaSize := by
    simp only [ramStart, megaSize, pageSize]
    omega
  split_ifs <;> first | rfl | omega

theorem memoryInit_fits (hrun : memoryInit img m = some m') : img.imgEnd - img.imgStart ≤ megaSize := by
  by_contra hbig
  rw [memoryInit, if_pos (Nat.not_le.mp hbig)] at hrun
  cases hrun

/-- memory_init leaves the tables as it set them up. -/
theorem memoryInit_tables (hrun : memoryInit img m = some m') :
    ∀ p ∈ [img.mainPt2, img.mainPt1, img.mainPt0], m'.ram p = (mapKernel img m).ram p := by
  obtain ⟨n, cnt, hlink⟩ := memoryInit_linking hrun
  exact fun p hp => hlink.ram (hlink.apart p hp)

theorem flagsAt_readable (img : Image) (a : Nat) : flagsAt img a &&& pteR ≠ 0 := by
  rw [flagsAt]
  split_ifs <;> decide

theorem flagsAt_mega {a : Nat} (h : Laid img) (hfit : img.imgEnd - img.imgStart ≤ megaSize) (ha : ramStart + megaSize ≤ a) :
    flagsAt img a = pteR ||| pteW ||| pteG := by
  have hb := h.bounds hfit
  rw [flagsAt]
  split_ifs <;> first | rfl | omega

theorem walk_flagsAt {k : Nat} {ram : Ppn → Page} {t : Ppn} {g : Bool} (hlt : vma.toNat < 2 ^ 38)
    (he : ram t (vpn k vma) = leafPte (start k vma) (flagsAt img vma.toNat)) :
    ∃ g', walk (k + 1) ram t vma g = some ⟨k, leafPte (start k vma) (flagsAt img vma.toNat), g'⟩ := by
  have hbits : ∀ f : BitVec 8, f &&& pteR ≠ 0 → ((f ||| pteA ||| pteD ||| pteV) &&& pteR != 0) = true := by decide +kernel
  refine walk_start he hlt ?_
  rw [has, flagsOf_leafPte]
  exact hbits _ (flagsAt_readable img _)

theorem ramEnd_bounds (img : Image) : ramStart ≤ img.ramEnd ∧ img.ramEnd ≤ 3 * 2 ^ 30 := by
  have hsize := img.ramSize_le
  simp only [Image.ramEnd, ramStart, gigaSize, megaSize, pageSize] at hsize ⊢
  omega

/-- The translation of an address of the memory or below ends in the leaf of its page. -/
theorem translate_below (h : Laid img) (hz : Cleared img m) (hrun : memoryInit img m = some m') (hlt : vma.toNat < img.ramEnd) :
    ∃ k g, translate m'.ram img.mainPt2 vma = some ⟨k, leafPte (start k vma) (flagsAt img vma.toNat), g⟩ := by
  have hend := ramEnd_bounds img
  have hfit := memoryInit_fits hrun
  have htables := memoryInit_tables hrun
  have hlt' : vma.toNat < 2 ^ 38 := by omega
  rw [AddressSpace.translate, if_pos (wellformed_of_lt hlt')]
  have hroot := root_entry hz hlt'
  rw [← htables _ (by simp)] at hroot
  by_cases hlow : vma.toNat < ramStart
  · rw [if_pos hlow] at hroot
    have hflags : flagsAt img vma.toNat = pteR ||| pteW ||| pteG := by rw [flagsAt, if_pos hlow]
    exact ⟨2, walk_flagsAt hlt' (by rw [hroot, hflags])⟩
  · have hn : vma.toNat / 2 ^ 30 = 2 := by
      simp only [ramStart] at hlow
      omega
    have hmid := mid_entry h hz hn
    rw [← htables _ (by simp)] at hmid
    rw [if_neg hlow, if_pos hn] at hroot
    rw [walk_next hroot]
    by_cases htab : vma.toNat / 2 ^ 21 = 1024
    · rw [if_pos htab] at hmid
      rw [walk_next hmid]
      refine ⟨0, walk_flagsAt hlt' ?_⟩
      rw [htables _ (by simp)]
      exact low_entry h hfit htab
    · have hge : ramStart + megaSize ≤ vma.toNat := by
        simp only [ramStart, megaSize, pageSize] at hlow ⊢
        omega
      rw [if_neg htab, if_pos hlt] at hmid
      exact ⟨1, walk_flagsAt hlt' (by rw [hmid, flagsAt_mega h hfit hge])⟩

/-- No other address is mapped. -/
theorem translate_above (h : Laid img) (hz : Cleared img m) (hrun : memoryInit img m = some m') (hge : img.ramEnd ≤ vma.toNat) :
    translate m'.ram img.mainPt2 vma = none := by
  have hend := ramEnd_bounds img
  have htables := memoryInit_tables hrun
  obtain ⟨free, hbooted⟩ := memoryInit_booted hz hrun
  cases hwf : wellformedVma vma with
  | false => rw [AddressSpace.translate, hwf]; rfl
  | true =>
      rw [AddressSpace.translate, if_pos hwf]
      by_cases huser : 3 ≤ (vpn 2 vma).val
      · exact walk_invalid (by rw [hbooted.map.user _ huser]; decide)
      · have hval := vpn_val 2 vma
        rw [wellformed_iff] at hwf
        have hram := hend.1
        simp only [ramStart] at hram
        have hn : vma.toNat / 2 ^ 30 = 2 := by omega
        have hroot := root_entry hz (show vma.toNat < 2 ^ 38 by omega)
        have hmid := mid_entry h hz hn
        rw [← htables _ (by simp)] at hroot hmid
        have hlow : ¬ vma.toNat / 2 ^ 21 = 1024 := fun he => by
          have hsize := h.ram_le
          simp only [Image.ramEnd, ramStart, megaSize, pageSize] at hge hsize
          omega
        rw [if_neg (by omega), if_pos hn] at hroot
        rw [if_neg hlow, if_neg (by omega)] at hmid
        rw [walk_next hroot]
        exact walk_invalid (by rw [hmid]; decide)

end Tables

section Access

variable {img : Image} {m m' : Mem}

/-- The address is on a page with a byte from first to before last. -/
def OnPage (first last : Nat) (vma : BitVec 64) : Prop := ∃ b, first ≤ b ∧ b < last ∧ b / pageSize = vma.toNat / pageSize

theorem onPage_iff {first last : Nat} {vma : BitVec 64} (hfirst : pageSize ∣ first) :
    OnPage first last vma ↔ first ≤ vma.toNat ∧ vma.toNat < roundUp last pageSize := by
  obtain ⟨f, rfl⟩ := hfirst
  simp only [OnPage, roundUp, pageSize]
  constructor
  · rintro ⟨b, hb, hlt, he⟩
    omega
  · rintro ⟨hge, hlt⟩
    exact ⟨4096 * (vma.toNat / 4096), by omega, by omega, by omega⟩

/-- The leaves of text pages can be executed, those of other pages but rodata written. -/
theorem flagsAt_access (h : Laid img) (vma : BitVec 64) :
    (flagsAt img vma.toNat &&& pteX ≠ 0 ↔ OnPage img.textStart img.textEnd vma) ∧
      (flagsAt img vma.toNat &&& pteW ≠ 0 ↔
        ¬ OnPage img.textStart img.textEnd vma ∧ ¬ OnPage img.rodataStart img.rodataEnd vma) := by
  have htext := roundUp_ge img.textEnd
  have hrodata := roundUp_ge img.rodataEnd
  have hle := h.text_le
  have hle' := h.rodata_le
  rw [onPage_iff (h.text ▸ (by decide : pageSize ∣ ramStart)), onPage_iff (h.rodata ▸ Nat.dvd_of_mod_eq_zero (roundUp_mod _)),
    ← h.rodata, ← h.data, h.text, flagsAt]
  rw [← h.rodata] at htext
  rw [← h.data] at hrodata
  rw [h.text] at hle
  split_ifs with h₁ h₂ h₃
  · exact ⟨iff_of_false (by decide) (by omega), iff_of_true (by decide) (by omega)⟩
  · exact ⟨iff_of_true (by decide) (by omega), iff_of_false (by decide) (by omega)⟩
  · exact ⟨iff_of_false (by decide) (by omega), iff_of_false (by decide) (by omega)⟩
  · exact ⟨iff_of_false (by decide) (by omega), iff_of_true (by decide) (by omega)⟩

/-- What a leaf of the kernel map allows. -/
theorem has_leaf (h : Laid img) (vma w : BitVec 64) :
    let e := leafPte w (flagsAt img vma.toNat)
    has e pteR = true ∧ has e pteG = true ∧ has e pteU = false ∧
      (has e pteX = true ↔ OnPage img.textStart img.textEnd vma) ∧
      (has e pteW = true ↔ ¬ OnPage img.textStart img.textEnd vma ∧ ¬ OnPage img.rodataStart img.rodataEnd vma) := by
  obtain ⟨hx, hw⟩ := flagsAt_access h vma
  rw [← hw, ← hx]
  simp only [has, flagsOf_leafPte]
  rw [flagsAt]
  split_ifs <;> decide

end Access

/-- After memory_init the main space maps each address of the memory and below to itself and no
other, text to be read and executed, rodata to be read and the rest to be read and written. -/
theorem boot_map (img : Image) (h : Laid img) (m m' : Mem) (hz : Cleared img m) (hrun : memoryInit img m = some m') :
    (∀ vma : BitVec 64, vma.toNat < img.ramEnd → ∃ tr, translate m'.ram img.mainPt2 vma = some tr ∧ physical tr vma = vma ∧
      has tr.entry pteR = true ∧ has tr.entry pteG = true ∧ has tr.entry pteU = false ∧
      (has tr.entry pteX = true ↔ OnPage img.textStart img.textEnd vma) ∧
      (has tr.entry pteW = true ↔ ¬ OnPage img.textStart img.textEnd vma ∧ ¬ OnPage img.rodataStart img.rodataEnd vma)) ∧
    (∀ vma : BitVec 64, img.ramEnd ≤ vma.toNat → translate m'.ram img.mainPt2 vma = none) ∧
    ∀ vma tr, translate m'.ram img.mainPt2 vma = some tr → ¬ (has tr.entry pteW = true ∧ has tr.entry pteX = true) := by
  refine ⟨fun vma hlt => ?_, fun vma hge => translate_above h hz hrun hge, fun vma tr htr hwx => ?_⟩
  · obtain ⟨k, g, htr⟩ := translate_below h hz hrun hlt
    have hend := ramEnd_bounds img
    exact ⟨_, htr, leaf_physical (by omega), has_leaf h vma _⟩
  · by_cases hlt : vma.toNat < img.ramEnd
    · obtain ⟨k, g, he⟩ := translate_below h hz hrun hlt
      obtain rfl := Option.some.inj (he.symm.trans htr)
      obtain ⟨-, -, -, hx, hw⟩ := has_leaf h vma (start k vma)
      exact (hw.mp hwx.1).1 (hx.mp hwx.2)
    · rw [translate_above h hz hrun (Nat.le_of_not_lt hlt)] at htr
      cases htr

theorem boot_map_sample : ∃ m', memoryInit PageOwnership.sampleImage PageOwnership.sampleMem = some m' ∧
    ∃ tr, translate m'.ram 0x80010 0x80009123 = some tr ∧ physical tr 0x80009123 = 0x80009123 ∧
      has tr.entry pteW = false ∧ has tr.entry pteX = false := by
  obtain ⟨m', -, hrun, -⟩ := PageOwnership.sample_booted
  have hlaid : Laid PageOwnership.sampleImage :=
    ⟨rfl, by decide, by decide, by decide, by decide, by decide, by decide, by decide⟩
  obtain ⟨tr, htr, hphys, -, -, -, hx, hw⟩ :=
    (boot_map PageOwnership.sampleImage hlaid PageOwnership.sampleMem m' (fun p _ => rfl) hrun).1 0x80009123 (by decide)
  have hrodata : OnPage 0x80008000 0x8000A000 0x80009123 := ⟨0x80009123, by decide, by decide, rfl⟩
  have htext : ¬ OnPage 0x80000000 0x80008000 0x80009123 := by
    rw [onPage_iff (by decide)]
    decide
  exact ⟨m', hrun, tr, htr, hphys, Bool.eq_false_iff.mpr fun he => (hw.mp he).2 hrodata,
    Bool.eq_false_iff.mpr fun he => htext (hx.mp he)⟩

end RiscvKernel.BootMap
