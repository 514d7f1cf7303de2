import RiscvKernel.TrapEntry

namespace RiscvKernel.TrapReturn

open Lib.Rv64 TrapEntry

/-- The macro restore_sstatus_and_sepc. -/
def restoreSstatusAndSepc : List Instr :=
  [.ld t6 (33 * 8) sp, .csrw .sepc t6, .ld t6 (32 * 8) sp, .csrw .sstatus t6]

/-- The registers of save_gprs_except_t6_and_sp, each with its slot of the trap frame. -/
def gprSlots : List (Reg × Nat) := (ra :: (List.finRange 32).filter fun r => 3 ≤ r ∧ r ≤ 30).map fun r => (r, r.val)

/-- The macro restore_gprs_except_t6_and_sp. -/
def restoreGprsExceptT6AndSp : List Instr := loads sp gprSlots.reverse

/-- _trap_entry_from_umode behind its call of trap_umode_cont, up to its sret. umodeEntry is
its own address. -/
def trapExitToUmode (umodeEntry : Word) : List Instr :=
  ([.la t6 umodeEntry, .csrw .stvec t6] : List Instr) ++ restoreSstatusAndSepc ++ restoreGprsExceptT6AndSp ++
    ([.addi sp sp (34 * 8), .csrw .sscratch sp, .addi sp sp (-34 * 8), .ld t6 (31 * 8) sp, .ld sp (2 * 8) sp] : List Instr)

/-- The registers that _thread_swtch keeps in struct thread_context. -/
def contextSlots : List (Reg × Nat) :=
  [(8, 0), (9, 1), (18, 2), (19, 3), (20, 4), (21, 5), (22, 6), (23, 7), (24, 8), (25, 9), (26, 10), (27, 11), (ra, 12), (sp, 13)]

def threadSwtch : List Instr := stores tp contextSlots ++ [.addi tp a0 0] ++ loads tp contextSlots.reverse

/-- What a user program has in the machine besides its memory. -/
@[ext] structure Context where
  x : Reg → Word
  sstatus : Word
  sepc : Word

def context (m : Machine) : Context := ⟨m.get, m.csr .sstatus, m.csr .sepc⟩

/-- The struct trap_frame at an address. -/
def trapFrame (m : Machine) (f : Word) : Context :=
  ⟨fun r => if r = 0 then 0 else m.load (word f r.val), m.load (word f 32), m.load (word f 33)⟩

section Code

variable {m : Machine}

theorem save_eq : saveGprsExceptT6AndSp = stores sp gprSlots := by
  rw [stores, gprSlots, List.map_map]
  rfl

theorem gprSlots_spec : (gprSlots.map Prod.fst).Nodup ∧ (gprSlots.map Prod.snd).Nodup ∧
    ∀ r : Reg, (r, r.val) ∈ gprSlots ↔ r ≠ 0 ∧ r ≠ sp ∧ r ≠ t6 := by decide

theorem gprSlots_mem {s : Reg × Nat} (h : s ∈ gprSlots) : s.2 = s.1.val := by
  obtain ⟨r, -, rfl⟩ := List.mem_map.mp h
  rfl

/-- The frame that the entry makes below the anchor. -/
def frameOf (anchor : Word) : Word := anchor + BitVec.ofInt 64 (-34 * 8)

/-- The entry up to the macros. -/
theorem entry_head :
    let h := run m [.csrrw sp .sscratch sp, .addi sp sp (-34 * 8), .sd t6 (31 * 8) sp, .csrr t6 .sscratch, .sd t6 (2 * 8) sp]
    h.get sp = frameOf (m.csr .sscratch) ∧ (∀ r, r ≠ sp → r ≠ t6 → h.get r = m.get r) ∧
      (∀ c, c ≠ .sscratch → h.csr c = m.csr c) ∧ h.load (word (frameOf (m.csr .sscratch)) 31) = m.get t6 ∧
      h.load (word (frameOf (m.csr .sscratch)) 2) = m.get sp := by
  have hsp : sp ≠ 0 := by decide
  have ht6 : t6 ≠ 0 := by decide
  have hne : sp ≠ t6 := by decide
  obtain ⟨f, hf⟩ : ∃ f, f = frameOf (m.csr .sscratch) := ⟨_, rfl⟩
  have hapart := apart_word (b := f) (j := 31) (k := 2) (by decide) (by decide) (by decide)
  have h31 : word f 31 = f + BitVec.ofInt 64 (31 * 8) := by
    rw [word]
    norm_num
  have h2 : word f 2 = f + BitVec.ofInt 64 (2 * 8) := by
    rw [word]
    norm_num
  have hframe : m.csr .sscratch + BitVec.ofInt 64 (-34 * 8) = f := by rw [hf, frameOf]
  rw [h31, h2] at hapart
  rw [← hf, h31, h2]
  simp only [run, List.foldl_cons, List.foldl_nil, step, get_store, csr_store, csr_set, csr_setCsr_self,
    get_set_self hsp, get_set_self ht6, get_set_ne hne, get_set_ne (Ne.symm hne), get_setCsr, hframe]
  refine ⟨trivial, fun r hr hr' => ?_, fun c hc => csr_setCsr_ne _ _ _ hc, ?_, load_store⟩
  · rw [get_set_ne hr', get_store, get_set_ne hr, get_set_ne hr, get_setCsr]
  · rw [load_store_of_apart hapart, load_set, load_store]

theorem word_ofInt (f : Word) {k : Nat} {i : Int} (h : i = 8 * (k : Int)) : f + BitVec.ofInt 64 i = word f k := by
  rw [word, h]

theorem saveSstatusAndSepc_spec :
    let m' := run m saveSstatusAndSepc
    m'.get sp = m.get sp ∧ m'.load (word (m.get sp) 32) = m.csr .sstatus ∧ m'.load (word (m.get sp) 33) = m.csr .sepc ∧
      ∀ k < 32, m'.load (word (m.get sp) k) = m.load (word (m.get sp) k) := by
  have ht6 : t6 ≠ 0 := by decide
  have hne : sp ≠ t6 := by decide
  have hapart : ∀ j k, j < 34 → k < 34 → j ≠ k → Apart (word (m.get sp) j) (word (m.get sp) k) := fun j k hj hk =>
    apart_word (by omega) (by omega)
  have h32 := word_ofInt (m.get sp) (k := 32) (i := 32 * 8) rfl
  have h33 := word_ofInt (m.get sp) (k := 33) (i := 33 * 8) rfl
  simp only [saveSstatusAndSepc, run, List.foldl_cons, List.foldl_nil, step, get_store, csr_store, csr_set,
    get_set_self ht6, get_set_ne hne, h32, h33]
  refine ⟨trivial, ?_, load_store, fun k hk => ?_⟩
  · rw [load_store_of_apart (hapart 32 33 (by decide) (by decide) (by decide)), load_set, load_store]
  · rw [load_store_of_apart (hapart k 33 (by omega) (by decide) (by omega)), load_set,
      load_store_of_apart (hapart k 32 (by omega) (by decide) (by omega)), load_set]

theorem saveGprs_spec :
    let m' := run m saveGprsExceptT6AndSp
    m'.get sp = m.get sp ∧ m'.csr = m.csr ∧
      (∀ r : Reg, r ≠ 0 → r ≠ sp → r ≠ t6 → m'.load (word (m.get sp) r.val) = m.get r) ∧
      ∀ r : Reg, r = sp ∨ r = t6 → m'.load (word (m.get sp) r.val) = m.load (word (m.get sp) r.val) := by
  obtain ⟨-, hkeys, hmem⟩ := gprSlots_spec
  have hlt : ∀ s ∈ gprSlots, s.2 < 2 ^ 60 := fun s hs => by
    rw [gprSlots_mem hs]
    omega
  rw [save_eq]
  obtain ⟨hx, hcsr⟩ : (run m (stores sp gprSlots)).x = m.x ∧ (run m (stores sp gprSlots)).csr = m.csr := run_stores_frame
  refine ⟨?_, hcsr, fun r h₀ hsp ht6 => ?_, fun r hr => ?_⟩
  · rw [Machine.get, Machine.get, hx]
  · exact run_stores_load hkeys hlt (r, r.val) ((hmem r).mpr ⟨h₀, hsp, ht6⟩)
  · refine run_stores_apart fun s hs => apart_word (by omega) (hlt s hs) fun he => ?_
    have hs' : s = (r, r.val) := by
      rw [gprSlots_mem hs] at he
      exact Prod.ext (Fin.ext he.symm) ((gprSlots_mem hs).trans he.symm)
    rw [hs', hmem r] at hs
    rcases hr with rfl | rfl
    · exact hs.2.1 rfl
    · exact hs.2.2 rfl

/-- The entry leaves all that the user has in the frame below the anchor. -/
theorem entry_spec (smodeEntry back : Word) :
    let m' := run m (trapEntryFromUmode smodeEntry back)
    m'.get sp = frameOf (m.csr .sscratch) ∧ trapFrame m' (frameOf (m.csr .sscratch)) = context m := by
  obtain ⟨hsp, hget, hcsr, h31, h2⟩ := entry_head (m := m)
  rw [trapEntryFromUmode, run_append, run_append, run_append]
  generalize run m [.csrrw sp .sscratch sp, .addi sp sp (-34 * 8), .sd t6 (31 * 8) sp, .csrr t6 .sscratch, .sd t6 (2 * 8) sp] = m₁
    at hsp hget hcsr h31 h2 ⊢
  obtain ⟨hsp₂, hcsr₂, hslots, hkept⟩ := saveGprs_spec (m := m₁)
  generalize run m₁ saveGprsExceptT6AndSp = m₂ at hsp₂ hcsr₂ hslots hkept ⊢
  obtain ⟨hsp₃, hsstatus, hsepc, hkept₃⟩ := saveSstatusAndSepc_spec (m := m₂)
  generalize run m₂ saveSstatusAndSepc = m₃ at hsp₃ hsstatus hsepc hkept₃ ⊢
  have hf := hsp₂.trans hsp
  rw [hf] at hsp₃ hsstatus hsepc hkept₃
  rw [hsp] at hslots hkept
  have hlast : ∀ a, (run m₃ [.la t6 smodeEntry, .csrw .stvec t6, .link ra back]).load a = m₃.load a := fun a => rfl
  refine ⟨?_, ?_⟩
  · rw [run_get rfl, hsp₃]
  · rw [trapFrame, context, hlast, hlast, hsstatus, hsepc, hcsr₂, hcsr _ (by decide), hcsr _ (by decide)]
    congr 1
    funext r
    by_cases h₀ : r = 0
    · rw [if_pos h₀, Machine.get, if_pos h₀]
    · rw [if_neg h₀, hlast, hkept₃ _ r.isLt]
      by_cases hr : r = sp ∨ r = t6
      · rw [hkept r hr]
        rcases hr with rfl | rfl
        · exact h2
        · exact h31
      · obtain ⟨hr₁, hr₂⟩ := not_or.mp hr
        rw [hslots r h₀ hr₁ hr₂, hget r hr₁ hr₂]

/-- Behind either entry an interrupt has its code in a0, without the top bit, and the frame in a1. -/
theorem cont_interrupt {m₁ : Machine} {f : Word} (hsp : m₁.get sp = f) (hframe : trapFrame m₁ f = context m)
    (hscause : m₁.csr .scause = m.csr .scause) (hmsb : (m.csr .scause).msb = true) :
    ((run m₁ trapUmodeCont).get a0).msb = true ∧
      (run (run m₁ trapUmodeCont) clearMsb).get a0 = m.csr .scause <<< 1 >>> 1 ∧
      (run (run m₁ trapUmodeCont) clearMsb).get a1 = f ∧
      trapFrame (run (run m₁ trapUmodeCont) clearMsb) f = context m := by
  obtain ⟨hcode, hptr, hmem⟩ := trapUmodeCont_spec m₁
  generalize run m₁ trapUmodeCont = m₂ at hcode hptr hmem ⊢
  obtain ⟨hcode', hptr', hmem'⟩ := clearMsb_spec m₂
  generalize run m₂ clearMsb = m₃ at hcode' hptr' hmem' ⊢
  have hload : ∀ a, m₃.load a = m₁.load a := load_of_mem (hmem'.trans hmem)
  refine ⟨by rw [hcode, hscause, hmsb], by rw [hcode', hcode, hscause], by rw [hptr', hptr, hsp], ?_⟩
  rw [← hframe, trapFrame, trapFrame]
  simp only [hload]

/-- An interrupt gets to intr_handler with its code and the frame. -/
theorem enterHandler_interrupt (smodeEntry back : Word) (hmsb : (m.csr .scause).msb = true) {f : Word}
    (hf : frameOf (m.csr .sscratch) = f) :
    (enterHandler smodeEntry back m).1 = .intrHandler ∧
      (enterHandler smodeEntry back m).2.get a0 = m.csr .scause <<< 1 >>> 1 ∧
      (enterHandler smodeEntry back m).2.get a1 = f ∧ trapFrame (enterHandler smodeEntry back m).2 f = context m := by
  obtain ⟨hsp, hframe⟩ := entry_spec (m := m) smodeEntry back
  have hscause : (run m (trapEntryFromUmode smodeEntry back)).csr .scause = m.csr .scause := run_csr rfl
  rw [hf] at hsp hframe
  obtain ⟨hneg, hspec⟩ := cont_interrupt hsp hframe hscause hmsb
  rw [enterHandler, run_append]
  simp only [hneg, if_true, true_and]
  exact hspec

theorem restoreSstatusAndSepc_spec :
    let m' := run m restoreSstatusAndSepc
    m'.mem = m.mem ∧ m'.get sp = m.get sp ∧ m'.csr .sstatus = m.load (word (m.get sp) 32) ∧
      m'.csr .sepc = m.load (word (m.get sp) 33) ∧ m'.csr .stvec = m.csr .stvec := by
  have ht6 : t6 ≠ 0 := by decide
  have hne : sp ≠ t6 := by decide
  have h32 := word_ofInt (m.get sp) (k := 32) (i := 32 * 8) rfl
  have h33 := word_ofInt (m.get sp) (k := 33) (i := 33 * 8) rfl
  refine ⟨?_, run_get rfl, ?_, ?_, ?_⟩
  all_goals
    simp only [restoreSstatusAndSepc, run, List.foldl_cons, List.foldl_nil, step, get_setCsr, load_set, load_setCsr,
      mem_set, mem_setCsr, get_set_self ht6, get_set_ne hne, h32, h33, csr_setCsr_self]
  · rw [csr_setCsr_ne _ _ _ (by decide), csr_set, csr_setCsr_self]
  · rw [csr_setCsr_ne _ _ _ (by decide), csr_set, csr_setCsr_ne _ _ _ (by decide), csr_set]

theorem restoreGprs_spec :
    let m' := run m restoreGprsExceptT6AndSp
    m'.mem = m.mem ∧ m'.csr = m.csr ∧ m'.get sp = m.get sp ∧
      ∀ r : Reg, r ≠ 0 → r ≠ sp → r ≠ t6 → m'.get r = m.load (word (m.get sp) r.val) := by
  obtain ⟨hregs, -, hmem⟩ := gprSlots_spec
  have hbase : ∀ s ∈ gprSlots.reverse, s.1 ≠ sp ∧ s.1 ≠ 0 := fun s hs => by
    have hs' : (s.1, s.1.val) ∈ gprSlots := gprSlots_mem (List.mem_reverse.mp hs) ▸ List.mem_reverse.mp hs
    obtain ⟨h₀, hsp, -⟩ := (hmem s.1).mp hs'
    exact ⟨hsp, h₀⟩
  have hregs' : (gprSlots.reverse.map Prod.fst).Nodup := by
    rw [List.map_reverse]
    exact List.nodup_reverse.mpr hregs
  refine ⟨run_loads_frame.1, run_loads_frame.2, run_loads_other fun s hs => (hbase s hs).1, fun r h₀ hsp ht6 => ?_⟩
  exact run_loads_get hregs' hbase (r, r.val) (List.mem_reverse.mpr ((hmem r).mpr ⟨h₀, hsp, ht6⟩))

/-- The exit behind the macros. -/
theorem exit_tail :
    let m' := run m [.addi sp sp (34 * 8), .csrw .sscratch sp, .addi sp sp (-34 * 8), .ld t6 (31 * 8) sp, .ld sp (2 * 8) sp]
    m'.csr .sscratch = m.get sp + BitVec.ofInt 64 (34 * 8) ∧ (∀ c, c ≠ .sscratch → m'.csr c = m.csr c) ∧
      (∀ r, r ≠ sp → r ≠ t6 → m'.get r = m.get r) ∧ m'.get t6 = m.load (word (m.get sp) 31) ∧
      m'.get sp = m.load (word (m.get sp) 2) := by
  have hsp : sp ≠ 0 := by decide
  have ht6 : t6 ≠ 0 := by decide
  have hne : sp ≠ t6 := by decide
  obtain ⟨f, hf⟩ : ∃ f, f = m.get sp := ⟨_, rfl⟩
  have hback : f + BitVec.ofInt 64 (34 * 8) + BitVec.ofInt 64 (-34 * 8) = f := by
    rw [add_assoc, show BitVec.ofInt 64 (34 * 8) + BitVec.ofInt 64 (-34 * 8) = 0#64 by decide, BitVec.add_zero]
  have h31 := word_ofInt f (k := 31) (i := 31 * 8) rfl
  have h2 := word_ofInt f (k := 2) (i := 2 * 8) rfl
  rw [← hf]
  simp only [run, List.foldl_cons, List.foldl_nil, step, ← hf, get_set_self hsp, get_set_self ht6, get_set_ne hne,
    get_set_ne (Ne.symm hne), get_setCsr, csr_set, load_set, load_setCsr, hback, h31, h2, csr_setCsr_self]
  refine ⟨trivial, fun c hc => csr_setCsr_ne _ _ _ hc, fun r hr hr' => ?_, trivial, trivial⟩
  rw [get_set_ne hr, get_set_ne hr', get_set_ne hr, get_setCsr, get_set_ne hr]

/-- The exit takes all that the user gets from the frame, and sscratch back to the anchor. -/
theorem exit_spec (umodeEntry : Word) :
    let m' := run m (trapExitToUmode umodeEntry)
    context m' = trapFrame m (m.get sp) ∧ m'.csr .sscratch = m.get sp + BitVec.ofInt 64 (34 * 8) ∧ m'.csr .stvec = umodeEntry := by
  rw [trapExitToUmode, run_append, run_append, run_append]
  obtain ⟨hmem₁, hsp₁, hstvec₁⟩ : (run m [.la t6 umodeEntry, .csrw .stvec t6]).mem = m.mem ∧
      (run m [.la t6 umodeEntry, .csrw .stvec t6]).get sp = m.get sp ∧
      (run m [.la t6 umodeEntry, .csrw .stvec t6]).csr .stvec = umodeEntry := by
    refine ⟨rfl, run_get rfl, ?_⟩
    simp only [run, List.foldl_cons, List.foldl_nil, step, csr_setCsr_self]
    exact get_set_self (by decide) _
  generalize run m [.la t6 umodeEntry, .csrw .stvec t6] = m₁ at hmem₁ hsp₁ hstvec₁ ⊢
  obtain ⟨hmem₂, hsp₂, hsstatus, hsepc, hstvec₂⟩ := restoreSstatusAndSepc_spec (m := m₁)
  generalize run m₁ restoreSstatusAndSepc = m₂ at hmem₂ hsp₂ hsstatus hsepc hstvec₂ ⊢
  obtain ⟨hmem₃, hcsr₃, hsp₃, hget₃⟩ := restoreGprs_spec (m := m₂)
  generalize run m₂ restoreGprsExceptT6AndSp = m₃ at hmem₃ hcsr₃ hsp₃ hget₃ ⊢
  obtain ⟨hsscratch, hcsr, hget, ht6, hsp⟩ := exit_tail (m := m₃)
  generalize run m₃ [.addi sp sp (34 * 8), .csrw .sscratch sp, .addi sp sp (-34 * 8), .ld t6 (31 * 8) sp, .ld sp (2 * 8) sp] = m₄
    at hsscratch hcsr hget ht6 hsp ⊢
  have hf₂ : m₂.get sp = m.get sp := hsp₂.trans hsp₁
  have hf₃ : m₃.get sp = m.get sp := hsp₃.trans hf₂
  have hload₁ : ∀ a, m₁.load a = m.load a := load_of_mem hmem₁
  have hload₂ : ∀ a, m₂.load a = m.load a := load_of_mem (hmem₂.trans hmem₁)
  have hload₃ : ∀ a, m₃.load a = m.load a := load_of_mem (hmem₃.trans (hmem₂.trans hmem₁))
  refine ⟨?_, hf₃ ▸ hsscratch, ?_⟩
  · rw [context, trapFrame, hcsr _ (by decide), hcsr _ (by decide), hcsr₃, hsstatus, hsepc, hload₁, hload₁, hsp₁]
    congr 1
    funext r
    by_cases h₀ : r = 0
    · rw [if_pos h₀, Machine.get, if_pos h₀]
    · rw [if_neg h₀]
      by_cases hr : r = sp ∨ r = t6
      · rcases hr with rfl | rfl
        · rw [hsp, hload₃, hf₃]
          rfl
        · rw [ht6, hload₃, hf₃]
          rfl
      · obtain ⟨hr₁, hr₂⟩ := not_or.mp hr
        rw [hget r hr₁ hr₂, hget₃ r h₀ hr₁ hr₂, hload₂, hf₂]
  · rw [hcsr _ (by decide), hcsr₃, hstvec₂, hstvec₁]

/-- Behind the exit sscratch points to where the frame ends. -/
theorem frameOf_end (anchor : Word) : frameOf anchor + BitVec.ofInt 64 (34 * 8) = anchor := by
  rw [frameOf, add_assoc, show BitVec.ofInt 64 (-34 * 8) + BitVec.ofInt 64 (34 * 8) = 0#64 by decide, BitVec.add_zero]

/-- What a system call stores in the frame: its result, and the pc behind the ecall. -/
def storeResult (m : Machine) (f v pc : Word) : Machine := (m.store (word f 33) pc).store (word f a0.val) v

theorem storeResult_get (f v pc : Word) (r : Reg) : (storeResult m f v pc).get r = m.get r := rfl

theorem trapFrame_storeResult (f v pc : Word) : trapFrame (storeResult m f v pc) f =
    { trapFrame m f with x := Function.update (trapFrame m f).x a0 v, sepc := pc } := by
  have hapart : ∀ j k, j < 34 → k < 34 → j ≠ k → Apart (word f j) (word f k) := fun j k hj hk =>
    apart_word (by omega) (by omega)
  have ha0 : a0.val = 10 := rfl
  rw [storeResult, trapFrame, trapFrame, load_store_of_apart (hapart 32 a0.val (by decide) (by decide) (by decide)),
    load_store_of_apart (hapart 32 33 (by decide) (by decide) (by decide)),
    load_store_of_apart (hapart 33 a0.val (by decide) (by decide) (by decide)), load_store]
  congr 1
  funext r
  have hr := r.isLt
  by_cases hra : r = a0
  · rw [hra, Function.update_self, if_neg (by decide), load_store]
  · have hne : r.val ≠ a0.val := fun he => hra (Fin.ext he)
    rw [Function.update_of_ne hra, load_store_of_apart (hapart _ _ (by omega) (by decide) hne),
      load_store_of_apart (hapart r.val 33 (by omega) (by decide) (by omega))]

theorem contextSlots_spec : (contextSlots.map Prod.snd).Nodup ∧ (contextSlots.reverse.map Prod.fst).Nodup ∧
    ∀ s ∈ contextSlots, s.2 < 14 ∧ s.1 ≠ tp ∧ s.1 ≠ 0 := by decide

end Code

/-- A trap whose handler has not returned: the user's context at the trap, the frame when the
handler was entered, and the sp of the handler. -/
structure Trap where
  user : Context
  frame : Context
  sp : Word

/-- The processor, the thread that runs on it, whether it is in user mode, and the traps that
the threads are in. -/
structure Hart (ι : Type) where
  m : Machine
  cur : ι
  user : Bool
  traps : ι → Option Trap

section Traps

variable {ι : Type} (umodeEntry smodeEntry back : Word) (anchor : ι → Word) {h h' h₀ : Hart ι}

/-- The next trap enters at _trap_entry_from_umode, with the anchor of the thread. -/
def Ready (h : Hart ι) : Prop := h.user = true → h.m.csr .sscratch = anchor h.cur ∧ h.m.csr .stvec = umodeEntry

structure Inv (h : Hart ι) : Prop where
  ready : Ready umodeEntry anchor h
  traps : ∀ i t, h.traps i = some t → t.sp = frameOf (anchor i) ∧ t.frame = t.user

variable {umodeEntry smodeEntry back anchor}

theorem exit_ready (hi : Inv umodeEntry anchor h) {t : Trap} (ht : h.traps h.cur = some t) (hsp : h.m.get sp = t.sp) :
    (run h.m (trapExitToUmode umodeEntry)).csr .sscratch = anchor h.cur ∧
      (run h.m (trapExitToUmode umodeEntry)).csr .stvec = umodeEntry := by
  obtain ⟨-, hsscratch, hstvec⟩ := exit_spec (m := h.m) umodeEntry
  rw [hsp, (hi.traps _ t ht).1, frameOf_end] at hsscratch
  exact ⟨hsscratch, hstvec⟩

variable [DecidableEq ι]

/-- What the hardware sets at a trap, besides the pc. -/
def atTrap (m : Machine) (sepc sstatus scause : Word) : Machine :=
  ((m.setCsr .sepc sepc).setCsr .sstatus sstatus).setCsr .scause scause

/-- A trap, up to the call of its handler. -/
def trap (smodeEntry back : Word) (h : Hart ι) (sepc sstatus scause : Word) : Hart ι :=
  let m := atTrap h.m sepc sstatus scause
  let m' := run m (trapEntryFromUmode smodeEntry back)
  ⟨m', h.cur, false, Function.update h.traps h.cur (some ⟨context m, trapFrame m' (m'.get sp), m'.get sp⟩)⟩

theorem trap_traps (smodeEntry back : Word) (h : Hart ι) (sepc sstatus scause : Word) :
    let m' := run (atTrap h.m sepc sstatus scause) (trapEntryFromUmode smodeEntry back)
    (trap smodeEntry back h sepc sstatus scause).traps h.cur =
      some ⟨context (atTrap h.m sepc sstatus scause), trapFrame m' (m'.get sp), m'.get sp⟩ := Function.update_self ..

/-- The end of the trap of the running thread. -/
def toUser (h : Hart ι) (m : Machine) : Hart ι := ⟨m, h.cur, true, Function.update h.traps h.cur none⟩

variable (umodeEntry smodeEntry back anchor) in
/-- A user program has any effect on its registers and the memory, the kernel on all of the
machine. A thread gets to user mode from a trap, or for the first time. -/
inductive Step (h : Hart ι) : Hart ι → Prop
  | user (m : Machine) (hu : h.user = true) (hcsr : m.csr = h.m.csr) : Step h { h with m := m }
  | trap (sepc sstatus scause : Word) (hu : h.user = true) (hstvec : h.m.csr .stvec = umodeEntry) :
      Step h (trap smodeEntry back h sepc sstatus scause)
  | kernel (m : Machine) (hu : h.user = false) : Step h { h with m := m }
  | swtch (resuming : ι) (hu : h.user = false) : Step h { h with m := run h.m threadSwtch, cur := resuming }
  | sret {t : Trap} (hu : h.user = false) (ht : h.traps h.cur = some t) (hsp : h.m.get sp = t.sp) :
      Step h (toUser h (run h.m (trapExitToUmode umodeEntry)))
  | start (m : Machine) (hu : h.user = false) (hsscratch : m.csr .sscratch = anchor h.cur) (hstvec : m.csr .stvec = umodeEntry) :
      Step h (toUser h m)

theorem Inv.forget (hi : Inv umodeEntry anchor h) (i : ι) (j : ι) (t : Trap)
    (ht : Function.update h.traps i none j = some t) : t.sp = frameOf (anchor j) ∧ t.frame = t.user := by
  by_cases hj : j = i
  · rw [hj, Function.update_self] at ht
    cases ht
  · rw [Function.update_of_ne hj] at ht
    exact hi.traps j t ht

theorem Inv.step (hi : Inv umodeEntry anchor h) (hs : Step umodeEntry smodeEntry back anchor h h') :
    Inv umodeEntry anchor h' := by
  cases hs with
  | user m hu hcsr =>
      refine ⟨fun hu => ?_, hi.traps⟩
      rw [hcsr]
      exact hi.ready hu
  | trap sepc sstatus scause hu hstvec =>
      refine ⟨fun hk => absurd hk Bool.false_ne_true, fun i t ht => ?_⟩
      by_cases hcur : i = h.cur
      · rw [hcur, trap_traps] at ht
        obtain rfl := Option.some.inj ht
        obtain ⟨hsp, hframe⟩ := entry_spec (m := atTrap h.m sepc sstatus scause) smodeEntry back
        have hanchor : (atTrap h.m sepc sstatus scause).csr .sscratch = anchor h.cur := (hi.ready hu).1
        rw [hanchor] at hsp hframe
        rw [hcur]
        exact ⟨hsp, hsp ▸ hframe⟩
      · exact hi.traps i t ((Function.update_of_ne hcur _ _).symm.trans ht)
  | kernel m hu => exact ⟨fun hk => absurd (hu.symm.trans hk) (by decide), hi.traps⟩
  | swtch resuming hu => exact ⟨fun hk => absurd (hu.symm.trans hk) (by decide), hi.traps⟩
  | sret hu ht hsp => exact ⟨fun _ => exit_ready hi ht hsp, hi.forget h.cur⟩
  | start m hu hsscratch hstvec => exact ⟨fun _ => ⟨hsscratch, hstvec⟩, hi.forget h.cur⟩

theorem Inv.run (hi : Inv umodeEntry anchor h₀)
    (hr : Relation.ReflTransGen (Step umodeEntry smodeEntry back anchor) h₀ h) : Inv umodeEntry anchor h := by
  induction hr with
  | refl => exact hi
  | tail _ hs ih => exact ih.step hs

/-- However many traps and context switches there were, a handler that returns with its sp and
its trap frame takes the user program back to where it was, ready for the next trap; what it
changes in the slots of a0 and sepc, and no more, is what the user program gets. -/
theorem user_state_survives (umodeEntry smodeEntry back : Word) (anchor : ι → Word) (h₀ h : Hart ι)
    (hstart : ∀ i, h₀.traps i = none) (hready : Ready umodeEntry anchor h₀)
    (hr : Relation.ReflTransGen (Step umodeEntry smodeEntry back anchor) h₀ h) :
    Ready umodeEntry anchor h ∧ ∀ t, h.traps h.cur = some t → h.m.get sp = t.sp →
      let m' := Lib.Rv64.run h.m (trapExitToUmode umodeEntry)
      m'.csr .sscratch = anchor h.cur ∧ m'.csr .stvec = umodeEntry ∧
      (trapFrame h.m t.sp = t.frame → context m' = t.user) ∧
      ∀ v pc, trapFrame h.m t.sp = { t.frame with x := Function.update t.frame.x a0 v, sepc := pc } →
        context m' = { t.user with x := Function.update t.user.x a0 v, sepc := pc } := by
  have hi₀ : Inv umodeEntry anchor h₀ := ⟨hready, fun i t ht => absurd ((hstart i).symm.trans ht) (Option.some_ne_none t).symm⟩
  have hi := hi₀.run hr
  refine ⟨hi.ready, fun t ht hsp => ?_⟩
  obtain ⟨hcontext, -, -⟩ := exit_spec (m := h.m) umodeEntry
  obtain ⟨hsscratch, hstvec⟩ := exit_ready hi ht hsp
  have hframe := (hi.traps _ t ht).2
  rw [hsp] at hcontext
  rw [← hframe]
  exact ⟨hsscratch, hstvec, fun hsame => hcontext.trans hsame, fun v pc hchange => hcontext.trans hchange⟩

end Traps

/-- A user program with a different value in every register. -/
def numberedRegisters (anchor : Word) : Machine where
  x := fun r => 0x1000 + BitVec.ofNat 64 r.val
  csr := fun c => if c = .sscratch then anchor else 0
  mem := fun _ => 0

/-- Thread false calls the kernel, which switches to thread true; that one gets to user mode, traps
as well and is switched away from, and the call of the first one returns 7. -/
theorem user_state_survives_call :
    let anchor : Bool → Word := fun i => if i then 0x80500ff0 else 0x80400ff0
    ∃ h : Hart Bool, Relation.ReflTransGen (Step 0 0x100 0x200 anchor)
        ⟨numberedRegisters 0x80400ff0, false, true, fun _ => none⟩ h ∧ h.cur = false ∧ (h.traps true).isSome = true ∧
      context (run h.m (trapExitToUmode 0)) =
        { context (atTrap (numberedRegisters 0x80400ff0) 0x1000 0x20 8) with
          x := Function.update (numberedRegisters 0x80400ff0).get a0 7, sepc := 0x1004 } := by
  intro anchor
  obtain ⟨h₀, hh₀⟩ : ∃ h : Hart Bool, h = ⟨numberedRegisters 0x80400ff0, false, true, fun _ => none⟩ := ⟨_, rfl⟩
  have hcur₀ : h₀.cur = false := by rw [hh₀]
  have hready : Ready 0 anchor h₀ := fun _ => hh₀ ▸ ⟨rfl, rfl⟩
  obtain ⟨h₁, hh₁⟩ : ∃ h, h = trap 0x100 0x200 h₀ 0x1000 0x20 8 := ⟨_, rfl⟩
  obtain ⟨m₁, hm₁⟩ : ∃ m, m = run (atTrap h₀.m 0x1000 0x20 8) (trapEntryFromUmode 0x100 0x200) := ⟨_, rfl⟩
  have htrap : h₁.traps h₀.cur = some ⟨context (atTrap h₀.m 0x1000 0x20 8), trapFrame m₁ (m₁.get sp), m₁.get sp⟩ := by
    rw [hh₁, hm₁]
    exact trap_traps 0x100 0x200 h₀ 0x1000 0x20 8
  obtain ⟨h₂, hh₂⟩ : ∃ h : Hart Bool, h = toUser { h₁ with m := run h₁.m threadSwtch, cur := true } (numberedRegisters 0x80500ff0) :=
    ⟨_, rfl⟩
  obtain ⟨h₃, hh₃⟩ : ∃ h, h = trap 0x100 0x200 h₂ 0x2000 0x20 13 := ⟨_, rfl⟩
  have hcur₂ : h₂.cur = true := by rw [hh₂]; rfl
  have hother : h₃.traps false = h₁.traps false := by
    have hlast : h₃.traps false = h₂.traps false := by
      rw [hh₃]
      exact Function.update_of_ne (by rw [hcur₂]; decide) _ _
    rw [hlast, hh₂]
    exact Function.update_of_ne (a := false) Bool.false_ne_true none h₁.traps
  have hsecond : (h₃.traps true).isSome = true := by
    have ht := trap_traps 0x100 0x200 h₂ 0x2000 0x20 13
    rw [hcur₂] at ht
    rw [hh₃, ht, Option.isSome_some]
  have hto : Relation.ReflTransGen (Step 0 0x100 0x200 anchor) h₀ h₃ := by
    have hswtch : Relation.ReflTransGen (Step 0 0x100 0x200 anchor) h₀
        { h₁ with m := run h₁.m threadSwtch, cur := true } :=
      .tail (.single (hh₁ ▸ .trap 0x1000 0x20 8 (by rw [hh₀]) (by rw [hh₀]; rfl))) (.swtch true (by rw [hh₁]; rfl))
    have hstart : Step 0 0x100 0x200 anchor { h₁ with m := run h₁.m threadSwtch, cur := true } h₂ := by
      rw [hh₂]
      exact .start (numberedRegisters 0x80500ff0) (by rw [hh₁]; rfl) rfl rfl
    exact .tail (.tail hswtch hstart) (hh₃ ▸ .trap 0x2000 0x20 13 (by rw [hh₂]; rfl) (by rw [hh₂]; rfl))
  have hback : Relation.ReflTransGen (Step 0 0x100 0x200 anchor) h₀
      { h₃ with m := storeResult m₁ (m₁.get sp) 7 0x1004, cur := false } :=
    .tail (.tail hto (.swtch false (by rw [hh₃]; rfl))) (.kernel _ (by rw [hh₃]; rfl))
  obtain ⟨-, hall⟩ := user_state_survives 0 0x100 0x200 anchor h₀ _ (fun _ => hh₀ ▸ rfl) hready hback
  have ht : h₃.traps false = some ⟨context (atTrap h₀.m 0x1000 0x20 8), trapFrame m₁ (m₁.get sp), m₁.get sp⟩ := by
    rw [hother, ← htrap, hcur₀]
  have hresult := (hall _ ht (storeResult_get _ _ _ _)).2.2.2 7 0x1004 (trapFrame_storeResult _ _ _)
  rw [hh₀] at hback hresult
  exact ⟨_, hback, rfl, hsecond, hresult⟩

end RiscvKernel.TrapReturn
