import RiscvKernel.Plic
import RiscvKernel.KernelTrap

namespace RiscvKernel.Interrupts

open Plic

/-! intr.c, with the controller and the devices around it. -/

def nirq : Nat := 32

/-- An entry of isrtab whose isr is not NULL. -/
structure Isr (ι : Type) where
  isr : ι
  isrAux : Nat
  prio : BitVec 32

structure Intr (ι : Type) where
  plic : Controller
  isrtab : Nat → Option (Isr ι)
  sie : BitVec 64

inductive Called
  | externIntrHandler
  | timerIntrHandler
  deriving DecidableEq

/-- The codes of the supervisor's external and timer interrupt, which are also their bits in sie. -/
def seiCode : Nat := 9
def stiCode : Nat := 5

/-- intr_handler: what it calls, and whether thread_yield follows. none is its panic. -/
def intrHandler (code sstatus : BitVec 64) : Option (Called × Bool) :=
  let yields := !sstatus.getLsbD 8
  if code = BitVec.ofNat 64 seiCode then some (.externIntrHandler, yields)
  else if code = BitVec.ofNat 64 stiCode then some (.timerIntrHandler, yields)
  else none

section Functions

variable {ι : Type}

def intrInit (s : Intr ι) : Intr ι := { s with plic := plicInit s.plic, sie := BitVec.twoPow 64 seiCode }

/-- none is the panic. -/
def intrRegisterIsr (irqno : Int) (prio : BitVec 32) (isr : ι) (isrAux : Nat) (s : Intr ι) : Option (Intr ι) :=
  if irqno < 0 ∨ (nirq : Int) ≤ irqno then none
  else
    let prio := if prio.toInt ≤ 0 then 1 else prio
    some { s with isrtab := Function.update s.isrtab irqno.toNat (some ⟨isr, isrAux, prio⟩) }

/-- none is the panic, or an access outside isrtab. -/
def intrEnableIrq (irqno : Int) (s : Intr ι) : Option (Intr ι) :=
  if irqno < 0 ∨ (nirq : Int) ≤ irqno then none
  else (s.isrtab irqno.toNat).map fun e => { s with plic := plicEnableIrq irqno.toNat e.prio s.plic }

def intrDisableIrq (irqno : Int) (s : Intr ι) : Intr ι := { s with plic := plicDisableIrq irqno s.plic }

/-- extern_intr_handler up to its call of the isr, with the irqno and the entry for the call; there is
none if the claim gives 0. The outer none is a panic. -/
def externIntrHandler (s : Intr ι) : Option (Option (Nat × Isr ι) × Intr ι) :=
  let (irqno, plic) := plicClaimIrq s.plic
  let s := { s with plic := plic }
  if irqno.toInt < 0 ∨ (nirq : Int) ≤ irqno.toInt then none
  else if irqno = 0 then some (none, s)
  else (s.isrtab irqno.toNat).map fun e => (some (irqno.toNat, e), s)

/-- The end of extern_intr_handler, behind the isr. -/
def externIntrClose (irqno : Nat) (s : Intr ι) : Intr ι :=
  { s with plic := plicCloseIrq (BitVec.ofNat 32 irqno) s.plic }

end Functions

/-- The kernel, the interrupt lines of the devices, and the irqno of the isr that runs. -/
structure System (ι : Type) where
  intr : Intr ι
  line : Nat → Bool
  serving : Option Nat

section Run

variable {ι : Type}

/-- Drivers, isrs among them, and devices act at any time; interrupts are off in a handler, so that
there is one isr at most. An irqno of 0x400 or more would make intr_disable_irq store to other
registers than the priorities. -/
inductive Step (s : System ι) : System ι → Prop
  | register (irqno : Int) (prio : BitVec 32) (isr : ι) (aux : Nat) {k : Intr ι}
      (hk : intrRegisterIsr irqno prio isr aux s.intr = some k) : Step s { s with intr := k }
  | enable (irqno : Int) {k : Intr ι} (hk : intrEnableIrq irqno s.intr = some k) : Step s { s with intr := k }
  | disable (irqno : Int) (hsrc : irqno < (plicSrccnt : Int)) : Step s { s with intr := intrDisableIrq irqno s.intr }
  /-- timer_init. -/
  | stie : Step s { s with intr := { s.intr with sie := s.intr.sie ||| BitVec.twoPow 64 stiCode } }
  | line (src : Nat) (level : Bool) : Step s { s with line := Function.update s.line src level }
  /-- The controller takes in an interrupt, unless one from the same source is still served. -/
  | gateway (src : Nat) (hline : s.line src = true) (hserved : s.intr.plic.served src = false) :
      Step s { s with
        intr := { s.intr with plic := { s.intr.plic with pending := Function.update s.intr.plic.pending src true } } }
  | enter {called : Option (Nat × Isr ι)} {k : Intr ι} (hidle : s.serving = none)
      (hk : externIntrHandler s.intr = some (called, k)) : Step s ⟨k, s.line, called.map Prod.fst⟩
  | leave {irqno : Nat} (hserving : s.serving = some irqno) : Step s ⟨externIntrClose irqno s.intr, s.line, none⟩

/-- Every source is enabled, one that can interrupt has its isr, and the one that is served has one. -/
structure Inv (s : System ι) : Prop where
  enabled : ∀ src < plicSrccnt, enabled s.intr.plic sModeContext src = true
  isr : ∀ src < plicSrccnt, s.intr.plic.priority src ≠ 0 → src < nirq ∧ (s.intr.isrtab src).isSome = true
  prio : ∀ src e, s.intr.isrtab src = some e → e.prio ≠ 0
  served : ∀ src, s.intr.plic.served src = true ↔ s.serving = some src
  serving : ∀ src, s.serving = some src → 0 < src ∧ src < nirq
  threshold : s.intr.plic.threshold sModeContext = 0
  sie : ∀ code, s.intr.sie.getLsbD code = true → code = seiCode ∨ code = stiCode

variable {s s' s₀ : System ι}

theorem register_cases {irqno : Int} {prio : BitVec 32} {isr : ι} {aux : Nat} {k k' : Intr ι}
    (h : intrRegisterIsr irqno prio isr aux k = some k') : ∃ src < nirq, ∃ e : Isr ι, e.prio ≠ 0 ∧
      k' = { k with isrtab := Function.update k.isrtab src (some e) } := by
  rw [intrRegisterIsr] at h
  split at h
  · cases h
  · rename_i hbounds
    obtain rfl := Option.some.inj h
    refine ⟨irqno.toNat, by rw [nirq] at hbounds ⊢; omega, _, ?_, rfl⟩
    dsimp only
    split
    · decide
    · rename_i hprio
      rintro rfl
      exact hprio (by decide)

theorem enable_cases {irqno : Int} {k k' : Intr ι} (h : intrEnableIrq irqno k = some k') :
    ∃ src < nirq, ∃ e, k.isrtab src = some e ∧
      k' = { k with plic := { k.plic with priority := Function.update k.plic.priority src e.prio } } := by
  rw [intrEnableIrq] at h
  split at h
  · cases h
  · rename_i hbounds
    obtain ⟨e, he, rfl⟩ := Option.map_eq_some_iff.mp h
    have hlt : irqno.toNat < nirq := by
      rw [nirq] at hbounds ⊢
      omega
    exact ⟨irqno.toNat, hlt, e, he, by rw [plicEnableIrq, plicSetSourcePriority_eq (Nat.lt_trans hlt (by decide))]⟩

theorem disable_cases {irqno : Int} (hsrc : irqno < (plicSrccnt : Int)) (k : Intr ι) : intrDisableIrq irqno k = k ∨
    ∃ src, intrDisableIrq irqno k = { k with
      plic := { k.plic with priority := Function.update k.plic.priority src 0 } } := by
  rw [intrDisableIrq, plicDisableIrq]
  split
  · right
    exact ⟨irqno.toNat, by rw [plicSetSourcePriority_eq (by omega)]⟩
  · exact .inl rfl

/-- What extern_intr_handler does when a source interrupts. -/
theorem Inv.extern_some (hi : Inv s) {src : Nat} (h : highest s.intr.plic sModeContext = some src) :
    ∃ e, s.intr.isrtab src = some e ∧ 0 < src ∧ src < nirq ∧ externIntrHandler s.intr =
      some (some (src, e), { s.intr with plic := { s.intr.plic with
        pending := Function.update s.intr.plic.pending src false,
        served := Function.update s.intr.plic.served src true } }) := by
  obtain ⟨hmem, hcandidate, -⟩ := highest_some h
  rw [List.mem_range'_1] at hmem
  rw [candidate, Bool.and_eq_true, bne_iff_ne] at hcandidate
  have hrange : src < plicSrccnt := by
    rw [plicSrccnt] at hmem ⊢
    omega
  obtain ⟨hlt, hisr⟩ := hi.isr src hrange hcandidate.2
  obtain ⟨e, he⟩ := Option.isSome_iff_exists.mp hisr
  have hnat : (BitVec.ofNat 32 src).toNat = src := by
    rw [BitVec.toNat_ofNat]
    rw [nirq] at hlt
    omega
  have hint : (BitVec.ofNat 32 src).toInt = src := by
    rw [BitVec.toInt_eq_toNat_of_lt (by rw [hnat]; rw [nirq] at hlt; omega), hnat]
  have hne : BitVec.ofNat 32 src ≠ 0 := fun hz => by
    rw [hz] at hnat
    have hzero : (0 : BitVec 32).toNat = 0 := rfl
    omega
  refine ⟨e, he, by omega, hlt, ?_⟩
  rw [externIntrHandler, plicClaimIrq_some h]
  simp only [hint, hnat]
  rw [if_neg (by omega), if_neg hne, he]
  rfl

theorem extern_none (h : highest s.intr.plic sModeContext = none) : externIntrHandler s.intr = some (none, s.intr) := by
  rw [externIntrHandler, plicClaimIrq_none h]
  rfl

theorem Inv.step (hi : Inv s) (hs : Step s s') : Inv s' := by
  cases hs with
  | register irqno prio isr aux hk =>
      obtain ⟨src, hsrc, e, he, rfl⟩ := register_cases hk
      refine ⟨hi.enabled, fun n hn hp => ⟨(hi.isr n hn hp).1, ?_⟩, fun n f hf => ?_, hi.served,
        hi.serving, hi.threshold, hi.sie⟩
      · by_cases hns : n = src
        · simp [hns]
        · exact (congrArg Option.isSome (Function.update_of_ne hns _ _)).trans (hi.isr n hn hp).2
      · by_cases hns : n = src
        · rw [hns] at hf
          have hfe : e = f := Option.some.inj ((Function.update_self src (some e) s.intr.isrtab).symm.trans hf)
          exact hfe ▸ he
        · exact hi.prio n f ((Function.update_of_ne hns _ _).symm.trans hf)
  | enable irqno hk =>
      obtain ⟨src, hsrc, e, he, rfl⟩ := enable_cases hk
      refine ⟨hi.enabled, fun n hn hp => ?_, hi.prio, hi.served, hi.serving, hi.threshold, hi.sie⟩
      by_cases hns : n = src
      · rw [hns]
        exact ⟨hsrc, by rw [he]; rfl⟩
      · exact hi.isr n hn fun hz => hp ((Function.update_of_ne hns _ _).trans hz)
  | disable irqno hsrc =>
      rcases disable_cases hsrc s.intr with heq | ⟨src, heq⟩
      · rw [heq]
        exact hi
      · rw [heq]
        refine ⟨hi.enabled, fun n hn hp => ?_, hi.prio, hi.served, hi.serving, hi.threshold, hi.sie⟩
        by_cases hns : n = src
        · exact absurd (by rw [hns]; exact Function.update_self ..) hp
        · exact hi.isr n hn fun hz => hp ((Function.update_of_ne hns _ _).trans hz)
  | stie =>
      refine ⟨hi.enabled, hi.isr, hi.prio, hi.served, hi.serving, hi.threshold, fun code hcode => ?_⟩
      rw [BitVec.getLsbD_or, Bool.or_eq_true, BitVec.getLsbD_twoPow, Bool.and_eq_true, decide_eq_true_eq] at hcode
      rcases hcode with hcode | ⟨-, hcode⟩
      · exact hi.sie code hcode
      · exact .inr (of_decide_eq_true hcode).symm
  | line src level => exact ⟨hi.enabled, hi.isr, hi.prio, hi.served, hi.serving, hi.threshold, hi.sie⟩
  | gateway src hline hserved => exact ⟨hi.enabled, hi.isr, hi.prio, hi.served, hi.serving, hi.threshold, hi.sie⟩
  | enter hidle hk =>
      cases hhigh : highest s.intr.plic sModeContext with
      | none =>
          rw [extern_none hhigh] at hk
          obtain ⟨rfl, rfl⟩ := Prod.mk.inj (Option.some.inj hk)
          have hserving : ∀ src, s.serving = some src ↔ (none : Option Nat) = some src := fun src => by rw [hidle]
          exact ⟨hi.enabled, hi.isr, hi.prio, fun src => (hi.served src).trans (hserving src),
            fun src h => hi.serving src ((hserving src).mpr h), hi.threshold, hi.sie⟩
      | some src =>
          obtain ⟨e, he, hpos, hlt, hcall⟩ := hi.extern_some hhigh
          rw [hcall] at hk
          obtain ⟨rfl, rfl⟩ := Prod.mk.inj (Option.some.inj hk)
          refine ⟨hi.enabled, hi.isr, hi.prio, fun n => ?_, fun n hn => ?_, hi.threshold, hi.sie⟩
          · by_cases hns : n = src
            · simp [hns]
            · have hold := hi.served n
              rw [hidle] at hold
              simp [Function.update_of_ne hns, Ne.symm hns, hold]
          · obtain rfl := Option.some.inj hn
            exact ⟨hpos, hlt⟩
  | leave hserving =>
      rename_i irqno
      obtain ⟨hpos, hlt⟩ := hi.serving irqno hserving
      have hnat : (BitVec.ofNat 32 irqno).toNat = irqno := by
        rw [BitVec.toNat_ofNat]
        rw [nirq] at hlt
        omega
      have hena := hi.enabled irqno (Nat.lt_trans hlt (by decide))
      have hclose : externIntrClose irqno s.intr = { s.intr with plic := { s.intr.plic with
          served := Function.update s.intr.plic.served irqno false } } := by
        rw [externIntrClose, plicCloseIrq_eq _ (by rw [hnat]; exact hena), hnat]
      rw [hclose]
      refine ⟨hi.enabled, hi.isr, hi.prio, fun n => ?_, fun n hn => (by cases hn), hi.threshold, hi.sie⟩
      by_cases hns : n = irqno
      · simp [hns]
      · have hold := hi.served n
        rw [hserving] at hold
        simp [Function.update_of_ne hns, Ne.symm hns, hold]

theorem Inv.run (hi : Inv s₀) (hr : Relation.ReflTransGen Step s₀ s) : Inv s := by
  induction hr with
  | refl => exact hi
  | tail _ hs ih => exact ih.step hs

/-- A claim finds a source whenever the controller interrupts. -/
theorem Inv.raised_iff (hi : Inv s) : raised s.intr.plic sModeContext = true ↔
    ∃ src, 0 < src ∧ src < plicSrccnt ∧ s.intr.plic.pending src = true ∧ s.intr.plic.priority src ≠ 0 := by
  rw [raised, List.any_eq_true]
  have hmem : ∀ src, src ∈ List.range' 1 (plicSrccnt - 1) ↔ 0 < src ∧ src < plicSrccnt := fun src => by
    rw [List.mem_range'_1, plicSrccnt]
    omega
  constructor
  · rintro ⟨src, hsrc, h⟩
    rw [Bool.and_eq_true, candidate, Bool.and_eq_true, Bool.and_eq_true, bne_iff_ne] at h
    obtain ⟨hpos, hlt⟩ := (hmem src).mp hsrc
    exact ⟨src, hpos, hlt, h.1.1.1, h.1.2⟩
  · rintro ⟨src, hpos, hlt, hpending, hprio⟩
    refine ⟨src, (hmem src).mpr ⟨hpos, hlt⟩, ?_⟩
    rw [Bool.and_eq_true, candidate, hpending, hi.enabled src hlt, hi.threshold, decide_eq_true_iff, Bool.and_self,
      Bool.true_and,
      bne_iff_ne]
    generalize s.intr.plic.priority src = v at hprio ⊢
    exact ⟨hprio, by bv_omega⟩

theorem highest_of_raised (h : raised s.intr.plic sModeContext = true) :
    ∃ src, highest s.intr.plic sModeContext = some src := by
  obtain ⟨src, hsrc, hc⟩ := List.any_eq_true.mp h
  rw [Bool.and_eq_true] at hc
  cases hhigh : highest s.intr.plic sModeContext with
  | none => exact absurd hc.1 (Bool.eq_false_iff.mp (highest_none hhigh src hsrc))
  | some n => exact ⟨n, rfl⟩

theorem highest_of_not_raised (hi : Inv s) (h : raised s.intr.plic sModeContext = false) :
    highest s.intr.plic sModeContext = none := by
  cases hhigh : highest s.intr.plic sModeContext with
  | none => rfl
  | some src =>
      obtain ⟨hmem, hc, -⟩ := highest_some hhigh
      rw [List.mem_range'_1] at hmem
      rw [candidate, Bool.and_eq_true, Bool.and_eq_true, bne_iff_ne] at hc
      have hrange : src < plicSrccnt := by
        rw [plicSrccnt] at hmem ⊢
        omega
      exact absurd (hi.raised_iff.mpr ⟨src, by omega, hrange, hc.1.1, hc.2⟩) (Bool.eq_false_iff.mp h)

theorem Inv.init {k : Intr ι} {line : Nat → Bool} (hisr : ∀ src, k.isrtab src = none)
    (hserved : ∀ src, k.plic.served src = false) (hthreshold : k.plic.threshold sModeContext = 0) :
    Inv ⟨intrInit k, line, none⟩ := by
  obtain ⟨hserved', hthreshold', hsrc⟩ := plicInit_spec k.plic
  rw [intrInit]
  generalize plicInit k.plic = p at hserved' hthreshold' hsrc ⊢
  refine ⟨fun src h => (hsrc src h).2, fun src h hp => absurd (hsrc src h).1 hp, fun src e he => ?_, fun src => ?_,
    fun src h => (by cases h), (congrFun hthreshold' _).trans hthreshold, fun code hcode => ?_⟩
  · exact absurd ((hisr src).symm.trans he) (Option.some_ne_none e).symm
  · simp [hserved', hserved src]
  · rw [BitVec.getLsbD_twoPow, Bool.and_eq_true] at hcode
    exact .inl (of_decide_eq_true hcode.2).symm

/-- intr_handler is entered, has a case for the interrupt, and yields if SPP is clear; the hardware
clears SPP at a trap from user mode and sets it at one from supervisor mode. -/
def Handled (m entered : Lib.Rv64.Machine) : Prop :=
  ∃ called, intrHandler (entered.get TrapEntry.a0) (TrapReturn.trapFrame entered (entered.get TrapEntry.a1)).sstatus =
    some (called, !(m.csr .sstatus).getLsbD 8)

/-- What the entries of traps leave for intr_handler is handled. -/
theorem Inv.handled (hi : Inv s) {m entered : Lib.Rv64.Machine} {code : Nat} (hcode : s.intr.sie.getLsbD code = true)
    (hscause : m.csr .scause = BitVec.twoPow 64 63 + BitVec.ofNat 64 code) {f : Lib.Rv64.Word}
    (ha0 : entered.get TrapEntry.a0 = m.csr .scause <<< 1 >>> 1) (ha1 : entered.get TrapEntry.a1 = f)
    (hframe : TrapReturn.trapFrame entered f = TrapReturn.context m) : Handled m entered := by
  rw [Handled, ha0, ha1, hframe, hscause, intrHandler]
  rcases hi.sie code hcode with rfl | rfl
  · exact ⟨.externIntrHandler, if_pos (by decide)⟩
  · exact ⟨.timerIntrHandler, (if_neg (by decide)).trans (if_pos (by decide))⟩

theorem Inv.scause_msb (hi : Inv s) {m : Lib.Rv64.Machine} {code : Nat} (hcode : s.intr.sie.getLsbD code = true)
    (hscause : m.csr .scause = BitVec.twoPow 64 63 + BitVec.ofNat 64 code) : (m.csr .scause).msb = true := by
  rw [hscause]
  rcases hi.sie code hcode with rfl | rfl <;> decide

/-- After intr_init and any steps of the drivers, their isrs and the devices: each interrupt that sie
lets through gets to intr_handler, from user mode and from supervisor mode, and is handled;
extern_intr_handler does not panic, calls the registered isr of a pending source of the highest
priority whenever the controller interrupts, which it does for every pending source whose irq is
enabled, and each source it has claimed is completed when it returns. -/
theorem interrupts_served (k : Intr ι) (line : Nat → Bool) (s : System ι) (hisr : ∀ src, k.isrtab src = none)
    (hserved : ∀ src, k.plic.served src = false) (hthreshold : k.plic.threshold sModeContext = 0)
    (hr : Relation.ReflTransGen Step ⟨intrInit k, line, none⟩ s) :
    (∀ smodeEntry back m code, s.intr.sie.getLsbD code = true →
      m.csr .scause = BitVec.twoPow 64 63 + BitVec.ofNat 64 code →
      ((TrapEntry.enterHandler smodeEntry back m).1 = .intrHandler ∧ Handled m (TrapEntry.enterHandler smodeEntry back m).2) ∧
      (KernelTrap.enterHandler back m).1 = .intrHandler ∧ Handled m (KernelTrap.enterHandler back m).2) ∧
    (raised s.intr.plic sModeContext = true ↔
      ∃ src, 0 < src ∧ src < plicSrccnt ∧ s.intr.plic.pending src = true ∧ s.intr.plic.priority src ≠ 0) ∧
    (raised s.intr.plic sModeContext = true → ∃ src e k', externIntrHandler s.intr = some (some (src, e), k') ∧
      s.intr.isrtab src = some e ∧ s.intr.plic.pending src = true ∧ k'.plic.pending src = false ∧
      ∀ n, 0 < n → n < plicSrccnt → s.intr.plic.pending n = true →
        s.intr.plic.priority n ≤ s.intr.plic.priority src) ∧
    (raised s.intr.plic sModeContext = false → externIntrHandler s.intr = some (none, s.intr)) ∧
    (s.serving = none → ∀ src, s.intr.plic.served src = false) ∧
    ∀ irqno, s.serving = some irqno → ∀ src, (externIntrClose irqno s.intr).plic.served src = false := by
  have hi : Inv s := (Inv.init hisr hserved hthreshold).run hr
  refine ⟨fun smodeEntry back m code hcode hscause => ?_, hi.raised_iff, fun h => ?_,
    fun h => extern_none (highest_of_not_raised hi h),
    fun h src => ?_, fun irqno h src => ?_⟩
  · have hmsb := hi.scause_msb hcode hscause
    obtain ⟨hcalled, ha0, ha1, hframe⟩ := TrapReturn.enterHandler_interrupt smodeEntry back hmsb rfl
    obtain ⟨hcalled', ha0', ha1', hframe'⟩ := KernelTrap.enterHandler_interrupt back hmsb rfl
    exact ⟨⟨hcalled, hi.handled hcode hscause ha0 ha1 hframe⟩, hcalled', hi.handled hcode hscause ha0' ha1' hframe'⟩
  · obtain ⟨src, hhigh⟩ := highest_of_raised h
    obtain ⟨e, he, -, -, hcall⟩ := hi.extern_some hhigh
    obtain ⟨-, hc, hmax⟩ := highest_some hhigh
    rw [candidate, Bool.and_eq_true, Bool.and_eq_true] at hc
    refine ⟨src, e, _, hcall, he, hc.1.1, Function.update_self .., fun n hpos hlt hpending => ?_⟩
    by_cases hprio : s.intr.plic.priority n = 0
    · rw [hprio]
      bv_omega
    · refine hmax n ?_ ?_
      · rw [List.mem_range'_1, plicSrccnt]
        rw [plicSrccnt] at hlt
        omega
      · rw [candidate, hpending, hi.enabled n hlt, Bool.and_self, Bool.true_and, bne_iff_ne]
        exact hprio
  · have hold := hi.served src
    rw [h] at hold
    exact Bool.eq_false_iff.mpr fun ht => by cases hold.mp ht
  · have hold := (hi.step (.leave h)).served src
    exact Bool.eq_false_iff.mpr fun ht => by cases hold.mp ht

end Run

/-- A uart registers its isr and interrupts. -/
theorem interrupts_served_uart : ∃ s : System Unit,
    s.intr.isrtab 10 = some ⟨(), 0, 3⟩ ∧ s.intr.plic.pending 10 = true ∧
    raised s.intr.plic sModeContext = true := by
  obtain ⟨k₀, hk₀⟩ : ∃ k : Intr Unit,
    k = ⟨⟨fun _ => 0, fun _ => false, fun _ _ => 0, fun _ => 0, fun _ => false⟩, fun _ => none, 0⟩ := ⟨_, rfl⟩
  have hserved : ∀ src, (intrInit k₀).plic.served src = false := fun src => by
    rw [intrInit, (plicInit_spec k₀.plic).1, hk₀]
  have hinit := interrupts_served k₀ (fun _ => false)
  obtain ⟨k, hk⟩ : ∃ k, k = intrInit k₀ := ⟨_, rfl⟩
  rw [← hk] at hinit hserved
  have hregister : intrRegisterIsr 10 3 () 0 k =
      some { k with isrtab := Function.update k.isrtab 10 (some ⟨(), 0, 3⟩) } := rfl
  have henable : intrEnableIrq 10 { k with isrtab := Function.update k.isrtab 10 (some ⟨(), 0, 3⟩) } =
      some { k with
        isrtab := Function.update k.isrtab 10 (some ⟨(), 0, 3⟩)
        plic := plicSetSourcePriority 10 3 k.plic } := by
    rfl
  rw [plicSetSourcePriority_eq (by decide)] at henable
  have hline : Relation.ReflTransGen Step ⟨k, fun _ => false, none⟩
      ⟨_, Function.update (fun _ => false) 10 true, none⟩ :=
    .tail (.tail (.single (.register 10 3 () 0 hregister)) (.enable 10 henable)) (.line 10 true)
  have hr := hline.tail (.gateway 10 (by simp) (hserved 10))
  obtain ⟨-, hraised, -⟩ := hinit _ (fun src => by rw [hk₀]) (fun src => by rw [hk₀]) (by rw [hk₀]) hr
  exact ⟨_, by simp, by simp, hraised.mpr ⟨10, by decide, by decide, by simp, by simp⟩⟩

end RiscvKernel.Interrupts
