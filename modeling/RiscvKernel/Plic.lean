import Mathlib

namespace RiscvKernel.Plic

/-! The interrupt controller: its registers, and what plic.c does with them. Addresses are relative
to PLIC_IOBASE. -/

def plicSrccnt : Nat := 0x400
def sModeContext : Nat := 1
def plicEnableSource : Nat := 0x2000
def plicContextOffset : Nat := 0x80
def plicPriThreshContextOffset : Nat := 0x1000
def plicClaimOffset : Nat := 0x200004

/-- What the controller holds. served are the sources that a context has claimed and not completed;
such a source cannot become pending. -/
structure Controller where
  priority : Nat → BitVec 32
  pending : Nat → Bool
  enable : Nat → Nat → BitVec 32
  threshold : Nat → BitVec 32
  served : Nat → Bool

inductive Register
  | priority (src : Nat)
  | pending (word : Nat)
  | enable (ctx word : Nat)
  | threshold (ctx : Nat)
  | claim (ctx : Nat)
  | reserved

/-- The memory map. -/
def register (off : Nat) : Register :=
  if off < 0x1000 then .priority (off / 4)
  else if off < 0x1080 then .pending ((off - 0x1000) / 4)
  else if off < 0x2000 then .reserved
  else if off < 0x1F2000 then .enable ((off - 0x2000) / 0x80) ((off - 0x2000) % 0x80 / 4)
  else if off < 0x200000 then .reserved
  else if (off - 0x200000) % 0x1000 = 0 then .threshold ((off - 0x200000) / 0x1000)
  else if (off - 0x200000) % 0x1000 = 4 then .claim ((off - 0x200000) / 0x1000)
  else .reserved

def enabled (p : Controller) (ctx src : Nat) : Bool := (p.enable ctx (src / 32)).getLsbD (src % 32)

/-- A claim is not held back by the threshold, but priority 0 never interrupts. -/
def candidate (p : Controller) (ctx src : Nat) : Bool := p.pending src && enabled p ctx src && p.priority src != 0

/-- The pending source of the highest priority, the first of these if there are several. -/
def highest (p : Controller) (ctx : Nat) : Option Nat :=
  ((List.range' 1 (plicSrccnt - 1)).filter (candidate p ctx)).argmax fun src => (p.priority src).toNat

/-- Whether the controller interrupts the hart. -/
def raised (p : Controller) (ctx : Nat) : Bool :=
  (List.range' 1 (plicSrccnt - 1)).any fun src => candidate p ctx src && decide (p.threshold ctx < p.priority src)

/-- A load from a register; one from claim takes the source. -/
def Register.read (p : Controller) : Register → BitVec 32 × Controller
  | .priority src => (p.priority src, p)
  | .pending word => (BitVec.ofFnLE fun i : Fin 32 => p.pending (32 * word + i), p)
  | .enable ctx word => (p.enable ctx word, p)
  | .threshold ctx => (p.threshold ctx, p)
  | .claim ctx =>
      match highest p ctx with
      | none => (0, p)
      | some src => (BitVec.ofNat 32 src,
          { p with pending := Function.update p.pending src false, served := Function.update p.served src true })
  | .reserved => (0, p)

/-- A store to a register. One to claim completes the source, if it is enabled for the context. -/
def Register.write (p : Controller) (v : BitVec 32) : Register → Controller
  | .priority src => { p with priority := Function.update p.priority src v }
  | .enable ctx word => { p with enable := Function.update p.enable ctx (Function.update (p.enable ctx) word v) }
  | .threshold ctx => { p with threshold := Function.update p.threshold ctx v }
  | .claim ctx => if enabled p ctx v.toNat then { p with served := Function.update p.served v.toNat false } else p
  | .pending _ | .reserved => p

def read (p : Controller) (a : Nat) : BitVec 32 × Controller := (register a).read p

def write (p : Controller) (a : Nat) (v : BitVec 32) : Controller := (register a).write p v

def plicSetSourcePriority (srcno : Nat) (level : BitVec 32) (p : Controller) : Controller := write p (srcno * 4) level

def enaArray (ctxno srcno : Nat) : Nat := plicEnableSource + ctxno * plicContextOffset + srcno / 32 * 4

def plicEnableSourceForContext (ctxno srcno : Nat) (p : Controller) : Controller :=
  let ena := read p (enaArray ctxno srcno)
  write ena.2 (enaArray ctxno srcno) (ena.1 ||| BitVec.twoPow 32 (srcno % 32))

def claimReg (ctxno : Nat) : Nat := plicClaimOffset + ctxno * plicPriThreshContextOffset

def plicClaimContextInterrupt (ctxno : Nat) (p : Controller) : BitVec 32 × Controller := read p (claimReg ctxno)

def plicCompleteContextInterrupt (ctxno : Nat) (srcno : BitVec 32) (p : Controller) : Controller :=
  write p (claimReg ctxno) srcno

def plicInit (p : Controller) : Controller :=
  (List.range plicSrccnt).foldl
    (fun p i => plicEnableSourceForContext sModeContext i (plicSetSourcePriority i 0 p)) p

def plicEnableIrq (irqno : Nat) (prio : BitVec 32) (p : Controller) : Controller := plicSetSourcePriority irqno prio p

def plicDisableIrq (irqno : Int) (p : Controller) : Controller :=
  if 0 < irqno then plicSetSourcePriority irqno.toNat 0 p else p

def plicClaimIrq (p : Controller) : BitVec 32 × Controller := plicClaimContextInterrupt sModeContext p

def plicCloseIrq (irqno : BitVec 32) (p : Controller) : Controller := plicCompleteContextInterrupt sModeContext irqno p

section Registers

variable {p : Controller} {ctx src : Nat}

theorem register_priority (h : src < plicSrccnt) : register (src * 4) = .priority src := by
  rw [plicSrccnt] at h
  rw [register, if_pos (by omega), Nat.mul_div_cancel _ (by decide)]

theorem register_enable (hctx : ctx < 15872) (h : src < plicSrccnt) :
    register (enaArray ctx src) = .enable ctx (src / 32) := by
  rw [plicSrccnt] at h
  have hoff : enaArray ctx src = 0x2000 + (ctx * 0x80 + src / 32 * 4) := by
    rw [enaArray, plicEnableSource, plicContextOffset, Nat.add_assoc]
  rw [hoff, register, if_neg (by omega), if_neg (by omega), if_neg (by omega), if_pos (by omega), Nat.add_sub_cancel_left,
    Nat.add_comm, Nat.add_mul_div_right _ _ (by decide), Nat.add_mul_mod_self_right]
  have hword : src / 32 * 4 < 0x80 := by omega
  rw [Nat.div_eq_of_lt hword, Nat.mod_eq_of_lt hword, Nat.zero_add, Nat.mul_div_cancel _ (by decide)]

theorem register_claim : register (claimReg ctx) = .claim ctx := by
  have hoff : claimReg ctx = 0x200000 + (4 + ctx * 0x1000) := by
    rw [claimReg, plicClaimOffset, plicPriThreshContextOffset]
    omega
  rw [hoff, register, if_neg (by omega), if_neg (by omega), if_neg (by omega), if_neg (by omega), if_neg (by omega),
    Nat.add_sub_cancel_left, if_neg (by omega), if_pos (by omega), Nat.add_mul_div_right _ _ (by decide),
    Nat.div_eq_of_lt (by decide), Nat.zero_add]

theorem plicSetSourcePriority_eq (h : src < plicSrccnt) (level : BitVec 32) (p : Controller) :
    plicSetSourcePriority src level p = { p with priority := Function.update p.priority src level } := by
  rw [plicSetSourcePriority, write, register_priority h, Register.write]

theorem read_enaArray (hctx : ctx < 15872) (h : src < plicSrccnt) (p : Controller) :
    read p (enaArray ctx src) = (p.enable ctx (src / 32), p) := by
  rw [read, register_enable hctx h, Register.read]

theorem write_enaArray (hctx : ctx < 15872) (h : src < plicSrccnt) (p : Controller) (v : BitVec 32) :
    write p (enaArray ctx src) v =
      { p with enable := Function.update p.enable ctx (Function.update (p.enable ctx) (src / 32) v) } := by
  rw [write, register_enable hctx h, Register.write]

theorem plicEnableSourceForContext_eq (hctx : ctx < 15872) (h : src < plicSrccnt) (p : Controller) :
    plicEnableSourceForContext ctx src p = { p with
      enable := Function.update p.enable ctx (Function.update (p.enable ctx) (src / 32)
        (p.enable ctx (src / 32) ||| BitVec.twoPow 32 (src % 32))) } := by
  rw [plicEnableSourceForContext, read_enaArray hctx h]
  exact write_enaArray hctx h p _

theorem getLsbD_or_twoPow {v : BitVec 32} {n k : Nat} (hn : n < 32) :
    (v ||| BitVec.twoPow 32 n).getLsbD k = (v.getLsbD k || decide (k = n)) := by
  rw [BitVec.getLsbD_or, BitVec.getLsbD_twoPow]
  by_cases hk : n = k
  · simp [hk, hk ▸ hn]
  · simp [hk, Ne.symm hk]

theorem enabled_enableSource (hctx : ctx < 15872) (h : src < plicSrccnt) (p : Controller) (c n : Nat) :
    enabled (plicEnableSourceForContext ctx src p) c n = (enabled p c n || decide (c = ctx ∧ n = src)) := by
  rw [plicEnableSourceForContext_eq hctx h, enabled, enabled]
  by_cases hc : c = ctx
  · subst hc
    simp only [Function.update_self, true_and]
    by_cases hw : n / 32 = src / 32
    · have hn : n % 32 = src % 32 ↔ n = src := by omega
      rw [hw, Function.update_self, getLsbD_or_twoPow (Nat.mod_lt _ (by decide)), decide_eq_decide.mpr hn]
    · have hn : n ≠ src := fun he => hw (by rw [he])
      rw [Function.update_of_ne hw, decide_eq_false hn, Bool.or_false]
  · simp only [Function.update_of_ne hc, hc, false_and, decide_false, Bool.or_false]

/-- The loop of plic_init up to its n-th turn. -/
theorem plicInit_turns (p : Controller) {n : Nat} (hn : n ≤ plicSrccnt) :
    let p' := (List.range n).foldl (fun p i =>
      plicEnableSourceForContext sModeContext i (plicSetSourcePriority i 0 p)) p
    p'.served = p.served ∧ p'.threshold = p.threshold ∧
      ∀ src < n, p'.priority src = 0 ∧ enabled p' sModeContext src = true := by
  induction n with
  | zero => exact ⟨rfl, rfl, fun src h => absurd h (Nat.not_lt_zero src)⟩
  | succ n ih =>
      obtain ⟨hserved, hthreshold, hsrc⟩ := ih (by omega)
      have hctx : sModeContext < 15872 := by decide
      rw [List.range_succ, List.foldl_concat]
      generalize (List.range n).foldl
        (fun p i => plicEnableSourceForContext sModeContext i (plicSetSourcePriority i 0 p)) p = q
        at hserved hthreshold hsrc ⊢
      have hbits := fun m => enabled_enableSource hctx hn (plicSetSourcePriority n 0 q) sModeContext m
      have hfields := plicEnableSourceForContext_eq hctx hn (plicSetSourcePriority n 0 q)
      have hprio := plicSetSourcePriority_eq hn 0 q
      rw [hfields] at hbits ⊢
      rw [hprio] at hbits ⊢
      refine ⟨hserved, hthreshold, fun src hlt => ⟨?_, (hbits src).trans ?_⟩⟩
      · rcases Nat.lt_succ_iff_lt_or_eq.mp hlt with hlt | rfl
        · exact (Function.update_of_ne (Nat.ne_of_lt hlt) _ _).trans (hsrc src hlt).1
        · exact Function.update_self ..
      · rcases Nat.lt_succ_iff_lt_or_eq.mp hlt with hlt | rfl
        · have hold : enabled { q with priority := Function.update q.priority n 0 } sModeContext src = true := (hsrc src hlt).2
          rw [hold, Bool.true_or]
        · simp

theorem plicInit_spec (p : Controller) : (plicInit p).served = p.served ∧ (plicInit p).threshold = p.threshold ∧
    ∀ src < plicSrccnt, (plicInit p).priority src = 0 ∧ enabled (plicInit p) sModeContext src = true := by
  rw [plicInit]
  exact plicInit_turns p (Nat.le_refl _)

/-- A claim takes a pending source, of the highest priority there is. -/
theorem highest_some (h : highest p ctx = some src) :
    src ∈ List.range' 1 (plicSrccnt - 1) ∧ candidate p ctx src = true ∧
    ∀ m ∈ List.range' 1 (plicSrccnt - 1), candidate p ctx m = true → (p.priority m).toNat ≤ (p.priority src).toNat := by
  have hmem := List.mem_filter.mp (List.argmax_mem h)
  refine ⟨hmem.1, hmem.2, fun m hm hc => ?_⟩
  exact List.le_of_mem_argmax (f := fun src => (p.priority src).toNat) (List.mem_filter.mpr ⟨hm, hc⟩) h

theorem highest_none (h : highest p ctx = none) :
    ∀ m ∈ List.range' 1 (plicSrccnt - 1), candidate p ctx m = false := by
  intro m hm
  rw [highest, List.argmax_eq_none, List.filter_eq_nil_iff] at h
  exact Bool.eq_false_iff.mpr (h m hm)

theorem plicClaimIrq_none (h : highest p sModeContext = none) : plicClaimIrq p = (0, p) := by
  rw [plicClaimIrq, plicClaimContextInterrupt, read, register_claim, Register.read, h]

theorem plicClaimIrq_some (h : highest p sModeContext = some src) : plicClaimIrq p = (BitVec.ofNat 32 src,
    { p with pending := Function.update p.pending src false, served := Function.update p.served src true }) := by
  rw [plicClaimIrq, plicClaimContextInterrupt, read, register_claim, Register.read, h]

theorem plicCloseIrq_eq (v : BitVec 32) (h : enabled p sModeContext v.toNat = true) :
    plicCloseIrq v p = { p with served := Function.update p.served v.toNat false } := by
  rw [plicCloseIrq, plicCompleteContextInterrupt, write, register_claim, Register.write, if_pos h]

end Registers

end RiscvKernel.Plic
