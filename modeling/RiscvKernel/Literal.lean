import RiscvKernel.Io

namespace RiscvKernel.Literal

open Io

/-- struct io_lit with the bytes of its buffer. -/
structure Lit where
  buf : List UInt8
  pos : Nat

def Lit.size (iol : Lit) : Nat := iol.buf.length

/-- The length that iolit_read and iolit_write copy. Where the sum overflows it is more than
the buffer has, and the copy does not stay in it. -/
def Lit.clamp (iol : Lit) (len : Nat) : Nat :=
  if (iol.pos + len) % 2 ^ 64 ≥ iol.size then iol.size - iol.pos else len

/-- The arguments of memcpy. -/
structure Memcpy where
  dst : Nat
  src : Nat
  n : Nat
  deriving DecidableEq

/-- The call of memcpy in iolit_read, with the buffer of the literal at addr. -/
def Lit.readCopy (iol : Lit) (addr buf len : Nat) : Option Memcpy :=
  if iol.pos > iol.size then none else some ⟨buf, addr + iol.pos, iol.clamp len⟩

/-- The call of memcpy in iolit_write. -/
def Lit.writeCopy (iol : Lit) (addr buf len : Nat) : Option Memcpy :=
  if iol.pos > iol.size then none else some ⟨addr + iol.pos, buf, iol.clamp len⟩

def iolitRead (iol : Lit) (len : Nat) : Int × List UInt8 × Lit :=
  if iol.pos > iol.size then (-eio, [], iol)
  else
    ((BitVec.ofNat 64 (iol.clamp len)).toInt, (iol.buf.drop iol.pos).take (iol.clamp len),
      { iol with pos := (iol.pos + iol.clamp len) % 2 ^ 64 })

def iolitWrite (iol : Lit) (bytes : List UInt8) : Int × Lit :=
  if iol.pos > iol.size then (-eio, iol)
  else
    let len := iol.clamp bytes.length
    ((BitVec.ofNat 64 len).toInt,
      { buf := iol.buf.take iol.pos ++ bytes.take len ++ iol.buf.drop (iol.pos + len),
        pos := (iol.pos + len) % 2 ^ 64 })

/-- iolit_ctl, with results that are ints. -/
def iolitCtl (iol : Lit) (cmd : Ioctl) (arg : Nat) : Int × Nat × Lit :=
  match cmd with
  | .getlen => ((BitVec.ofNat 32 iol.size).toInt, iol.size, iol)
  | .getpos => ((BitVec.ofNat 32 iol.pos).toInt, iol.pos, iol)
  | .setpos => if arg > iol.size then (-eio, arg, iol) else (0, arg, { iol with pos := arg })
  | .getblksz => ((BitVec.ofNat 32 iol.size).toInt, iol.size, iol)
  | _ => (-einval, arg, iol)

def iolitOps : IoOps Lit := ⟨some iolitRead, some iolitWrite, some iolitCtl⟩

section Read

variable {iol : Lit} {n : Nat}

/-- The clamp is right exactly when the sum it compares does not wrap. -/
theorem Lit.clamp_iff (hp : iol.pos ≤ iol.size) (hs : iol.size < 2 ^ 64) (hn : n < 2 ^ 64) :
    iol.clamp n = min n (iol.size - iol.pos) ↔ iol.pos + n < 2 ^ 64 := by
  rw [clamp]
  constructor
  · intro h
    by_contra hwrap
    have hmod : (iol.pos + n) % 2 ^ 64 = iol.pos + n - 2 ^ 64 := by omega
    rw [hmod, if_neg (by omega)] at h
    omega
  · intro h
    rw [Nat.mod_eq_of_lt h]
    split_ifs <;> omega

/-- iolit_read delivers the bytes that memcpy copies. -/
theorem iolitRead_copy (iol : Lit) (addr buf n : Nat) : iolitRead iol n =
    match iol.readCopy addr buf n with
    | none => (-eio, [], iol)
    | some c => ((BitVec.ofNat 64 c.n).toInt, (iol.buf.drop (c.src - addr)).take c.n, { iol with pos := (iol.pos + c.n) % 2 ^ 64 }) := by
  rw [iolitRead, Lit.readCopy]
  by_cases hpos : iol.pos > iol.size
  · rw [if_pos hpos, if_pos hpos]
  · rw [if_neg hpos, if_neg hpos]
    simp only [Nat.add_sub_cancel_left]

/-- iolit_write stores the bytes that memcpy copies. -/
theorem iolitWrite_copy (iol : Lit) (addr buf : Nat) (bytes : List UInt8) : iolitWrite iol bytes =
    match iol.writeCopy addr buf bytes.length with
    | none => (-eio, iol)
    | some c => ((BitVec.ofNat 64 c.n).toInt,
        { buf := iol.buf.take (c.dst - addr) ++ bytes.take c.n ++ iol.buf.drop (c.dst - addr + c.n),
          pos := (iol.pos + c.n) % 2 ^ 64 }) := by
  rw [iolitWrite, Lit.writeCopy]
  by_cases hpos : iol.pos > iol.size
  · rw [if_pos hpos, if_pos hpos]
  · rw [if_neg hpos, if_neg hpos]
    simp only [Nat.add_sub_cancel_left]

/-- A literal of which the position and the length asked for do not overflow delivers the bytes
from its position on. -/
theorem iolitRead_eq (hpos : iol.pos ≤ iol.size) (hsize : iol.size < 2 ^ 63) (hn : iol.pos + n < 2 ^ 64) :
    iolitRead iol n = (((min n (iol.size - iol.pos) : Nat) : Int), (iol.buf.drop iol.pos).take n,
      ⟨iol.buf, iol.pos + min n (iol.size - iol.pos)⟩) := by
  have hclamp := (Lit.clamp_iff hpos (by omega) (by omega)).mpr hn
  have hlen : iol.size - iol.pos = (iol.buf.drop iol.pos).length := by rw [Lit.size, List.length_drop]
  rw [iolitRead, if_neg (Nat.not_lt.mpr hpos), hclamp, Nat.mod_eq_of_lt (by omega)]
  refine congrArg₂ Prod.mk ?_ (congrArg₂ Prod.mk ?_ rfl)
  · rw [BitVec.toInt_eq_toNat_of_lt] <;> rw [BitVec.toNat_ofNat, Nat.mod_eq_of_lt (by omega)]
    omega
  · rw [hlen, ← List.take_take, List.take_of_length_le (Nat.le_refl _)]

end Read

end RiscvKernel.Literal
