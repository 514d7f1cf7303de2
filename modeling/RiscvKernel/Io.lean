import Mathlib

namespace RiscvKernel.Io

/-! Error numbers of error.h; the kernel returns them negated. -/

def einval : Int := 1
def ebusy : Int := 2
def enotsup : Int := 3
def eio : Int := 5
def ebadfmt : Int := 6

/-- The ioctl commands of io.h that some modelled object answers. -/
inductive Ioctl
  | getlen | setlen | getpos | setpos | flush | getblksz
  deriving DecidableEq, Repr

/-- struct io_ops over a state type: read returns its result, the bytes it put
at the start of the buffer and the new state; ctl returns its result and the
value left in the cell its argument points to. A missing operation is none. -/
structure IoOps (σ : Type) where
  read : Option (σ → Nat → Int × List UInt8 × σ)
  write : Option (σ → List UInt8 → Int × σ)
  ctl : Option (σ → Ioctl → Nat → Int × Nat × σ)

variable {σ : Type}

def ioread (ops : IoOps σ) (s : σ) (bufsz : Nat) : Int × List UInt8 × σ :=
  match ops.read with
  | some read => read s bufsz
  | none => (-enotsup, [], s)

def ioctl (ops : IoOps σ) (s : σ) (cmd : Ioctl) (arg : Nat) : Int × Nat × σ :=
  match ops.ctl with
  | some ctl => ctl s cmd arg
  | none => (-enotsup, arg, s)

def ioseek (ops : IoOps σ) (s : σ) (pos : Nat) : Int × σ :=
  let r := ioctl ops s .setpos pos
  (r.1, r.2.2)

def iowriteLoop (write : σ → List UInt8 → Int × σ) (buf : List UInt8) (acc : Nat) (s : σ) : Int × σ :=
  if acc < buf.length then
    match write s (buf.drop acc) with
    | (cnt, s) =>
        if cnt < 0 then (cnt, s)
        else if cnt = 0 then (acc, s)
        else iowriteLoop write buf (acc + cnt.toNat) s
  else (acc, s)
termination_by buf.length - acc

def iowrite (ops : IoOps σ) (s : σ) (buf : List UInt8) : Int × σ :=
  match ops.write with
  | some write => iowriteLoop write buf 0 s
  | none => (-enotsup, s)

def ioputc (ops : IoOps σ) (s : σ) (c : UInt8) : Int × σ :=
  let r := iowrite ops s [c]
  if r.1 < 0 then r
  else if r.1 = 0 then (-eio, r.2)
  else (c.toNat, r.2)

/-- ioputs for a string of the bytes s before its NUL. -/
def ioputs (ops : IoOps σ) (st : σ) (s : List UInt8) : Int × σ :=
  let r := iowrite ops st s
  if r.1 < 0 then r
  else
    let r := iowrite ops r.2 [10]
    if r.1 < 0 then r else (0, r.2)

/-- A write operation that accepts what it is offered, at least one byte at a
time, and the log of the accepted bytes. -/
structure Sink (σ : Type) where
  write : σ → List UInt8 → Int × σ
  out : σ → List UInt8
  accepts : ∀ s bs, bs ≠ [] → ∃ k : Nat, 1 ≤ k ∧ k ≤ bs.length ∧
    (write s bs).1 = k ∧ out (write s bs).2 = out s ++ bs.take k

def Sink.ops (k : Sink σ) : IoOps σ := ⟨none, some k.write, none⟩

/-- The sink that takes every buffer whole. -/
def Sink.log : Sink (List UInt8) where
  write out bs := (bs.length, out ++ bs)
  out out := out
  accepts out bs h := ⟨bs.length, List.length_pos_of_ne_nil h, Nat.le_refl _, rfl, by simp⟩

theorem iowriteLoop_sink (k : Sink σ) (buf : List UInt8) (acc : Nat) (h : acc ≤ buf.length) (s : σ) :
    (iowriteLoop k.write buf acc s).1 = buf.length ∧
      k.out (iowriteLoop k.write buf acc s).2 = k.out s ++ buf.drop acc := by
  fun_induction iowriteLoop k.write buf acc s with
  | case1 acc s hlt cnt s' hw hneg | case2 acc s hlt s' hw hneg =>
      obtain ⟨n, hn, -, hr, -⟩ := k.accepts s (buf.drop acc) (by simp; omega)
      rw [hw] at hr
      simp only at hr
      omega
  | case3 acc s hlt cnt s' hw hneg hzero ih =>
      obtain ⟨n, hn, hle, hr, ho⟩ := k.accepts s (buf.drop acc) (by simp; omega)
      rw [hw] at hr ho
      simp only [List.length_drop] at hr ho hle
      subst hr
      obtain ⟨hi, hj⟩ := ih (by omega)
      refine ⟨hi, ?_⟩
      rw [hj, ho, List.append_assoc, Int.toNat_natCast, ← List.drop_drop, List.take_append_drop]
  | case4 acc s hge =>
      have he : acc = buf.length := by omega
      simp [he]

/-- On a sink iowrite transfers the whole buffer, in order. -/
theorem iowrite_sink (k : Sink σ) (s : σ) (buf : List UInt8) :
    (iowrite k.ops s buf).1 = buf.length ∧ k.out (iowrite k.ops s buf).2 = k.out s ++ buf := by
  simpa [iowrite, Sink.ops] using iowriteLoop_sink k buf 0 (Nat.zero_le _) s

theorem ioputc_sink (k : Sink σ) (s : σ) (c : UInt8) :
    0 ≤ (ioputc k.ops s c).1 ∧ k.out (ioputc k.ops s c).2 = k.out s ++ [c] := by
  obtain ⟨hr, ho⟩ := iowrite_sink k s [c]
  simp [ioputc, hr, ho]

end RiscvKernel.Io
