import RiscvKernel.Io
import RiscvKernel.PageOwnership
import RiscvKernel.VirtualMemory

namespace RiscvKernel.ElfLoad

open Memory Io PageOwnership VirtualMemory

/-! elf_load and process_exec. -/

def eaccess : Int := 8
def ebadfd : Int := 9
def eother : Int := 10
def ewrong : Int := 11
def efor : Int := 4
def esev : Int := 7

/-- The value of the n bytes from off on, the least significant first. -/
def le (b : Nat → UInt8) (off : Nat) : Nat → Nat
  | 0 => 0
  | n + 1 => (b off).toNat + 256 * le b (off + 1) n

/-- The fields of Elf64_Ehdr that elf_load uses. -/
structure Ehdr where
  eIdent : Nat → UInt8
  eType : Nat
  eMachine : Nat
  eEntry : BitVec 64
  ePhoff : BitVec 64
  ePhnum : Nat

def ehdrSize : Nat := 64

def ehdrOf (b : Nat → UInt8) : Ehdr where
  eIdent := b
  eType := le b 16 2
  eMachine := le b 18 2
  eEntry := BitVec.ofNat 64 (le b 24 8)
  ePhoff := BitVec.ofNat 64 (le b 32 8)
  ePhnum := le b 56 2

/-- The fields of Elf64_Phdr that elf_load uses. -/
structure Phdr where
  pType : Nat
  pFlags : Nat
  pOffset : BitVec 64
  pVaddr : BitVec 64
  pFilesz : BitVec 64
  pMemsz : BitVec 64
  deriving DecidableEq

def phdrSize : Nat := 56

def phdrOf (b : Nat → UInt8) : Phdr where
  pType := le b 0 4
  pFlags := le b 4 4
  pOffset := BitVec.ofNat 64 (le b 8 8)
  pVaddr := BitVec.ofNat 64 (le b 16 8)
  pFilesz := BitVec.ofNat 64 (le b 32 8)
  pMemsz := BitVec.ofNat 64 (le b 40 8)

/-- The locals of elf_load before they are read into: the header, and for each turn of
the loop the program header. -/
structure Locals where
  elfHeader : Nat → UInt8
  progHeader : Nat → Nat → UInt8

/-- A buffer after its first bytes are overwritten. -/
def overwrite (old : Nat → UInt8) (bytes : List UInt8) (i : Nat) : UInt8 := bytes.getD i (old i)

/-- The operations on the memory that elf_load and process_exec call; none is a panic. -/
structure VmOps (μ : Type) where
  unmapAndFreeUser : μ → μ
  allocAndMapRange : μ → BitVec 64 → BitVec 64 → BitVec 8 → Option μ
  setRangeFlags : μ → BitVec 64 → BitVec 64 → BitVec 8 → Option μ
  store : μ → BitVec 64 → List UInt8 → Option μ

/-- Those of the kernel. -/
def kernelVm : VmOps Mem where
  unmapAndFreeUser := memoryUnmapAndFreeUser
  allocAndMapRange := memoryAllocAndMapRange
  setRangeFlags := memorySetRangeFlags
  store := VirtualMemory.store

def ptLoad : Nat := 1

/-- The check of e_ident, e_machine and e_type: the code elf_load returns, 0 if it goes on. -/
def checkHeader (eh : Ehdr) : Int :=
  if eh.eIdent 0 ≠ 0x7F ∨ eh.eIdent 1 ≠ 0x45 ∨ eh.eIdent 2 ≠ 0x4C ∨ eh.eIdent 3 ≠ 0x46 then -ebusy
  else if eh.eIdent 4 ≠ 2 then -ebadfd
  else if eh.eIdent 5 ≠ 1 then -eother
  else if eh.eMachine ≠ 243 then -ewrong
  else if eh.eType ≠ 2 then -3
  else 0

/-- The check of a segment's addresses, whose sum is one of 64 bits. -/
def Phdr.inRange (ph : Phdr) : Bool := !(ph.pVaddr < userStart || ph.pVaddr + ph.pMemsz > userEnd)

def Phdr.rwxFlags (ph : Phdr) : BitVec 8 :=
  (if ph.pFlags &&& 1 ≠ 0 then pteX else 0) ||| (if ph.pFlags &&& 2 ≠ 0 then pteW else 0) |||
    (if ph.pFlags &&& 4 ≠ 0 then pteR else 0) ||| pteU

section Load

variable {σ μ : Type} (ops : IoOps σ) (vm : VmOps μ)

/-- A PT_LOAD program header: the code elf_load returns, 0 if it goes on. -/
def loadSegment (ph : Phdr) (s : σ) (m : μ) : Option (Int × σ × μ) := do
  if !ph.inRange then return (-ebadfmt, s, m)
  let (r, s) := ioseek ops s ph.pOffset.toNat
  if r < 0 then return (-esev, s, m)
  let m ← vm.allocAndMapRange m ph.pVaddr ph.pMemsz (pteW ||| pteR ||| pteU)
  let (r, bytes, s) := ioread ops s ph.pFilesz.toNat
  let m ← vm.store m ph.pVaddr bytes
  if r ≠ ph.pFilesz.toInt then return (-eaccess, s, m)
  let m ← vm.setRangeFlags m ph.pVaddr ph.pMemsz ph.rwxFlags
  if ph.pMemsz > ph.pFilesz then
    let m ← vm.store m (ph.pVaddr + ph.pFilesz) (List.replicate (ph.pMemsz - ph.pFilesz).toNat 0)
    return (0, s, m)
  return (0, s, m)

/-- The loop over the program headers, with cnt of them left. -/
def loadHeaders (st : Locals) (eh : Ehdr) : Nat → Nat → σ → μ → Option (Int × σ × μ)
  | _, 0, s, m => some (0, s, m)
  | i, cnt + 1, s, m => do
      let (r, s) := ioseek ops s (eh.ePhoff + BitVec.ofNat 64 (i * phdrSize)).toNat
      if r < 0 then return (-efor, s, m)
      let (r, bytes, s) := ioread ops s phdrSize
      if r ≠ phdrSize then return (-5, s, m)
      let ph := phdrOf (overwrite (st.progHeader i) bytes)
      if ph.pType = ptLoad then
        let (r, s, m) ← loadSegment ops vm ph s m
        if r < 0 then return (r, s, m)
        loadHeaders st eh (i + 1) cnt s m
      else loadHeaders st eh (i + 1) cnt s m

/-- elf_load: its result, the value of *entryptr if it is set, and the new states. -/
def elfLoad (st : Locals) (s : σ) (m : μ) : Option (Int × Option (BitVec 64) × σ × μ) := do
  let (_, _, s) := ioctl ops s .getpos 0
  let (r, bytes, s) := ioread ops s ehdrSize
  if r ≠ ehdrSize then return (-1, none, s, m)
  let eh := ehdrOf (overwrite st.elfHeader bytes)
  if checkHeader eh < 0 then return (checkHeader eh, none, s, m)
  let (r, s, m) ← loadHeaders ops vm st eh 0 eh.ePhnum s m
  if r < 0 then return (r, none, s, m)
  return (0, some eh.eEntry, s, m)

/-- How a call ends: in user mode, or by a return to the caller. -/
inductive Outcome (σ μ : Type)
  | user (usp upc : BitVec 64) (s : σ) (m : μ)
  | returned (result : Int)

/-- process_exec; a negative result of elf_load is printed. The entry is that of the
file if elf_load sets it and else what the local variable held. -/
def processExec (st : Locals) (exeEntry : BitVec 64) (s : σ) (m : μ) : Option (Outcome σ μ) := do
  let m := vm.unmapAndFreeUser m
  let (_, entry, s, m) ← elfLoad ops vm st s m
  return .user userEnd (entry.getD exeEntry) s m

/-- sysexec, of the object in the descriptor's entry. -/
def sysexec (st : Locals) (exeEntry : BitVec 64) (obj : Option σ) (m : μ) : Option (Outcome σ μ) :=
  match obj with
  | none => some (.returned (-einval))
  | some s => do
      match ← processExec ops vm st exeEntry s m with
      | .user usp upc s m => some (.user usp upc s m)
      | .returned _ => some (.returned 0)

end Load

end RiscvKernel.ElfLoad
