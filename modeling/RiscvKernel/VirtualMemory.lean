import RiscvKernel.DeepCopy

namespace RiscvKernel.VirtualMemory

open Memory PageTree AddressSpace MapPage DeepCopy Lib.LinkedList Lib.PointerTree

/-! The operations on ranges of user addresses and the stores of the kernel to them. -/

/-- An assignment to the flags of a struct pte. -/
def setFlags (e : BitVec 64) (flags : BitVec 8) : BitVec 64 := (e &&& ~~~(0xFF#64)) ||| flags.setWidth 64

section Ranges

variable (m : Mem)

/-- walk_pt with create clear. -/
def walkPtFind (root : Ppn) (vma : BitVec 64) : Option (Ppn × Vpn) :=
  if !wellformedVma vma then none
  else
    let entry2 := m.ram root (vpn 2 vma)
    if !has entry2 pteV then none
    else
      let entry1 := m.ram (ppnOf entry2) (vpn 1 vma)
      if !has entry1 pteV then none else some (ppnOf entry1, vpn 0 vma)

/-- memory_set_page_flags: none when it panics. -/
def memorySetPageFlags (vp : BitVec 64) (rwxugFlags : BitVec 8) : Option Mem := do
  let (pt0, i) ← walkPtFind m (pageptrToPagenum m.activeSpaceRoot) vp
  return m.setWord pt0 i (setFlags (m.ram pt0 i) (rwxugFlags ||| pteA ||| pteD ||| pteV))

/-- The int numPages of the range operations. -/
def numPages (size : BitVec 64) : Int :=
  let n : BitVec 32 := (size / 4096).setWidth 32
  if size % 4096 > 0 then (n + 1).toInt else n.toInt

/-- The loop over the pages of a range. -/
def forPages (op : Mem → BitVec 64 → Option Mem) (vma size : BitVec 64) : Option Mem :=
  (List.range (numPages size).toNat).foldlM (fun m x => op m (vma + BitVec.ofNat 64 (x * 4096))) m

def memoryAllocAndMapRange (vma size : BitVec 64) (rwxugFlags : BitVec 8) : Option Mem :=
  forPages m (fun m vma => memoryAllocAndMapPage m vma rwxugFlags) vma size

def memorySetRangeFlags (vp size : BitVec 64) (rwxugFlags : BitVec 8) : Option Mem :=
  forPages m (fun m vp => memorySetPageFlags m vp rwxugFlags) vp size

end Ranges

section Bytes

def getByte (w : BitVec 64) (k : Nat) : UInt8 := UInt8.ofBitVec (w.extractLsb' (8 * k) 8)

def setByte (w : BitVec 64) (k : Nat) (b : UInt8) : BitVec 64 :=
  (w &&& ~~~(0xFF#64 <<< (8 * k))) ||| (b.toBitVec.setWidth 64 <<< (8 * k))

/-- The byte of a page at the offset of an address. -/
def byteOf (page : Page) (vma : BitVec 64) : UInt8 := getByte (page (wordOf vma)) (vma.toNat % 8)

/-- A store of the kernel through the active space, with SUM set; none is a page fault,
on which the kernel panics. -/
def storeByte (m : Mem) (vma : BitVec 64) (b : UInt8) : Option Mem := do
  let tr ← translate m.ram (rootOf m.satp) vma
  let p := tr.page vma
  if has tr.entry pteW then some (m.setWord p (wordOf vma) (setByte (m.ram p (wordOf vma)) (vma.toNat % 8) b)) else none

def store (m : Mem) (vma : BitVec 64) : List UInt8 → Option Mem
  | [] => some m
  | b :: bs => do
      let m ← storeByte m vma b
      store m (vma + 1) bs

end Bytes

end RiscvKernel.VirtualMemory
