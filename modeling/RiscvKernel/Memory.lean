import Mathlib

namespace RiscvKernel.Memory

/-- A physical page number: the ppn field of struct pte. -/
abbrev Ppn := BitVec 44

instance neZeroVpn : NeZero 512 := ⟨by decide⟩

/-- The index of an entry in a page table. -/
abbrev Vpn := Fin 512

/-- The 64-bit words of a page. -/
abbrev Page := Vpn → BitVec 64

/-! struct pte as the word it occupies. -/

def pteV : BitVec 8 := 1 <<< 0
def pteR : BitVec 8 := 1 <<< 1
def pteW : BitVec 8 := 1 <<< 2
def pteX : BitVec 8 := 1 <<< 3
def pteU : BitVec 8 := 1 <<< 4
def pteG : BitVec 8 := 1 <<< 5
def pteA : BitVec 8 := 1 <<< 6
def pteD : BitVec 8 := 1 <<< 7

def flagsOf (e : BitVec 64) : BitVec 8 := e.extractLsb' 0 8

def ppnOf (e : BitVec 64) : Ppn := e.extractLsb' 10 44

def has (e : BitVec 64) (flag : BitVec 8) : Bool := flagsOf e &&& flag != 0

/-- A struct pte with the other fields zero. -/
def mkPte (flags : BitVec 8) (ppn : Ppn) : BitVec 64 :=
  flags.setWidth 64 ||| (ppn.setWidth 64 <<< 10)

def pagenumToPageptr (n : Ppn) : BitVec 64 := n.setWidth 64 <<< 12

def pageptrToPagenum (p : BitVec 64) : Ppn := (p >>> 12).setWidth 44

def leafPte (pptr : BitVec 64) (rwxugFlags : BitVec 8) : BitVec 64 :=
  mkPte (rwxugFlags ||| pteA ||| pteD ||| pteV) (pageptrToPagenum pptr)

def ptabPte (ptab : BitVec 64) (gFlag : BitVec 8) : BitVec 64 :=
  mkPte (gFlag ||| pteV) (pageptrToPagenum ptab)

/-- The level-th VPN of an address. -/
def vpn (level : Nat) (vma : BitVec 64) : Vpn :=
  ⟨(vma >>> (12 + 9 * level)).toNat % 512, Nat.mod_lt _ (by decide)⟩

def wellformedVma (vma : BitVec 64) : Bool := (vma.sshiftRight 38 == 0) || (vma.sshiftRight 38 + 1 == 0)

def mtagToRoot (mtag : BitVec 64) : BitVec 64 := (mtag <<< 20) >>> 8

/-- The tag of the space with the given root table, in mode Sv39. -/
def rootToMtag (root : BitVec 64) : BitVec 64 := (8#64 <<< 60) ||| (pageptrToPagenum root).setWidth 64

/-- Physical memory by page, the head of the free list and the active space. -/
structure Mem where
  ram : Ppn → Page
  freeList : BitVec 64
  satp : BitVec 64

section Basic

variable (m : Mem)

def Mem.setPage (p : Ppn) (page : Page) : Mem := { m with ram := Function.update m.ram p page }

def Mem.setWord (p : Ppn) (i : Vpn) (w : BitVec 64) : Mem := m.setPage p (Function.update (m.ram p) i w)

def Mem.setFreeList (w : BitVec 64) : Mem := { m with freeList := w }

def Mem.activeSpaceRoot : BitVec 64 := mtagToRoot m.satp

/-- memory_alloc_page: none when it panics. -/
def memoryAllocPage : Option (BitVec 64 × Mem) :=
  if m.freeList = 0 then none
  else
    let newPage := m.freeList
    let m := { m with freeList := m.ram (pageptrToPagenum newPage) 0 }
    some (newPage, m.setPage (pageptrToPagenum newPage) (fun _ => 0))

def memoryFreePage (pp : BitVec 64) : Mem :=
  let m := m.setWord (pageptrToPagenum pp) 0 m.freeList
  { m with freeList := pp }

/-- A new table behind an entry that is not valid. -/
def createTable (table : Ppn) (i : Vpn) : Option Mem := do
  let (ptNew, m) ← memoryAllocPage m
  return m.setWord table i (ptabPte ptNew 0)

/-- The step of walk_pt at one level, with create set: the next table. -/
def walkStep (table : Ppn) (i : Vpn) : Option (Ppn × Mem) := do
  let m ← if has (m.ram table i) pteV then some m else createTable m table i
  return (ppnOf (m.ram table i), m)

/-- walk_pt with create set, on a well-formed address: the table and the index of
the level-0 entry. -/
def walkPt (root : Ppn) (vma : BitVec 64) : Option ((Ppn × Vpn) × Mem) := do
  let (pt1, m) ← walkStep m root (vpn 2 vma)
  let (pt0, m) ← walkStep m pt1 (vpn 1 vma)
  return ((pt0, vpn 0 vma), m)

/-- memory_alloc_and_map_page: none when it panics. -/
def memoryAllocAndMapPage (vma : BitVec 64) (rwxugFlags : BitVec 8) : Option Mem := do
  if !wellformedVma vma then none
  let (newPP, m) ← memoryAllocPage m
  let ((pt0, i), m) ← walkPt m (pageptrToPagenum m.activeSpaceRoot) vma
  return m.setWord pt0 i (leafPte newPP rwxugFlags)

end Basic

section Clone

/-- What memory_space_clone does with one entry of a table: copy it, and replace a
valid entry that is not global by a pointer to a new page, filled from the old. -/
def cloneEntry (mkEntry : BitVec 64 → BitVec 8 → BitVec 64) (fill : Ppn → Ppn → Mem → Option Mem)
    (new old : Ppn) (m : Mem) (i : Vpn) : Option Mem :=
  let oldEntry := m.ram old i
  let m := m.setWord new i oldEntry
  if !has oldEntry pteV then some m
  else if has oldEntry pteG then some m
  else do
    let (page, m) ← memoryAllocPage m
    let m := m.setWord new i (mkEntry page (flagsOf oldEntry))
    fill (pageptrToPagenum page) (ppnOf oldEntry) m

def cloneTable (mkEntry : BitVec 64 → BitVec 8 → BitVec 64) (fill : Ppn → Ppn → Mem → Option Mem)
    (new old : Ppn) (m : Mem) : Option Mem :=
  (List.finRange 512).foldlM (cloneEntry mkEntry fill new old) m

/-- memcpy of a page. -/
def copyPage (new old : Ppn) (m : Mem) : Option Mem := some (m.setPage new (m.ram old))

/-- The three nested loops, innermost first. -/
def clonePt0 : Ppn → Ppn → Mem → Option Mem := cloneTable leafPte copyPage

def clonePt1 : Ppn → Ppn → Mem → Option Mem := cloneTable ptabPte clonePt0

def clonePt2 : Ppn → Ppn → Mem → Option Mem := cloneTable ptabPte clonePt1

/-- memory_space_clone: the tag of the new space; none when it panics. -/
def memorySpaceClone (m : Mem) : Option (BitVec 64 × Mem) := do
  let pt2Old := m.activeSpaceRoot
  let (pt2New, m) ← memoryAllocPage m
  let m := m.setPage (pageptrToPagenum pt2New) (fun _ => 0)
  let m ← clonePt2 (pageptrToPagenum pt2New) (pageptrToPagenum pt2Old) m
  return (rootToMtag pt2New, m)

end Clone

section Unmap

/-- An entry at level 0 of memory_unmap_and_free_user: the cleared V flag is that of a
local copy of the entry. -/
def unmapLeaf (pt0 : Ppn) (m : Mem) (i : Vpn) : Mem :=
  let entry := m.ram pt0 i
  if !has entry pteV then m
  else if !has entry pteU then m
  else memoryFreePage m (pagenumToPageptr (ppnOf entry))

/-- An entry at levels 1 and 2: descend if it is a valid table and not global. -/
def unmapEntry (next : Ppn → Mem → Mem) (pt : Ppn) (m : Mem) (i : Vpn) : Mem :=
  let entry := m.ram pt i
  if !has entry pteV then m
  else if has entry pteR then m
  else if has entry pteW then m
  else if has entry pteX then m
  else if has entry pteG then m
  else next (ppnOf entry) m

def unmapPt0 (pt0 : Ppn) (m : Mem) : Mem := (List.finRange 512).foldl (unmapLeaf pt0) m

def unmapTable (next : Ppn → Mem → Mem) (pt : Ppn) (m : Mem) : Mem := (List.finRange 512).foldl (unmapEntry next pt) m

def memoryUnmapAndFreeUser (m : Mem) : Mem :=
  unmapTable (unmapTable unmapPt0) (pageptrToPagenum m.activeSpaceRoot) m

def memorySpaceSwitch (m : Mem) (mtag : BitVec 64) : Mem := { m with satp := mtag }

def memorySpaceReclaim (m : Mem) (mainMtag : BitVec 64) : Mem :=
  memorySpaceSwitch (memoryUnmapAndFreeUser m) mainMtag

end Unmap

section Words

@[simp] theorem flagsOf_mkPte (flags : BitVec 8) (ppn : Ppn) : flagsOf (mkPte flags ppn) = flags := by
  ext i hi
  have h10 : i < 10 := by omega
  have h64 : i < 64 := by omega
  simp [flagsOf, mkPte, h10, h64, BitVec.getLsbD_eq_getElem hi]

theorem flagsOf_leafPte (w : BitVec 64) (flags : BitVec 8) : flagsOf (leafPte w flags) = flags ||| pteA ||| pteD ||| pteV :=
  flagsOf_mkPte _ _

@[simp] theorem ppnOf_mkPte (flags : BitVec 8) (ppn : Ppn) : ppnOf (mkPte flags ppn) = ppn := by
  ext i hi
  have h8 : flags.getLsbD (10 + i) = false := BitVec.getLsbD_of_ge _ _ (by omega)
  have h64 : 10 + i < 64 := by omega
  simp [ppnOf, mkPte, h8, h64, BitVec.getLsbD_eq_getElem hi]

@[simp] theorem pageptrToPagenum_pagenumToPageptr (n : Ppn) : pageptrToPagenum (pagenumToPageptr n) = n := by
  ext i hi
  have h64 : 12 + i < 64 := by omega
  have h12 : ¬ 12 + i < 12 := by omega
  simp [pageptrToPagenum, pagenumToPageptr, h64, h12, BitVec.getLsbD_eq_getElem hi]

@[simp] theorem root_rootToMtag (p : BitVec 64) :
    pageptrToPagenum (mtagToRoot (rootToMtag p)) = pageptrToPagenum p := by
  ext i hi
  have h64 : 8 + (12 + i) < 64 := by omega
  have h20 : ¬ 8 + (12 + i) < 20 := by omega
  have hsub : 8 + (12 + i) - 20 = i := by omega
  have hmode : (8#64 <<< 60).getLsbD i = false := by
    rw [BitVec.getLsbD_shiftLeft, decide_eq_true (show i < 60 by omega), Bool.not_true, Bool.and_false, Bool.false_and]
  simp only [pageptrToPagenum, mtagToRoot, rootToMtag, BitVec.getElem_setWidth, BitVec.getLsbD_ushiftRight,
    BitVec.getLsbD_shiftLeft, BitVec.getLsbD_or, BitVec.getLsbD_setWidth, h64, h20, hsub, hmode]
  have hi64 : i < 64 := by omega
  simp [hi, hi64]

end Words

end RiscvKernel.Memory
