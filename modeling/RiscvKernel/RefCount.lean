import RiscvKernel.KfsSlots
import RiscvKernel.Lib.References

namespace RiscvKernel.RefCount

open Io SleepLock Kfs KfsSlots Lib.References

variable {σ : Type}

/-- The objects that fs_open, uart_open and vioblk_open give: the io_intf of an entry of
fileArray, or of the n-th serial or block device. -/
inductive Obj
  | file (i : Fin 32)
  | ser (n : Nat)
  | blk (n : Nat)
  deriving DecidableEq

/-- struct vioblk_device; ops says whether io_intf.ops is set. -/
structure Vioblk where
  refcnt : Nat
  ops : Bool
  opened : Bool

/-- An entry of the iotab of a process. -/
abbrev Slot := Nat × Fin 16

/-- The objects, with the refcnt of the serial devices, the iotabs, and the processes created and
not exited. -/
structure State (σ : Type) where
  kfs : Globals σ
  ser : Nat → Nat
  blk : Nat → Vioblk
  iotab : Slot → Option Obj
  procs : Finset Nat

namespace State

def refcnt (s : State σ) : Obj → Nat
  | .file i => (s.kfs.fileArray i).refcnt
  | .ser n => s.ser n
  | .blk n => (s.blk n).refcnt

def setRefcnt (s : State σ) (o : Obj) (c : Nat) : State σ :=
  match o with
  | .file i => { s with kfs := s.kfs.setFile i { s.kfs.fileArray i with refcnt := c } }
  | .ser n => { s with ser := Function.update s.ser n c }
  | .blk n => { s with blk := Function.update s.blk n { s.blk n with refcnt := c } }

/-- Whether io->ops is not NULL. -/
def ops (s : State σ) : Obj → Bool
  | .file i => (s.kfs.fileArray i).ops
  | .ser _ => true
  | .blk n => (s.blk n).ops

/-- io->ops->close: fs_close, uart_close or vioblk_close. -/
def close (s : State σ) : Obj → State σ
  | .file i => { s with kfs := fsClose s.kfs i }
  | .ser _ => s
  | .blk n => { s with blk := Function.update s.blk n { s.blk n with ops := false, opened := false } }

def ioref (s : State σ) (o : Obj) : State σ := s.setRefcnt o ((s.refcnt o + 1) % 2 ^ 32)

/-- ioclose, with the object if its close is called. -/
def ioclose (s : State σ) (o : Obj) : State σ × List Obj :=
  let s := s.setRefcnt o ((s.refcnt o + (2 ^ 32 - 1)) % 2 ^ 32)
  if s.refcnt o = 0 then (s.close o, [o]) else (s, [])

def setEntry (s : State σ) (e : Slot) (v : Option Obj) : State σ := { s with iotab := Function.update s.iotab e v }

end State

/-- The devices that the drivers register: the serial device of the console, the others, and the
block devices. -/
inductive Device
  | console
  | ser (n : Nat)
  | blk (n : Nat)

/-- device_open, given the device found: uart_open_ebusy, uart_open or vioblk_open. -/
def deviceOpen (s : State σ) : Option Device → Option Obj × State σ
  | none | some .console => (none, s)
  | some (.ser n) => if s.ser n ≠ 0 then (none, s) else (some (.ser n), { s with ser := Function.update s.ser n 1 })
  | some (.blk n) =>
      if (s.blk n).opened then (none, s)
      else (some (.blk n), { s with blk := Function.update s.blk n ⟨((s.blk n).refcnt + 1) % 2 ^ 32, true, true⟩ })

/-- The system calls of a process; fork names the process that kmalloc allocates. -/
inductive Op
  | fsopen (fd : Fin 16) (loc : OpenLocals) (name : List UInt8)
  | devopen (fd : Fin 16) (device : Option Device)
  | close (fd : Fin 16)
  | fork (child : Nat)
  | exit

/-- One round of the loop of process_fork. -/
def copyEntry (p child : Nat) (s : State σ) (x : Fin 16) : State σ :=
  let s := s.setEntry (child, x) (s.iotab (p, x))
  match s.iotab (child, x) with
  | some o => s.ioref o
  | none => s

/-- The first n rounds of the loop of process_fork. -/
def copyLoop (p child : Nat) (s : State σ) : Nat → State σ
  | 0 => s
  | n + 1 => copyEntry p child (copyLoop p child s n) (Fin.ofNat 16 n)

/-- One round of the loop of process_exit, with the objects closed so far. -/
def closeEntry (p : Nat) (r : State σ × List Obj) (x : Fin 16) : State σ × List Obj :=
  match r.1.iotab (p, x) with
  | none => r
  | some o =>
      if r.1.ops o then
        let c := r.1.ioclose o
        (c.1, r.2 ++ c.2)
      else r

/-- The first n rounds of the loop of process_exit. -/
def exitLoop (p : Nat) (s : State σ) : Nat → State σ × List Obj
  | 0 => (s, [])
  | n + 1 => closeEntry p (exitLoop p s n) (Fin.ofNat 16 n)

/-- The processes that the memory has room for: nothing that kmalloc gave is used again, the
iotab alone takes 128 bytes, and RAM_SIZE is at most GIGA_SIZE. -/
def maxProcs : Nat := 2 ^ 30 / 128

/-- A call of process p, with the objects whose close is called; none if a close is not of an
open descriptor, kmalloc panics, or fs_open writes outside fileArray. -/
def step (dev : IoOps σ) (s : State σ) (p : Nat) : Op → Option (State σ × List Obj)
  | .fsopen fd loc name => do
      let (retVal, file, kfs) ← fsOpen dev loc s.kfs name
      let s := { s with kfs := kfs }
      if retVal ≠ 0 then return (s, [])
      else return (s.setEntry (p, fd) (file.map .file), [])
  | .devopen fd device =>
      match deviceOpen s device with
      | (some o, s) => some (s.setEntry (p, fd) (some o), [])
      | (none, s) => some (s, [])
  | .close fd => do
      let o ← s.iotab (p, fd)
      let r := s.ioclose o
      return (r.1.setEntry (p, fd) none, r.2)
  | .fork child =>
      if child ∈ s.procs ∨ maxProcs ≤ s.procs.card then none
      else
        let s := copyLoop p child s 16
        some ({ s with procs := insert child s.procs }, [])
  | .exit =>
      let r := exitLoop p s 16
      some ({ r.1 with procs := r.1.procs.erase p }, r.2)

/-- The entries of the iotabs of some processes. -/
def slots (procs : Finset Nat) : Finset Slot := procs ×ˢ Finset.univ

/-- The number of iotab entries of existing processes that point to an object. -/
def entries (s : State σ) : Obj → Nat := refs (slots s.procs) s.iotab

/-- What main leaves to the first process: blk 0 mounted and the file i₀ opened from it, neither
in a table. -/
structure Boot (dev : IoOps σ) (i₀ : Fin 32) (s : State σ) : Prop where
  kfs : ∃ boot intSpot blkio loc name, fsOpen dev loc (fsMount dev boot intSpot blkio).2 name = some (0, some i₀, s.kfs)
  ser : ∀ n, s.ser n = 0
  blk : ∀ n, s.blk n = if n = 0 then ⟨1, true, true⟩ else ⟨0, false, false⟩
  iotab : ∀ e, s.iotab e = none
  procs : s.procs = {0}

/-- The runs whose steps meet a condition on the state before. -/
inductive Run (dev : IoOps σ) (P : State σ → Nat → Op → Prop) (s₀ : State σ) : State σ → Prop
  | nil : Run dev P s₀ s₀
  | cons {s s' : State σ} {closed : List Obj} (p : Nat) (op : Op) (h : Run dev P s₀ s) (hp : p ∈ s.procs) (hop : P s p op)
      (hs : step dev s p op = some (s', closed)) : Run dev P s₀ s'

/-- The name is in the directory and the length of its file can be read. -/
def Readable (dev : IoOps σ) (k : Globals σ) (name : List UInt8) : Prop :=
  ∃ x, findDentry k.boot name = some x ∧
    let s := ioseek dev k.globalIO ((4096 + BitVec.ofNat 32 (dentryInode k.boot x) * 4096).signExtend 64).toNat
    s.1 = 0 ∧ ∃ read, dev.read = some read ∧ (read s.2 4).1 = 4

/-- The device is there and not open. -/
def Available (s : State σ) : Option Device → Prop
  | none | some .console => False
  | some (.ser n) => s.ser n = 0
  | some (.blk n) => (s.blk n).opened = false

/-- What is there to be opened goes to a free descriptor, and a file to a free entry of fileArray. -/
def Safe (dev : IoOps σ) (s : State σ) (p : Nat) : Op → Prop
  | .fsopen fd _ name => Readable dev s.kfs name → s.iotab (p, fd) = none ∧ ∃ y, (s.kfs.fileArray y).flags = 0
  | .devopen fd device => Available s device → s.iotab (p, fd) = none
  | _ => True

/-- refcnt is the number of entries, of all objects but the two that main holds, which are in no
entry. -/
structure Counted (i₀ : Fin 32) (s : State σ) : Prop where
  refcnt : ∀ o, o ≠ .file i₀ → o ≠ .blk 0 → s.refcnt o = entries s o
  main : entries s (.file i₀) = 0 ∧ entries s (.blk 0) = 0

section Fields

variable {s : State σ} {o o' : Obj} {c n : Nat} {i : Fin 32}

theorem refcnt_setRefcnt : (s.setRefcnt o c).refcnt o' = if o' = o then c else s.refcnt o' := by
  cases o with
  | file i =>
      cases o' with
      | file j =>
          by_cases h : j = i
          · simp [State.setRefcnt, State.refcnt, Globals.setFile, h]
          · simp [State.setRefcnt, State.refcnt, Globals.setFile, h]
      | _ => rfl
  | ser m =>
      cases o' with
      | ser k => simp [State.setRefcnt, State.refcnt, Function.update_apply]
      | _ => rfl
  | blk m =>
      cases o' with
      | blk k =>
          by_cases h : k = m
          · simp [State.setRefcnt, State.refcnt, h]
          · simp [State.setRefcnt, State.refcnt, h]
      | _ => rfl

/-- The rest of the state but the refcnts. -/
structure Alike (s s' : State σ) : Prop where
  ops : ∀ o, s'.ops o = s.ops o
  flags : ∀ i, (s'.kfs.fileArray i).flags = (s.kfs.fileArray i).flags
  intSpot : s'.kfs.intSpot = s.kfs.intSpot
  opened : ∀ n, (s'.blk n).opened = (s.blk n).opened
  iotab : s'.iotab = s.iotab
  procs : s'.procs = s.procs

theorem alike_setRefcnt : Alike s (s.setRefcnt o c) := by
  cases o with
  | file i =>
      have hfile : ∀ j, ((s.setRefcnt (.file i) c).kfs.fileArray j).flags = (s.kfs.fileArray j).flags ∧
          ((s.setRefcnt (.file i) c).kfs.fileArray j).ops = (s.kfs.fileArray j).ops := fun j => by
        by_cases h : j = i
        · simp [State.setRefcnt, Globals.setFile, h]
        · simp [State.setRefcnt, Globals.setFile, h]
      refine ⟨fun o => ?_, fun j => (hfile j).1, rfl, fun _ => rfl, rfl, rfl⟩
      cases o with
      | file j => exact (hfile j).2
      | _ => rfl
  | ser n => exact ⟨fun o => by cases o <;> rfl, fun _ => rfl, rfl, fun _ => rfl, rfl, rfl⟩
  | blk n =>
      have hblk : ∀ m, ((s.setRefcnt (.blk n) c).blk m).opened = (s.blk m).opened ∧
          ((s.setRefcnt (.blk n) c).blk m).ops = (s.blk m).ops := fun m => by
        by_cases h : m = n
        · simp [State.setRefcnt, h]
        · simp [State.setRefcnt, h]
      refine ⟨fun o => ?_, fun _ => rfl, rfl, fun m => (hblk m).1, rfl, rfl⟩
      cases o with
      | blk m => exact (hblk m).2
      | _ => rfl

theorem fsClose_fields (k : Globals σ) (i j : Fin 32) :
    ((fsClose k i).fileArray j).refcnt = (k.fileArray j).refcnt ∧ (fsClose k i).intSpot = k.intSpot ∧
      (j ≠ i → ((fsClose k i).fileArray j).ops = (k.fileArray j).ops) ∧
      (j ≠ k.intSpot → ((fsClose k i).fileArray j).flags = (k.fileArray j).flags) := by
  simp only [fsClose, Globals.setFile, Function.update_apply]
  refine ⟨?_, trivial, fun hi => ?_, fun hj => ?_⟩
  · split_ifs <;> simp_all
  · split_ifs <;> simp_all
  · split_ifs <;> simp_all

/-- What a close leaves alone. -/
theorem close_fields : (∀ o', (s.close o).refcnt o' = s.refcnt o') ∧ (∀ o' ≠ o, (s.close o).ops o' = s.ops o') ∧
    (∀ i, i ≠ s.kfs.intSpot ∨ (∀ j, o ≠ .file j) → ((s.close o).kfs.fileArray i).flags = (s.kfs.fileArray i).flags) ∧
    (s.close o).kfs.intSpot = s.kfs.intSpot ∧ (∀ n, o ≠ .blk n → ((s.close o).blk n).opened = (s.blk n).opened) ∧
    (s.close o).iotab = s.iotab ∧ (s.close o).procs = s.procs := by
  cases o with
  | file i =>
      have hf := fsClose_fields s.kfs i
      refine ⟨fun o' => ?_, fun o' ho => ?_, fun j hj => ?_, (hf i).2.1, fun _ _ => rfl, rfl, rfl⟩
      · cases o' with
        | file j => exact (hf j).1
        | _ => rfl
      · cases o' with
        | file j => exact (hf j).2.2.1 fun he => ho (he ▸ rfl)
        | _ => rfl
      · exact (hf j).2.2.2 (hj.resolve_right fun hall => hall i rfl)
  | ser n => exact ⟨fun _ => rfl, fun _ _ => rfl, fun _ _ => rfl, rfl, fun _ _ => rfl, rfl, rfl⟩
  | blk n =>
      refine ⟨fun o' => ?_, fun o' ho => ?_, fun _ _ => rfl, rfl, fun m hm => ?_, rfl, rfl⟩
      · cases o' with
        | blk m =>
            by_cases h : m = n
            · simp [State.close, State.refcnt, h]
            · simp [State.close, State.refcnt, h]
        | _ => rfl
      · cases o' with
        | blk m =>
            have h : m ≠ n := fun he => ho (he ▸ rfl)
            simp [State.close, State.ops, h]
        | _ => rfl
      · have h : m ≠ n := fun he => hm (he ▸ rfl)
        simp [State.close, h]

end Fields

/-- The references that main holds. -/
def held (i₀ : Fin 32) (o : Obj) : Nat := if o = .file i₀ ∨ o = .blk 0 then 1 else 0

/-- The invariant of a run, when the slots of S are those that count. -/
structure Inv (i₀ : Fin 32) (S : Finset Slot) (s : State σ) : Prop where
  counts : ∀ o, s.refcnt o = refs S s.iotab o + held i₀ o
  ops : ∀ o, 0 < refs S s.iotab o → s.ops o = true
  main : ∀ o, held i₀ o ≠ 0 → refs S s.iotab o = 0
  flags : (s.kfs.fileArray i₀).flags ≠ 0
  spot : s.kfs.intSpot = i₀ → ∀ i, refs S s.iotab (.file i) = 0
  opened : (s.blk 0).opened = true

section Invariant

variable {i₀ : Fin 32} {S : Finset Slot} {s s' : State σ} {o : Obj} {e : Slot}

theorem Inv.held_zero (h : Inv i₀ S s) (ho : 0 < refs S s.iotab o) : held i₀ o = 0 := by
  by_contra hh
  have := h.main o hh
  omega

theorem Inv.lt (h : Inv i₀ S s) (hcard : S.card < 2 ^ 31) (o : Obj) : s.refcnt o + 1 < 2 ^ 32 := by
  have hle : refs S s.iotab o ≤ S.card := refs_le_card
  have hheld : held i₀ o ≤ 1 := by
    rw [held]
    split <;> omega
  rw [h.counts]
  omega

/-- The invariant depends on the entries only through the references. -/
theorem Inv.congr {T : Finset Slot} {f : Slot → Option Obj} (h : Inv i₀ S s) (hr : ∀ o, refs T f o = refs S s.iotab o) :
    Inv i₀ T { s with iotab := f } :=
  ⟨fun o => (h.counts o).trans (by rw [hr]), fun o ho => h.ops o (hr o ▸ ho), fun o ho => (hr o).trans (h.main o ho), h.flags,
    fun hs i => (hr _).trans (h.spot hs i), h.opened⟩

theorem refs_released (he : e ∈ S) (ho : s.iotab e = some o) (o' : Obj) :
    refs S s.iotab o' = refs (S.erase e) s.iotab o' + if o' = o then 1 else 0 := by
  rw [refs_erase he, ho]
  simp only [Option.some.injEq, eq_comm]

/-- A slot that counted no more, its object given to ioclose. -/
theorem Inv.release (h : Inv i₀ S s) (he : e ∈ S) (ho : s.iotab e = some o) (hcard : S.card < 2 ^ 31) :
    Inv i₀ (S.erase e) (s.ioclose o).1 ∧ (s.ioclose o).1.iotab = s.iotab ∧ (s.ioclose o).1.procs = s.procs ∧
      Last (refs S s.iotab) (refs (S.erase e) s.iotab) (s.ioclose o).2 := by
  have hrefs := refs_released he ho
  have hself := hrefs o
  rw [if_pos rfl] at hself
  have hheld : held i₀ o = 0 := h.held_zero (by omega)
  have hcount := h.counts o
  have hlt := h.lt hcard o
  have hdec : (s.refcnt o + (2 ^ 32 - 1)) % 2 ^ 32 = refs (S.erase e) s.iotab o := by omega
  obtain ⟨c, hc⟩ : ∃ c, c = refs (S.erase e) s.iotab o := ⟨_, rfl⟩
  have hset : ∀ o', (s.setRefcnt o c).refcnt o' = if o' = o then c else s.refcnt o' := fun o' => refcnt_setRefcnt
  have halike : Alike s (s.setRefcnt o c) := alike_setRefcnt
  obtain ⟨hcr, hco, hcf, hcs, hcb, hci, hcp⟩ := close_fields (s := s.setRefcnt o c) (o := o)
  have hle : ∀ o', refs (S.erase e) s.iotab o' ≤ refs S s.iotab o' := fun o' => refs_mono (Finset.erase_subset e S)
  -- what the decrement and the close both leave as the invariant says
  have hnext : ∀ t : State σ, (∀ o', t.refcnt o' = (s.setRefcnt o c).refcnt o') → t.iotab = s.iotab →
      (∀ o', 0 < refs (S.erase e) s.iotab o' → t.ops o' = s.ops o') → (t.kfs.fileArray i₀).flags = (s.kfs.fileArray i₀).flags →
      t.kfs.intSpot = s.kfs.intSpot → (t.blk 0).opened = (s.blk 0).opened → Inv i₀ (S.erase e) t := by
    intro t hrefcnt hiotab hops hflags hspot hopened
    refine ⟨fun o' => ?_, fun o' ho' => ?_, fun o' ho' => ?_, hflags ▸ h.flags, fun hs i => ?_, hopened ▸ h.opened⟩
    · rw [hrefcnt, hset, hiotab]
      split
      · rename_i heq
        rw [heq, hheld, hc, Nat.add_zero]
      · rename_i hne
        rw [h.counts, hrefs, if_neg hne, Nat.add_zero]
    · rw [hiotab] at ho'
      rw [hops o' ho']
      exact h.ops o' (Nat.lt_of_lt_of_le ho' (hle o'))
    · rw [hiotab]
      have := hle o'
      have := h.main o' ho'
      omega
    · rw [hiotab]
      have := hle (.file i)
      have := h.spot (hspot ▸ hs) i
      omega
  rw [State.ioclose]
  simp only [hdec, ← hc, hset, if_true]
  split
  · rename_i hzero
    refine ⟨hnext _ hcr (hci.trans halike.iotab) (fun o' ho' => ?_) ?_ (hcs.trans halike.intSpot) ?_, hci.trans halike.iotab,
      hcp.trans halike.procs, fun o' => ?_⟩
    · have hne : o' ≠ o := fun heq => by
        rw [heq] at ho'
        omega
      exact (hco o' hne).trans (halike.ops o')
    · refine (hcf i₀ ?_).trans (halike.flags i₀)
      rw [halike.intSpot]
      by_cases hspot : s.kfs.intSpot = i₀
      · refine .inr fun j hj => ?_
        have := h.spot hspot j
        rw [hj] at hself
        omega
      · exact .inl (Ne.symm hspot)
    · refine (hcb 0 fun heq => ?_).trans (halike.opened 0)
      rw [heq, held, if_pos (.inr rfl)] at hheld
      cases hheld
    · have hrefs' := hrefs o'
      by_cases heq : o' = o
      · rw [heq, List.count_singleton_self, if_pos (by omega)]
      · rw [if_neg heq] at hrefs'
        rw [List.count_singleton, if_neg (by simpa using Ne.symm heq), if_neg (by omega)]
  · rename_i hpos
    refine ⟨hnext _ (fun _ => rfl) halike.iotab (fun o' _ => halike.ops o') (halike.flags i₀) halike.intSpot (halike.opened 0),
      halike.iotab, halike.procs, fun o' => ?_⟩
    have hrefs' := hrefs o'
    by_cases heq : o' = o
    · rw [heq, List.count_nil, if_neg (by omega)]
    · rw [if_neg heq] at hrefs'
      rw [List.count_nil, if_neg (by omega)]

end Invariant

section Gain

variable {dev : IoOps σ} {i₀ : Fin 32} {S T : Finset Slot} {s s' : State σ} {o : Obj}

/-- A reference to o taken, and in no entry yet. -/
structure Gained (i₀ : Fin 32) (s s' : State σ) (o : Obj) : Prop where
  refcnt : ∀ o', s'.refcnt o' = s.refcnt o' + if o' = o then 1 else 0
  ops : s'.ops o = true ∧ ∀ o' ≠ o, s'.ops o' = s.ops o'
  held : held i₀ o = 0
  flags : (s'.kfs.fileArray i₀).flags = (s.kfs.fileArray i₀).flags
  spot : s'.kfs.intSpot = i₀ → (∀ i, o ≠ .file i) ∧ s.kfs.intSpot = i₀
  opened : (s'.blk 0).opened = (s.blk 0).opened
  iotab : s'.iotab = s.iotab
  procs : s'.procs = s.procs

theorem Inv.gained {f : Slot → Option Obj} (h : Inv i₀ S s) (hg : Gained i₀ s s' o)
    (hr : ∀ o', refs T f o' = refs S s.iotab o' + if o' = o then 1 else 0) : Inv i₀ T { s' with iotab := f } := by
  have hne : ∀ o', o' ≠ o → refs T f o' = refs S s.iotab o' := fun o' ho' => by rw [hr, if_neg ho', Nat.add_zero]
  refine ⟨fun o' => ?_, fun o' ho' => ?_, fun o' ho' => ?_, fun hf => h.flags (hg.flags ▸ hf), fun hs i => ?_,
    hg.opened.trans h.opened⟩
  · have := hg.refcnt o'
    have := h.counts o'
    have := hr o'
    change s'.refcnt o' = refs T f o' + held i₀ o'
    omega
  · change s'.ops o' = true
    by_cases heq : o' = o
    · rw [heq]
      exact hg.ops.1
    · rw [hg.ops.2 o' heq]
      exact h.ops o' (hne o' heq ▸ ho')
  · have heq : o' ≠ o := fun heq => ho' (heq ▸ hg.held)
    exact (hne o' heq).trans (h.main o' ho')
  · obtain ⟨hfile, hspot⟩ := hg.spot hs
    exact (hne _ (Ne.symm (hfile i))).trans (h.spot hspot i)

theorem gained_ioref (h : Inv i₀ S s) (ho : 0 < refs S s.iotab o) (hcard : S.card < 2 ^ 31) : Gained i₀ s (s.ioref o) o := by
  have halike : Alike s (s.ioref o) := alike_setRefcnt
  have hlt := h.lt hcard o
  refine ⟨fun o' => ?_, ⟨(halike.ops o).trans (h.ops o ho), fun o' _ => halike.ops o'⟩, h.held_zero ho, halike.flags i₀,
    fun hs => ?_, halike.opened 0, halike.iotab, halike.procs⟩
  · rw [State.ioref, refcnt_setRefcnt]
    split
    · rename_i heq
      rw [heq]
      omega
    · omega
  · have hspot : s.kfs.intSpot = i₀ := halike.intSpot.symm.trans hs
    refine ⟨fun i hi => ?_, hspot⟩
    have := h.spot hspot i
    rw [hi] at ho
    omega

theorem gained_fsOpen {loc : OpenLocals} {name : List UInt8} {i : Fin 32} {k : Globals σ} (h : Inv i₀ S s)
    (hcard : S.card < 2 ^ 31) (hfree : ∃ y, (s.kfs.fileArray y).flags = 0)
    (hopen : fsOpen dev loc s.kfs name = some (0, some i, k)) : Gained i₀ s { s with kfs := k } (.file i) := by
  obtain ⟨hr, -⟩ | ⟨spot, fd, -, hi, hspot, hfa, -, hint, -, hrefcnt, hops⟩ := fsOpen_cases hopen
  · exact absurd hr (by decide)
  obtain rfl : i = spot := Option.some.inj hi
  obtain ⟨y, hy⟩ := hfree
  obtain ⟨z, hz⟩ := findSlot_isSome hy
  rw [hz, Option.some_or, Option.some.injEq] at hspot
  obtain rfl : z = i := hspot
  have hzero := findSlot_free hz
  have hne : z ≠ i₀ := fun he => h.flags (he ▸ hzero)
  have hlt : (s.kfs.fileArray z).refcnt + 1 < 2 ^ 32 := h.lt hcard (.file z)
  have hother : ∀ j, j ≠ z → k.fileArray j = s.kfs.fileArray j := fun j hj => by rw [hfa, Function.update_of_ne hj]
  have hself : k.fileArray z = fd := by rw [hfa, Function.update_self]
  refine ⟨fun o' => ?_, ⟨?_, fun o' ho' => ?_⟩, ?_, ?_, fun hs => absurd (hint.symm.trans hs) hne, rfl, rfl, rfl⟩
  · cases o' with
    | file j =>
        change (k.fileArray j).refcnt = (s.kfs.fileArray j).refcnt + _
        by_cases hj : j = z
        · rw [hj, hself, if_pos rfl, hrefcnt, Nat.mod_eq_of_lt hlt]
        · rw [hother j hj, if_neg (fun he => hj (Obj.file.inj he)), Nat.add_zero]
    | _ => rfl
  · change (k.fileArray z).ops = true
    rw [hself, hops]
  · cases o' with
    | file j =>
        change (k.fileArray j).ops = (s.kfs.fileArray j).ops
        rw [hother j fun he => ho' (he ▸ rfl)]
    | _ => rfl
  · rw [held, if_neg]
    rintro (he | he)
    · exact hne (Obj.file.inj he)
    · cases he
  · change (k.fileArray i₀).flags = _
    rw [hother i₀ (Ne.symm hne)]

theorem gained_deviceOpen {device : Option Device} (h : Inv i₀ S s) (hcard : S.card < 2 ^ 31)
    (hopen : (deviceOpen s device).1 = some o) : Gained i₀ s (deviceOpen s device).2 o := by
  unfold deviceOpen at hopen ⊢
  split at hopen
  · cases hopen
  · cases hopen
  · rename_i n
    split at hopen
    · cases hopen
    rename_i hser
    obtain rfl : Obj.ser n = o := Option.some.inj hopen
    rw [if_neg hser]
    refine ⟨fun o' => ?_, ⟨rfl, fun o' _ => by cases o' <;> rfl⟩, rfl, rfl, fun hs => ⟨fun i hi => (by cases hi), hs⟩, rfl, rfl, rfl⟩
    cases o' with
    | ser m =>
        change Function.update s.ser n 1 m = s.ser m + _
        by_cases hm : m = n
        · rw [hm, Function.update_self, if_pos rfl]
          omega
        · rw [Function.update_of_ne hm, if_neg (fun he => hm (Obj.ser.inj he)), Nat.add_zero]
    | _ => rfl
  · rename_i n
    split at hopen
    · cases hopen
    rename_i hclosed
    obtain rfl : Obj.blk n = o := Option.some.inj hopen
    rw [if_neg hclosed]
    have hne : n ≠ 0 := fun he => hclosed (he ▸ h.opened)
    have hlt : (s.blk n).refcnt + 1 < 2 ^ 32 := h.lt hcard (.blk n)
    have hother : ∀ m v, m ≠ n → Function.update s.blk n v m = s.blk m := fun m v hm => Function.update_of_ne hm v s.blk
    refine ⟨fun o' => ?_, ⟨?_, fun o' ho' => ?_⟩, ?_, rfl, fun hs => ⟨fun i hi => (by cases hi), hs⟩, ?_, rfl, rfl⟩
    · cases o' with
      | blk m =>
          change (Function.update s.blk n _ m).refcnt = (s.blk m).refcnt + _
          by_cases hm : m = n
          · rw [hm, Function.update_self, if_pos rfl]
            exact Nat.mod_eq_of_lt hlt
          · rw [hother m _ hm, if_neg (fun he => hm (Obj.blk.inj he)), Nat.add_zero]
      | _ => rfl
    · change (Function.update s.blk n _ n).ops = true
      rw [Function.update_self]
    · cases o' with
      | blk m =>
          change (Function.update s.blk n _ m).ops = (s.blk m).ops
          rw [hother m _ fun he => ho' (he ▸ rfl)]
      | _ => rfl
    · rw [held, if_neg]
      rintro (he | he)
      · cases he
      · exact hne (Obj.blk.inj he)
    · change (Function.update s.blk n _ 0).opened = (s.blk 0).opened
      rw [hother 0 _ (Ne.symm hne)]

end Gain

section Loops

variable {i₀ : Fin 32} {S : Finset Slot} {s : State σ} {procs : Finset Nat} {p child n : Nat} {x : Fin 16}

theorem mem_slots {e : Slot} : e ∈ slots procs ↔ e.1 ∈ procs := by
  rw [slots, Finset.mem_product, and_iff_left (Finset.mem_univ _)]

theorem slots_card : (slots procs).card = procs.card * 16 := by
  rw [slots, Finset.card_product, Finset.card_univ, Fintype.card_fin]

theorem eq_slot {e : Slot} (hn : n < 16) : e = (p, Fin.ofNat 16 n) ↔ e.1 = p ∧ e.2.val = n := by
  have hval : (Fin.ofNat 16 n).val = n := Nat.mod_eq_of_lt hn
  rw [Prod.ext_iff, Fin.ext_iff, hval]

/-- The slots that count after n rounds of the loop of process_fork. -/
def copied (procs : Finset Nat) (child n : Nat) : Finset Slot :=
  (slots (insert child procs)).filter fun e => e.1 = child → e.2.val < n

theorem mem_copied {e : Slot} :
    e ∈ copied procs child n ↔ (e.1 = child ∨ e.1 ∈ procs) ∧ (e.1 = child → e.2.val < n) := by
  rw [copied, Finset.mem_filter, mem_slots, Finset.mem_insert]

theorem copied_zero (hchild : child ∉ procs) : copied procs child 0 = slots procs := by
  ext e
  rw [mem_copied, mem_slots]
  constructor
  · rintro ⟨he | he, hlt⟩
    · exact absurd (hlt he) (Nat.not_lt_zero _)
    · exact he
  · exact fun he => ⟨.inr he, fun heq => absurd (heq ▸ he) hchild⟩

theorem copied_succ (hn : n < 16) :
    copied procs child (n + 1) = insert (child, Fin.ofNat 16 n) (copied procs child n) := by
  ext e
  rw [Finset.mem_insert, mem_copied, mem_copied, eq_slot hn]
  by_cases he : e.1 = child
  · simp only [he, true_or, true_and, forall_const]
    omega
  · simp only [he, false_or, false_and, false_implies, and_true]

theorem copied_last : copied procs child 16 = slots (insert child procs) :=
  Finset.filter_true_of_mem fun e _ _ => e.2.isLt

/-- The slots that count after n rounds of the loop of process_exit. -/
def remaining (procs : Finset Nat) (p n : Nat) : Finset Slot := (slots procs).filter fun e => e.1 = p → n ≤ e.2.val

theorem mem_remaining {e : Slot} : e ∈ remaining procs p n ↔ e.1 ∈ procs ∧ (e.1 = p → n ≤ e.2.val) := by
  rw [remaining, Finset.mem_filter, mem_slots]

theorem remaining_zero : remaining procs p 0 = slots procs := Finset.filter_true_of_mem fun _ _ _ => Nat.zero_le _

theorem remaining_succ (hn : n < 16) : remaining procs p (n + 1) = (remaining procs p n).erase (p, Fin.ofNat 16 n) := by
  ext e
  rw [Finset.mem_erase, mem_remaining, mem_remaining, ne_eq, eq_slot hn]
  constructor
  · rintro ⟨he, hle⟩
    refine ⟨fun hslot => ?_, he, fun heq => (Nat.le_succ n).trans (hle heq)⟩
    have := hle hslot.1
    omega
  · rintro ⟨hne, he, hle⟩
    exact ⟨he, fun heq => (hle heq).lt_of_ne fun hn => hne ⟨heq, hn.symm⟩⟩

theorem remaining_last : remaining procs p 16 = slots (procs.erase p) := by
  ext e
  rw [mem_remaining, mem_slots, Finset.mem_erase]
  constructor
  · rintro ⟨he, hlast⟩
    exact ⟨fun heq => absurd (hlast heq) (Nat.not_le.mpr e.2.isLt), he⟩
  · exact fun he => ⟨he.2, fun heq => absurd heq he.1⟩

theorem some_eq_some (o o' : Obj) : (if some o = some o' then 1 else 0) = if o' = o then 1 else 0 := by
  simp only [Option.some.injEq, eq_comm]

theorem copyEntry_inv (h : Inv i₀ S s) (hp : (p, x) ∈ S) (hc : (child, x) ∉ S) (hcard : S.card < 2 ^ 31) :
    Inv i₀ (insert (child, x) S) (copyEntry p child s x) ∧
      (∀ o, refs S s.iotab o ≤ refs (insert (child, x) S) (copyEntry p child s x).iotab o) ∧
      (copyEntry p child s x).procs = s.procs := by
  have hrefs : ∀ v o, refs (insert (child, x) S) (Function.update s.iotab (child, x) v) o =
      refs S s.iotab o + if v = some o then 1 else 0 := fun v o => by
    rw [refs_insert hc, refs_update hc, Function.update_self]
  have hentry : ∀ v, (s.setEntry (child, x) v).iotab (child, x) = v := fun v => Function.update_self _ _ _
  unfold copyEntry
  obtain ⟨v, hv⟩ : ∃ v, v = s.iotab (p, x) := ⟨_, rfl⟩
  rw [← hv]
  cases v with
  | none =>
      simp only [hentry]
      exact ⟨h.congr (hrefs none), fun o => (hrefs none o).symm ▸ Nat.le_add_right _ _, rfl⟩
  | some o =>
      simp only [hentry]
      have hcomm : (s.setEntry (child, x) (some o)).ioref o =
          { s.ioref o with iotab := Function.update s.iotab (child, x) (some o) } := by cases o <;> rfl
      have hg := gained_ioref h (refs_pos hp hv.symm) hcard
      rw [hcomm]
      refine ⟨h.gained hg fun o' => (hrefs (some o) o').trans (by rw [some_eq_some]), fun o' => ?_, hg.procs⟩
      exact (hrefs (some o) o').symm ▸ Nat.le_add_right _ _

theorem copyLoop_inv (h : Inv i₀ (slots s.procs) s) (hp : p ∈ s.procs) (hchild : child ∉ s.procs)
    (hprocs : s.procs.card < maxProcs) (hn : n ≤ 16) :
    Inv i₀ (copied s.procs child n) (copyLoop p child s n) ∧
      (∀ o, entries s o ≤ refs (copied s.procs child n) (copyLoop p child s n).iotab o) ∧
      (copyLoop p child s n).procs = s.procs := by
  induction n with
  | zero => exact ⟨(copied_zero hchild).symm ▸ h, fun o => (copied_zero hchild).symm ▸ Nat.le_refl _, rfl⟩
  | succ n ih =>
      obtain ⟨hinv, hle, hsame⟩ := ih (by omega)
      have hval : (Fin.ofNat 16 n).val = n := Nat.mod_eq_of_lt hn
      have hpar : (p, Fin.ofNat 16 n) ∈ copied s.procs child n :=
        mem_copied.mpr ⟨.inr hp, fun heq => absurd (heq ▸ hp) hchild⟩
      have hnew : (child, Fin.ofNat 16 n) ∉ copied s.procs child n := fun hm => by
        have hlt : (Fin.ofNat 16 n).val < n := (mem_copied.mp hm).2 rfl
        omega
      have hcard : (copied s.procs child n).card < 2 ^ 31 := by
        have hle : (copied s.procs child n).card ≤ (slots (insert child s.procs)).card := Finset.card_filter_le _ _
        have hins := Finset.card_insert_le child s.procs
        rw [slots_card] at hle
        rw [maxProcs] at hprocs
        omega
      obtain ⟨hinv', hle', hsame'⟩ := copyEntry_inv hinv hpar hnew hcard
      rw [copied_succ hn]
      exact ⟨hinv', fun o => (hle o).trans (hle' o), hsame'.trans hsame⟩

theorem closeEntry_inv {r : State σ × List Obj} (h : Inv i₀ S r.1) (hp : (p, x) ∈ S) (hcard : S.card < 2 ^ 31) :
    Inv i₀ (S.erase (p, x)) (closeEntry p r x).1 ∧ (closeEntry p r x).1.iotab = r.1.iotab ∧
      (closeEntry p r x).1.procs = r.1.procs ∧
      ∃ c, (closeEntry p r x).2 = r.2 ++ c ∧ Last (refs S r.1.iotab) (refs (S.erase (p, x)) r.1.iotab) c := by
  unfold closeEntry
  cases hv : r.1.iotab (p, x) with
  | none =>
      have hrefs : ∀ o, refs (S.erase (p, x)) r.1.iotab o = refs S r.1.iotab o := fun o => by
        rw [refs_erase hp, hv, if_neg (by simp), Nat.add_zero]
      exact ⟨h.congr hrefs, rfl, rfl, [], (List.append_nil _).symm, .none fun o => (hrefs o).ge⟩
  | some o =>
      obtain ⟨hinv, hiotab, hprocs, hlast⟩ := h.release hp hv hcard
      simp only [h.ops o (refs_pos hp hv), if_true]
      exact ⟨hinv, hiotab, hprocs, _, rfl, hlast⟩

/-- One round of the loop of process_exit. -/
theorem exitLoop_succ (h : Inv i₀ (remaining s.procs p n) (exitLoop p s n).1) (hiotab : (exitLoop p s n).1.iotab = s.iotab)
    (hp : p ∈ s.procs) (hprocs : s.procs.card ≤ maxProcs) (hn : n < 16) :
    Inv i₀ (remaining s.procs p (n + 1)) (exitLoop p s (n + 1)).1 ∧ (exitLoop p s (n + 1)).1.iotab = s.iotab ∧
      (exitLoop p s (n + 1)).1.procs = (exitLoop p s n).1.procs ∧
      ∃ c, (exitLoop p s (n + 1)).2 = (exitLoop p s n).2 ++ c ∧
        Last (refs (remaining s.procs p n) s.iotab) (refs (remaining s.procs p (n + 1)) s.iotab) c := by
  have hval : (Fin.ofNat 16 n).val = n := Nat.mod_eq_of_lt hn
  have hmem : (p, Fin.ofNat 16 n) ∈ remaining s.procs p n := mem_remaining.mpr ⟨hp, fun _ => hval.ge⟩
  have hcard : (remaining s.procs p n).card < 2 ^ 31 := by
    have hle : (remaining s.procs p n).card ≤ (slots s.procs).card := Finset.card_filter_le _ _
    rw [slots_card] at hle
    rw [maxProcs] at hprocs
    omega
  rw [remaining_succ hn, ← hiotab]
  exact closeEntry_inv h hmem hcard

theorem exitLoop_inv (h : Inv i₀ (slots s.procs) s) (hp : p ∈ s.procs) (hprocs : s.procs.card ≤ maxProcs) (hn : n ≤ 16) :
    Inv i₀ (remaining s.procs p n) (exitLoop p s n).1 ∧ (exitLoop p s n).1.iotab = s.iotab ∧
      (exitLoop p s n).1.procs = s.procs ∧
      Last (entries s) (refs (remaining s.procs p n) s.iotab) (exitLoop p s n).2 := by
  induction n with
  | zero => exact ⟨remaining_zero.symm ▸ h, rfl, rfl, .none fun o => remaining_zero.symm ▸ Nat.le_refl _⟩
  | succ n ih =>
      obtain ⟨hinv, hiotab, hsame, hlast⟩ := ih (by omega)
      obtain ⟨hinv', hiotab', hsame', c, hc, hlast'⟩ := exitLoop_succ hinv hiotab hp hprocs hn
      refine ⟨hinv', hiotab', hsame'.trans hsame, ?_⟩
      rw [hc]
      refine hlast.trans hlast' (fun o => refs_mono (Finset.filter_subset _ _)) fun o => ?_
      rw [remaining_succ hn]
      exact refs_mono (Finset.erase_subset _ _)

end Loops

section Runs

variable {dev : IoOps σ} {i₀ : Fin 32} {s s' s₀ : State σ} {p : Nat} {op : Op} {closed : List Obj}

theorem slots_lt (hprocs : s.procs.card ≤ maxProcs) : (slots s.procs).card < 2 ^ 31 := by
  rw [slots_card]
  rw [maxProcs] at hprocs
  omega

theorem readable_of_fsOpen {loc : OpenLocals} {k k' : Globals σ} {name : List UInt8} {io : Option (Fin 32)}
    (h : fsOpen dev loc k name = some (0, io, k')) : Readable dev k name := by
  unfold fsOpen at h
  split at h
  · rename_i x hx
    simp only [Option.bind_eq_bind] at h
    split at h
    · cases h
    rename_i hseek
    obtain ⟨read, hread, h⟩ := Option.bind_eq_some_iff.mp h
    split at h
    · cases h
    rename_i hlen
    exact ⟨x, hx, not_not.mp hseek, read, hread, not_not.mp hlen⟩
  · cases h

theorem available_of_deviceOpen {device : Option Device} {o : Obj} (h : (deviceOpen s device).1 = some o) :
    Available s device := by
  unfold deviceOpen at h
  split at h
  · cases h
  · cases h
  · split at h
    · cases h
    · exact not_not.mp ‹_›
  · split at h
    · cases h
    · exact Bool.eq_false_iff.mpr ‹_›

theorem deviceOpen_none {device : Option Device} (h : (deviceOpen s device).1 = none) : (deviceOpen s device).2 = s := by
  unfold deviceOpen at h ⊢
  split at h
  · rfl
  · rfl
  · split at h
    · rename_i hbusy
      rw [if_pos hbusy]
    · cases h
  · split at h
    · rename_i hbusy
      rw [if_pos hbusy]
    · cases h

theorem Inv.withProcs {S : Finset Slot} (h : Inv i₀ S s) (procs : Finset Nat) : Inv i₀ S { s with procs := procs } :=
  ⟨h.counts, h.ops, h.main, h.flags, h.spot, h.opened⟩

theorem open_inv {o : Obj} {e : Slot} (h : Inv i₀ (slots s.procs) s) (hg : Gained i₀ s s' o) (he : e.1 ∈ s.procs)
    (hfree : s.iotab e = none) :
    Inv i₀ (slots s'.procs) (s'.setEntry e (some o)) ∧ Last (entries s) (entries (s'.setEntry e (some o))) [] := by
  have hr : ∀ o', refs (slots s'.procs) (Function.update s'.iotab e (some o)) o' =
      refs (slots s.procs) s.iotab o' + if o' = o then 1 else 0 := fun o' => by
    rw [hg.procs, hg.iotab, refs_store (mem_slots.mpr he), refs_erase (mem_slots.mpr he) (f := s.iotab), hfree,
      if_neg (show ¬ none = some o' by simp), some_eq_some, Nat.add_zero]
  exact ⟨h.gained hg hr, .none fun o' => (Nat.le_add_right _ _).trans_eq (hr o').symm⟩

theorem close_inv {o : Obj} {e : Slot} (h : Inv i₀ (slots s.procs) s) (hprocs : s.procs.card ≤ maxProcs) (he : e.1 ∈ s.procs)
    (ho : s.iotab e = some o) :
    ((s.ioclose o).1.setEntry e none).procs = s.procs ∧ Inv i₀ (slots s.procs) ((s.ioclose o).1.setEntry e none) ∧
      Last (entries s) (entries ((s.ioclose o).1.setEntry e none)) (s.ioclose o).2 := by
  obtain ⟨hinv, hiotab, hsame, hlast⟩ := h.release (mem_slots.mpr he) ho (slots_lt hprocs)
  have hr : ∀ o', refs (slots s.procs) (Function.update (s.ioclose o).1.iotab e none) o' =
      refs ((slots s.procs).erase e) (s.ioclose o).1.iotab o' := fun o' => by
    rw [refs_store (mem_slots.mpr he), if_neg (show ¬ none = some o' by simp), Nat.add_zero]
  have hentries : entries ((s.ioclose o).1.setEntry e none) = refs ((slots s.procs).erase e) s.iotab := funext fun o' => by
    rw [← hiotab, ← hr]
    exact congrArg (refs · _ o') (congrArg slots hsame)
  exact ⟨hsame, hinv.congr hr, hentries ▸ hlast⟩

theorem step_inv (h : Inv i₀ (slots s.procs) s) (hprocs : s.procs.card ≤ maxProcs) (hp : p ∈ s.procs)
    (hsafe : Safe dev s p op) (hs : step dev s p op = some (s', closed)) :
    Inv i₀ (slots s'.procs) s' ∧ s'.procs.card ≤ maxProcs ∧ Last (entries s) (entries s') closed := by
  cases op with
  | fsopen fd loc name =>
      obtain ⟨⟨r, io, k⟩, hopen, hs⟩ := Option.bind_eq_some_iff.mp hs
      dsimp only at hs
      obtain ⟨hr, -, hfa, -, hint⟩ | ⟨i, -, rfl, rfl, -⟩ := fsOpen_cases hopen
      · rw [if_pos (ne_of_lt hr)] at hs
        obtain ⟨rfl, rfl⟩ := by simpa using hs
        have hfile : ∀ i, k.fileArray i = s.kfs.fileArray i := fun i => by rw [hfa]
        refine ⟨⟨fun o => ?_, fun o ho => ?_, h.main, ?_, fun hspot => h.spot (hint.symm.trans hspot), h.opened⟩, hprocs,
          .none fun _ => Nat.le_refl _⟩
        · rw [← h.counts]
          cases o with
          | file i => exact congrArg FileDesc.refcnt (hfile i)
          | _ => rfl
        · rw [← h.ops o ho]
          cases o with
          | file i => exact congrArg FileDesc.ops (hfile i)
          | _ => rfl
        · exact hfile i₀ ▸ h.flags
      · rw [if_neg (not_not.mpr rfl)] at hs
        obtain ⟨rfl, rfl⟩ := by simpa using hs
        obtain ⟨hfree, hslot⟩ := hsafe (readable_of_fsOpen hopen)
        have hinv := open_inv (e := (p, fd)) h (gained_fsOpen h (slots_lt hprocs) hslot hopen) hp hfree
        exact ⟨hinv.1, hprocs, hinv.2⟩
  | devopen fd device =>
      obtain ⟨r, hr⟩ : ∃ r, r = deviceOpen s device := ⟨_, rfl⟩
      rw [step, ← hr] at hs
      obtain ⟨io, t⟩ := r
      cases io with
      | none =>
          have ht : t = s := (congrArg Prod.snd hr).trans (deviceOpen_none (congrArg Prod.fst hr.symm))
          obtain ⟨rfl, rfl⟩ := by simpa using hs
          exact ⟨ht ▸ h, ht ▸ hprocs, .none fun _ => ht ▸ Nat.le_refl _⟩
      | some o =>
          have hg := gained_deviceOpen (o := o) h (slots_lt hprocs) (by rw [← hr])
          rw [← hr] at hg
          have hinv := open_inv (e := (p, fd)) h hg hp (hsafe (available_of_deviceOpen (o := o) (by rw [← hr])))
          obtain ⟨rfl, rfl⟩ := by simpa using hs
          exact ⟨hinv.1, hg.procs ▸ hprocs, hinv.2⟩
  | close fd =>
      obtain ⟨o, ho, hs⟩ := Option.bind_eq_some_iff.mp hs
      obtain ⟨rfl, rfl⟩ := by simpa using hs
      obtain ⟨hsame, hinv, hlast⟩ := close_inv (e := (p, fd)) h hprocs hp ho
      exact ⟨hsame ▸ hinv, hsame ▸ hprocs, hlast⟩
  | fork child =>
      rw [step] at hs
      split at hs
      · cases hs
      rename_i hroom
      obtain ⟨hchild, hlt⟩ := not_or.mp hroom
      obtain ⟨hinv, hle, hsame⟩ := copyLoop_inv (n := 16) h hp hchild (Nat.lt_of_not_le hlt) (Nat.le_refl _)
      obtain ⟨rfl, rfl⟩ := by simpa using hs
      rw [copied_last] at hinv hle
      refine ⟨?_, ?_, .none fun o => ?_⟩
      · change Inv i₀ (slots (insert child (copyLoop p child s 16).procs)) _
        rw [hsame]
        exact hinv.withProcs _
      · change (insert child (copyLoop p child s 16).procs).card ≤ maxProcs
        rw [hsame]
        have := Finset.card_insert_le child s.procs
        omega
      · change _ ≤ refs (slots (insert child (copyLoop p child s 16).procs)) _ o
        rw [hsame]
        exact hle o
  | exit =>
      obtain ⟨hinv, hiotab, hsame, hlast⟩ := exitLoop_inv (n := 16) h hp hprocs (Nat.le_refl _)
      obtain ⟨rfl, rfl⟩ := by simpa [step] using hs
      rw [remaining_last] at hinv hlast
      refine ⟨?_, ?_, ?_⟩
      · change Inv i₀ (slots ((exitLoop p s 16).1.procs.erase p)) _
        rw [hsame]
        exact hinv.withProcs _
      · change ((exitLoop p s 16).1.procs.erase p).card ≤ maxProcs
        rw [hsame]
        exact Finset.card_erase_le.trans hprocs
      · change Last (entries s) (refs (slots ((exitLoop p s 16).1.procs.erase p)) (exitLoop p s 16).1.iotab) _
        rw [hsame, hiotab]
        exact hlast

theorem refs_none {S : Finset Slot} {f : Slot → Option Obj} (h : ∀ e, f e = none) (o : Obj) : refs S f o = 0 := by
  rw [refs, Finset.card_eq_zero]
  exact Finset.filter_eq_empty_iff.mpr fun e _ he => by
    rw [h e] at he
    cases he

/-- The state that main leaves. -/
theorem boot_inv (h : Boot dev i₀ s) : Inv i₀ (slots s.procs) s ∧ s.procs.card ≤ maxProcs := by
  obtain ⟨boot, intSpot, blkio, loc, name, hopen⟩ := h.kfs
  have hnone : ∀ o, refs (slots s.procs) s.iotab o = 0 := refs_none h.iotab
  obtain ⟨hr, -⟩ | ⟨i, fd, -, hi, -, hfa, -, -, hflags, hrefcnt, -⟩ := fsOpen_cases hopen
  · exact absurd hr (by decide)
  obtain rfl : i₀ = i := Option.some.inj hi
  have hself : s.kfs.fileArray i₀ = fd := by rw [hfa, Function.update_self]
  have hother : ∀ j, j ≠ i₀ → s.kfs.fileArray j = FileDesc.zero := fun j hj => by
    rw [hfa, Function.update_of_ne hj]
    rfl
  refine ⟨⟨fun o => ?_, fun o ho => absurd (hnone o) ho.ne', fun o _ => hnone o, ?_, fun _ i => hnone _, ?_⟩, ?_⟩
  · rw [hnone, Nat.zero_add]
    cases o with
    | file j =>
        change (s.kfs.fileArray j).refcnt = _
        by_cases hj : j = i₀
        · rw [hj, hself, hrefcnt, held, if_pos (.inl rfl)]
          rfl
        · rw [hother j hj, held, if_neg (by simp [hj])]
          rfl
    | ser n => exact (h.ser n).trans (by rw [held, if_neg (by simp)])
    | blk n =>
        change (s.blk n).refcnt = _
        rw [h.blk]
        by_cases hn : n = 0
        · rw [if_pos hn, held, if_pos (.inr (by rw [hn]))]
        · rw [if_neg hn, held, if_neg (by simp [hn])]
  · rw [hself, hflags]
    decide
  · rw [h.blk, if_pos rfl]
  · rw [h.procs, Finset.card_singleton]
    decide

theorem run_inv (hboot : Boot dev i₀ s₀) (hrun : Run dev (Safe dev) s₀ s) :
    Inv i₀ (slots s.procs) s ∧ s.procs.card ≤ maxProcs := by
  induction hrun with
  | nil => exact boot_inv hboot
  | cons p op _ hp hsafe hs ih =>
      obtain ⟨hinv, hprocs, -⟩ := step_inv ih.1 ih.2 hp hsafe hs
      exact ⟨hinv, hprocs⟩

theorem Inv.counted (h : Inv i₀ (slots s.procs) s) : Counted i₀ s := by
  refine ⟨fun o hfile hblk => ?_, h.main _ ?_, h.main _ ?_⟩
  · rw [h.counts, held, if_neg (not_or.mpr ⟨hfile, hblk⟩)]
    rfl
  · rw [held, if_pos (.inl rfl)]
    decide
  · rw [held, if_pos (.inr rfl)]
    decide

/-- In a run of such steps every refcnt is right, and a close is called for the last entry of an
object: by a call, and by a round of the loop of process_exit. -/
theorem references_counted (hboot : Boot dev i₀ s₀) (hrun : Run dev (Safe dev) s₀ s) :
    Counted i₀ s ∧ ∀ p ∈ s.procs,
      (∀ op s' closed, Safe dev s p op → step dev s p op = some (s', closed) → Last (entries s) (entries s') closed) ∧
      ∀ n < 16, ∃ closed, (exitLoop p s (n + 1)).2 = (exitLoop p s n).2 ++ closed ∧
        Last (refs (remaining s.procs p n) s.iotab) (refs (remaining s.procs p (n + 1)) s.iotab) closed := by
  obtain ⟨hinv, hprocs⟩ := run_inv hboot hrun
  refine ⟨hinv.counted, fun p hp => ⟨fun op s' closed hsafe hs => (step_inv hinv hprocs hp hsafe hs).2.2, fun n hn => ?_⟩⟩
  obtain ⟨hinv', hiotab, -⟩ := exitLoop_inv hinv hp hprocs hn.le
  obtain ⟨-, -, -, hclosed⟩ := exitLoop_succ hinv' hiotab hp hprocs hn
  exact hclosed

end Runs

section Initial

open FlatDisk

def mounted : Globals Disk := (fsMount FlatDisk.ops twoFiles 0 ⟨twoFiles, 3 * 4096, 0⟩).2

/-- main opens the file a. -/
def initOpen : Option (Int × Option (Fin 32) × Globals Disk) := fsOpen FlatDisk.ops ⟨none, 0⟩ mounted [97]

def initKfs : Globals Disk := (initOpen.map fun r => r.2.2).getD mounted

def initState : State Disk where
  kfs := initKfs
  ser _ := 0
  blk n := if n = 0 then ⟨1, true, true⟩ else ⟨0, false, false⟩
  iotab _ := none
  procs := {0}

theorem boot_initState : Boot FlatDisk.ops 0 initState := by
  have hopen : initOpen.map (fun r => (r.1, r.2.1)) = some (0, some 0) := by decide +kernel
  obtain ⟨⟨r, io, k⟩, hk, heq⟩ := Option.map_eq_some_iff.mp hopen
  obtain ⟨rfl, rfl⟩ := Prod.mk.inj heq
  have hkfs : initState.kfs = k := by
    simp only [initState, initKfs, hk]
    rfl
  exact ⟨⟨twoFiles, 0, ⟨twoFiles, 3 * 4096, 0⟩, ⟨none, 0⟩, [97], hkfs ▸ hk⟩, fun _ => rfl, fun _ => rfl, fun _ => rfl, rfl⟩

/-- The first process has opened serial device n in its descriptor 0. -/
def openSer (s : State σ) (n : Nat) : State σ :=
  { s with ser := Function.update s.ser n 1 }.setEntry (0, 0) (some (.ser n))

theorem step_openSer {dev : IoOps σ} {s : State σ} {n : Nat} (h : s.ser n = 0) :
    step dev s 0 (.devopen 0 (some (.ser n))) = some (openSer s n, []) := by
  simp [step, deviceOpen, h, openSer]

theorem references_counted_openSer :
    Counted 0 (openSer initState 1) ∧ ∃ s', step FlatDisk.ops (openSer initState 1) 0 (.close 0) = some (s', [.ser 1]) ∧
      Last (entries (openSer initState 1)) (entries s') [.ser 1] := by
  have hs : step FlatDisk.ops initState 0 (.devopen 0 (some (.ser 1))) = some (openSer initState 1, []) := step_openSer rfl
  obtain ⟨hcounted, hlast⟩ := references_counted boot_initState
    (.cons 0 (.devopen 0 (some (.ser 1))) .nil (Finset.mem_singleton_self 0) (fun _ => rfl) hs)
  obtain ⟨s', hs'⟩ : ∃ s', step FlatDisk.ops (openSer initState 1) 0 (.close 0) = some (s', [.ser 1]) := ⟨_, rfl⟩
  exact ⟨hcounted, s', hs', (hlast 0 (Finset.mem_singleton_self 0)).1 (.close 0) s' _ trivial hs'⟩

/-- A descriptor opened again leaves the first device with a refcnt and no entry. -/
theorem not_counted_overwritten : ¬ ∀ s₀ s : State Disk, Boot FlatDisk.ops 0 s₀ →
    Run FlatDisk.ops (fun _ _ _ => True) s₀ s → Counted 0 s := by
  intro hall
  have hs : step FlatDisk.ops initState 0 (.devopen 0 (some (.ser 1))) = some (openSer initState 1, []) := step_openSer rfl
  have hs' : step FlatDisk.ops (openSer initState 1) 0 (.devopen 0 (some (.ser 2))) =
      some (openSer (openSer initState 1) 2, []) := step_openSer rfl
  have hcounted := hall initState _ boot_initState
    (.cons 0 _ (.cons 0 _ .nil (Finset.mem_singleton_self 0) trivial hs) (Finset.mem_singleton_self 0) trivial hs')
  have hrefcnt : (openSer (openSer initState 1) 2).refcnt (.ser 1) = 1 := rfl
  have hentries : entries (openSer (openSer initState 1) 2) (.ser 1) = 0 := by decide +kernel
  have := hcounted.refcnt (.ser 1) (by simp) (by simp)
  omega

end Initial

end RiscvKernel.RefCount
