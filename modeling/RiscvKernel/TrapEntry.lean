import RiscvKernel.Lib.Rv64

namespace RiscvKernel.TrapEntry

open Lib.Rv64

abbrev ra : Reg := 1
abbrev sp : Reg := 2
abbrev tp : Reg := 4
abbrev a0 : Reg := 10
abbrev a1 : Reg := 11
abbrev t6 : Reg := 31

/-- The macro save_gprs_except_t6_and_sp. -/
def saveGprsExceptT6AndSp : List Instr :=
  (ra :: (List.finRange 32).filter fun r => 3 ≤ r ∧ r ≤ 30).map fun r => .sd r (8 * r.val) sp

/-- The macro save_sstatus_and_sepc. -/
def saveSstatusAndSepc : List Instr :=
  [.csrr t6 .sstatus, .sd t6 (32 * 8) sp, .csrr t6 .sepc, .sd t6 (33 * 8) sp]

/-- _trap_entry_from_umode up to its call of trap_umode_cont. smodeEntry is the address of
_trap_entry_from_smode, back the one behind the call. -/
def trapEntryFromUmode (smodeEntry back : Word) : List Instr :=
  ([.csrrw sp .sscratch sp, .addi sp sp (-34 * 8), .sd t6 (31 * 8) sp, .csrr t6 .sscratch, .sd t6 (2 * 8) sp] : List Instr) ++
    saveGprsExceptT6AndSp ++ saveSstatusAndSepc ++ ([.la t6 smodeEntry, .csrw .stvec t6, .link ra back] : List Instr)

/-- trap_umode_cont up to its branch, and behind it. -/
def trapUmodeCont : List Instr := [.csrr a0 .scause, .addi a1 sp 0]

def clearMsb : List Instr := [.slli a0 a0 1, .srli a0 a0 1]

inductive Handler
  | umodeExcpHandler
  | intrHandler

/-- The C function that a trap from user mode ends up in, and the machine when it is
entered. -/
def enterHandler (smodeEntry back : Word) (m : Machine) : Handler × Machine :=
  let m := run m (trapEntryFromUmode smodeEntry back ++ trapUmodeCont)
  if (m.get a0).msb then (.intrHandler, run m clearMsb) else (.umodeExcpHandler, m)

theorem trapUmodeCont_spec (m : Machine) : (run m trapUmodeCont).get a0 = m.csr .scause ∧ (run m trapUmodeCont).get a1 = m.get sp ∧
    (run m trapUmodeCont).mem = m.mem := by
  have ha0 : a0 ≠ 0 := by decide
  have ha1 : a1 ≠ 0 := by decide
  have hne : sp ≠ a0 ∧ a0 ≠ a1 := by decide
  have hzero : BitVec.ofInt 64 0 = 0 := rfl
  simp only [trapUmodeCont, run, List.foldl_cons, List.foldl_nil, step, get_set_ne hne.2, get_set_self ha0, get_set_self ha1,
    get_set_ne hne.1, hzero, add_zero, mem_set, and_self]

theorem clearMsb_spec (m : Machine) : (run m clearMsb).get a0 = m.get a0 <<< 1 >>> 1 ∧ (run m clearMsb).get a1 = m.get a1 ∧
    (run m clearMsb).mem = m.mem := by
  have ha0 : a0 ≠ 0 := by decide
  have hne : a1 ≠ a0 := by decide
  simp only [clearMsb, run, List.foldl_cons, List.foldl_nil, step, get_set_self ha0, get_set_ne hne, mem_set, and_self]

/-- CURTHR is whatever tp holds. -/
def curthr (m : Machine) : Word := m.get tp

/-- Nothing on the way into a handler writes tp. -/
theorem curthr_enterHandler (smodeEntry back : Word) (m : Machine) :
    curthr (enterHandler smodeEntry back m).2 = curthr m := by
  have hentry : (trapEntryFromUmode smodeEntry back ++ trapUmodeCont).all (fun i => i.dest ≠ some tp) = true := rfl
  have hclear : clearMsb.all (fun i => i.dest ≠ some tp) = true := rfl
  simp only [enterHandler]
  split
  · exact (run_get hclear).trans (run_get hentry)
  · exact run_get hentry

end RiscvKernel.TrapEntry
