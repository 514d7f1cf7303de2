import RiscvKernel.ElfScan
import RiscvKernel.Literal

namespace RiscvKernel.ExecFailure

open Memory Io PageOwnership VirtualMemory ElfLoad ElfScan Literal

section Exec

variable {σ μ : Type} {ops : IoOps σ} {vm : VmOps μ} {st : Locals} {exeEntry : BitVec 64} {s : σ} {m : μ}

variable (ops vm st exeEntry s m) in
/-- A file that elf_load rejects is not run and process_exec reports it; user mode is
entered at the entry of a file that elf_load loaded. -/
structure ExecSafe : Prop where
  rejected : ∀ r entry s' m', elfLoad ops vm st s (vm.unmapAndFreeUser m) = some (r, entry, s', m') → r < 0 →
    ∃ r', processExec ops vm st exeEntry s m = some (.returned r') ∧ r' < 0
  entered : ∀ usp upc s' m', processExec ops vm st exeEntry s m = some (.user usp upc s' m') →
    elfLoad ops vm st s (vm.unmapAndFreeUser m) = some (0, some upc, s', m')

/-- process_exec enters user mode whatever elf_load returns. -/
theorem processExec_scan : processExec ops vm st exeEntry s m =
    (loadAll vm (vm.unmapAndFreeUser m) (scan ops st s).segments).map fun m' =>
      .user userEnd ((if (scan ops st s).result < 0 then none else some (headerOf ops st s).eEntry).getD exeEntry)
        (scan ops st s).file m' := by
  simp only [processExec, elfLoad_scan, Option.bind_eq_bind, Option.pure_def]
  cases loadAll vm (vm.unmapAndFreeUser m) (scan ops st s).segments <;> rfl

theorem execSafe_iff : ExecSafe ops vm st exeEntry s m ↔
    Loadable ops st s ∨ loadAll vm (vm.unmapAndFreeUser m) (scan ops st s).segments = none := by
  have hload := @elfLoad_scan _ _ ops vm st s (vm.unmapAndFreeUser m)
  have hexec := @processExec_scan _ _ ops vm st exeEntry s m
  constructor
  · intro h
    refine or_iff_not_imp_right.mpr fun hne => ?_
    obtain ⟨m', hm'⟩ := Option.ne_none_iff_exists'.mp hne
    rw [hm'] at hload hexec
    rcases @scan_result _ ops st s with ⟨hl, -⟩ | ⟨-, hr⟩
    · exact hl
    · obtain ⟨r', hret, -⟩ := h.rejected _ _ _ _ hload hr
      cases hexec.symm.trans hret
  · rintro (hl | hnone)
    · have hr : (scan ops st s).result = 0 :=
        ((@scan_result _ ops st s).resolve_right fun h => h.1 hl).2
      rw [hr, if_neg (by decide)] at hload hexec
      refine ⟨fun r entry s' m' h hneg => ?_, fun usp upc s' m' h => ?_⟩
      · obtain ⟨m₁, -, he⟩ := Option.map_eq_some_iff.mp (hload.symm.trans h)
        obtain ⟨rfl, -⟩ := Prod.mk.inj he
        exact absurd hneg (by decide)
      · obtain ⟨m₁, hm₁, he⟩ := Option.map_eq_some_iff.mp (hexec.symm.trans h)
        rw [hload, hm₁]
        cases he
        rfl
    · rw [hnone] at hload hexec
      refine ⟨fun r entry s' m' h => ?_, fun usp upc s' m' h => ?_⟩
      · cases hload.symm.trans h
      · cases hexec.symm.trans h

end Exec

/-- The kernel keeps to files it can load exactly where it has one, or where it panics
while it maps and fills the segments before the check that fails. -/
theorem failed_exec_iff {σ : Type} (ops : IoOps σ) (st : Locals) (exeEntry : BitVec 64) (s : σ) (m : Mem) :
    ExecSafe ops kernelVm st exeEntry s m ↔ Loadable ops st s ∨
      loadAll kernelVm (kernelVm.unmapAndFreeUser m) (scan ops st s).segments = none := by
  exact execSafe_iff

/-- An empty file: user mode is entered at what the local variable held. -/
theorem failed_exec_runs :
    elfLoad iolitOps kernelVm ⟨fun _ => 0, fun _ _ => 0⟩ ⟨[], 0⟩ (kernelVm.unmapAndFreeUser sampleMem) =
      some (-1, none, ⟨[], 0⟩, kernelVm.unmapAndFreeUser sampleMem) ∧
    processExec iolitOps kernelVm ⟨fun _ => 0, fun _ _ => 0⟩ 0xDEADBEEF ⟨[], 0⟩ sampleMem =
      some (.user userEnd 0xDEADBEEF ⟨[], 0⟩ (kernelVm.unmapAndFreeUser sampleMem)) ∧
    ¬ ExecSafe iolitOps kernelVm ⟨fun _ => 0, fun _ _ => 0⟩ 0xDEADBEEF ⟨[], 0⟩ sampleMem := by
  have hscan : scan iolitOps ⟨fun _ => 0, fun _ _ => 0⟩ ⟨[], 0⟩ = ⟨[], -1, ⟨[], 0⟩⟩ := by rfl
  have hload := @elfLoad_scan _ _ iolitOps kernelVm ⟨fun _ => 0, fun _ _ => 0⟩ ⟨[], 0⟩
    (kernelVm.unmapAndFreeUser sampleMem)
  have hexec := @processExec_scan _ _ iolitOps kernelVm ⟨fun _ => 0, fun _ _ => 0⟩ 0xDEADBEEF ⟨[], 0⟩ sampleMem
  rw [hscan] at hload hexec
  refine ⟨hload, hexec, fun h => ?_⟩
  obtain ⟨r', hret, -⟩ := h.rejected _ _ _ _ hload (by decide)
  cases hexec.symm.trans hret

end RiscvKernel.ExecFailure
