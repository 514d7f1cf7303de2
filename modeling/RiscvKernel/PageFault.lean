import RiscvKernel.UserImage
import RiscvKernel.DeepCopy

namespace RiscvKernel.PageFault

open Memory PageTree AddressSpace MapPage UserImage DeepCopy Lib.PathLookup Lib.PointerTree
open PageOwnership (Kernel userStart userEnd memoryHandlePageFault vpn_user)

structure TrapFrame where
  x : Fin 32 → BitVec 64
  sstatus : BitVec 64
  sepc : BitVec 64

/-- What becomes of a process: it is resumed, or it has exited. -/
inductive Outcome
  | resumes (s : Kernel)
  | exits (s : Kernel)

def Outcome.kernel : Outcome → Kernel
  | .resumes s => s
  | .exits s => s

def faultFlags : BitVec 8 := pteW ||| pteR ||| pteU

/-- memory_handle_page_fault, with whether it returns: process_exit does not. -/
def handlePageFault (s : Kernel) (vptr : BitVec 64) : Option Outcome :=
  if userStart ≤ vptr ∧ vptr ≤ userEnd then
    (memoryAllocAndMapPage s.mem vptr faultFlags).map fun m => .resumes (s.setMem m)
  else some (.exits s.reclaim)

theorem handlePageFault_kernel (s : Kernel) (vptr : BitVec 64) :
    (handlePageFault s vptr).map Outcome.kernel = memoryHandlePageFault s vptr := by
  rw [handlePageFault, memoryHandlePageFault]
  split
  · rw [Option.map_map]
    rfl
  · rfl

/-- The codes of scause. -/
def ecallFromUmode : Nat := 8
def storePageFault : Nat := 15

/-- INSTRUCT, the register that umode_excp_handler takes for the faulting address. -/
def instruct : Fin 32 := 2

/-- umode_excp_handler; none when the kernel panics. -/
def umodeExcpHandler (syscallHandler : TrapFrame → Kernel → Option Outcome) (code : Nat) (tfr : TrapFrame) (s : Kernel) :
    Option Outcome :=
  if code = ecallFromUmode then syscallHandler tfr s
  else if code = storePageFault then handlePageFault s (tfr.x instruct)
  else none

/-- The page of f, and no other, has been mapped in the active space of m. -/
structure MapsPage (m : Mem) (f : BitVec 64) (m' : Mem) : Prop where
  satp : m'.satp = m.satp
  mapped : ∀ a, IsUser a → pageNo a = pageNo f → ∃ tr, translate m'.ram (rootOf m.satp) a = some tr ∧
    has tr.entry pteR = true ∧ has tr.entry pteW = true ∧ has tr.entry pteU = true
  kept : ∀ a tr, IsUser a → translate m.ram (rootOf m.satp) a = some tr →
    translate m'.ram (rootOf m.satp) a = some tr ∧ m'.ram (tr.page a) = m.ram (tr.page a)
  one : ∀ a, IsUser a → pageNo a ≠ pageNo f → translate m.ram (rootOf m.satp) a = none →
    translate m'.ram (rootOf m.satp) a = none

/-- A fault of the user region on a page that is not mapped maps that page, and any other fault
outside the region ends the process. -/
structure HandlesFault (s : Kernel) (f : BitVec 64) (r : Option Outcome) : Prop where
  inside : IsUser f → translate s.mem.ram (rootOf s.mem.satp) f = none → ∀ o, r = some o →
    ∃ m', o = .resumes (s.setMem m') ∧ MapsPage s.mem f m'
  outside : ¬ IsUser f → r = some (.exits s.reclaim)

/-- The stack pointer tells what to do about a fault at f. -/
structure TellsFault (m : Mem) (sp f : BitVec 64) : Prop where
  inside : IsUser f → translate m.ram (rootOf m.satp) f = none → pageNo sp = pageNo f
  outside : ¬ IsUser f → ¬ (userStart ≤ sp ∧ sp ≤ userEnd)

section Fault

variable {m m' : Mem} {s : Kernel} {free free' : List Ppn} {a f sp w : BitVec 64}

/-- memory_alloc_and_map_page from USER_START_VMA up to and with USER_END_VMA. -/
theorem fault_updated (h : UserSpace m free) (hs : userStart ≤ sp) (he : sp ≤ userEnd)
    (hrun : memoryAllocAndMapPage m sp faultFlags = some m') :
    ∃ free' w, UserSpace m' free' ∧ m'.satp = m.satp ∧ Updated (rootOf m.satp) m sp faultFlags w m' := by
  have hlt : sp.toNat < 2 ^ 38 := Nat.lt_of_le_of_lt (BitVec.le_def.mp he) (by decide)
  rcases memoryAllocAndMapPage_entries ownEntry_zero ownEntry_ptabPte (fun e he hv => (he hv).1)
    (@UserSpace.leaf_ok faultFlags (by decide)) h.space h.user (Fin.ext (vpn_user hs he)) (wellformed_of_lt hlt) with
    ⟨hnone, -⟩ | ⟨m₁, free', w, hsome, hspace, huser, hsatp, hup, -⟩
  · cases hnone.symm.trans hrun
  · obtain rfl := Option.some.inj (hsome.symm.trans hrun)
    exact ⟨free', w, ⟨hspace, huser⟩, hsatp, hup⟩

theorem faultFlags_leaf (w : BitVec 64) : isLeaf (leafPte w faultFlags) = true ∧ leafOk 0 (leafPte w faultFlags) = true ∧
    has (leafPte w faultFlags) pteR = true ∧ has (leafPte w faultFlags) pteW = true ∧
    has (leafPte w faultFlags) pteU = true := by
  have hr : has (leafPte w faultFlags) pteR = true := by
    rw [has, flagsOf_leafPte]
    decide
  refine ⟨?_, ?_, hr, ?_, ?_⟩
  · rw [isLeaf, has, flagsOf_leafPte]
    decide
  · rw [leafOk, hr, pow_zero, Nat.mod_one]
    rfl
  · rw [has, flagsOf_leafPte]
    decide
  · rw [has, flagsOf_leafPte]
    decide

theorem translate_page (h : UserSpace m free) (ha : IsUser a) (hf : IsUser f) (hn : pageNo a = pageNo f) :
    translate m.ram (rootOf m.satp) a = translate m.ram (rootOf m.satp) f := by
  rw [h.translate ha, h.translate hf, vpns_congr ((vpns_eq_iff ha hf).mpr hn)]

theorem translate_entry (h : UserSpace m free) (ha : IsUser a) {tr : Translation}
    (htr : translate m.ram (rootOf m.satp) a = some tr) :
    ∃ e, entryAt m.ram (rootOf m.satp) a = some e ∧ tr = ⟨0, e, has e pteG⟩ := by
  rw [h.translate ha] at htr
  obtain ⟨e, he, htr⟩ := Option.bind_eq_some_iff.mp htr
  split at htr
  · split at htr
    · exact ⟨e, he, (Option.some.inj htr).symm⟩
    · cases htr
  · cases htr

/-- What is not on the page of sp stays as it is. -/
theorem translate_other (h : UserSpace m free) (h' : UserSpace m' free') (hsatp : m'.satp = m.satp)
    (hup : Updated (rootOf m.satp) m sp faultFlags w m') (hs : sp.toNat < 2 ^ 39) (ha : IsUser a)
    (hn : pageNo a ≠ pageNo sp) : translate m'.ram (rootOf m.satp) a = translate m.ram (rootOf m.satp) a := by
  have hvpns : ¬ ∀ i < 3, vpns a i = vpns sp i := fun hv =>
    hn (pageNo_of_vpns (Nat.lt_trans ha.bounds.2 (by decide)) hs hv)
  have hentry : entryAt m'.ram (rootOf m.satp) a = entryAt m.ram (rootOf m.satp) a := hup.other _ hvpns
  have ht := h'.translate ha
  rw [hsatp] at ht
  rw [ht, hentry, h.translate ha]

theorem MapsPage.of_updated (h : UserSpace m free) (h' : UserSpace m' free') (hsatp : m'.satp = m.satp)
    (hup : Updated (rootOf m.satp) m sp faultFlags w m') (hs : IsUser sp) (hf : IsUser f) (hn : pageNo sp = pageNo f)
    (hnone : translate m.ram (rootOf m.satp) f = none) : MapsPage m f m' := by
  have hlt : sp.toNat < 2 ^ 39 := Nat.lt_trans hs.bounds.2 (by decide)
  refine ⟨hsatp, fun a ha hpage => ?_, fun a tr ha htr => ?_, fun a ha hpage hun => ?_⟩
  · obtain ⟨hl, hok, hr, hw, hu⟩ := faultFlags_leaf w
    have ht := h'.translate ha
    rw [hsatp, hup.entryAt hs ha, if_pos (hpage.trans hn.symm), Option.bind_some, if_pos hl, if_pos hok] at ht
    exact ⟨_, ht, hr, hw, hu⟩
  · have hne : pageNo a ≠ pageNo sp := by
      intro he
      rw [translate_page h ha hf (he.trans hn), hnone] at htr
      cases htr
    refine ⟨(translate_other h h' hsatp hup hlt ha hne).trans htr, ?_⟩
    obtain ⟨e, he, rfl⟩ := translate_entry h ha htr
    rw [page_level_zero rfl]
    exact hup.pages _ e _ he (h.reaches_own he)
  · rw [translate_other h h' hsatp hup hlt ha fun he => hpage (he.trans hn)]
    exact hun

theorem handlePageFault_inside (hs : userStart ≤ sp ∧ sp ≤ userEnd) : handlePageFault s sp =
    (memoryAllocAndMapPage s.mem sp faultFlags).map fun m => .resumes (s.setMem m) := if_pos hs

theorem handlePageFault_outside (hs : ¬ (userStart ≤ sp ∧ sp ≤ userEnd)) :
    handlePageFault s sp = some (.exits s.reclaim) := if_neg hs

/-- The page of sp is mapped, so the fault at f is handled only if f is on it. -/
theorem HandlesFault.tells (h : UserSpace s.mem free) (hr : IsUser f → handlePageFault s sp ≠ none)
    (hh : HandlesFault s f (handlePageFault s sp)) : TellsFault s.mem sp f := by
  constructor
  · intro hf hun
    obtain ⟨o, ho⟩ := Option.ne_none_iff_exists'.mp (hr hf)
    obtain ⟨m', rfl, hmaps⟩ := hh.inside hf hun o ho
    by_contra hn
    by_cases hs : userStart ≤ sp ∧ sp ≤ userEnd
    · rw [handlePageFault_inside hs] at ho
      obtain ⟨m₁, hrun, ho⟩ := Option.map_eq_some_iff.mp ho
      obtain rfl : m₁ = m' := congrArg Kernel.mem (Outcome.resumes.inj ho)
      obtain ⟨free', w, h', hsatp, hup⟩ := fault_updated h hs.1 hs.2 hrun
      obtain ⟨tr, htr, -⟩ := hmaps.mapped f hf rfl
      have hlt : sp.toNat < 2 ^ 39 := Nat.lt_of_le_of_lt (BitVec.le_def.mp hs.2) (by decide)
      rw [translate_other h h' hsatp hup hlt hf fun he => hn he.symm, hun] at htr
      cases htr
    · rw [handlePageFault_outside hs] at ho
      cases ho
  · intro hf hs
    have ho := hh.outside hf
    rw [handlePageFault_inside hs] at ho
    obtain ⟨m₁, -, ho⟩ := Option.map_eq_some_iff.mp ho
    cases ho

theorem TellsFault.handles (h : UserSpace s.mem free) (ht : TellsFault s.mem sp f) :
    HandlesFault s f (handlePageFault s sp) := by
  constructor
  · intro hf hun o ho
    have hn := ht.inside hf hun
    have hs : IsUser sp := by
      rw [isUser_iff] at hf ⊢
      unfold pageNo at hn
      omega
    rw [handlePageFault_inside ⟨hs.1, BitVec.le_of_lt hs.2⟩] at ho
    obtain ⟨m', hrun, rfl⟩ := Option.map_eq_some_iff.mp ho
    obtain ⟨free', w, h', hsatp, hup⟩ := fault_updated h hs.1 (BitVec.le_of_lt hs.2) hrun
    exact ⟨m', rfl, .of_updated h h' hsatp hup hs hf hn hun⟩
  · intro hf
    exact handlePageFault_outside (ht.outside hf)

end Fault

/-- umode_excp_handler gives memory_handle_page_fault the stack pointer and not stval, so it does
what it should for the fault at f only where the one stands for the other. -/
theorem umodeExcpHandler_handles_iff (syscallHandler : TrapFrame → Kernel → Option Outcome) (tfr : TrapFrame) (s : Kernel)
    {free : List Ppn} (h : UserSpace s.mem free) (f : BitVec 64)
    (hr : IsUser f → umodeExcpHandler syscallHandler storePageFault tfr s ≠ none) :
    HandlesFault s f (umodeExcpHandler syscallHandler storePageFault tfr s) ↔ TellsFault s.mem (tfr.x instruct) f := by
  have hcall : umodeExcpHandler syscallHandler storePageFault tfr s = handlePageFault s (tfr.x instruct) := by
    rw [umodeExcpHandler, if_neg (by decide), if_pos rfl]
  rw [hcall] at hr ⊢
  exact ⟨HandlesFault.tells h hr, TellsFault.handles h⟩

section Sample

theorem sample_userSpace : UserSpace sampleMem sampleFree := by
  have hspace := sample_wellFormed.space
  refine ⟨⟨hspace.list, hspace.nodup, ?_⟩, fun _ => by decide⟩
  have h₁₀ : layout.All OwnEntry 1 sampleMem.ram 10 := by
    refine fun i => ⟨fun hv => ?_, fun _ _ => trivial⟩
    have hi := sample_valid hv
    simp at hi
    rw [hi]
    decide
  have h₉ : layout.All OwnEntry 2 sampleMem.ram 9 := by
    refine fun i => ⟨fun hv => ?_, fun c hc => ?_⟩
    · have hi := sample_valid hv
      simp at hi
      rw [hi]
      decide
    · have hown := sample_child hc
      simp [sampleOwn] at hown
      rw [hown.2]
      exact h₁₀
  rw [show rootOf sampleMem.satp = 1 by decide]
  refine fun i => ⟨fun hv hg => ?_, fun c hc => ?_⟩
  · have hi := sample_valid hv
    simp at hi
    rcases hi with rfl | rfl
    · exact absurd hg (by decide)
    · decide
  · have hown := sample_child hc
    simp [sampleOwn] at hown
    rw [hown.2]
    exact h₉

/-- The sample space, active and main. -/
def sampleKernel : Kernel := ⟨sampleMem, sampleMem.satp, []⟩

def noSyscall : TrapFrame → Kernel → Option Outcome := fun _ _ => none

/-- A trap with the stack pointer sp. -/
def trapAt (sp : BitVec 64) : TrapFrame := ⟨fun i => if i = instruct then sp else 0, 0, 0⟩

theorem sample_resumes {sp : BitVec 64} (hs : IsUser sp) : handlePageFault sampleKernel sp ≠ none := by
  rw [handlePageFault_inside ⟨hs.1, BitVec.le_of_lt hs.2⟩]
  rcases memoryAllocAndMapPage_entries ownEntry_zero ownEntry_ptabPte (fun e he hv => (he hv).1)
    (@UserSpace.leaf_ok faultFlags (by decide)) sample_userSpace.space sample_userSpace.user hs.vpn_two
    hs.wellformed with ⟨-, hlen⟩ | ⟨m', -, -, hrun, -⟩
  · exact absurd hlen (by decide)
  · have hrun : memoryAllocAndMapPage sampleKernel.mem sp faultFlags = some m' := hrun
    rw [hrun]
    exact Option.some_ne_none _

/-- A push below the stack pointer, on its page. -/
theorem umodeExcpHandler_handles_push : HandlesFault sampleKernel 0xC0001FF8
    (umodeExcpHandler noSyscall storePageFault (trapAt 0xC0001FF0) sampleKernel) := by
  have hsp : IsUser 0xC0001FF0 := ⟨by decide, by decide⟩
  refine (umodeExcpHandler_handles_iff noSyscall (trapAt 0xC0001FF0) sampleKernel sample_userSpace 0xC0001FF8
    fun _ => sample_resumes hsp).mpr ⟨fun _ _ => by decide, fun hf => ?_⟩
  exact absurd ⟨by decide, by decide⟩ hf

/-- A store to the first page of a program that has its stack elsewhere. -/
theorem not_handlesFault_data : IsUser 0xC0001000 ∧ translate sampleMem.ram (rootOf sampleMem.satp) 0xC0001000 = none ∧
    ¬ HandlesFault sampleKernel 0xC0001000 (umodeExcpHandler noSyscall storePageFault (trapAt 0xC0005000) sampleKernel) := by
  have hf : IsUser 0xC0001000 := ⟨by decide, by decide⟩
  have hun : translate sampleMem.ram (rootOf sampleMem.satp) 0xC0001000 = none := by decide
  refine ⟨hf, hun, fun hh => ?_⟩
  have htells : TellsFault sampleMem 0xC0005000 0xC0001000 :=
    HandlesFault.tells (s := sampleKernel) sample_userSpace (fun _ => sample_resumes ⟨by decide, by decide⟩) hh
  exact absurd (htells.inside hf hun) (by decide)

end Sample

end RiscvKernel.PageFault
