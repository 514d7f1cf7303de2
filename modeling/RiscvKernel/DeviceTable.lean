import RiscvKernel.Io

namespace RiscvKernel.DeviceTable

variable {φ ω : Type}

def ndev : Nat := 16

def enodev : Int := 4

/-- A string by its characters before the NUL. -/
abbrev Str := List UInt8

def strcmpLoop : Str → Str → Int
  | [], [] => 0
  | [], _ :: _ => -1
  | _ :: _, [] => 1
  | c :: s1, d :: s2 => if c = d then strcmpLoop s1 s2 else if c < d then -1 else 1

/-- strcmp of two strings that may be NULL. -/
def strcmp : Option Str → Option Str → Int
  | none, none => 0
  | none, some _ => -1
  | some _, none => 1
  | some s1, some s2 => strcmpLoop s1 s2

structure Device (φ ω : Type) where
  name : Option Str
  openfn : Option φ
  aux : Option ω

abbrev Devtab (φ ω : Type) := Nat → Device φ ω

/-- An entry of devtab before its registration. -/
def Device.zero : Device φ ω := ⟨none, none, none⟩

/-- The loop of device_register over the next rest entries: the empty slot, or NDEV, and instno. -/
def findSlot (devtab : Devtab φ ω) (name : Option Str) : Nat → Nat → Int → Nat × Int
  | 0, devno, instno => (devno, instno)
  | rest + 1, devno, instno =>
      if (devtab devno).name = none then (devno, instno)
      else findSlot devtab name rest (devno + 1) (if strcmp (devtab devno).name name = 0 then instno + 1 else instno)

/-- device_register: none when an assertion fails or the table is full. -/
def deviceRegister (devtab : Devtab φ ω) (dev : Device φ ω) : Option (Int × Devtab φ ω) :=
  if dev.name = none then none
  else if dev.openfn.isNone then none
  else
    let r := findSlot devtab dev.name ndev 0 0
    if r.1 = ndev then none else some (r.2, Function.update devtab r.1 dev)

/-- The loop of device_open over the next rest entries: the entry found, or NDEV. -/
def findDevice (devtab : Devtab φ ω) (name : Option Str) (instno : Int) : Nat → Nat → Int → Nat
  | 0, devno, _ => devno
  | rest + 1, devno, k =>
      if (devtab devno).openfn.isSome ∧ strcmp (devtab devno).name name = 0 then
        if k = instno then devno else findDevice devtab name instno rest (devno + 1) (k + 1)
      else findDevice devtab name instno rest (devno + 1) k

/-- What device_open does: it returns a value of its own, or calls a driver's open function. -/
inductive Opening (φ ω : Type)
  | returned (r : Int)
  | called (openfn : Option φ) (aux : Option ω)

def deviceOpen (devtab : Devtab φ ω) (name : Option Str) (instno : Int) : Opening φ ω :=
  let devno := findDevice devtab name instno ndev 0 0
  if devno = ndev then .returned (-enodev) else .called (devtab devno).openfn (devtab devno).aux

/-- The arguments of a call of device_register, none of them NULL. -/
structure Registration (φ ω : Type) where
  name : Str
  openfn : φ
  aux : ω

def Registration.device (reg : Registration φ ω) : Device φ ω := ⟨some reg.name, some reg.openfn, some reg.aux⟩

/-- One registration after another: the numbers returned and the table. -/
def registerAll : List (Registration φ ω) → Devtab φ ω → Option (List Int × Devtab φ ω)
  | [], devtab => some ([], devtab)
  | reg :: regs, devtab =>
      match deviceRegister devtab reg.device with
      | none => none
      | some (instno, devtab) => (registerAll regs devtab).map fun r => (instno :: r.1, r.2)

/-- How many devices of the name are registered. -/
def instances (name : Option Str) (regs : List (Registration φ ω)) : Nat :=
  (regs.filter fun reg => some reg.name = name).length

section Strcmp

theorem strcmpLoop_eq_zero (s t : Str) : strcmpLoop s t = 0 ↔ s = t := by
  induction s generalizing t with
  | nil => cases t <;> simp [strcmpLoop]
  | cons c s ih =>
      cases t with
      | nil => simp [strcmpLoop]
      | cons d t =>
          rw [strcmpLoop]
          by_cases hcd : c = d
          · simp [hcd, ih]
          · rw [if_neg hcd]
            split <;> simp [hcd]

theorem strcmp_some_eq_zero (s : Str) (name : Option Str) : strcmp (some s) name = 0 ↔ some s = name := by
  cases name with
  | none => simp [strcmp]
  | some t => rw [strcmp, strcmpLoop_eq_zero, Option.some.injEq]

end Strcmp

section Loops

variable {devtab : Devtab φ ω} {name : Option Str} {l regs : List (Registration φ ω)} {devno rest : Nat} {k instno : Int}

/-- The entries from devno on are those of the registrations, then come empty ones. -/
def Filled (devtab : Devtab φ ω) (devno : Nat) (l : List (Registration φ ω)) : Prop :=
  ∀ j, devtab (devno + j) = (l[j]?.map Registration.device).getD Device.zero

theorem Filled.head {reg : Registration φ ω} (h : Filled devtab devno (reg :: l)) : devtab devno = reg.device := h 0

theorem Filled.tail {reg : Registration φ ω} (h : Filled devtab devno (reg :: l)) : Filled devtab (devno + 1) l := by
  intro j
  rw [Nat.add_right_comm, Nat.add_assoc]
  exact h (j + 1)

theorem Filled.empty (h : Filled devtab devno []) : devtab devno = Device.zero := h 0

theorem Filled.next (h : Filled devtab devno []) : Filled devtab (devno + 1) [] := by
  intro j
  rw [Nat.add_right_comm, Nat.add_assoc]
  exact h (j + 1)

theorem instances_cons (name : Option Str) (reg : Registration φ ω) (l : List (Registration φ ω)) :
    instances name (reg :: l) = if some reg.name = name then instances name l + 1 else instances name l := by
  rw [instances, List.filter_cons]
  by_cases h : some reg.name = name <;> simp [h, instances]

/-- device_register finds the first empty slot and has counted the devices of the name. -/
theorem findSlot_filled (h : Filled devtab devno l) (hl : l.length ≤ rest) (instno : Int) :
    findSlot devtab name rest devno instno = (devno + l.length, instno + instances name l) := by
  induction rest generalizing l devno instno with
  | zero =>
      obtain rfl := List.eq_nil_of_length_eq_zero (Nat.le_zero.mp hl)
      simp [findSlot, instances]
  | succ rest ih =>
      rw [findSlot]
      cases l with
      | nil => simp [h.empty, Device.zero, instances]
      | cons reg l =>
          rw [h.head, if_neg (by simp [Registration.device]), ih h.tail (Nat.le_of_succ_le_succ hl), instances_cons]
          simp only [Registration.device, strcmp_some_eq_zero]
          split <;> (congr 1 <;> push_cast [List.length_cons] <;> omega)

/-- device_open stops at a device of the name that has as many of that name before it as it
has still to skip. -/
theorem findDevice_found {pre post : List (Registration φ ω)} {reg : Registration φ ω}
    (h : Filled devtab devno (pre ++ reg :: post)) (hl : pre.length < rest) (hk : instno = k + instances (some reg.name) pre) :
    findDevice devtab (some reg.name) instno rest devno k = devno + pre.length := by
  induction rest generalizing pre devno k with
  | zero => exact absurd hl (Nat.not_lt_zero _)
  | succ rest ih =>
      rw [findDevice]
      cases pre with
      | nil =>
          have hki : k = instno := by simpa [instances] using hk.symm
          rw [h.head, if_pos ⟨rfl, (strcmp_some_eq_zero _ _).mpr rfl⟩, if_pos hki]
          rfl
      | cons p pre =>
          have hlt : pre.length < rest := Nat.lt_of_succ_lt_succ hl
          rw [instances_cons] at hk
          have hlen : devno + (p :: pre).length = devno + 1 + pre.length := by
            rw [List.length_cons]
            omega
          rw [List.cons_append] at h
          rw [h.head, hlen]
          simp only [Registration.device, Option.isSome_some, strcmp_some_eq_zero, true_and]
          by_cases hp : some p.name = some reg.name
          · rw [if_pos hp] at hk ⊢
            rw [if_neg (by omega)]
            exact ih h.tail hlt (by push_cast at hk; omega)
          · rw [if_neg hp] at hk ⊢
            exact ih h.tail hlt hk

/-- device_open runs to the end of the table when there is no such instance. -/
theorem findDevice_missing (h : Filled devtab devno l) (hk : instno < k ∨ k + instances name l ≤ instno) :
    findDevice devtab name instno rest devno k = devno + rest := by
  induction rest generalizing l devno k with
  | zero => rfl
  | succ rest ih =>
      rw [findDevice, ← Nat.add_assoc, Nat.add_right_comm]
      cases l with
      | nil =>
          rw [h.empty, if_neg (by simp [Device.zero])]
          exact ih h.next hk
      | cons reg l =>
          rw [instances_cons] at hk
          rw [h.head]
          simp only [Registration.device, Option.isSome_some, strcmp_some_eq_zero, true_and]
          by_cases hp : some reg.name = name
          · rw [if_pos hp] at hk ⊢
            push_cast at hk
            rw [if_neg (by omega)]
            exact ih h.tail (by omega)
          · rw [if_neg hp] at hk ⊢
            exact ih h.tail hk

end Loops

section Runs

variable {devtab : Devtab φ ω} {done regs l : List (Registration φ ω)} {reg : Registration φ ω} {name : Option Str}

theorem Filled.update (h : Filled devtab 0 done) (reg : Registration φ ω) :
    Filled (Function.update devtab done.length reg.device) 0 (done ++ [reg]) := by
  intro j
  rw [Nat.zero_add]
  rcases Nat.lt_trichotomy j done.length with hj | rfl | hj
  · rw [Function.update_of_ne (by omega), List.getElem?_append_left hj]
    simpa using h j
  · rw [Function.update_self, List.getElem?_concat_length]
    rfl
  · rw [Function.update_of_ne (by omega), List.getElem?_eq_none (by simpa using Nat.succ_le_of_lt hj)]
    have := h j
    rwa [Nat.zero_add, List.getElem?_eq_none (Nat.le_of_lt hj)] at this

/-- A registration returns the number of devices of its name that were there before. -/
theorem deviceRegister_filled (h : Filled devtab 0 done) (hlt : done.length < ndev) (reg : Registration φ ω) :
    deviceRegister devtab reg.device =
      some ((instances (some reg.name) done : Int), Function.update devtab done.length reg.device) := by
  have hslot : findSlot devtab (some reg.name) ndev 0 0 = _ := findSlot_filled h (Nat.le_of_lt hlt) 0
  rw [Nat.zero_add, Int.zero_add] at hslot
  rw [deviceRegister, if_neg (by simp [Registration.device]), if_neg (by simp [Registration.device])]
  simp only [show reg.device.name = some reg.name from rfl, hslot]
  rw [if_neg (Nat.ne_of_lt hlt)]

theorem registerAll_filled (h : Filled devtab 0 done) (hle : (done ++ regs).length ≤ ndev) :
    ∃ nums tab, registerAll regs devtab = some (nums, tab) ∧ Filled tab 0 (done ++ regs) ∧ nums.length = regs.length ∧
      ∀ (i : Nat) (reg : Registration φ ω) (num : Int), regs[i]? = some reg → nums[i]? = some num → num = instances (some reg.name) (done ++ regs.take i) := by
  induction regs generalizing devtab done with
  | nil => exact ⟨[], devtab, rfl, by rwa [List.append_nil], rfl, fun i reg num hi => by simp at hi⟩
  | cons r regs ih =>
      have hlt : done.length < ndev := by
        rw [List.length_append, List.length_cons] at hle
        omega
      have hsplit : done ++ r :: regs = done ++ [r] ++ regs := by rw [List.append_assoc, List.singleton_append]
      obtain ⟨nums, tab, hr, hf, hlen, hnum⟩ := ih (h.update r) (by rwa [← hsplit])
      refine ⟨(instances (some r.name) done : Int) :: nums, tab, ?_, hsplit ▸ hf, congrArg Nat.succ hlen, fun i reg num hi hn => ?_⟩
      · rw [registerAll, deviceRegister_filled h hlt]
        simp only [hr]
        rfl
      · cases i with
        | zero =>
            obtain rfl := Option.some.inj hi
            obtain rfl := Option.some.inj hn
            rw [List.take_zero, List.append_nil]
        | succ i =>
            rw [List.getElem?_cons_succ] at hi hn
            rw [hnum i reg num hi hn, List.take_succ_cons, List.append_assoc, List.singleton_append]

theorem deviceOpen_found {pre post : List (Registration φ ω)} (h : Filled devtab 0 (pre ++ reg :: post)) (hlt : pre.length < ndev) :
    deviceOpen devtab (some reg.name) (instances (some reg.name) pre) = .called (some reg.openfn) (some reg.aux) := by
  have hfind := findDevice_found h hlt (Int.zero_add _).symm
  have hslot := h pre.length
  rw [Nat.zero_add] at hfind hslot
  rw [List.getElem?_append_right (Nat.le_refl _), Nat.sub_self] at hslot
  rw [deviceOpen, hfind, if_neg (Nat.ne_of_lt hlt), hslot]
  rfl

/-- The m-th device of a name, from 0 on. -/
theorem exists_instance {m : Nat} (h : m < instances name l) :
    ∃ pre reg post, l = pre ++ reg :: post ∧ some reg.name = name ∧ instances name pre = m := by
  induction l generalizing m with
  | nil => exact absurd h (Nat.not_lt_zero m)
  | cons reg l ih =>
      rw [instances_cons] at h
      by_cases hreg : some reg.name = name
      · rw [if_pos hreg] at h
        cases m with
        | zero => exact ⟨[], reg, l, rfl, hreg, rfl⟩
        | succ m =>
            obtain ⟨pre, reg', post, rfl, hreg', hm⟩ := ih (Nat.lt_of_succ_lt_succ h)
            exact ⟨reg :: pre, reg', post, rfl, hreg', by rw [instances_cons, if_pos hreg, hm]⟩
      · rw [if_neg hreg] at h
        obtain ⟨pre, reg', post, rfl, hreg', hm⟩ := ih h
        exact ⟨reg :: pre, reg', post, rfl, hreg', by rw [instances_cons, if_neg hreg, hm]⟩

theorem deviceOpen_enodev_iff (h : Filled devtab 0 l) (hle : l.length ≤ ndev) (name : Option Str) (instno : Int) :
    deviceOpen devtab name instno = .returned (-enodev) ↔ instno < 0 ∨ (instances name l : Int) < instno + 1 := by
  by_cases hmiss : instno < 0 ∨ (instances name l : Int) < instno + 1
  · refine iff_of_true ?_ hmiss
    have hfind : findDevice devtab name instno ndev 0 0 = 0 + ndev := findDevice_missing h (by omega)
    rw [deviceOpen, hfind, if_pos (Nat.zero_add ndev)]
  · refine iff_of_false (fun he => ?_) hmiss
    obtain ⟨m, rfl⟩ := Int.eq_ofNat_of_zero_le (show 0 ≤ instno by omega)
    obtain ⟨pre, reg, post, rfl, rfl, hm⟩ := exists_instance (show m < instances name l by omega)
    have hlt : pre.length < ndev := by
      rw [List.length_append, List.length_cons] at hle
      omega
    rw [← hm, deviceOpen_found h hlt] at he
    cases he

end Runs

/-- The number that a registration returns names that device for good, and device_open fails
exactly for the numbers that no device of the name has. -/
theorem device_naming (regs later : List (Registration φ ω)) (hle : (regs ++ later).length ≤ ndev) :
    ∃ nums tab nums' tab', registerAll regs (fun _ => Device.zero) = some (nums, tab) ∧
      registerAll later tab = some (nums', tab') ∧ nums.length = regs.length ∧
      (∀ (i : Nat) (reg : Registration φ ω) (num : Int), regs[i]? = some reg → nums[i]? = some num →
        deviceOpen tab' (some reg.name) num = .called (some reg.openfn) (some reg.aux)) ∧
      ∀ name instno, deviceOpen tab' name instno = .returned (-enodev) ↔
        instno < 0 ∨ (instances name (regs ++ later) : Int) < instno + 1 := by
  have h₀ : Filled (fun _ => (Device.zero : Device φ ω)) 0 [] := fun _ => rfl
  have hregs : ([] ++ regs).length ≤ ndev := by
    rw [List.length_append] at hle
    rw [List.nil_append]
    omega
  obtain ⟨nums, tab, hr, hf, hlen, hnum⟩ := registerAll_filled h₀ hregs
  obtain ⟨nums', tab', hr', hf', -, -⟩ := registerAll_filled hf hle
  rw [List.nil_append] at hf'
  refine ⟨nums, tab, nums', tab', hr, hr', hlen, fun i reg num hi hn => ?_, deviceOpen_enodev_iff hf' hle⟩
  have hi' : i < regs.length := (List.getElem?_eq_some_iff.mp hi).1
  have hsplit : regs ++ later = regs.take i ++ reg :: (regs.drop (i + 1) ++ later) := by
    rw [← List.cons_append, ← List.append_assoc]
    congr 1
    rw [← (List.getElem?_eq_some_iff.mp hi).2, ← List.drop_eq_getElem_cons hi', List.take_append_drop]
  rw [hnum i reg num hi hn, List.nil_append]
  refine deviceOpen_found (hsplit ▸ hf') ?_
  rw [List.length_take, Nat.min_eq_left (Nat.le_of_lt hi')]
  rw [List.length_append] at hle
  omega

/-- Two serial devices with a disk between them. -/
def threeDevices : List (Registration Nat Nat) := [⟨[115], 0, 0⟩, ⟨[98], 1, 0⟩, ⟨[115], 0, 1⟩]

theorem device_naming_threeDevices : ∃ tab, registerAll threeDevices (fun _ => Device.zero) = some ([0, 0, 1], tab) ∧
    deviceOpen tab (some [115]) 1 = .called (some 0) (some 1) ∧ deviceOpen tab (some [98]) 1 = .returned (-enodev) := by
  have hnums : (registerAll threeDevices (fun _ => Device.zero)).map Prod.fst = some [0, 0, 1] := by decide +kernel
  obtain ⟨nums, tab, nums', tab', hr, hr', -, hopen, hmiss⟩ := device_naming threeDevices [] (by decide)
  obtain ⟨-, rfl⟩ := Prod.mk.inj (Option.some.inj hr')
  rw [hr] at hnums
  obtain rfl : nums = [0, 0, 1] := Option.some.inj hnums
  refine ⟨tab, hr, hopen 2 ⟨[115], 0, 1⟩ 1 rfl rfl, (hmiss (some [98]) 1).mpr (.inr ?_)⟩
  decide

end RiscvKernel.DeviceTable
