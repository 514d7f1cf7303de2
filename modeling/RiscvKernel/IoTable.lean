import RiscvKernel.Io

namespace RiscvKernel.IoTable

open Io

variable {α : Type}

def processIomax : Int := 16

/-- iotab of a process and the memory around it; the entries are those below PROCESS_IOMAX. -/
abbrev IoTab (α : Type) := Int → Option α

/-- Entry i lies inside iotab. -/
def InTable (i : Int) : Prop := 0 ≤ i ∧ i < processIomax

instance (i : Int) : Decidable (InTable i) := inferInstanceAs (Decidable (0 ≤ i ∧ i < processIomax))

/-- What a call returns and leaves, which entries of iotab it read or wrote, and whether it
called the open function. -/
structure Opening (α : Type) where
  result : Int
  iotab : IoTab α
  touched : List Int
  called : Bool

/-- The loop of sysdevopen and sysfsopen from entry x on, with the test that ends it: the
entries that it reads and the free one that it finds. -/
def findFree (ends : Int → Bool) (iotab : IoTab α) : Nat → Int → List Int × Option Int
  | 0, _ => ([], none)
  | fuel + 1, x =>
      if (iotab x).isNone then ([x], some x)
      else if ends x then ([x], none)
      else (x :: (findFree ends iotab fuel (x + 1)).1, (findFree ends iotab fuel (x + 1)).2)

/-- The end of both functions, with what the open function gives: the object goes to entry x. -/
def storeAt (iotab : IoTab α) (x : Int) (reads : List Int) : Option α → Opening α
  | none => ⟨-einval, iotab, reads, true⟩
  | some obj => ⟨x, Function.update iotab x (some obj), reads ++ [x], true⟩

def openWith (ends : Int → Bool) (fd : Int) (opened : Option α) (iotab : IoTab α) : Opening α :=
  if 0 ≤ fd then storeAt iotab fd [] opened
  else
    match findFree ends iotab 17 0 with
    | (reads, none) => ⟨-einval, iotab, reads, false⟩
    | (reads, some x) => storeAt iotab x reads opened

/-- sysdevopen, where opened is the device that device_open gives. -/
def sysdevopen (fd : Int) (opened : Option α) (iotab : IoTab α) : Opening α :=
  openWith (fun x => x ≤ processIomax) fd opened iotab

/-- sysfsopen, where opened is the file that fs_open gives. -/
def sysfsopen (fd : Int) (opened : Option α) (iotab : IoTab α) : Opening α :=
  openWith (fun x => processIomax ≤ x) fd opened iotab

/-- The lowest free entry of iotab. -/
def Lowest (iotab : IoTab α) (n : Int) : Prop := InTable n ∧ iotab n = none ∧ ∀ m, 0 ≤ m → m < n → iotab m ≠ none

def Full (iotab : IoTab α) : Prop := ∀ i, InTable i → iotab i ≠ none

/-- A call with a negative fd takes the lowest free entry, or fails without doing anything. -/
structure Allocates (sysopen : Option α → Opening α) (iotab : IoTab α) : Prop where
  stores : ∀ n obj, Lowest iotab n → (sysopen (some obj)).result = n ∧ (sysopen (some obj)).iotab = Function.update iotab n (some obj)
  fails : ∀ opened, Full iotab → (sysopen opened).result < 0 ∧ (sysopen opened).called = false ∧ (sysopen opened).iotab = iotab
  inside : ∀ opened, ∀ i ∈ (sysopen opened).touched, InTable i

section Loop

variable {ends : Int → Bool} {iotab : IoTab α} {x : Int}

theorem lowest_or_full (iotab : IoTab α) : (∃ n, Lowest iotab n) ∨ Full iotab := by
  by_cases h : ∃ n : Nat, n < 16 ∧ iotab n = none
  · refine .inl ⟨(Nat.find h : Nat), ?_, (Nat.find_spec h).2, fun m h₀ hm he => ?_⟩
    · have := (Nat.find_spec h).1
      unfold InTable processIomax
      omega
    · obtain ⟨k, rfl⟩ := Int.eq_ofNat_of_zero_le h₀
      have hlt : k < Nat.find h := by omega
      exact Nat.find_min h hlt ⟨Nat.lt_trans hlt (Nat.find_spec h).1, he⟩
  · refine .inr fun i hi he => h ⟨i.toNat, ?_, ?_⟩
    · have := hi.2
      unfold processIomax at this
      omega
    · rwa [Int.toNat_of_nonneg hi.1]

theorem Lowest.unique {n m : Int} (h : Lowest iotab n) (h' : Lowest iotab m) : n = m := by
  rcases Int.lt_trichotomy n m with hlt | he | hlt
  · exact absurd h.2.1 (h'.2.2 n h.1.1 hlt)
  · exact he
  · exact absurd h'.2.1 (h.2.2 m h'.1.1 hlt)

theorem Full.not_lowest (h : Full iotab) {n : Int} : ¬ Lowest iotab n := fun hl => h n hl.1 hl.2.1

/-- A loop that does not end before the first free entry finds it, reading no later one. -/
theorem findFree_lowest (fuel : Nat) {n : Int} (hx : x ≤ n) (hfree : iotab n = none) (hfuel : n - x < fuel)
    (hbusy : ∀ m, x ≤ m → m < n → iotab m ≠ none ∧ ends m = false) :
    (findFree ends iotab fuel x).2 = some n ∧ ∀ i ∈ (findFree ends iotab fuel x).1, x ≤ i ∧ i ≤ n := by
  induction fuel generalizing x with
  | zero => omega
  | succ fuel ih =>
      rw [findFree]
      rcases Int.lt_or_eq_of_le hx with hlt | rfl
      · obtain ⟨hne, he⟩ := hbusy x (Int.le_refl x) hlt
        obtain ⟨h₁, h₂⟩ := ih (x := x + 1) (by omega) (by omega) fun m hm => hbusy m (by omega)
        rw [if_neg (by simpa using hne), if_neg (by simp [he])]
        refine ⟨h₁, fun i hi => ?_⟩
        rcases List.mem_cons.mp hi with rfl | hi
        · omega
        · have := h₂ i hi
          omega
      · rw [if_pos (by simp [hfree])]
        exact ⟨rfl, fun i hi => by simp at hi; omega⟩

/-- The loop of sysfsopen reads past the end of a table that is full. -/
theorem findFree_full (fuel : Nat) (hx : 0 ≤ x) (hx' : x ≤ processIomax) (hfuel : processIomax - x < fuel)
    (hfull : Full iotab) : processIomax ∈ (findFree (fun x => processIomax ≤ x) iotab fuel x).1 := by
  induction fuel generalizing x with
  | zero => omega
  | succ fuel ih =>
      rw [findFree]
      rcases Int.lt_or_eq_of_le hx' with hlt | rfl
      · have hne := hfull x ⟨hx, hlt⟩
        rw [if_neg (by simpa using hne), if_neg (by simpa using hlt)]
        exact List.mem_cons_of_mem _ (ih (by omega) (by omega) (by omega))
      · split
        · exact List.mem_singleton.mpr rfl
        · rw [if_pos (by simp)]
          exact List.mem_singleton.mpr rfl

end Loop

section Calls

variable {iotab : IoTab α} {fd n : Int}

theorem sysdevopen_free (hfd : fd < 0) (h : iotab 0 = none) (opened : Option α) :
    sysdevopen fd opened iotab = storeAt iotab 0 [0] opened := by
  have hloop : findFree (fun x => x ≤ processIomax) iotab 17 0 = ([0], some 0) := by
    rw [findFree, if_pos (by simp [h])]
  rw [sysdevopen, openWith, if_neg (Int.not_le.mpr hfd), hloop]

/-- sysdevopen gives up at the first entry in use. -/
theorem sysdevopen_used (hfd : fd < 0) (h : iotab 0 ≠ none) (opened : Option α) :
    sysdevopen fd opened iotab = ⟨-einval, iotab, [0], false⟩ := by
  have hloop : findFree (fun x => x ≤ processIomax) iotab 17 0 = ([0], none) := by
    rw [findFree, if_neg (by simpa using h), if_pos (by decide)]
  rw [sysdevopen, openWith, if_neg (Int.not_le.mpr hfd), hloop]

theorem sysfsopen_lowest (hfd : fd < 0) (h : Lowest iotab n) :
    ∃ reads, (∀ i ∈ reads, InTable i) ∧ ∀ opened, sysfsopen fd opened iotab = storeAt iotab n reads opened := by
  obtain ⟨hin, hfree, hlow⟩ := h
  have hlt := hin.2
  obtain ⟨hn, hreads⟩ := @findFree_lowest α (fun x => processIomax ≤ x) iotab 0 17 n hin.1 hfree (by unfold processIomax at hlt; omega)
    fun m hm hmn => ⟨hlow m hm hmn, decide_eq_false (Int.not_le.mpr (Int.lt_trans hmn hlt))⟩
  refine ⟨(findFree (fun x => processIomax ≤ x) iotab 17 0).1, fun i hi => ?_, fun opened => ?_⟩
  · obtain ⟨h₁, h₂⟩ := hreads i hi
    exact ⟨h₁, Int.lt_of_le_of_lt h₂ hlt⟩
  · rw [sysfsopen, openWith, if_neg (Int.not_le.mpr hfd)]
    generalize findFree (fun x => processIomax ≤ x) iotab 17 0 = r at hn
    obtain ⟨reads, free⟩ := r
    obtain rfl : free = some n := hn
    rfl

/-- sysfsopen reads the entry behind a full table, and writes there if it finds NULL. -/
theorem sysfsopen_full (hfd : fd < 0) (h : Full iotab) (opened : Option α) :
    processIomax ∈ (sysfsopen fd opened iotab).touched := by
  have hm := @findFree_full α iotab 0 17 (Int.le_refl 0) (by decide) (by decide) h
  rw [sysfsopen, openWith, if_neg (Int.not_le.mpr hfd)]
  generalize findFree (fun x => processIomax ≤ x) iotab 17 0 = r at hm
  obtain ⟨reads, free⟩ := r
  cases free with
  | none => exact hm
  | some x =>
      cases opened with
      | none => exact hm
      | some obj => exact List.mem_append_left _ hm

theorem allocates_of_storeAt {sysopen : Option α → Opening α} {reads : List Int} (h : Lowest iotab n)
    (hreads : ∀ i ∈ reads, InTable i) (he : ∀ opened, sysopen opened = storeAt iotab n reads opened) :
    Allocates sysopen iotab := by
  refine ⟨fun m obj hm => ?_, fun opened hf => absurd h hf.not_lowest, fun opened i hi => ?_⟩
  · obtain rfl := h.unique hm
    rw [he]
    exact ⟨rfl, rfl⟩
  · rw [he] at hi
    cases opened with
    | none => exact hreads i hi
    | some obj =>
        rcases List.mem_append.mp hi with hi | hi
        · exact hreads i hi
        · obtain rfl := List.mem_singleton.mp hi
          exact h.1

theorem allocates_sysdevopen_iff (hfd : fd < 0) (iotab : IoTab α) :
    Allocates (fun opened => sysdevopen fd opened iotab) iotab ↔ iotab 0 = none ∨ Full iotab := by
  by_cases h₀ : iotab 0 = none
  · have hlow : Lowest iotab 0 := ⟨⟨Int.le_refl 0, by decide⟩, h₀, fun m hm hm' => by omega⟩
    refine iff_of_true (allocates_of_storeAt hlow (fun i hi => ?_) (sysdevopen_free hfd h₀)) (.inl h₀)
    obtain rfl := List.mem_singleton.mp hi
    exact hlow.1
  · rw [or_iff_right h₀]
    constructor
    · intro h
      rcases lowest_or_full iotab with ⟨n, hn⟩ | hf
      · obtain ⟨obj, -⟩ := Option.ne_none_iff_exists.mp h₀
        have hr := (h.stores n obj hn).1
        rw [sysdevopen_used hfd h₀] at hr
        have hneg : -einval = n := hr
        exact absurd hn.1.1 (by rw [← hneg]; decide)
      · exact hf
    · intro hf
      refine ⟨fun n obj hn => absurd hn hf.not_lowest, fun opened _ => ?_, fun opened i hi => ?_⟩
      · rw [sysdevopen_used hfd h₀]
        exact ⟨(by decide : -einval < 0), rfl, rfl⟩
      · rw [sysdevopen_used hfd h₀] at hi
        obtain rfl := List.mem_singleton.mp hi
        decide

theorem allocates_sysfsopen_iff (hfd : fd < 0) (iotab : IoTab α) :
    Allocates (fun opened => sysfsopen fd opened iotab) iotab ↔ ¬ Full iotab := by
  constructor
  · intro h hf
    exact absurd (h.inside none _ (sysfsopen_full hfd hf none)) (by decide)
  · intro hf
    obtain ⟨n, hn⟩ := (lowest_or_full iotab).resolve_right hf
    obtain ⟨reads, hreads, he⟩ := sysfsopen_lowest hfd hn
    exact allocates_of_storeAt hn hreads he

end Calls

/-- Both calls allocate descriptors as they should, and the same one. -/
structure AutoAllocates (iotab : IoTab α) : Prop where
  sysdevopen : ∀ fd, fd < 0 → Allocates (fun opened => sysdevopen fd opened iotab) iotab
  sysfsopen : ∀ fd, fd < 0 → Allocates (fun opened => sysfsopen fd opened iotab) iotab
  same : ∀ fd fd' device file, fd < 0 → fd' < 0 →
    (IoTable.sysdevopen fd (some device) iotab).result = (IoTable.sysfsopen fd' (some file) iotab).result

/-- The two loops find the lowest free descriptor of every table whose first entry is free, and
of no other one. -/
theorem autoAllocates_iff (iotab : IoTab α) : AutoAllocates iotab ↔ iotab 0 = none := by
  constructor
  · intro h
    have hdev := (allocates_sysdevopen_iff (by decide : (-1 : Int) < 0) iotab).mp (h.sysdevopen (-1) (by decide))
    exact hdev.resolve_right ((allocates_sysfsopen_iff (by decide : (-1 : Int) < 0) iotab).mp (h.sysfsopen (-1) (by decide)))
  · intro h₀
    have hfull : ¬ Full iotab := fun hf => hf 0 (by decide) h₀
    have hlow : Lowest iotab 0 := ⟨by decide, h₀, fun m hm hm' => by omega⟩
    refine ⟨fun fd hfd => (allocates_sysdevopen_iff hfd iotab).mpr (.inl h₀),
      fun fd hfd => (allocates_sysfsopen_iff hfd iotab).mpr hfull, fun fd fd' device file hfd hfd' => ?_⟩
    obtain ⟨reads, -, he⟩ := sysfsopen_lowest hfd' hlow
    rw [sysdevopen_free hfd h₀, he]
    rfl

/-- The table of a process whose first descriptor is in use. -/
def oneOpen : IoTab Nat := Function.update (fun _ => none) 0 (some 7)

theorem not_autoAllocates_oneOpen : ¬ AutoAllocates oneOpen := by
  intro h
  have hlow : Lowest oneOpen 1 := by
    refine ⟨by decide, rfl, fun m hm hm' => ?_⟩
    obtain rfl : m = 0 := by omega
    decide
  have hr := ((h.sysdevopen (-1) (by decide)).stores 1 8 hlow).1
  revert hr
  decide

end RiscvKernel.IoTable
