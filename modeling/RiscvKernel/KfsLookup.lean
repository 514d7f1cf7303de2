import RiscvKernel.RoundTrip
import RiscvKernel.Uninitialised

namespace RiscvKernel.KfsLookup

open Io Lib.Bytes FlatDisk Kfs KfsFile RoundTrip Uninitialised

/-- The addresses that strcmp reads of its second string. -/
def strcmpReads : List UInt8 → (Nat → UInt8) → Nat → List Nat
  | [], _, p => [p]
  | c :: cs, s2, p => if c = s2 p ∧ c ≠ 0 then p :: strcmpReads cs s2 (p + 1) else [p]

/-- The addresses that the loop of fs_open reads over the entries given, up to the first match. -/
def searchReads (boot : Nat → UInt8) (name : List UInt8) : List Nat → List Nat
  | [] => []
  | x :: xs =>
      strcmpReads name boot (dentryOff x) ++
        if strcmp name boot (dentryOff x) = 0 then [] else searchReads boot name xs

/-- The name of dir_entries[x], which may fill its 32 bytes. -/
def entryName (boot : Nat → UInt8) (x : Nat) : List UInt8 := (readAt boot (dentryOff x) 32).takeWhile (· ≠ 0)

/-- A boot block with num entries in use. -/
structure Directory (boot : Nat → UInt8) (num : Nat) : Prop where
  num_eq : le32 boot 0 = num
  num_le : num ≤ 63
  distinct : ∀ x, x < num → ∀ y, y < num → entryName boot x = entryName boot y → x = y
  nonempty : ∀ x, x < num → entryName boot x ≠ []
  unused : ∀ x, num ≤ x → x < 63 → ∀ i, i < 64 → boot (dentryOff x + i) = 0

/-- Entry x is one of those in use and has the name. -/
def Listed (boot : Nat → UInt8) (num : Nat) (name : List UInt8) (x : Nat) : Prop := x < num ∧ name = entryName boot x

/-- The lookup of a name in the directory does what fs_open needs: it finds the entries in use
and no other ones, their inode is opened where it is on the device and the table has a free
entry, and it reads names only. -/
structure Exact (boot : Nat → UInt8) (num : Nat) (name : List UInt8) : Prop where
  finds : (∃ x, findDentry boot name = some x) ↔ ∃ x, Listed boot num name x
  opens : ∀ x, Listed boot num name x → ∀ (loc : OpenLocals) (k : Globals Disk), k.boot = boot →
    (∃ y, (k.fileArray y).flags = 0) → 4096 + 4096 * dentryInode boot x + 4 ≤ k.globalIO.size →
    ∃ spot k', fsOpen FlatDisk.ops loc k name = some (0, some spot, k') ∧
      (k'.fileArray spot).inode = dentryInode boot x ∧ k'.globalIO.pos = 4096 + 4096 * dentryInode boot x + 4
  fails : (¬ ∃ x, Listed boot num name x) → ∀ (loc : OpenLocals) (k : Globals Disk), k.boot = boot →
    ∃ r, r < 0 ∧ fsOpen FlatDisk.ops loc k name = some (r, none, k)
  reads : ∀ a ∈ searchReads boot name (List.range 64), ∃ x, x < 63 ∧ dentryOff x ≤ a ∧ a < dentryOff x + 32

section Compare

variable {name : List UInt8} {mem : Nat → UInt8} {p : Nat}

/-- strcmp finds the string itself with its NUL. -/
theorem strcmp_eq_zero (hn : ∀ c ∈ name, c ≠ 0) :
    strcmp name mem p = 0 ↔ readAt mem p name.length = name ∧ mem (p + name.length) = 0 := by
  constructor
  · intro h
    induction name generalizing p with
    | nil =>
        refine ⟨rfl, ?_⟩
        by_contra hne
        rw [strcmp, if_neg (show ¬ mem p = 0 from hne)] at h
        cases h
    | cons c cs ih =>
        rw [strcmp] at h
        have hc := hn c List.mem_cons_self
        by_cases heq : c = mem p
        · rw [if_pos ⟨heq, hc⟩] at h
          obtain ⟨h₁, h₂⟩ := ih (fun d hd => hn d (List.mem_cons_of_mem _ hd)) h
          refine ⟨?_, ?_⟩
          · rw [List.length_cons, readAt_succ, h₁, ← heq]
          · rw [List.length_cons, Nat.add_comm cs.length, ← Nat.add_assoc]
            exact h₂
        · rw [if_neg fun h' => heq h'.1] at h
          split at h
          · cases h
          · rename_i hlt
            split at h
            · cases h
            · rename_i hgt
              exact absurd (UInt8.le_antisymm (UInt8.not_lt.mp hgt) (UInt8.not_lt.mp hlt)) heq
  · rintro ⟨hread, hend⟩
    exact (strcmp_eq_zero_iff hn hn hread hend).mpr rfl

theorem strcmpReads_bounds {a : Nat} (h : a ∈ strcmpReads name mem p) : p ≤ a ∧ a ≤ p + name.length := by
  induction name generalizing p with
  | nil =>
      obtain rfl := List.mem_singleton.mp h
      exact ⟨Nat.le_refl _, Nat.le_refl _⟩
  | cons c cs ih =>
      rw [strcmpReads] at h
      split at h
      · rcases List.mem_cons.mp h with rfl | h
        · exact ⟨Nat.le_refl _, Nat.le_add_right _ _⟩
        · have := ih h
          rw [List.length_cons]
          omega
      · obtain rfl := List.mem_singleton.mp h
        exact ⟨Nat.le_refl _, Nat.le_add_right _ _⟩

theorem start_mem_strcmpReads : p ∈ strcmpReads name mem p := by
  cases name with
  | nil => exact List.mem_singleton.mpr rfl
  | cons c cs =>
      rw [strcmpReads]
      split
      · exact List.mem_cons_self
      · exact List.mem_singleton.mpr rfl

/-- After the characters of the string it reads one more. -/
theorem end_mem_strcmpReads (hn : ∀ c ∈ name, c ≠ 0) (h : readAt mem p name.length = name) :
    p + name.length ∈ strcmpReads name mem p := by
  induction name generalizing p with
  | nil => exact List.mem_singleton.mpr rfl
  | cons c cs ih =>
      rw [List.length_cons, readAt_succ] at h
      obtain ⟨hc, hcs⟩ := List.cons.inj h
      rw [strcmpReads, if_pos ⟨hc.symm, hn c List.mem_cons_self⟩]
      refine List.mem_cons_of_mem _ ?_
      rw [List.length_cons, Nat.add_comm cs.length, ← Nat.add_assoc]
      exact ih (fun d hd => hn d (List.mem_cons_of_mem _ hd)) hcs

end Compare

section Search

variable {boot : Nat → UInt8} {name : List UInt8} {xs ys : List Nat}

theorem searchReads_append_found {x : Nat} (hx : x ∈ xs) (hm : strcmp name boot (dentryOff x) = 0) :
    searchReads boot name (xs ++ ys) = searchReads boot name xs := by
  induction xs with
  | nil => cases hx
  | cons y xs ih =>
      rw [List.cons_append, searchReads, searchReads]
      by_cases hy : strcmp name boot (dentryOff y) = 0
      · rw [if_pos hy, if_pos hy]
      · rw [if_neg hy, if_neg hy]
        rcases List.mem_cons.mp hx with rfl | hx
        · exact absurd hm hy
        · rw [ih hx]

theorem mem_searchReads {a : Nat} (h : a ∈ searchReads boot name xs) :
    ∃ x ∈ xs, a ∈ strcmpReads name boot (dentryOff x) := by
  induction xs with
  | nil => cases h
  | cons y xs ih =>
      rw [searchReads] at h
      rcases List.mem_append.mp h with h | h
      · exact ⟨y, List.mem_cons_self, h⟩
      · split at h
        · cases h
        · obtain ⟨x, hx, ha⟩ := ih h
          exact ⟨x, List.mem_cons_of_mem _ hx, ha⟩

theorem searchReads_reach {x a : Nat} (hno : ∀ y ∈ xs, strcmp name boot (dentryOff y) ≠ 0)
    (ha : a ∈ strcmpReads name boot (dentryOff x)) : a ∈ searchReads boot name (xs ++ x :: ys) := by
  induction xs with
  | nil => exact List.mem_append_left _ ha
  | cons y xs ih =>
      rw [List.cons_append, searchReads, if_neg (hno y List.mem_cons_self)]
      exact List.mem_append_right _ (ih fun z hz => hno z (List.mem_cons_of_mem _ hz))

theorem range_split {x n : Nat} (h : x < n) : List.range n = List.range x ++ x :: (List.range (n - x - 1)).map (x + 1 + ·) := by
  obtain ⟨m, rfl⟩ := Nat.exists_eq_add_of_lt h
  have hm : x + m + 1 - x - 1 = m := by omega
  rw [hm, Nat.add_right_comm, List.range_add, List.range_succ, List.append_assoc]
  rfl

end Search

section Entries

variable {boot : Nat → UInt8} {name : List UInt8} {num x : Nat}

theorem entryName_length_le : (entryName boot x).length ≤ 32 :=
  Nat.le_trans (List.takeWhile_prefix _).length_le (Nat.le_of_eq (readAt_length _ _ _))

theorem readAt_entryName : readAt boot (dentryOff x) (entryName boot x).length = entryName boot x := by
  have hlen := @entryName_length_le boot x
  have hpre := List.prefix_iff_eq_take.mp (List.takeWhile_prefix (l := readAt boot (dentryOff x) 32) (· ≠ 0))
  have htake := readAt_drop_take (d := boot) (a := dentryOff x) (n := 32) (m := (entryName boot x).length) 0 (by omega)
  rw [List.drop_zero] at htake
  rw [← Nat.add_zero (dentryOff x), ← htake]
  exact hpre.symm

theorem entryName_of_readAt (hn : ∀ c ∈ name, c ≠ 0) (hlen : name.length ≤ 32)
    (hread : readAt boot (dentryOff x) name.length = name) (hend : boot (dentryOff x + name.length) = 0) :
    name = entryName boot x := by
  obtain ⟨m, hm⟩ := Nat.exists_eq_add_of_le hlen
  have hall : ∀ c ∈ name, decide (c ≠ 0) = true := fun c hc => decide_eq_true (hn c hc)
  rw [entryName, hm, readAt_add, hread]
  cases m with
  | zero =>
      rw [readAt_zero, List.append_nil]
      exact (List.takeWhile_eq_self_iff.mpr hall).symm
  | succ m =>
      rw [readAt_succ, hend, List.takeWhile_append_of_pos hall, List.takeWhile_cons_of_neg (by simp), List.append_nil]

theorem strcmp_entry_imp (hn : ∀ c ∈ name, c ≠ 0) (hlen : name.length ≤ 32) (h : strcmp name boot (dentryOff x) = 0) :
    name = entryName boot x := by
  obtain ⟨hread, hend⟩ := (strcmp_eq_zero hn).mp h
  exact entryName_of_readAt hn hlen hread hend

/-- A name with room for its NUL is found at the entries that have it. -/
theorem strcmp_entry (hn : ∀ c ∈ name, c ≠ 0) (hlen : name.length < 32) :
    strcmp name boot (dentryOff x) = 0 ↔ name = entryName boot x := by
  refine ⟨strcmp_entry_imp hn (Nat.le_of_lt hlen), fun h => ?_⟩
  refine (strcmp_eq_zero hn).mpr ⟨?_, ?_⟩
  · rw [h]
    exact readAt_entryName
  · by_contra hne
    obtain ⟨m, hm⟩ := Nat.exists_eq_add_of_lt hlen
    have hread : readAt boot (dentryOff x) name.length = name := by
      rw [h]
      exact readAt_entryName
    have hall : ∀ c ∈ name, decide (c ≠ 0) = true := fun c hc => decide_eq_true (hn c hc)
    have hlong := h
    rw [entryName, hm, show name.length + m + 1 = name.length + (m + 1) by omega, readAt_add, hread, readAt_succ,
      List.takeWhile_append_of_pos hall, List.takeWhile_cons_of_pos (by simpa using hne)] at hlong
    have := congrArg List.length hlong
    rw [List.length_append, List.length_cons] at this
    omega

theorem findDentry_listed (h : Directory boot num) (hn : ∀ c ∈ name, c ≠ 0) (hl : Listed boot num name x)
    (hlen : name.length < 32) : findDentry boot name = some x := by
  have hx := Nat.lt_of_lt_of_le hl.1 h.num_le
  rw [findDentry, List.find?_range_eq_some]
  refine ⟨?_, List.mem_range.mpr (by omega), fun y hy => ?_⟩
  · simpa using (strcmp_entry hn hlen).mpr hl.2
  · have hne : strcmp name boot (dentryOff y) ≠ 0 := fun hm => by
      have hy' := (strcmp_entry hn hlen).mp hm
      have := h.distinct y (Nat.lt_trans hy hl.1) x hl.1 (hy'.symm.trans hl.2)
      omega
    simpa using hne

/-- The search for a name with room for its NUL stays inside the names. -/
theorem reads_listed (h : Directory boot num) (hn : ∀ c ∈ name, c ≠ 0) (hl : Listed boot num name x)
    (hlen : name.length < 32) {a : Nat} (ha : a ∈ searchReads boot name (List.range 64)) :
    ∃ y, y < 63 ∧ dentryOff y ≤ a ∧ a < dentryOff y + 32 := by
  have hx := Nat.lt_of_lt_of_le hl.1 h.num_le
  have hsplit : List.range 64 = List.range (x + 1) ++ (List.range (63 - x)).map (x + 1 + ·) := by
    rw [← List.range_add]
    congr 1
    omega
  rw [hsplit, searchReads_append_found (List.mem_range.mpr (Nat.lt_succ_self x)) ((strcmp_entry hn hlen).mpr hl.2)] at ha
  obtain ⟨y, hy, hay⟩ := mem_searchReads ha
  have hbounds := strcmpReads_bounds hay
  have hy' := List.mem_range.mp hy
  exact ⟨y, by omega, hbounds.1, by omega⟩

/-- A name of 32 bytes is compared with the inode behind it. -/
theorem reads_full (h : Directory boot num) (hn : ∀ c ∈ name, c ≠ 0) (hl : Listed boot num name x)
    (hlen : name.length = 32) : dentryOff x + 32 ∈ searchReads boot name (List.range 64) := by
  have hx := Nat.lt_of_lt_of_le hl.1 h.num_le
  rw [range_split (Nat.lt_succ_of_lt hx)]
  refine searchReads_reach (fun y hy hm => ?_) ?_
  · have hy' := List.mem_range.mp hy
    have he := strcmp_entry_imp hn (Nat.le_of_eq hlen) hm
    have := h.distinct y (Nat.lt_trans hy' hl.1) x hl.1 (he.symm.trans hl.2)
    omega
  · rw [← hlen]
    refine end_mem_strcmpReads hn ?_
    rw [hl.2]
    exact readAt_entryName

/-- The search for a name that it does not find reads what is behind the boot block. -/
theorem reads_missing (h : findDentry boot name = none) : dentryOff 63 ∈ searchReads boot name (List.range 64) := by
  rw [range_split (show 63 < 64 by decide)]
  refine searchReads_reach (fun y hy hm => ?_) start_mem_strcmpReads
  have hno := List.find?_eq_none.mp h y (List.mem_range.mpr (Nat.lt_trans (List.mem_range.mp hy) (by decide)))
  exact hno (by simpa using hm)

theorem not_in_names (x : Nat) {a : Nat} (ha : a = dentryOff x + 32 ∨ a = dentryOff 63) :
    ¬ ∃ y, y < 63 ∧ dentryOff y ≤ a ∧ a < dentryOff y + 32 := by
  rintro ⟨y, hy, h₁, h₂⟩
  unfold dentryOff at ha h₁ h₂
  omega

end Entries

section Open

variable {boot : Nat → UInt8} {name : List UInt8} {num x : Nat}

/-- fs_open seeks for the inode itself as long as its offset fits into an int. -/
theorem inodeSeek_eq_iff (boot : Nat → UInt8) (x : Nat) :
    inodeSeek boot x = 4096 + 4096 * dentryInode boot x ↔ dentryInode boot x + 1 < 2 ^ 19 := by
  have hlt : dentryInode boot x < 2 ^ 32 := le32_lt boot _
  have hval : (4096 + BitVec.ofNat 32 (dentryInode boot x) * 4096).toNat = (4096 + dentryInode boot x * 4096) % 2 ^ 32 := by
    simp [BitVec.toNat_add, BitVec.toNat_mul]
  rw [inodeSeek, BitVec.toNat_signExtend, BitVec.toNat_setWidth, hval]
  by_cases hmsb : (4096 + BitVec.ofNat 32 (dentryInode boot x) * 4096).msb = true
  · rw [if_pos hmsb]
    rw [BitVec.msb_eq_true_iff_two_mul_ge, hval] at hmsb
    omega
  · rw [if_neg hmsb]
    rw [Bool.not_eq_true, BitVec.msb_eq_false_iff_two_mul_lt, hval] at hmsb
    omega

/-- fs_open of a name it finds, with the inode on the device and a free entry. -/
theorem fsOpen_found {k : Globals Disk} (hx : findDentry k.boot name = some x) (hfree : ∃ y, (k.fileArray y).flags = 0)
    (hs : inodeSeek k.boot x + 4 ≤ k.globalIO.size) (loc : OpenLocals) :
    ∃ spot k', fsOpen FlatDisk.ops loc k name = some (0, some spot, k') ∧
      (k'.fileArray spot).inode = ((BitVec.ofNat 32 (dentryInode k.boot x)).signExtend 64).toNat ∧
      k'.globalIO.pos = inodeSeek k.boot x + 4 := by
  obtain ⟨spot, hspot⟩ : ∃ spot, findSlot k.fileArray = some spot := by
    cases hslot : findSlot k.fileArray with
    | none => exact absurd hfree ((findSlot_eq_none _).mp hslot)
    | some spot => exact ⟨spot, rfl⟩
  have hoff : ((4096 + BitVec.ofNat 32 (dentryInode k.boot x) * 4096).signExtend 64).toNat = inodeSeek k.boot x := rfl
  have hread : min 4 (k.globalIO.size - inodeSeek k.boot x) = 4 := by omega
  simp only [fsOpen, hx, hoff, @ioseek_ops k.globalIO (inodeSeek k.boot x) (by omega), hspot]
  simp only [FlatDisk.ops, FlatDisk.read, hread, Option.bind_eq_bind, Option.bind_some, ne_eq, not_true_eq_false, if_false]
  rw [if_neg (by decide)]
  refine ⟨spot, _, rfl, ?_, rfl⟩
  simp [Globals.setFile]

end Open

section Main

variable {boot : Nat → UInt8} {name : List UInt8} {num : Nat}

/-- The file system with an empty table on a device that holds every inode. -/
def largeDisk (boot : Nat → UInt8) (inode : Nat) : Globals Disk where
  boot
  fileArray _ := FileDesc.zero
  intSpot := 0
  globalIO := ⟨boot, 2 ^ 64 + 4096 * inode + 4100, 0⟩
  kfsLock := SleepLock.lockInit

/-- A lookup that is exact has seeked for the inode itself. -/
theorem Exact.inode_lt (h : Exact boot num name) {x : Nat} (hl : Listed boot num name x)
    (hf : findDentry boot name = some x) : dentryInode boot x + 1 < 2 ^ 19 := by
  have hfree : ∃ y, ((largeDisk boot (dentryInode boot x)).fileArray y).flags = 0 := ⟨0, rfl⟩
  have hseek : inodeSeek boot x + 4 ≤ Disk.size (Globals.globalIO (largeDisk boot (dentryInode boot x))) := by
    have hlt : inodeSeek boot x < 2 ^ 64 := BitVec.isLt _
    show _ ≤ 2 ^ 64 + 4096 * dentryInode boot x + 4100
    omega
  obtain ⟨spot, k', he, -, hpos⟩ := h.opens x hl ⟨none, 0⟩ (largeDisk boot (dentryInode boot x)) rfl hfree
    (by show _ ≤ 2 ^ 64 + 4096 * dentryInode boot x + 4100; omega)
  obtain ⟨spot', k₂, he', -, hpos'⟩ := @fsOpen_found name x (largeDisk boot (dentryInode boot x)) hf hfree hseek ⟨none, 0⟩
  rw [he] at he'
  obtain ⟨-, hrest⟩ := Prod.mk.inj (Option.some.inj he')
  obtain rfl : k' = k₂ := congrArg Prod.snd hrest
  refine (inodeSeek_eq_iff boot x).mp ?_
  have hpos'' : (Globals.globalIO k').pos = inodeSeek boot x + 4 := hpos'
  omega

/-- The lookup of a name is exact if and only if it is the name of an entry in use, shorter than
32 bytes, whose inode has an offset that fits into an int. -/
theorem exact_iff (h : Directory boot num) (hn : ∀ c ∈ name, c ≠ 0) :
    Exact boot num name ↔
      ∃ x, Listed boot num name x ∧ name.length < 32 ∧ dentryInode boot x + 1 < 2 ^ 19 := by
  constructor
  · intro he
    have hlisted : ∃ x, Listed boot num name x := by
      by_contra hno
      cases hf : findDentry boot name with
      | some x => exact hno (he.finds.mp ⟨x, hf⟩)
      | none => exact not_in_names 0 (.inr rfl) (he.reads _ (reads_missing hf))
    obtain ⟨x, hl⟩ := hlisted
    have hle : name.length ≤ 32 := by
      rw [hl.2]
      exact entryName_length_le
    have hlt : name.length < 32 := by
      refine Nat.lt_of_le_of_ne hle fun hlen => ?_
      exact not_in_names x (.inl rfl) (he.reads _ (reads_full h hn hl hlen))
    exact ⟨x, hl, hlt, he.inode_lt hl (findDentry_listed h hn hl hlt)⟩
  · rintro ⟨x, hl, hlt, hi⟩
    have hf := findDentry_listed h hn hl hlt
    refine ⟨iff_of_true ⟨x, hf⟩ ⟨x, hl⟩, fun y hy loc k hk hfree hs => ?_, fun hno => absurd ⟨x, hl⟩ hno,
      fun a ha => reads_listed h hn hl hlt ha⟩
    obtain rfl := h.distinct x hl.1 y hy.1 (hl.2.symm.trans hy.2)
    subst hk
    have hseek := (inodeSeek_eq_iff k.boot x).mpr hi
    obtain ⟨spot, k', ho, hino, hpos⟩ := fsOpen_found hf hfree (by rw [hseek]; exact hs) loc
    refine ⟨spot, k', ho, ?_, by rw [hpos, hseek]⟩
    rw [hino, BitVec.toNat_signExtend, BitVec.toNat_setWidth, if_neg]
    · rw [BitVec.toNat_ofNat]
      omega
    · rw [Bool.not_eq_true, BitVec.msb_eq_false_iff_two_mul_lt, BitVec.toNat_ofNat]
      omega

/-- A boot block with one file, a, of inode 3. -/
def oneEntry (a : Nat) : UInt8 := if a = 0 then 1 else if a = 64 then 97 else if a = 96 then 3 else 0

theorem directory_oneEntry : Directory oneEntry 1 := by
  have hx : ∀ x, x < 1 → x = 0 := fun x hx => Nat.lt_one_iff.mp hx
  refine ⟨by decide +kernel, by decide, fun x hx' y hy' _ => ?_, fun x hx' => ?_, fun x hx' hlt i hi => ?_⟩
  · rw [hx x hx', hx y hy']
  · rw [hx x hx']
    decide +kernel
  · unfold oneEntry dentryOff
    rw [if_neg (by omega), if_neg (by omega), if_neg (by omega)]

theorem exact_oneEntry : Exact oneEntry 1 [97] :=
  (exact_iff directory_oneEntry (by simp)).mpr ⟨0, ⟨by decide, by decide +kernel⟩, by decide, by decide +kernel⟩

/-- The empty name opens the first unused entry. -/
theorem not_exact_oneEntry : Directory oneEntry 1 ∧ ¬ Exact oneEntry 1 [] := by
  refine ⟨directory_oneEntry, fun h => ?_⟩
  obtain ⟨x, hx, hname⟩ := h.finds.mp ⟨1, by decide +kernel⟩
  rw [Nat.lt_one_iff.mp hx] at hname
  revert hname
  decide +kernel

end Main

end RiscvKernel.KfsLookup
