import RiscvKernel.Kfs

namespace RiscvKernel.KfsSlots

open Io Lib.Bytes SleepLock FlatDisk Kfs

variable {σ : Type}

/-- The file system and the entries behind the files opened and not yet closed,
in the order of their opening. -/
structure State (σ : Type) where
  kfs : Globals σ
  files : List (Fin 32)

/-- close j is the final ioclose of the j-th open file. -/
inductive Event
  | open (loc : OpenLocals) (name : List UInt8)
  | close (j : Nat)

def Event.isOpen : Event → Bool
  | .open _ _ => true
  | .close _ => false

/-- The value returned and the next state; none when memory outside the table is
written or there is no such file. -/
def step (dev : IoOps σ) (s : State σ) : Event → Option (Int × State σ)
  | .open loc name => do
      let (r, io, kfs) ← fsOpen dev loc s.kfs name
      return (r, ⟨kfs, s.files ++ io.toList⟩)
  | .close j => do
      let io ← s.files[j]?
      return (0, ⟨ioclose s.kfs io, s.files.eraseIdx j⟩)

/-- A property of each step of a run, in the state before it. -/
def Along (dev : IoOps σ) (P : State σ → Event → Prop) : State σ → List Event → Prop
  | _, [] => True
  | s, ev :: evs => P s ev ∧ match step dev s ev with
      | none => True
      | some (_, s') => Along dev P s' evs

/-- Files of the directory are opened, open files are closed. -/
def Legal (s : State σ) : Event → Prop
  | .open _ name => findDentry s.kfs.boot name ≠ none
  | .close j => j < s.files.length

/-- The steps on which the table is kept right: an open with a free entry, a close
of the file opened last. -/
def InOrder (s : State σ) : Event → Prop
  | .open _ _ => ∃ y, (s.kfs.fileArray y).flags = 0
  | .close j => s.files[j]? = some s.kfs.intSpot

/-- The used entries are those of the open files, each of its own. -/
structure Exclusive (s : State σ) : Prop where
  used : ∀ y, (s.kfs.fileArray y).flags ≠ 0 ↔ y ∈ s.files
  nodup : s.files.Nodup

/-- A step leaves the other open files alone, and an open without a free entry
fails and leaves the table as it is. -/
structure Undisturbed (s : State σ) (ev : Event) (r : Int) (s' : State σ) : Prop where
  others : ∀ y ∈ s.files, y ∈ s'.files → (s'.kfs.fileArray y).inode = (s.kfs.fileArray y).inode ∧
    (s'.kfs.fileArray y).filePos = (s.kfs.fileArray y).filePos ∧
    (s'.kfs.fileArray y).fileSize = (s.kfs.fileArray y).fileSize
  full : ev.isOpen → (∀ y, (s.kfs.fileArray y).flags ≠ 0) → r < 0 ∧ s'.kfs.fileArray = s.kfs.fileArray

/-- Every state of the run is exclusive and every step of it undisturbing. -/
def Holds (dev : IoOps σ) : State σ → List Event → Prop
  | s, [] => Exclusive s
  | s, ev :: evs => Exclusive s ∧ match step dev s ev with
      | none => False
      | some (r, s') => Undisturbed s ev r s' ∧ Holds dev s' evs

section Decidable

instance (s : State σ) : DecidablePred (Legal s)
  | .open _ name => inferInstanceAs (Decidable (findDentry s.kfs.boot name ≠ none))
  | .close j => inferInstanceAs (Decidable (j < s.files.length))

instance (s : State σ) : DecidablePred (InOrder s)
  | .open _ _ => inferInstanceAs (Decidable (∃ y, (s.kfs.fileArray y).flags = 0))
  | .close j => inferInstanceAs (Decidable (s.files[j]? = some s.kfs.intSpot))

instance (s : State σ) : Decidable (Exclusive s) :=
  decidable_of_iff ((∀ y, (s.kfs.fileArray y).flags ≠ 0 ↔ y ∈ s.files) ∧ s.files.Nodup)
    ⟨fun h => ⟨h.1, h.2⟩, fun h => ⟨h.1, h.2⟩⟩

instance Along.decidable (dev : IoOps σ) (P : State σ → Event → Prop) [∀ s, DecidablePred (P s)] :
    ∀ s evs, Decidable (Along dev P s evs)
  | _, [] => .isTrue trivial
  | s, ev :: evs =>
      have : Decidable (match step dev s ev with
          | none => True
          | some (_, s') => Along dev P s' evs) :=
        match step dev s ev with
        | none => .isTrue trivial
        | some (_, s') => Along.decidable dev P s' evs
      inferInstanceAs (Decidable (_ ∧ _))

end Decidable

section Open

variable {dev : IoOps σ} {loc : OpenLocals} {k k' : Globals σ} {name : List UInt8} {r : Int}

theorem findSlot_free {fa : Fin 32 → FileDesc} {y : Fin 32} (h : findSlot fa = some y) : (fa y).flags = 0 := by
  simpa using List.find?_some h

theorem findSlot_isSome {fa : Fin 32 → FileDesc} {y : Fin 32} (h : (fa y).flags = 0) :
    ∃ z, findSlot fa = some z := by
  refine Option.isSome_iff_exists.mp (List.find?_isSome.mpr ⟨y, List.mem_finRange y, ?_⟩)
  simpa using h

/-- What fs_open does: an error that leaves the table alone, or a new entry. -/
theorem fsOpen_cases {io : Option (Fin 32)} (h : fsOpen dev loc k name = some (r, io, k')) :
    (r < 0 ∧ io = none ∧ k'.fileArray = k.fileArray ∧ k'.boot = k.boot ∧ k'.intSpot = k.intSpot) ∨
      ∃ spot fd, r = 0 ∧ io = some spot ∧ (findSlot k.fileArray).or loc.spot = some spot ∧
        k'.fileArray = Function.update k.fileArray spot fd ∧ k'.boot = k.boot ∧ k'.intSpot = spot ∧
        fd.flags = 1 ∧ fd.refcnt = ((k.fileArray spot).refcnt + 1) % 2 ^ 32 ∧ fd.ops = true := by
  unfold fsOpen at h
  split at h
  · simp only [Option.bind_eq_bind] at h
    split at h
    · obtain ⟨rfl, rfl, rfl⟩ := by simpa using h
      exact .inl ⟨by decide, rfl, rfl, rfl, rfl⟩
    · obtain ⟨read, hread, h⟩ := Option.bind_eq_some_iff.mp h
      split at h
      · obtain ⟨rfl, rfl, rfl⟩ := by simpa using h
        exact .inl ⟨by decide, rfl, rfl, rfl, rfl⟩
      · obtain ⟨spot, hspot, h⟩ := Option.bind_eq_some_iff.mp h
        obtain ⟨rfl, rfl, rfl⟩ := by simpa using h
        exact .inr ⟨spot, _, rfl, rfl, hspot, rfl, rfl, rfl, rfl, rfl, rfl⟩
  · obtain ⟨rfl, rfl, rfl⟩ := by simpa using h
    exact .inl ⟨by decide, rfl, rfl, rfl, rfl⟩

theorem fsOpen_isSome (hread : dev.read.isSome) (hfree : ∃ y, (k.fileArray y).flags = 0) :
    ∃ x, fsOpen dev loc k name = some x := by
  obtain ⟨read, hread⟩ := Option.isSome_iff_exists.mp hread
  obtain ⟨y, hy⟩ := hfree
  obtain ⟨z, hz⟩ := findSlot_isSome hy
  unfold fsOpen
  rw [hread, hz]
  simp only [Option.bind_eq_bind, Option.bind_some, Option.some_or]
  split
  · split
    · exact ⟨_, rfl⟩
    · split
      · exact ⟨_, rfl⟩
      · exact ⟨_, rfl⟩
  · exact ⟨_, rfl⟩

end Open

/-- Between steps: exclusive entries, with one reference to each open file. -/
structure Kept (s : State σ) : Prop extends Exclusive s where
  refs : ∀ y, (s.kfs.fileArray y).refcnt = if y ∈ s.files then 1 else 0

section Steps

variable {dev : IoOps σ} {s : State σ}

theorem step_open_kept (hread : dev.read.isSome) (hs : Kept s) {loc : OpenLocals} {name : List UInt8}
    (ho : InOrder s (.open loc name)) :
    ∃ r s', step dev s (.open loc name) = some (r, s') ∧ Undisturbed s (.open loc name) r s' ∧ Kept s' := by
  obtain ⟨⟨r, io, k'⟩, he⟩ := @fsOpen_isSome _ _ loc s.kfs name hread ho
  obtain ⟨y, hy⟩ := ho
  refine ⟨r, ⟨k', s.files ++ io.toList⟩, by simp [step, he], ?_⟩
  obtain ⟨-, rfl, hfa, -⟩ | ⟨spot, fd, -, rfl, hspot, hfa, -, -, hflags, href, -⟩ := fsOpen_cases he
  · simp only [Option.toList_none, List.append_nil]
    refine ⟨⟨fun y _ _ => by simp [hfa], fun _ hfull => absurd hy (hfull y)⟩, ⟨?_, hs.nodup⟩, ?_⟩
    · simpa [hfa] using hs.used
    · simpa [hfa] using hs.refs
  · obtain ⟨z, hz⟩ := findSlot_isSome hy
    rw [hz] at hspot
    obtain rfl := Option.some.inj hspot
    have hfree := findSlot_free hz
    have hnew : z ∉ s.files := fun hmem => (hs.used z).mpr hmem hfree
    simp only [Option.toList_some]
    have hother : ∀ y, y ≠ z → k'.fileArray y = s.kfs.fileArray y := fun y hyz => by
      rw [hfa, Function.update_of_ne hyz]
    refine ⟨⟨fun y hmem _ => ?_, fun _ hfull => absurd hy (hfull y)⟩, ⟨fun y => ?_, ?_⟩, fun y => ?_⟩
    · simp [hother y (fun h => hnew (h ▸ hmem))]
    · by_cases hyz : y = z
      · subst hyz
        simp [hfa, hflags]
      · simpa [hother y hyz, hyz] using hs.used y
    · exact List.nodup_append.mpr ⟨hs.nodup, by simp, by
        rintro a ha b hb rfl
        rw [List.mem_singleton.mp hb] at ha
        exact hnew ha⟩
    · by_cases hyz : y = z
      · subst hyz
        simp [hfa, href, hs.refs y, hnew]
      · simpa [hother y hyz, hyz] using hs.refs y

/-- The final ioclose of the file opened last frees its entry only. -/
theorem ioclose_intSpot {k : Globals σ} {io : Fin 32} (hr : (k.fileArray io).refcnt = 1) (hi : k.intSpot = io) :
    (ioclose k io).fileArray =
      Function.update k.fileArray io { k.fileArray io with ops := false, refcnt := 0, flags := 0 } := by
  subst hi
  simp [ioclose, Globals.setFile, hr, fsClose]

theorem step_close_kept (hs : Kept s) {j : Nat} (hj : Legal s (.close j)) (ho : InOrder s (.close j)) :
    ∃ r s', step dev s (.close j) = some (r, s') ∧ Undisturbed s (.close j) r s' ∧ Kept s' := by
  have hj : j < s.files.length := hj
  have hio : s.files[j]? = some s.kfs.intSpot := ho
  have hmem : s.kfs.intSpot ∈ s.files := List.mem_of_getElem? hio
  have hget : s.files[j] = s.kfs.intSpot := (List.getElem?_eq_some_iff.mp hio).2
  have herase : ∀ y, y ∈ s.files.eraseIdx j ↔ y ∈ s.files ∧ y ≠ s.kfs.intSpot := by
    intro y
    rw [List.mem_eraseIdx_iff_getElem?]
    constructor
    · rintro ⟨i, hij, hi⟩
      refine ⟨List.mem_of_getElem? hi, ?_⟩
      rintro rfl
      obtain ⟨hlt, hy⟩ := List.getElem?_eq_some_iff.mp hi
      exact hij ((List.Nodup.getElem_inj_iff hs.nodup).mp (hy.trans hget.symm))
    · rintro ⟨hy, hne⟩
      obtain ⟨i, hi⟩ := List.getElem?_of_mem hy
      refine ⟨i, ?_, hi⟩
      rintro rfl
      exact hne (Option.some.inj (hi.symm.trans hio))
  have hfa := @ioclose_intSpot _ s.kfs s.kfs.intSpot (by rw [hs.refs, if_pos hmem]) rfl
  refine ⟨0, ⟨ioclose s.kfs s.kfs.intSpot, s.files.eraseIdx j⟩, by simp [step, hio], ⟨?_, ?_⟩, ⟨?_, ?_⟩, ?_⟩
  · intro y _ hy
    simp only [hfa]
    rw [Function.update_of_ne ((herase y).mp hy).2]
    exact ⟨rfl, rfl, rfl⟩
  · intro h
    cases h
  · intro y
    simp only [hfa, herase]
    by_cases hy : y = s.kfs.intSpot
    · subst hy
      simp
    · simpa [hy] using hs.used y
  · exact hs.nodup.eraseIdx j
  · intro y
    simp only [hfa, herase]
    by_cases hy : y = s.kfs.intSpot
    · subst hy
      simp
    · simpa [hy] using hs.refs y

theorem step_kept (hread : dev.read.isSome) (hs : Kept s) {ev : Event} (hl : Legal s ev) (ho : InOrder s ev) :
    ∃ r s', step dev s ev = some (r, s') ∧ Undisturbed s ev r s' ∧ Kept s' := by
  cases ev with
  | «open» loc name => exact step_open_kept hread hs ho
  | close j => exact step_close_kept hs hl ho

theorem mounted_kept (dev : IoOps σ) (boot : Nat → UInt8) (intSpot : Fin 32) (blkio : σ) :
    Kept (⟨(fsMount dev boot intSpot blkio).2, []⟩ : State σ) :=
  ⟨⟨fun _ => by simp [fsMount, FileDesc.zero], List.nodup_nil⟩, fun _ => rfl⟩

theorem kept_holds (hread : dev.read.isSome) {evs : List Event} (hs : Kept s) (hl : Along dev Legal s evs)
    (ho : Along dev InOrder s evs) : Holds dev s evs := by
  induction evs generalizing s with
  | nil => exact hs.toExclusive
  | cons ev evs ih =>
      obtain ⟨r, s', he, hu, hs'⟩ := step_kept hread hs hl.1 ho.1
      have hl' := hl.2
      have ho' := ho.2
      simp only [he] at hl' ho'
      refine ⟨hs.toExclusive, ?_⟩
      simp only [he]
      exact ⟨hu, ih hs' hl' ho'⟩

/-- From fs_mount on, the table is right along every run that opens files only
while an entry is free and closes only the file opened last. -/
theorem holds_of_inOrder (dev : IoOps σ) (boot : Nat → UInt8) (intSpot : Fin 32) (blkio : σ) (evs : List Event)
    (hread : dev.read.isSome) (hl : Along dev Legal ⟨(fsMount dev boot intSpot blkio).2, []⟩ evs)
    (ho : Along dev InOrder ⟨(fsMount dev boot intSpot blkio).2, []⟩ evs) :
    Holds dev ⟨(fsMount dev boot intSpot blkio).2, []⟩ evs :=
  kept_holds hread (mounted_kept dev boot intSpot blkio) hl ho

end Steps

section TwoFiles

/-- An image with two empty files, a and b. -/
def twoFiles (a : Nat) : UInt8 :=
  if a = 0 ∨ a = 4 then 2 else if a = 64 then 97 else if a = 128 then 98 else if a = 160 then 1 else 0

def twoFilesState : State Disk := ⟨(fsMount FlatDisk.ops twoFiles 0 ⟨twoFiles, 3 * 4096, 0⟩).2, []⟩

def openEvent (name : UInt8) : Event := .open ⟨none, 0⟩ [name]

theorem holds_of_inOrder_twoFiles : Holds FlatDisk.ops twoFilesState [openEvent 97, .close 0] :=
  holds_of_inOrder FlatDisk.ops twoFiles 0 ⟨twoFiles, 3 * 4096, 0⟩ [openEvent 97, .close 0] rfl
    (by decide +kernel) (by decide +kernel)

def run (dev : IoOps σ) : State σ → List Event → Option (State σ)
  | s, [] => some s
  | s, ev :: evs => (step dev s ev).bind (fun x => run dev x.2 evs)

theorem Holds.exclusive {dev : IoOps σ} {evs : List Event} {s : State σ} (h : Holds dev s evs) :
    ∃ s', run dev s evs = some s' ∧ Exclusive s' := by
  induction evs generalizing s with
  | nil => exact ⟨s, rfl, h⟩
  | cons ev evs ih =>
      obtain ⟨-, h⟩ := h
      cases he : step dev s ev with
      | none => simp [he] at h
      | some x =>
          simp only [he] at h
          simpa [run, he] using ih h.2

/-- Closing a before b frees the entry of b and keeps that of a. -/
theorem close_first_opened_diverges :
    Along FlatDisk.ops Legal twoFilesState [openEvent 97, openEvent 98, .close 0] ∧
      ¬ Holds FlatDisk.ops twoFilesState [openEvent 97, openEvent 98, .close 0] := by
  refine ⟨by decide +kernel, fun h => ?_⟩
  have hfinal : (run FlatDisk.ops twoFilesState [openEvent 97, openEvent 98, .close 0]).map
      (fun s => decide (Exclusive s)) = some false := by decide +kernel
  obtain ⟨s', hs', he⟩ := h.exclusive
  rw [hs', Option.map_some, decide_eq_true he] at hfinal
  cases hfinal

end TwoFiles

end RiscvKernel.KfsSlots
