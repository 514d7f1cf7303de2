import RiscvKernel.KfsRounds
import RiscvKernel.KfsRun

namespace RiscvKernel.TransferFailure

open Io Lib.Bytes SleepLock Kfs KfsFile KfsRounds

variable {σ : Type}

/-- What io.h allows the device to return: an error, or at most what was asked for. -/
structure Device (dev : IoOps σ) : Prop where
  read : ∀ s n, (ioread dev s n).1 ≤ n
  bytes : ∀ s n, (ioread dev s n).2.1.length ≤ n
  write : ∀ w, dev.write = some w → ∀ s bs, (w s bs).1 ≤ bs.length

theorem iowriteLoop_le {w : σ → List UInt8 → Int × σ} (hw : ∀ s bs, (w s bs).1 ≤ bs.length) (buf : List UInt8)
    (acc : Nat) (s : σ) (h : acc ≤ buf.length) : (iowriteLoop w buf acc s).1 ≤ buf.length := by
  fun_induction iowriteLoop w buf acc s with
  | case1 acc s hlt cnt s' he hneg => simp only; omega
  | case2 acc s hlt s' he hneg => simp only; omega
  | case3 acc s hlt cnt s' he hneg hzero ih =>
      have hle := hw s (buf.drop acc)
      rw [he, List.length_drop] at hle
      simp only at hle
      exact ih (by omega)
  | case4 acc s hge => simp only; omega

/-- A transfer returns at most what the round asks for. -/
def ChunkLe (chunk : Chunk σ) : Prop := ∀ count want buf s, (chunk count want buf s).1 ≤ want

theorem Device.readChunk {dev : IoOps σ} (h : Device dev) : ChunkLe (readChunk dev) :=
  fun _ want _ s => h.read s want

theorem Device.writeChunk {dev : IoOps σ} (h : Device dev) : ChunkLe (writeChunk dev) := by
  intro count want buf s
  simp only [Kfs.writeChunk, iowrite]
  cases hw : dev.write with
  | none =>
      simp only [enotsup]
      omega
  | some w =>
      have hle := iowriteLoop_le (h.write w hw) (readAt buf count want) 0 s (Nat.zero_le _)
      rwa [readAt_length] at hle

section Rounds

variable (dev : IoOps σ) (chunk : Chunk σ) (N i : Nat)

/-- No call of the device fails in the round: both seeks and the lookup of the
block succeed, and some data is transferred. -/
def RoundOk (t : Transfer σ) : Prop :=
  (ask dev N i t).seeks = (0, 0) ∧ (ask dev N i t).lookup = 4 ∧ 0 < (answer dev chunk N i t).1

instance (t : Transfer σ) : Decidable (RoundOk dev chunk N i t) := inferInstanceAs (Decidable (_ ∧ _ ∧ _))

/-- What the transfers return in the first rounds. -/
def results (fuel : Nat) (t : Transfer σ) : List Int :=
  (rounds dev chunk N i fuel t).map fun t => (answer dev chunk N i t).1

/-- The bytes transferred in the rounds. -/
def moved (rs : List (Transfer σ)) : Nat := (rs.map fun t => (answer dev chunk N i t).1.toNat).sum

/-- The bytes transferred before the first round in which a call fails. -/
def movedBefore (rs : List (Transfer σ)) : Nat :=
  match rs.find? fun t => ¬ RoundOk dev chunk N i t with
  | some t => t.count
  | none => moved dev chunk N i rs

variable {dev : IoOps σ} {chunk : Chunk σ} {N i : Nat} {t t' : Transfer σ}

/-- Whatever the transfers return, count + n is kept modulo 2 ^ 64. -/
theorem blockStep_sum :
    ((blockStep dev chunk N i t).count + (blockStep dev chunk N i t).n) % 2 ^ 64 = (t.count + t.n) % 2 ^ 64 := by
  rw [blockStep_received]
  simp only [received]
  have h : ((answer dev chunk N i t).1 % 2 ^ 64).toNat < 2 ^ 64 := by omega
  generalize ((answer dev chunk N i t).1 % 2 ^ 64).toNat = v at h ⊢
  omega

theorem blockStep_lt : (blockStep dev chunk N i t).n < 2 ^ 64 ∧ (blockStep dev chunk N i t).count < 2 ^ 64 := by
  rw [blockStep_received]
  exact ⟨Nat.mod_lt _ (by decide), Nat.mod_lt _ (by decide)⟩

/-- A loop that ends has counted all n bytes, whether they were transferred or not. -/
theorem blockLoop_count (fuel : Nat) (hn : t.n < 2 ^ 64) (hc : t.count < 2 ^ 64)
    (h : blockLoop dev chunk N i fuel t = some t') : t'.count = (t.count + t.n) % 2 ^ 64 := by
  induction fuel generalizing t with
  | zero => simp [blockLoop] at h
  | succ fuel ih =>
      rw [blockLoop] at h
      by_cases h0 : t.n > 0
      · rw [if_pos h0] at h
        rw [ih blockStep_lt.1 blockStep_lt.2 h, blockStep_sum]
      · rw [if_neg h0] at h
        obtain rfl := Option.some.inj h
        omega

/-- A round without failure moves as many bytes from n to count as it transfers. -/
theorem blockStep_ok (hle : ChunkLe chunk) (hok : RoundOk dev chunk N i t) (hsum : t.count + t.n < 2 ^ 64) :
    (blockStep dev chunk N i t).n + (answer dev chunk N i t).1.toNat = t.n ∧
      (blockStep dev chunk N i t).count = t.count + (answer dev chunk N i t).1.toNat ∧
      0 < (answer dev chunk N i t).1.toNat ∧
      (blockStep dev chunk N i t).filePos ≤ t.filePos + (answer dev chunk N i t).1.toNat ∧
      ((blockStep dev chunk N i t).fd.filePos = t.fd.filePos ∨
        (blockStep dev chunk N i t).fd.filePos = (blockStep dev chunk N i t).filePos) := by
  have hpos := hok.2.2
  have hwant : (answer dev chunk N i t).1 ≤ part t.filePos t.n := hle _ _ _ _
  have hpart : part t.filePos t.n ≤ t.n := part_le
  rw [blockStep_received]
  simp only [received]
  obtain ⟨v, hv⟩ := Int.eq_ofNat_of_zero_le (Int.le_of_lt hpos)
  rw [hv] at hpos hwant ⊢
  have hmod : ((v : Int) % 2 ^ 64).toNat = v := by omega
  rw [hmod, Int.toNat_natCast]
  refine ⟨by omega, by omega, by omega, Nat.mod_le _ _, ?_⟩
  simp only [fsIoctl, fsSetpos]
  split_ifs
  · exact .inl rfl
  · exact .inr rfl

theorem blockStep_n :
    (2 ^ 64 : Int) ∣ ((blockStep dev chunk N i t).n : Int) - (t.n - (answer dev chunk N i t).1) := by
  rw [blockStep_received]
  simp only [received]
  omega

/-- The loop ends when the results, taken modulo 2 ^ 64, add up to n. -/
theorem results_sum (fuel : Nat) (hn : t.n < 2 ^ 64) :
    (2 ^ 64 : Int) ∣ (results dev chunk N i fuel t).sum - t.n ↔ (blockLoop dev chunk N i (fuel + 1) t).isSome := by
  induction fuel generalizing t with
  | zero =>
      rw [blockLoop, results, rounds, List.map_nil, List.sum_nil]
      by_cases h0 : t.n > 0
      · rw [if_pos h0]
        simp only [blockLoop, Option.isSome_none, Bool.false_eq_true, iff_false]
        omega
      · rw [if_neg h0]
        simp only [Option.isSome_some, iff_true]
        omega
  | succ fuel ih =>
      have hstep := @blockStep_n _ dev chunk N i t
      rw [blockLoop, results, rounds]
      by_cases h0 : t.n > 0
      · rw [if_pos h0, if_pos h0, ← ih blockStep_lt.1, List.map_cons, List.sum_cons]
        change _ ∣ _ + (results dev chunk N i fuel (blockStep dev chunk N i t)).sum - _ ↔ _
        generalize (results dev chunk N i fuel (blockStep dev chunk N i t)).sum = sum
        omega
      · rw [if_neg h0, if_neg h0]
        simp only [List.map_nil, List.sum_nil, Option.isSome_some, iff_true]
        omega

/-- The position that the loop ends with, and that the file has if it is in the file. -/
theorem blockLoop_filePos (fuel : Nat) (hn : t.n < 2 ^ 64) (hp : t.filePos < 2 ^ 64)
    (hfd : t.filePos ≤ t.fd.fileSize → t.fd.filePos = t.filePos) (h : blockLoop dev chunk N i fuel t = some t') :
    t'.filePos = (t.filePos + t.n) % 2 ^ 64 ∧ t'.fd.fileSize = t.fd.fileSize ∧
      (t'.filePos ≤ t'.fd.fileSize → t'.fd.filePos = t'.filePos) := by
  induction fuel generalizing t with
  | zero => simp [blockLoop] at h
  | succ fuel ih =>
      rw [blockLoop] at h
      by_cases h0 : t.n > 0
      · rw [if_pos h0] at h
        have hpos : (blockStep dev chunk N i t).filePos < 2 ^ 64 := Nat.mod_lt _ (by decide)
        have hset : (blockStep dev chunk N i t).fd.fileSize = t.fd.fileSize ∧
            ((blockStep dev chunk N i t).filePos ≤ (blockStep dev chunk N i t).fd.fileSize →
              (blockStep dev chunk N i t).fd.filePos = (blockStep dev chunk N i t).filePos) := by
          rw [blockStep_received]
          simp only [received, fsIoctl, fsSetpos]
          split_ifs with hgt
          · exact ⟨rfl, fun hle => absurd hle (Nat.not_le.mpr hgt)⟩
          · exact ⟨rfl, fun _ => rfl⟩
        obtain ⟨hend, hsize, hlast⟩ := ih blockStep_lt.1 hpos hset.2 h
        refine ⟨hend.trans ?_, hsize.trans hset.1, hlast⟩
        rw [blockStep_received]
        simp only [received]
        have hv : ((answer dev chunk N i t).1 % 2 ^ 64).toNat < 2 ^ 64 := by omega
        generalize ((answer dev chunk N i t).1 % 2 ^ 64).toNat = v at hv ⊢
        omega
      · rw [if_neg h0] at h
        obtain rfl := Option.some.inj h
        exact ⟨by rw [Nat.mod_eq_of_lt (by omega)]; omega, rfl, hfd⟩

/-- Up to the first failure n and count add up to what was asked for. -/
theorem rounds_find (hle : ChunkLe chunk) (fuel : Nat) (hsum : t.count + t.n < 2 ^ 64)
    (h : (rounds dev chunk N i fuel t).find? (fun t => ¬ RoundOk dev chunk N i t) = some t') :
    t'.count + t'.n = t.count + t.n ∧ 0 < t'.n := by
  induction fuel generalizing t with
  | zero => simp [rounds] at h
  | succ fuel ih =>
      rw [rounds] at h
      by_cases h0 : t.n > 0
      · rw [if_pos h0, List.find?_cons] at h
        by_cases hok : RoundOk dev chunk N i t
        · obtain ⟨hn, hc, -⟩ := blockStep_ok hle hok hsum
          rw [decide_eq_false (not_not.mpr hok)] at h
          obtain ⟨he, hp⟩ := ih (by omega) h
          exact ⟨by omega, hp⟩
        · rw [decide_eq_true hok] at h
          obtain rfl := Option.some.inj h
          exact ⟨rfl, h0⟩
      · simp [if_neg h0] at h

/-- Without a failure the loop ends, when as many bytes are transferred as it was
asked for, and the position has moved by no more. -/
theorem rounds_ok (hle : ChunkLe chunk) {pos : Nat} (hsum : t.count + t.n < 2 ^ 64)
    (hok : ∀ fuel, ∀ t' ∈ rounds dev chunk N i fuel t, RoundOk dev chunk N i t')
    (hp : t.filePos ≤ pos + t.count) (hfd : t.fd.filePos ≤ pos + t.count) :
    ∃ fuel t', blockLoop dev chunk N i fuel t = some t' ∧ t'.count = t.count + t.n ∧
      moved dev chunk N i (rounds dev chunk N i fuel t) = t.n ∧ t'.fd.filePos ≤ pos + t'.count := by
  induction hk : t.n using Nat.strongRecOn generalizing t with
  | ind m ih =>
      by_cases h0 : t.n > 0
      · obtain ⟨hn, hc, hv, hpos', hfd'⟩ := blockStep_ok hle (hok 1 t (by simp [rounds, h0])) hsum
        obtain ⟨fuel, t', he, hcount, hmoved, hf⟩ := ih (blockStep dev chunk N i t).n (by omega)
          (t := blockStep dev chunk N i t) (by omega)
          (fun fuel t' ht' => hok (fuel + 1) t' (by rw [rounds, if_pos h0]; exact List.mem_cons_of_mem _ ht'))
          (by omega) (by omega) rfl
        refine ⟨fuel + 1, t', by rw [blockLoop, if_pos h0, he], by omega, ?_, hf⟩
        rw [rounds, if_pos h0, moved, List.map_cons, List.sum_cons]
        change _ + moved dev chunk N i (rounds dev chunk N i fuel (blockStep dev chunk N i t)) = m
        omega
      · refine ⟨1, t, by rw [blockLoop, if_neg h0], by omega, ?_, hfd⟩
        rw [rounds, if_neg h0]
        simp only [moved, List.map_nil, List.sum_nil]
        omega

/-- Once the loop has ended, more fuel shows no further rounds. -/
theorem rounds_ended (fuel : Nat) (h : blockLoop dev chunk N i fuel t = some t') (more : Nat) :
    rounds dev chunk N i more t ⊆ rounds dev chunk N i fuel t := by
  induction fuel generalizing t more with
  | zero => simp [blockLoop] at h
  | succ fuel ih =>
      rw [blockLoop] at h
      cases more with
      | zero => simp [rounds]
      | succ more =>
          rw [rounds, rounds]
          by_cases h0 : t.n > 0
          · rw [if_pos h0, if_pos h0]
            rw [if_pos h0] at h
            exact List.cons_subset_cons _ (ih h more)
          · rw [if_neg h0]
            exact List.nil_subset _

end Rounds

section Call

variable (dev : IoOps σ) (chunk : Chunk σ) (loc : Locals) (self : Nat) (k : Globals σ) (io : Fin 32)
  (buf : Nat → UInt8) (n : Nat)

/-- The rounds of a call; there are none when the checked seek fails. -/
def callRounds (fuel : Nat) : List (Transfer σ) :=
  if (fsEnter dev loc k io buf n).seek = 0 then
    rounds dev chunk (fsEnter dev loc k io buf n).numInodes (k.fileArray io).inode fuel
      (fsEnter dev loc k io buf n).start
  else []

/-- The bytes transferred before a call of the device fails, which may be one of
those before the loop. -/
def due (fuel : Nat) : Nat :=
  if (fsEnter dev loc k io buf n).unchecked = (0, 4, 4) then
    movedBefore dev chunk (fsEnter dev loc k io buf n).numInodes (k.fileArray io).inode
      (callRounds dev chunk loc k io buf n fuel)
  else 0

/-- The call returns: a negative error, or the bytes transferred before a call of
the device failed; and the position has moved by no more than was transferred. -/
def Accounted : Prop :=
  ∃ fuel v buf' k', fsTransfer dev chunk fuel loc self k io buf n = some (v, buf', k') ∧
    (v < 0 ∨ v = due dev chunk loc k io buf n fuel) ∧
    (k'.fileArray io).filePos ≤ (k.fileArray io).filePos +
      moved dev chunk (fsEnter dev loc k io buf n).numInodes (k.fileArray io).inode
        (callRounds dev chunk loc k io buf n fuel)

/-- The checked seek fails, or nothing is to be transferred, or no call fails. -/
def NoFailure : Prop :=
  (fsEnter dev loc k io buf n).seek ≠ 0 ∨ (fsEnter dev loc k io buf n).start.n = 0 ∨
    (fsEnter dev loc k io buf n).unchecked = (0, 4, 4) ∧
      ∀ fuel, ∀ t ∈ callRounds dev chunk loc k io buf n fuel,
        RoundOk dev chunk (fsEnter dev loc k io buf n).numInodes (k.fileArray io).inode t

/-- The length to transfer is that of a negative number, which is what the call returns, and the
results of the transfers add up to it modulo 2 ^ 64. -/
def Wraps : Prop :=
  2 ^ 63 ≤ (fsEnter dev loc k io buf n).start.n ∧
    ∃ fuel, (2 ^ 64 : Int) ∣ (results dev chunk (fsEnter dev loc k io buf n).numInodes (k.fileArray io).inode fuel
      (fsEnter dev loc k io buf n).start).sum - (fsEnter dev loc k io buf n).start.n

variable {dev chunk loc self k io buf n}

theorem fsTransfer_of_loop {lk : Lock} (hlk : lockAcquire k.kfsLock self = some lk)
    (hseek : (fsEnter dev loc k io buf n).seek = 0) {fuel : Nat} {t : Transfer σ}
    (he : blockLoop dev chunk (fsEnter dev loc k io buf n).numInodes (k.fileArray io).inode fuel
      (fsEnter dev loc k io buf n).start = some t) :
    fsTransfer dev chunk fuel loc self k io buf n = some ((BitVec.ofNat 64 t.count).toInt, t.buf,
      { k.setFile io t.fd with kfsLock := lockRelease lk, globalIO := t.io }) := by
  rw [fsTransfer_enter, hlk, Option.bind_some, if_neg (not_not.mpr hseek), he, Option.map_some]

theorem fsTransfer_of_seek {lk : Lock} (hlk : lockAcquire k.kfsLock self = some lk)
    (hseek : (fsEnter dev loc k io buf n).seek ≠ 0) (fuel : Nat) :
    fsTransfer dev chunk fuel loc self k io buf n =
      some (-ebadfmt, buf, { k with kfsLock := lk, globalIO := (fsEnter dev loc k io buf n).failed }) := by
  rw [fsTransfer_enter, hlk, Option.bind_some, if_pos hseek]

theorem toInt64_neg {v : Nat} (h : 2 ^ 63 ≤ v) (hv : v < 2 ^ 64) : (BitVec.ofNat 64 v).toInt < 0 := by
  simp only [BitVec.toInt, BitVec.toNat_ofNat]
  omega

theorem accounted_of_noFailure (hle : ChunkLe chunk) (hl : (lockAcquire k.kfsLock self).isSome)
    (hn : (fsEnter dev loc k io buf n).start.n < 2 ^ 64) (h : NoFailure dev chunk loc k io buf n) :
    Accounted dev chunk loc self k io buf n := by
  obtain ⟨lk, hlk⟩ := Option.isSome_iff_exists.mp hl
  by_cases hseek : (fsEnter dev loc k io buf n).seek = 0
  · have hok : ∀ fuel, ∀ t ∈ callRounds dev chunk loc k io buf n fuel,
        RoundOk dev chunk (fsEnter dev loc k io buf n).numInodes (k.fileArray io).inode t := by
      rcases h with h | h | h
      · exact absurd hseek h
      · intro fuel t ht
        rw [callRounds, if_pos hseek] at ht
        cases fuel <;> simp [rounds, h] at ht
      · exact h.2
    obtain ⟨fuel, t', he, hcount, hmoved, hpos⟩ := @rounds_ok _ dev chunk
      (fsEnter dev loc k io buf n).numInodes (k.fileArray io).inode (fsEnter dev loc k io buf n).start hle
      (k.fileArray io).filePos (by simp only [fsEnter] at hn ⊢; omega)
      (fun fuel t ht => hok fuel t (by rw [callRounds, if_pos hseek]; exact ht)) (Nat.le_refl _) (Nat.le_refl _)
    have hzero : (fsEnter dev loc k io buf n).start.count = 0 := rfl
    rw [hzero, Nat.zero_add] at hcount
    have hrs : callRounds dev chunk loc k io buf n fuel = rounds dev chunk (fsEnter dev loc k io buf n).numInodes
        (k.fileArray io).inode fuel (fsEnter dev loc k io buf n).start := if_pos hseek
    refine ⟨fuel, _, _, _, fsTransfer_of_loop hlk hseek he, ?_, ?_⟩
    · by_cases hwide : 2 ^ 63 ≤ (fsEnter dev loc k io buf n).start.n
      · exact .inl (by rw [hcount]; exact toInt64_neg hwide hn)
      right
      rw [hcount, toInt64_of_lt (Nat.lt_of_not_le hwide), due]
      rcases h with h | h | h
      · exact absurd hseek h
      · rw [h] at hmoved ⊢
        have hfind : (callRounds dev chunk loc k io buf n fuel) = [] := by
          rw [hrs]
          cases fuel <;> simp [rounds, h]
        rw [hfind]
        split_ifs <;> rfl
      · rw [if_pos h.1, movedBefore, List.find?_eq_none.mpr fun t ht => by simpa using hok fuel t ht, hrs, hmoved]
    · rw [hrs, hmoved, ← hcount]
      simpa [Globals.setFile] using hpos
  · refine ⟨0, _, _, _, fsTransfer_of_seek hlk hseek 0, .inl ?_, ?_⟩
    · decide
    · simp

theorem noFailure_of_accounted (hle : ChunkLe chunk) (hn : (fsEnter dev loc k io buf n).start.n < 2 ^ 63)
    (h : Accounted dev chunk loc self k io buf n) : NoFailure dev chunk loc k io buf n := by
  obtain ⟨fuel, v, buf', k', he, hv, -⟩ := h
  by_cases hseek : (fsEnter dev loc k io buf n).seek = 0
  · have hrs (fuel : Nat) : callRounds dev chunk loc k io buf n fuel = rounds dev chunk
        (fsEnter dev loc k io buf n).numInodes (k.fileArray io).inode fuel (fsEnter dev loc k io buf n).start :=
      if_pos hseek
    rw [fsTransfer_enter, Option.bind_eq_some_iff] at he
    obtain ⟨lk, -, he⟩ := he
    rw [if_neg (not_not.mpr hseek), Option.map_eq_some_iff] at he
    obtain ⟨t', hloop, he⟩ := he
    have hcount := blockLoop_count fuel (show (fsEnter dev loc k io buf n).start.n < 2 ^ 64 by omega)
      (show (fsEnter dev loc k io buf n).start.count < 2 ^ 64 by simp [fsEnter]) hloop
    have hzero : (fsEnter dev loc k io buf n).start.count = 0 := rfl
    rw [hzero, Nat.zero_add, Nat.mod_eq_of_lt (by omega)] at hcount
    obtain rfl : ((fsEnter dev loc k io buf n).start.n : Int) = v := by
      rw [← toInt64_of_lt hn, ← hcount]
      exact congrArg Prod.fst he
    have hdue : (fsEnter dev loc k io buf n).start.n = due dev chunk loc k io buf n fuel := by omega
    by_cases h0 : (fsEnter dev loc k io buf n).start.n = 0
    · exact .inr (.inl h0)
    · rw [due] at hdue
      have hun : (fsEnter dev loc k io buf n).unchecked = (0, 4, 4) := by
        by_contra hne
        rw [if_neg hne] at hdue
        exact h0 hdue
      rw [if_pos hun, movedBefore] at hdue
      refine .inr (.inr ⟨hun, fun more t ht => ?_⟩)
      rw [hrs] at ht
      have hmem := rounds_ended fuel hloop more ht
      cases hfind : (callRounds dev chunk loc k io buf n fuel).find? fun t =>
          ¬ RoundOk dev chunk (fsEnter dev loc k io buf n).numInodes (k.fileArray io).inode t with
      | some t1 =>
          rw [hfind] at hdue
          simp only at hdue
          rw [hrs] at hfind
          obtain ⟨hsum, hp⟩ := rounds_find hle fuel (by rw [hzero]; omega) hfind
          omega
      | none =>
          have hnone := List.find?_eq_none.mp hfind t (by rw [hrs]; exact hmem)
          simpa using hnone
  · exact .inl hseek

/-- The length of the file as it is read has 32 bits. -/
theorem overlay_lt {old : UInt32} {bs : List UInt8} (hb : bs.length ≤ 4) : overlay old.toNat bs < 2 ^ 32 := by
  have hlt := leNat_lt bs
  have hold : old.toNat < 2 ^ 32 := old.toNat_lt
  rw [overlay]
  generalize bs.length = l at hb hlt ⊢
  interval_cases l <;> omega

/-- fs_setpos keeps the position of a file inside the file, where fs_open puts it. -/
def Positioned (fd : FileDesc) : Prop := fd.filePos ≤ fd.fileSize ∧ fd.fileSize < 2 ^ 64

theorem Positioned.ioctl {fd : FileDesc} (h : Positioned fd) (cmd : Ioctl) (arg : Nat) : Positioned (fsIoctl fd cmd arg).2.2 := by
  cases cmd with
  | setpos =>
      simp only [fsIoctl, fsSetpos]
      split_ifs with hgt
      · exact h
      · exact ⟨Nat.le_of_not_gt hgt, h.2⟩
  | _ => exact h

/-- A length of 2 ^ 63 or more ends behind the wrap, at a position before the one it starts at. -/
theorem fsEnter_wide (hd : Device dev) (hp : Positioned (k.fileArray io)) (hn : n < 2 ^ 64)
    (hwide : 2 ^ 63 ≤ (fsEnter dev loc k io buf n).start.n) :
    ((k.fileArray io).filePos + (fsEnter dev loc k io buf n).start.n) % 2 ^ 64 < (k.fileArray io).filePos := by
  obtain ⟨hle, hsize⟩ := hp
  obtain ⟨lengthB, hlen, hclamp⟩ : ∃ lengthB < 2 ^ 32, (fsEnter dev loc k io buf n).start.n =
      if ((k.fileArray io).filePos + n) % 2 ^ 64 > lengthB then (lengthB + (2 ^ 64 - (k.fileArray io).filePos)) % 2 ^ 64 else n :=
    ⟨_, overlay_lt (hd.bytes _ 4), rfl⟩
  rw [hclamp] at hwide ⊢
  split_ifs at hwide ⊢ <;> omega

theorem accounted_of_wraps (hd : Device dev) (hp : Positioned (k.fileArray io)) (hn : n < 2 ^ 64)
    (hl : (lockAcquire k.kfsLock self).isSome) (hseek : (fsEnter dev loc k io buf n).seek = 0)
    (hlt : (fsEnter dev loc k io buf n).start.n < 2 ^ 64) (h : Wraps dev chunk loc k io buf n) :
    Accounted dev chunk loc self k io buf n := by
  obtain ⟨lk, hlk⟩ := Option.isSome_iff_exists.mp hl
  obtain ⟨hwide, fuel, hsum⟩ := h
  rw [results_sum fuel hlt] at hsum
  obtain ⟨t', he⟩ := Option.isSome_iff_exists.mp hsum
  have hcount := blockLoop_count (fuel + 1) hlt (show (fsEnter dev loc k io buf n).start.count < 2 ^ 64 by simp [fsEnter]) he
  have hzero : (fsEnter dev loc k io buf n).start.count = 0 := rfl
  rw [hzero, Nat.zero_add, Nat.mod_eq_of_lt hlt] at hcount
  have hstart : (fsEnter dev loc k io buf n).start.filePos = (k.fileArray io).filePos := rfl
  have hfd : (fsEnter dev loc k io buf n).start.fd = k.fileArray io := rfl
  have hlow := fsEnter_wide hd hp hn hwide
  obtain ⟨hpos, hsize, hset⟩ := blockLoop_filePos (fuel + 1) hlt (by rw [hstart]; have := hp.1; have := hp.2; omega)
    (fun _ => rfl) he
  rw [hstart] at hpos
  rw [hfd] at hsize
  have hend : t'.fd.filePos = t'.filePos := hset (by rw [hsize, hpos]; have := hp.1; omega)
  refine ⟨fuel + 1, _, _, _, fsTransfer_of_loop hlk hseek he, .inl ?_, ?_⟩
  · rw [hcount]
    exact toInt64_neg hwide hlt
  · simp only [Globals.setFile, Function.update_self]
    rw [hend, hpos]
    exact Nat.le_of_lt (Nat.lt_of_lt_of_le hlow (Nat.le_add_right _ _))

theorem wraps_of_accounted (hlt : (fsEnter dev loc k io buf n).start.n < 2 ^ 64)
    (hwide : 2 ^ 63 ≤ (fsEnter dev loc k io buf n).start.n) (hseek : (fsEnter dev loc k io buf n).seek = 0)
    (h : Accounted dev chunk loc self k io buf n) : Wraps dev chunk loc k io buf n := by
  obtain ⟨fuel, v, buf', k', he, -⟩ := h
  rw [fsTransfer_enter, Option.bind_eq_some_iff] at he
  obtain ⟨lk, -, he⟩ := he
  rw [if_neg (not_not.mpr hseek), Option.map_eq_some_iff] at he
  obtain ⟨t', hloop, -⟩ := he
  refine ⟨hwide, fuel, (results_sum fuel hlt).mpr ?_⟩
  rw [blockLoop_mono hloop (Nat.le_succ _)]
  rfl

theorem fsEnter_lt (hn : n < 2 ^ 64) : (fsEnter dev loc k io buf n).start.n < 2 ^ 64 := by
  simp only [fsEnter]
  split_ifs
  · exact Nat.mod_lt _ (by decide)
  · exact hn

theorem accounted_iff (hd : Device dev) (hle : ChunkLe chunk) (hl : (lockAcquire k.kfsLock self).isSome)
    (hp : Positioned (k.fileArray io)) (hn : n < 2 ^ 64) :
    Accounted dev chunk loc self k io buf n ↔ NoFailure dev chunk loc k io buf n ∨ Wraps dev chunk loc k io buf n := by
  have hlt : (fsEnter dev loc k io buf n).start.n < 2 ^ 64 := fsEnter_lt hn
  by_cases hseek : (fsEnter dev loc k io buf n).seek = 0
  · constructor
    · intro h
      by_cases hwide : 2 ^ 63 ≤ (fsEnter dev loc k io buf n).start.n
      · exact .inr (wraps_of_accounted hlt hwide hseek h)
      · exact .inl (noFailure_of_accounted hle (Nat.lt_of_not_le hwide) h)
    · rintro (h | h)
      · exact accounted_of_noFailure hle hl hlt h
      · exact accounted_of_wraps hd hp hn hl hseek hlt h
  · exact ⟨fun _ => .inl (.inl hseek), fun _ => accounted_of_noFailure hle hl hlt (.inl hseek)⟩

end Call

/-- fs_read and fs_write end and account for what they transferred exactly when
the seek they check fails, or there is nothing to transfer, or no call of the
device fails, or the length is that of a negative number, which is returned, and the results
add up to it. -/
theorem transfers_accounted_iff (dev : IoOps σ) (hd : Device dev) (loc : Locals) (self : Nat) (k : Globals σ)
    (io : Fin 32) (buf : Nat → UInt8) (n : UInt64) (hl : (lockAcquire k.kfsLock self).isSome)
    (hp : Positioned (k.fileArray io)) :
    (Accounted dev (readChunk dev) loc self k io buf n.toNat ↔
      NoFailure dev (readChunk dev) loc k io buf n.toNat ∨ Wraps dev (readChunk dev) loc k io buf n.toNat) ∧
    (Accounted dev (writeChunk dev) loc self k io buf n.toNat ↔
      NoFailure dev (writeChunk dev) loc k io buf n.toNat ∨ Wraps dev (writeChunk dev) loc k io buf n.toNat) :=
  ⟨accounted_iff hd hd.readChunk hl hp n.toNat_lt, accounted_iff hd hd.writeChunk hl hp n.toNat_lt⟩

section OneFile

open FlatDisk KfsRun

theorem device_disk : Device FlatDisk.ops where
  read s n := by
    simp only [ioread, FlatDisk.ops, FlatDisk.read]
    omega
  bytes s n := by
    simp only [ioread, FlatDisk.ops, FlatDisk.read, readAt_length]
    omega
  write w hw s bs := by
    obtain rfl : FlatDisk.write = w := Option.some.inj hw
    simp only [FlatDisk.write]
    omega

theorem transfers_accounted_oneFile :
    Accounted FlatDisk.ops (readChunk FlatDisk.ops) ⟨0, 0, 0⟩ 3 (oneFileState 1) 0 (fun _ => 0) 5 := by
  apply ((transfers_accounted_iff FlatDisk.ops device_disk ⟨0, 0, 0⟩ 3 (oneFileState 1) 0 (fun _ => 0) 5
    (by decide) ⟨by decide, by decide⟩).1).mpr
  refine .inl (.inr (.inr ⟨by decide +kernel, fun fuel t ht => ?_⟩))
  have hend : (blockLoop FlatDisk.ops (readChunk FlatDisk.ops)
      (fsEnter FlatDisk.ops ⟨0, 0, 0⟩ (oneFileState 1) 0 (fun _ => 0) 5).numInodes 0 2
      (fsEnter FlatDisk.ops ⟨0, 0, 0⟩ (oneFileState 1) 0 (fun _ => 0) 5).start).isSome := by decide +kernel
  obtain ⟨t', he⟩ := Option.isSome_iff_exists.mp hend
  have hall : (rounds FlatDisk.ops (readChunk FlatDisk.ops)
      (fsEnter FlatDisk.ops ⟨0, 0, 0⟩ (oneFileState 1) 0 (fun _ => 0) 5).numInodes 0 2
      (fsEnter FlatDisk.ops ⟨0, 0, 0⟩ (oneFileState 1) 0 (fun _ => 0) 5).start).all
      (fun t => RoundOk FlatDisk.ops (readChunk FlatDisk.ops)
        (fsEnter FlatDisk.ops ⟨0, 0, 0⟩ (oneFileState 1) 0 (fun _ => 0) 5).numInodes 0 t) := by decide +kernel
  rw [callRounds, if_pos (by decide +kernel)] at ht
  exact of_decide_eq_true (List.all_eq_true.mp hall t (rounds_ended 2 he fuel ht))

/-- A device that answers every lookup with 1 and has no data: the reads of the
data are at its end. -/
def stuckOps : IoOps Unit where
  read := some fun s n => if n = 4 then (4, [1, 0, 0, 0], s) else (0, [], s)
  write := none
  ctl := some fun s _ arg => (0, arg, s)

theorem device_stuck : Device stuckOps where
  read s n := by
    simp only [ioread, stuckOps]
    split_ifs with h
    · rw [h]; rfl
    · simp
  bytes s n := by
    simp only [ioread, stuckOps]
    split_ifs with h
    · rw [h]; exact Nat.le_refl 4
    · exact Nat.zero_le n
  write w hw := by simp [stuckOps] at hw

def stuckState : Globals Unit :=
  ⟨fun _ => 0, fun _ => ⟨true, 1, 0, 1, 0, 1⟩, 0, (), lockInit⟩

theorem blockLoop_stuck (fuel N i : Nat) (t : Transfer Unit) (h : t.n = 1) :
    blockLoop stuckOps (readChunk stuckOps) N i fuel t = none := by
  induction fuel generalizing t with
  | zero => rfl
  | succ fuel ih =>
      have hpart : part t.filePos t.n = 1 := by
        rw [h, part]
        split_ifs <;> omega
      have hans : (answer stuckOps (readChunk stuckOps) N i t).1 = 0 := by
        change (ioread stuckOps _ (part t.filePos t.n)).1 = 0
        rw [hpart]
        rfl
      rw [blockLoop, if_pos (by omega)]
      apply ih
      rw [blockStep_received]
      simp only [received, hans, h]
      rfl

/-- On it the loop of fs_read does not end. -/
theorem transfers_stuck_fails :
    Device stuckOps ∧ ¬ Accounted stuckOps (readChunk stuckOps) ⟨0, 0, 0⟩ 3 stuckState 0 (fun _ => 0) 1 := by
  refine ⟨device_stuck, ?_⟩
  rintro ⟨fuel, v, buf', k', he, -⟩
  rw [fsTransfer_enter, Option.bind_eq_some_iff] at he
  obtain ⟨lk, -, he⟩ := he
  rw [if_neg (by decide +kernel), blockLoop_stuck fuel _ _ _ (by decide +kernel)] at he
  simp at he

end OneFile

end RiscvKernel.TransferFailure
