import RiscvKernel.Io
import RiscvKernel.Lib.Bytes

namespace RiscvKernel.FullTransfer

open Io (IoOps enotsup)
open Lib.Bytes

variable {σ τ : Type} {n fuel : Nat}

def longMax : Nat := 2 ^ 63 - 1

/-- The loop of ioread_full and iowrite, for at most fuel rounds; op s off len is the operation
on the len bytes of the buffer from off on. acc is a long that is compared as an unsigned long. -/
def fullLoop (op : σ → Nat → Nat → Int × σ) (n : Nat) : Nat → BitVec 64 → σ → Option (Int × σ)
  | 0, _, _ => none
  | fuel + 1, acc, s =>
      if acc.toNat < n then
        let r := op s acc.toNat (n - acc.toNat)
        if r.1 < 0 then some r
        else if r.1 = 0 then some (acc.toInt, r.2)
        else fullLoop op n fuel (acc + BitVec.ofInt 64 r.1) r.2
      else some (acc.toInt, s)

/-- The read operation into a buffer, which is part of the state. -/
def readOp (read : σ → Nat → Int × List UInt8 × σ) (s : (Nat → UInt8) × σ) (off len : Nat) : Int × (Nat → UInt8) × σ :=
  let r := read s.2 len
  (r.1, writeAt s.1 off r.2.1, r.2.2)

def ioreadFull (ops : IoOps σ) (fuel : Nat) (s : σ) (buf : Nat → UInt8) (bufsz : Nat) : Option (Int × (Nat → UInt8) × σ) :=
  match ops.read with
  | some read => fullLoop (readOp read) bufsz fuel 0 (buf, s)
  | none => some (-enotsup, buf, s)

def writeOp (write : σ → List UInt8 → Int × σ) (buf : List UInt8) (s : σ) (off len : Nat) : Int × σ :=
  write s ((buf.drop off).take len)

def iowrite (ops : IoOps σ) (fuel : Nat) (s : σ) (buf : List UInt8) : Option (Int × σ) :=
  match ops.write with
  | some write => fullLoop (writeOp write buf) buf.length fuel 0 s
  | none => some (-enotsup, s)

section Loop

variable {op : σ → Nat → Nat → Int × σ}

theorem toNat_add_ofInt {acc : BitVec 64} {cnt : Int} (hcnt : 0 < cnt) (h : acc.toNat + cnt.toNat ≤ longMax) :
    (acc + BitVec.ofInt 64 cnt).toNat = acc.toNat + cnt.toNat := by
  obtain ⟨k, rfl⟩ := Int.eq_ofNat_of_zero_le (Int.le_of_lt hcnt)
  unfold longMax at h
  rw [Int.toNat_natCast] at h
  rw [BitVec.ofInt_natCast, BitVec.toNat_add, BitVec.toNat_ofNat, Int.toNat_natCast,
    Nat.mod_eq_of_lt (a := k) (by omega), Nat.mod_eq_of_lt (by omega)]

theorem toInt_of_le {acc : BitVec 64} (h : acc.toNat ≤ longMax) : acc.toInt = acc.toNat := by
  unfold longMax at h
  rw [BitVec.toInt_eq_toNat_cond, if_pos (by omega)]

/-- The rule of the loop: I holds of the bytes transferred so far and the state, and a round
that transfers some keeps it. -/
theorem fullLoop_rule (I ended : Nat → σ → Prop) (failed : Int → σ → Prop) (hn : n ≤ longMax)
    (hround : ∀ acc s, acc < n → I acc s →
      ((op s acc (n - acc)).1 < 0 → failed (op s acc (n - acc)).1 (op s acc (n - acc)).2) ∧
      ((op s acc (n - acc)).1 = 0 → ended acc (op s acc (n - acc)).2) ∧
      (0 < (op s acc (n - acc)).1 → (op s acc (n - acc)).1.toNat ≤ n - acc ∧
        I (acc + (op s acc (n - acc)).1.toNat) (op s acc (n - acc)).2))
    (acc : BitVec 64) (s : σ) (hacc : acc.toNat ≤ n) (h : I acc.toNat s) (hfuel : n - acc.toNat < fuel) :
    ∃ r s', fullLoop op n fuel acc s = some (r, s') ∧
      (r = n ∧ I n s' ∨ (∃ a < n, r = a ∧ ended a s') ∨ r < 0 ∧ failed r s') := by
  induction fuel generalizing acc s with
  | zero => exact absurd hfuel (Nat.not_lt_zero _)
  | succ fuel ih =>
      rw [fullLoop]
      by_cases hlt : acc.toNat < n
      · obtain ⟨hfail, hend, hmove⟩ := hround acc.toNat s hlt h
        rw [if_pos hlt]
        generalize op s acc.toNat (n - acc.toNat) = r at hfail hend hmove
        obtain ⟨cnt, s'⟩ := r
        rcases Int.lt_trichotomy cnt 0 with hneg | rfl | hpos
        · exact ⟨cnt, s', if_pos hneg, .inr (.inr ⟨hneg, hfail hneg⟩)⟩
        · refine ⟨acc.toNat, s', ?_, .inr (.inl ⟨acc.toNat, hlt, rfl, hend rfl⟩)⟩
          rw [toInt_of_le (Nat.le_trans hacc hn)]
          rfl
        · obtain ⟨hle, hI⟩ := hmove hpos
          dsimp only at hle hI ⊢
          have hadd : (acc + BitVec.ofInt 64 cnt).toNat = acc.toNat + cnt.toNat := toNat_add_ofInt hpos (by omega)
          rw [if_neg (by omega), if_neg (by omega)]
          exact ih _ _ (by omega) (by rw [hadd]; exact hI) (by omega)
      · obtain he : acc.toNat = n := by omega
        refine ⟨n, s, ?_, .inl ⟨rfl, he ▸ h⟩⟩
        rw [if_neg hlt, toInt_of_le (Nat.le_trans hacc hn), he]

/-- A loop over a state that records more. -/
theorem fullLoop_map (op' : τ → Nat → Nat → Int × τ) (π : τ → σ) (hop : ∀ t off len, op (π t) off len =
    ((op' t off len).1, π (op' t off len).2)) (acc : BitVec 64) (t : τ) :
    fullLoop op n fuel acc (π t) = (fullLoop op' n fuel acc t).map fun r => (r.1, π r.2) := by
  induction fuel generalizing acc t with
  | zero => rfl
  | succ fuel ih =>
      rw [fullLoop, fullLoop]
      simp only [hop, ih]
      split
      · split
        · rfl
        · split <;> rfl
      · rfl

end Loop

/-- What the operations reported, the bytes moved and the value returned by a request of n
bytes: an error exactly if one was reported, else all bytes unless the end was met. -/
structure Outcome (n : Nat) (cnts : List Int) (moved : Nat) (r : Int) : Prop where
  moved_le : moved ≤ n
  success : (∀ c ∈ cnts, 0 ≤ c) → r = moved ∧ (moved = n ∨ 0 ∈ cnts)
  failure : ∀ e < 0, r = e ↔ e ∈ cnts

theorem Outcome.full {cnts : List Int} (hpos : ∀ c ∈ cnts, 0 < c) : Outcome n cnts n n := by
  refine ⟨Nat.le_refl n, fun _ => ⟨rfl, .inl rfl⟩, fun e he => ⟨fun h => ?_, fun hm => ?_⟩⟩
  · omega
  · have := hpos e hm
    omega

theorem Outcome.ended (cnts : List Int) {moved : Nat} (hpos : ∀ c ∈ cnts, 0 < c) (hle : moved ≤ n) :
    Outcome n (cnts ++ [0]) moved moved := by
  refine ⟨hle, fun _ => ⟨rfl, .inr (by simp)⟩, fun e he => ⟨fun h => ?_, fun hm => ?_⟩⟩
  · omega
  · rcases List.mem_append.mp hm with hm | hm
    · have := hpos e hm
      omega
    · obtain rfl := List.mem_singleton.mp hm
      omega

theorem Outcome.failed (cnts : List Int) {moved : Nat} {r : Int} (hpos : ∀ c ∈ cnts, 0 < c) (hle : moved ≤ n) (hr : r < 0) :
    Outcome n (cnts ++ [r]) moved r := by
  refine ⟨hle, fun hall => ?_, fun e he => ⟨fun h => ?_, fun hm => ?_⟩⟩
  · have := hall r (by simp)
    omega
  · rw [h]
    exact List.mem_append_right cnts (List.mem_singleton_self e)
  · rcases List.mem_append.mp hm with hm | hm
    · have := hpos e hm
      omega
    · exact (List.mem_singleton.mp hm).symm

/-- What one operation was given or delivered, and its result. -/
structure Report where
  bytes : List UInt8
  cnt : Int

/-- The bytes that the operations moved, in order. -/
def moved (log : List Report) : List UInt8 := log.flatMap fun r => r.bytes.take r.cnt.toNat

def logRead (read : σ → Nat → Int × List UInt8 × σ) (s : σ × List Report) (n : Nat) : Int × List UInt8 × σ × List Report :=
  let r := read s.1 n
  (r.1, r.2.1, r.2.2, s.2 ++ [⟨r.2.1, r.1⟩])

def logWrite (write : σ → List UInt8 → Int × σ) (s : σ × List Report) (bs : List UInt8) : Int × σ × List Report :=
  let r := write s.1 bs
  (r.1, r.2, s.2 ++ [⟨bs, r.1⟩])

/-- An object that keeps a log of its operations. -/
def recorded (ops : IoOps σ) : IoOps (σ × List Report) := ⟨ops.read.map logRead, ops.write.map logWrite, none⟩

/-- The operations move between one byte and all of a request, or meet the end of the object,
or fail. -/
structure Obeys (ops : IoOps σ) : Prop where
  read : ∃ read, ops.read = some read ∧ ∀ s n, 0 < n → (read s n).1 ≤ n ∧ (read s n).2.1.length ≤ n ∧
    (0 ≤ (read s n).1 → ((read s n).2.1.length : Int) = (read s n).1)
  write : ∃ write, ops.write = some write ∧ ∀ s bs, bs ≠ [] → (write s bs).1 ≤ bs.length

/-- All operations so far moved something, the bytes bs together. -/
def Moved (log : List Report) (bs : List UInt8) : Prop := (∀ c ∈ log.map Report.cnt, 0 < c) ∧ moved log = bs

section Log

variable {log : List Report} {bs cs : List UInt8} {cnt : Int}

theorem moved_append (log log' : List Report) : moved (log ++ log') = moved log ++ moved log' := List.flatMap_append

theorem moved_last (cnt : Int) (h : cnt ≤ 0) : moved (log ++ [⟨cs, cnt⟩]) = moved log := by
  rw [moved_append]
  simp [moved, Int.toNat_of_nonpos h]

theorem Moved.more (h : Moved log bs) (hpos : 0 < cnt) : Moved (log ++ [⟨cs, cnt⟩]) (bs ++ cs.take cnt.toNat) := by
  refine ⟨fun c hc => ?_, ?_⟩
  · rw [List.map_append, List.mem_append] at hc
    rcases hc with hc | hc
    · exact h.1 c hc
    · rwa [List.mem_singleton.mp hc]
  · rw [moved_append, h.2]
    simp [moved]

end Log

section Transfers

variable {ops : IoOps σ}

/-- How the log of a transfer ends, when bs a are the first a bytes moved. -/
def Ended (bs : Nat → List UInt8) (a : Nat) (log : List Report) : Prop :=
  ∃ log' cs, log = log' ++ [⟨cs, 0⟩] ∧ Moved log' (bs a)

def Failed (n : Nat) (bs : Nat → List UInt8) (e : Int) (log : List Report) : Prop :=
  ∃ log' cs, ∃ a < n, log = log' ++ [⟨cs, e⟩] ∧ Moved log' (bs a)

/-- The log tells the outcome. -/
theorem outcome_of_log (bs : Nat → List UInt8) {log : List Report} {r : Int}
    (h : r = n ∧ Moved log (bs n) ∨ (∃ a < n, r = a ∧ Ended bs a log) ∨ r < 0 ∧ Failed n bs r log) :
    ∃ a ≤ n, moved log = bs a ∧ Outcome n (log.map Report.cnt) a r := by
  rcases h with ⟨rfl, hm⟩ | ⟨a, ha, rfl, log', cs, rfl, hm⟩ | ⟨hneg, log', cs, a, ha, rfl, hm⟩
  · exact ⟨n, Nat.le_refl n, hm.2, .full hm.1⟩
  · refine ⟨a, Nat.le_of_lt ha, (moved_last 0 (Int.le_refl 0)).trans hm.2, ?_⟩
    rw [List.map_append]
    exact .ended _ hm.1 (Nat.le_of_lt ha)
  · refine ⟨a, Nat.le_of_lt ha, (moved_last r (Int.le_of_lt hneg)).trans hm.2, ?_⟩
    rw [List.map_append]
    exact .failed _ hm.1 (Nat.le_of_lt ha) hneg

theorem iowrite_moves (h : Obeys ops) (s : σ) (buf : List UInt8) (hn : buf.length ≤ longMax) (hfuel : buf.length < fuel) :
    ∃ r s' log, iowrite (recorded ops) fuel (s, []) buf = some (r, s', log) ∧ iowrite ops fuel s buf = some (r, s') ∧
      Outcome buf.length (log.map Report.cnt) (moved log).length r ∧ moved log <+: buf := by
  obtain ⟨write, hw, hobeys⟩ := h.write
  have hlen : ∀ a ≤ buf.length, (buf.take a).length = a := fun a ha => by rw [List.length_take, Nat.min_eq_left ha]
  have hround : ∀ acc (st : σ × List Report), acc < buf.length → Moved st.2 (buf.take acc) →
      let r := writeOp (logWrite write) buf st acc (buf.length - acc)
      (r.1 < 0 → Failed buf.length buf.take r.1 r.2.2) ∧ (r.1 = 0 → Ended buf.take acc r.2.2) ∧
        (0 < r.1 → r.1.toNat ≤ buf.length - acc ∧ Moved r.2.2 (buf.take (acc + r.1.toNat))) := by
    intro acc st hacc hI r
    have hall : (buf.drop acc).take (buf.length - acc) = buf.drop acc := List.take_of_length_le (by rw [List.length_drop])
    have hr : r = ((write st.1 (buf.drop acc)).1, (write st.1 (buf.drop acc)).2,
        st.2 ++ [⟨buf.drop acc, (write st.1 (buf.drop acc)).1⟩]) := by
      show writeOp (logWrite write) buf st acc (buf.length - acc) = _
      rw [writeOp, hall, logWrite]
    have hle := hobeys st.1 (buf.drop acc) fun he => by
      have := List.drop_eq_nil_iff.mp he
      omega
    rw [List.length_drop] at hle
    rw [hr]
    refine ⟨fun _ => ⟨st.2, buf.drop acc, acc, hacc, rfl, hI⟩, fun he => ⟨st.2, buf.drop acc, ?_, hI⟩, fun hpos => ⟨?_, ?_⟩⟩
    · dsimp only at he ⊢
      rw [he]
    · dsimp only at hpos ⊢
      omega
    · rw [List.take_add]
      exact hI.more hpos
  obtain ⟨r, st, hr, hcase⟩ := fullLoop_rule (fun a (st : σ × List Report) => Moved st.2 (buf.take a))
    (fun a st => Ended buf.take a st.2) (fun e st => Failed buf.length buf.take e st.2) hn hround 0 (s, [])
    (Nat.zero_le _) ⟨by simp, by simp [moved]⟩ hfuel
  obtain ⟨s', log⟩ := st
  obtain ⟨a, ha, hm, hout⟩ := outcome_of_log buf.take hcase
  refine ⟨r, s', log, ?_, ?_, ?_, ?_⟩
  · rw [iowrite, recorded, hw]
    exact hr
  · rw [iowrite, hw]
    have hproj : fullLoop (writeOp write buf) buf.length fuel 0 s = _ := fullLoop_map (writeOp (logWrite write) buf)
      Prod.fst (fun t off len => rfl) 0 (s, [])
    exact hproj.trans (by rw [hr]; rfl)
  · rw [hm, hlen a ha]
    exact hout
  · rw [hm]
    exact List.take_prefix a buf

/-- A read into the buffer extends what is there from the start. -/
theorem readAt_extend (buf : Nat → UInt8) (a : Nat) (bs cs : List UInt8) (h : readAt buf 0 a = bs) :
    readAt (writeAt buf a cs) 0 (a + cs.length) = bs ++ cs := by
  have hbefore : readAt (writeAt buf a cs) 0 a = bs := by
    rw [readAt_writeAt_of_disjoint (.inl (by omega)), h]
  rw [readAt_add, hbefore, Nat.zero_add, readAt_writeAt]

/-- The value returned when nothing failed is the number of bytes moved. -/
theorem Outcome.moved_eq {cnts : List Int} {a : Nat} {r : Int} (h : Outcome n cnts a r) (hr : 0 ≤ r) : r = a := by
  refine (h.success fun c hc => ?_).1
  by_contra hneg
  have := (h.failure c (by omega)).mpr hc
  omega

theorem ioreadFull_moves (h : Obeys ops) (s : σ) (buf : Nat → UInt8) (hn : n ≤ longMax) (hfuel : n < fuel) :
    ∃ r b s' log, ioreadFull (recorded ops) fuel (s, []) buf n = some (r, b, s', log) ∧
      ioreadFull ops fuel s buf n = some (r, b, s') ∧ Outcome n (log.map Report.cnt) (moved log).length r ∧
      readAt b 0 (moved log).length = moved log ∧
      (∀ i, n ≤ i → b i = buf i) ∧ (0 ≤ r → ∀ i, (moved log).length ≤ i → b i = buf i) := by
  obtain ⟨read, hw, hobeys⟩ := h.read
  have hround : ∀ acc (st : (Nat → UInt8) × σ × List Report), acc < n →
      Moved st.2.2 (readAt st.1 0 acc) ∧ (∀ i, acc ≤ i → st.1 i = buf i) →
      let r := readOp (logRead read) st acc (n - acc)
      (r.1 < 0 → Failed n (readAt r.2.1 0) r.1 r.2.2.2 ∧ ∀ i, n ≤ i → r.2.1 i = buf i) ∧
        (r.1 = 0 → Ended (readAt r.2.1 0) acc r.2.2.2 ∧ ∀ i, acc ≤ i → r.2.1 i = buf i) ∧
        (0 < r.1 → r.1.toNat ≤ n - acc ∧ Moved r.2.2.2 (readAt r.2.1 0 (acc + r.1.toNat)) ∧
          ∀ i, acc + r.1.toNat ≤ i → r.2.1 i = buf i) := by
    rintro acc ⟨b, s, log⟩ hacc ⟨hI, hframe⟩
    obtain ⟨hle, hlen, hcnt⟩ := hobeys s (n - acc) (by omega)
    simp only [readOp, logRead]
    generalize read s (n - acc) = r at hle hlen hcnt
    obtain ⟨cnt, bs, s'⟩ := r
    dsimp only at hle hlen hcnt ⊢
    have hout : ∀ i, acc + bs.length ≤ i → writeAt b acc bs i = buf i := fun i hi => by
      rw [writeAt_outside (by omega)]
      exact hframe i (by omega)
    have hsame : readAt (writeAt b acc bs) 0 acc = readAt b 0 acc := readAt_writeAt_of_disjoint (.inl (by omega))
    refine ⟨fun _ => ⟨⟨log, bs, acc, hacc, rfl, by rw [hsame]; exact hI⟩, fun i hi => hout i (by omega)⟩, ?_, fun hpos => ?_⟩
    · rintro rfl
      have hbs := hcnt (Int.le_refl 0)
      exact ⟨⟨log, bs, rfl, by rw [hsame]; exact hI⟩, fun i hi => hout i (by omega)⟩
    · have hbs := hcnt (Int.le_of_lt hpos)
      have hnat : cnt.toNat = bs.length := by omega
      rw [hnat]
      refine ⟨by omega, ?_, hout⟩
      rw [readAt_extend b acc _ bs rfl]
      have hmore : Moved (log ++ [⟨bs, cnt⟩]) _ := hI.more hpos
      rwa [hnat, List.take_length] at hmore
  obtain ⟨r, st, hr, hcase⟩ := fullLoop_rule
    (fun a (st : (Nat → UInt8) × σ × List Report) => Moved st.2.2 (readAt st.1 0 a) ∧ ∀ i, a ≤ i → st.1 i = buf i)
    (fun a st => Ended (readAt st.1 0) a st.2.2 ∧ ∀ i, a ≤ i → st.1 i = buf i)
    (fun e st => Failed n (readAt st.1 0) e st.2.2 ∧ ∀ i, n ≤ i → st.1 i = buf i) hn hround 0 (buf, s, [])
    (Nat.zero_le _) ⟨⟨by simp, rfl⟩, fun _ _ => rfl⟩ hfuel
  obtain ⟨b, s', log⟩ := st
  dsimp only at hcase
  have hend : (∀ i, n ≤ i → b i = buf i) ∧ (0 ≤ r → ∀ i : Nat, r ≤ i → b i = buf i) := by
    rcases hcase with ⟨rfl, -, hf⟩ | ⟨a, ha, rfl, -, hf⟩ | ⟨hneg, -, hf⟩
    · exact ⟨hf, fun _ i hi => hf i (by omega)⟩
    · exact ⟨fun i hi => hf i (by omega), fun _ i hi => hf i (by omega)⟩
    · exact ⟨hf, fun hge => by omega⟩
  have hlog : r = n ∧ Moved log (readAt b 0 n) ∨ (∃ a < n, r = a ∧ Ended (readAt b 0) a log) ∨ r < 0 ∧ Failed n (readAt b 0) r log := by
    rcases hcase with ⟨he, hm, -⟩ | ⟨a, ha, he, hm, -⟩ | ⟨hneg, hm, -⟩
    · exact .inl ⟨he, hm⟩
    · exact .inr (.inl ⟨a, ha, he, hm⟩)
    · exact .inr (.inr ⟨hneg, hm⟩)
  obtain ⟨a, ha, hm, hout⟩ := outcome_of_log (readAt b 0) hlog
  have hlen : (moved log).length = a := by rw [hm, readAt_length]
  refine ⟨r, b, s', log, ?_, ?_, ?_, ?_, hend.1, fun hge i hi => ?_⟩
  · rw [ioreadFull, recorded, hw]
    exact hr
  · rw [ioreadFull, hw]
    have hproj : fullLoop (readOp read) n fuel 0 (buf, s) = _ := fullLoop_map (readOp (logRead read))
      (fun st : (Nat → UInt8) × σ × List Report => (st.1, st.2.1)) (fun t off len => rfl) 0 (buf, s, [])
    exact hproj.trans (by rw [hr]; rfl)
  · rw [hlen]
    exact hout
  · rw [hlen, hm]
  · have := hout.moved_eq hge
    exact hend.2 hge i (by omega)

/-- Whatever short counts the operations report, both loops end, move the bytes of the buffer in
order and each once, and return the number of bytes moved or the error reported. -/
theorem full_transfers (ops : IoOps σ) (h : Obeys ops) (s : σ) (n : Nat) (hn : n ≤ longMax) (fuel : Nat) (hfuel : n < fuel) :
    (∀ buf : Nat → UInt8, ∃ r b s' log, ioreadFull (recorded ops) fuel (s, []) buf n = some (r, b, s', log) ∧
      ioreadFull ops fuel s buf n = some (r, b, s') ∧ Outcome n (log.map Report.cnt) (moved log).length r ∧
      readAt b 0 (moved log).length = moved log ∧
      (∀ i, n ≤ i → b i = buf i) ∧ (0 ≤ r → ∀ i, (moved log).length ≤ i → b i = buf i)) ∧
    (∀ buf : List UInt8, buf.length = n → ∃ r s' log, iowrite (recorded ops) fuel (s, []) buf = some (r, s', log) ∧
      iowrite ops fuel s buf = some (r, s') ∧ Outcome n (log.map Report.cnt) (moved log).length r ∧ moved log <+: buf) := by
  refine ⟨fun buf => ioreadFull_moves h s buf hn hfuel, fun buf hbuf => ?_⟩
  subst hbuf
  exact iowrite_moves h s buf hn hfuel

/-- An object that reads as zeros, and takes two bytes at a time. -/
def twoByTwo : IoOps Unit where
  read := some fun s n => ((min n 2 : Nat), List.replicate (min n 2) 0, s)
  write := some fun s bs => ((min bs.length 2 : Nat), s)
  ctl := none

theorem full_transfers_twoByTwo : ∃ r log, iowrite (recorded twoByTwo) 6 ((), []) [1, 2, 3, 4, 5] = some (r, (), log) ∧
    Outcome 5 (log.map Report.cnt) (moved log).length r ∧ moved log <+: [1, 2, 3, 4, 5] := by
  have hobeys : Obeys twoByTwo := by
    refine ⟨⟨_, rfl, fun s n hn => ⟨?_, ?_, fun _ => ?_⟩⟩, ⟨_, rfl, fun s bs hbs => ?_⟩⟩
    · exact Int.ofNat_le.mpr (Nat.min_le_left n 2)
    · rw [List.length_replicate]
      exact Nat.min_le_left n 2
    · rw [List.length_replicate]
    · exact Int.ofNat_le.mpr (Nat.min_le_left bs.length 2)
  obtain ⟨-, hwrite⟩ := full_transfers twoByTwo hobeys () 5 (by decide) 6 (by decide)
  obtain ⟨r, u, log, hr, -, hout⟩ := hwrite [1, 2, 3, 4, 5] rfl
  exact ⟨r, log, hr, hout⟩

end Transfers

/-- The loop of Io.iowrite counts in numbers; up to LONG_MAX it is the same. -/
theorem fullLoop_iowriteLoop {write : σ → List UInt8 → Int × σ} (hw : ∀ s bs, bs ≠ [] → (write s bs).1 ≤ bs.length)
    {buf : List UInt8} (hn : buf.length ≤ longMax) {acc : BitVec 64} (s : σ) (hacc : acc.toNat ≤ buf.length)
    (hfuel : buf.length - acc.toNat < fuel) :
    fullLoop (writeOp write buf) buf.length fuel acc s = some (Io.iowriteLoop write buf acc.toNat s) := by
  induction fuel generalizing acc s with
  | zero => exact absurd hfuel (Nat.not_lt_zero _)
  | succ fuel ih =>
      rw [fullLoop, Io.iowriteLoop]
      by_cases hlt : acc.toNat < buf.length
      · have hle := hw s (buf.drop acc.toNat) fun he => by
          have := List.drop_eq_nil_iff.mp he
          omega
        rw [List.length_drop] at hle
        have hop : writeOp write buf s acc.toNat (buf.length - acc.toNat) = write s (buf.drop acc.toNat) := by
          rw [writeOp, List.take_of_length_le (by rw [List.length_drop])]
        rw [if_pos hlt, if_pos hlt, hop]
        generalize write s (buf.drop acc.toNat) = r at hle
        obtain ⟨cnt, s'⟩ := r
        dsimp only at hle ⊢
        rcases Int.lt_trichotomy cnt 0 with hneg | rfl | hpos
        · rw [if_pos hneg, if_pos hneg]
        · rw [if_neg (Int.lt_irrefl 0), if_pos rfl, if_neg (Int.lt_irrefl 0), if_pos rfl, toInt_of_le (Nat.le_trans hacc hn)]
        · have hadd : (acc + BitVec.ofInt 64 cnt).toNat = acc.toNat + cnt.toNat := toNat_add_ofInt hpos (by omega)
          rw [if_neg (by omega), if_neg (by omega), if_neg (by omega), if_neg (by omega), ← hadd]
          exact ih s' (by omega) (by omega)
      · rw [if_neg hlt, if_neg hlt, toInt_of_le (Nat.le_trans hacc hn)]

theorem iowrite_eq {ops : IoOps σ} (h : Obeys ops) (s : σ) (buf : List UInt8) (hn : buf.length ≤ longMax) (hfuel : buf.length < fuel) :
    iowrite ops fuel s buf = some (Io.iowrite ops s buf) := by
  obtain ⟨write, hw, hobeys⟩ := h.write
  rw [iowrite, Io.iowrite, hw]
  exact fullLoop_iowriteLoop hobeys hn s (Nat.zero_le _) hfuel

end RiscvKernel.FullTransfer
