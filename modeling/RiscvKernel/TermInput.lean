import RiscvKernel.Lib.Bytes
import RiscvKernel.TermOutput

namespace RiscvKernel.TermInput

open Io Lib.Transducer Lib.Bytes TermOutput

variable {σ : Type}

/-- The in-place pass of ioterm_read over one chunk: rp has read, wp has kept. -/
structure Scan where
  buf : List UInt8
  rp : Nat
  wp : Nat
  crIn : Bool

/-- Skip the byte at rp. -/
def Scan.skip (c : Scan) : Scan := { c with rp := c.rp + 1, crIn := false }

/-- Store ch for the byte at rp. -/
def Scan.keep (c : Scan) (ch : UInt8) (crIn : Bool) : Scan :=
  ⟨c.buf.set c.wp ch, c.rp + 1, c.wp + 1, crIn⟩

def scanStep (c : Scan) : Scan :=
  let ch := c.buf.getD c.rp 0
  if c.crIn then
    if ch = cr then c.keep lf true
    else if ch = lf then c.skip
    else c.keep ch false
  else if ch = cr then c.keep lf true
  else c.keep ch false

theorem scanStep_rp (c : Scan) : (scanStep c).rp = c.rp + 1 := by
  simp only [scanStep, Scan.keep, Scan.skip]
  split_ifs <;> rfl

def scanLoop (cnt : Nat) (c : Scan) : Scan :=
  if c.rp < cnt then scanLoop cnt (scanStep c) else c
termination_by cnt - c.rp
decreasing_by rw [scanStep_rp]; omega

/-- A chunk just read into the buffer. -/
def Scan.start (buf : List UInt8) (crIn : Bool) : Scan := ⟨buf, 0, 0, crIn⟩

/-- The buffer after a read has put bs at its start. -/
def fill (buf bs : List UInt8) : List UInt8 := bs ++ buf.drop bs.length

/-- ioterm_read: the do loop reads again while a chunk collapses to nothing, so
it runs on fuel. The result is the value returned and the buffer. -/
def iotermRead (raw : IoOps σ) : Nat → IoTerm → σ → List UInt8 → Option (Int × List UInt8 × IoTerm × σ)
  | 0, _, _, _ => none
  | fuel + 1, iot, s, buf =>
      match ioread raw s buf.length with
      | (cnt, bs, s) =>
          let buf := fill buf bs
          if cnt < 0 then some (cnt, buf, iot, s)
          else
            let c := scanLoop cnt.toNat (.start buf iot.crIn)
            let iot := { iot with crIn := c.crIn }
            if c.wp = 0 then iotermRead raw fuel iot s c.buf
            else some (c.wp, c.buf, iot, s)

/-- The documented one-bit automaton of input normalization. -/
def crInStep : Machine Bool UInt8 UInt8
  | false, ch => if ch = cr then (true, [lf]) else (false, [ch])
  | true, ch => if ch = cr then (true, [lf]) else if ch = lf then (false, []) else (false, [ch])

/-- Line ends as they are read in a text: the sequence cr lf, a lone cr and a
lone lf each become lf, every other byte is copied. -/
def newlines : List UInt8 → List UInt8
  | [] => []
  | [ch] => if ch = cr then [lf] else [ch]
  | ch :: ch' :: rest =>
      if ch = cr ∧ ch' = lf then lf :: newlines rest
      else if ch = cr then lf :: newlines (ch' :: rest)
      else ch :: newlines (ch' :: rest)

theorem scanLoop_eq_iterate (cnt : Nat) (c : Scan) (h : c.rp ≤ cnt) :
    scanLoop cnt c = scanStep^[cnt - c.rp] c := by
  fun_induction scanLoop cnt c with
  | case1 c hlt ih =>
      rw [ih (by rw [scanStep_rp]; omega), scanStep_rp, ← Function.iterate_succ_apply scanStep]
      congr 1
      omega
  | case2 c hge =>
      rw [show cnt - c.rp = 0 by omega]
      rfl

/-- After i bytes the kept bytes are the automaton's output, they do not reach
past rp, and the bytes from rp on are still the raw ones. -/
structure ScanInv (raw : List UInt8) (b : Bool) (i : Nat) (c : Scan) : Prop where
  rp : c.rp = i
  crIn : c.crIn = state crInStep b (raw.take i)
  kept : c.buf.take c.wp = output crInStep b (raw.take i)
  wp : c.wp ≤ i
  length : c.buf.length = raw.length
  unread : ∀ j, i ≤ j → c.buf[j]? = raw[j]?

theorem scanInv_start (raw : List UInt8) (crIn : Bool) : ScanInv raw crIn 0 (.start raw crIn) :=
  ⟨rfl, by simp [Scan.start, state], by simp [Scan.start, output], Nat.le_refl _, rfl, fun _ _ => rfl⟩

section Step

variable {raw : List UInt8} {crIn : Bool} {i : Nat} {c : Scan}

theorem ScanInv.state_succ (h : ScanInv raw crIn i c) (hi : i < raw.length) :
    state crInStep crIn (raw.take (i + 1)) = (crInStep c.crIn raw[i]).1 := by
  rw [List.take_succ_eq_append_getElem hi, state_append, ← h.crIn]
  rfl

theorem ScanInv.output_succ (h : ScanInv raw crIn i c) (hi : i < raw.length) :
    output crInStep crIn (raw.take (i + 1)) = c.buf.take c.wp ++ (crInStep c.crIn raw[i]).2 := by
  rw [List.take_succ_eq_append_getElem hi, output_append, ← h.crIn, ← h.kept]
  simp [output]

theorem ScanInv.keep (h : ScanInv raw crIn i c) (hi : i < raw.length) {ch : UInt8} {b : Bool}
    (ht : crInStep c.crIn raw[i] = (b, [ch])) : ScanInv raw crIn (i + 1) (c.keep ch b) := by
  have hw : c.wp < c.buf.length := by rw [h.length]; have := h.wp; omega
  refine ⟨congrArg (· + 1) h.rp, ?_, ?_, Nat.succ_le_succ h.wp, ?_, ?_⟩
  · rw [h.state_succ hi, ht]; rfl
  · rw [h.output_succ hi, ht]
    simp only [Scan.keep]
    rw [List.take_succ_eq_append_getElem (by simpa using hw), List.getElem_set_self,
      List.take_set_of_le (Nat.le_refl _)]
  · simpa [Scan.keep] using h.length
  · intro j hj
    have hne : c.wp ≠ j := by have := h.wp; omega
    simpa [Scan.keep, List.getElem?_set_ne hne] using h.unread j (by omega)

theorem ScanInv.skip (h : ScanInv raw crIn i c) (hi : i < raw.length)
    (ht : crInStep c.crIn raw[i] = (false, [])) : ScanInv raw crIn (i + 1) c.skip := by
  refine ⟨congrArg (· + 1) h.rp, ?_, ?_, Nat.le_succ_of_le h.wp, h.length, fun j hj => h.unread j (by omega)⟩
  · rw [h.state_succ hi, ht]; rfl
  · rw [h.output_succ hi, ht, List.append_nil]; rfl

theorem ScanInv.step (h : ScanInv raw crIn i c) (hi : i < raw.length) :
    ScanInv raw crIn (i + 1) (scanStep c) := by
  have hch : c.buf.getD c.rp 0 = raw[i] := by
    rw [h.rp, List.getD_eq_getElem?_getD, h.unread i (Nat.le_refl _)]
    simp [hi]
  have hstep : scanStep c = if raw[i] = cr then c.keep lf true
      else if c.crIn = true ∧ raw[i] = lf then c.skip else c.keep raw[i] false := by
    simp only [scanStep, hch]
    cases c.crIn <;> simp
  rw [hstep]
  by_cases hcr : raw[i] = cr
  · rw [if_pos hcr]
    exact h.keep hi (by rw [hcr]; cases c.crIn <;> rfl)
  · rw [if_neg hcr]
    by_cases hlf : c.crIn = true ∧ raw[i] = lf
    · rw [if_pos hlf]
      exact h.skip hi (by rw [hlf.1, hlf.2]; rfl)
    · rw [if_neg hlf]
      refine h.keep hi ?_
      cases hc : c.crIn with
      | false => simp [crInStep, hcr]
      | true =>
          have hne : raw[i] ≠ lf := fun he => hlf ⟨hc, he⟩
          simp [crInStep, hcr, hne]

end Step

theorem scanInv_iterate (raw : List UInt8) (b : Bool) (i : Nat) (hi : i ≤ raw.length) :
    ScanInv raw b i (scanStep^[i] (.start raw b)) := by
  induction i with
  | zero => exact scanInv_start raw b
  | succ i ih =>
      rw [Function.iterate_succ_apply']
      exact (ih (by omega)).step hi

theorem scanLoop_start (raw : List UInt8) (b : Bool) (cnt : Nat) :
    scanLoop cnt (.start raw b) = scanStep^[cnt] (.start raw b) :=
  scanLoop_eq_iterate cnt (.start raw b) (Nat.zero_le _)

section Fill

variable (crIn : Bool) {buf bs : List UInt8} (h : bs.length ≤ buf.length)
include h

theorem fill_length : (fill buf bs).length = buf.length := by
  simp [fill]; omega

theorem scan_inv : ScanInv (fill buf bs) crIn bs.length (scanLoop bs.length (.start (fill buf bs) crIn)) := by
  rw [scanLoop_start]
  exact scanInv_iterate _ _ _ (by rw [fill_length h]; exact h)

theorem scan_crIn : (scanLoop bs.length (.start (fill buf bs) crIn)).crIn = state crInStep crIn bs := by
  simpa [fill] using (scan_inv crIn h).crIn

theorem scan_kept : (scanLoop bs.length (.start (fill buf bs) crIn)).buf.take
    (scanLoop bs.length (.start (fill buf bs) crIn)).wp = output crInStep crIn bs := by
  simpa [fill] using (scan_inv crIn h).kept

theorem scan_length : (scanLoop bs.length (.start (fill buf bs) crIn)).buf.length = buf.length := by
  rw [(scan_inv crIn h).length, fill_length h]

theorem scan_wp : (scanLoop bs.length (.start (fill buf bs) crIn)).wp = (output crInStep crIn bs).length := by
  have hw := (scan_inv crIn h).wp
  rw [← scan_kept crIn h, List.length_take, scan_length crIn h]
  omega

end Fill

/-- One round of the loop of ioterm_read on a chunk the raw object returned. -/
theorem iotermRead_chunk {raw : IoOps σ} (iot : IoTerm) {s s' : σ} {buf bs : List UInt8}
    (hr : ioread raw s buf.length = ((bs.length : Int), bs, s')) (h : bs.length ≤ buf.length) :
    ∃ buf' : List UInt8, buf'.length = buf.length ∧
      buf'.take (output crInStep iot.crIn bs).length = output crInStep iot.crIn bs ∧
      ∀ fuel, iotermRead raw (fuel + 1) iot s buf =
        if output crInStep iot.crIn bs = [] then
          iotermRead raw fuel { iot with crIn := state crInStep iot.crIn bs } s' buf'
        else some ((output crInStep iot.crIn bs).length, buf',
          { iot with crIn := state crInStep iot.crIn bs }, s') := by
  refine ⟨_, scan_length iot.crIn h, by rw [← scan_wp iot.crIn h, scan_kept iot.crIn h], fun fuel => ?_⟩
  have hneg : ¬ ((bs.length : Int) < 0) := by omega
  simp only [iotermRead, hr, if_neg hneg, Int.toNat_natCast, scan_crIn iot.crIn h, scan_wp iot.crIn h,
    List.length_eq_zero_iff]

theorem output_true_of_ne {ch : UInt8} (h : ch ≠ lf) (rest : List UInt8) :
    output crInStep true (ch :: rest) = output crInStep false (ch :: rest) := by
  by_cases hcr : ch = cr
  · rw [hcr]; rfl
  · simp [output, crInStep, hcr, h]

theorem output_crInStep (s : List UInt8) : output crInStep false s = newlines s := by
  induction s using newlines.induct with
  | case1 | case2 => rfl
  | case3 ch h => simp [output, newlines, crInStep, h]
  | case4 ch ch' rest h ih =>
      obtain ⟨rfl, rfl⟩ := h
      rw [newlines, if_pos ⟨rfl, rfl⟩, ← ih]
      rfl
  | case5 ch' rest hne ih =>
      rw [newlines, if_neg hne, if_pos rfl, ← ih, ← output_true_of_ne (fun he => hne ⟨rfl, he⟩) rest]
      rfl
  | case6 ch ch' rest hne h ih =>
      rw [newlines, if_neg hne, if_neg h, ← ih]
      simp [output, crInStep, h]

/-- A raw source: an endless byte stream, and for every read how many of the
requested bytes it returns. -/
structure Source where
  stream : Nat → UInt8
  split : Nat → Nat → Nat
  split_pos : ∀ k n, 1 ≤ n → 1 ≤ split k n
  split_le : ∀ k n, split k n ≤ n

/-- How far a source has been read: the bytes consumed and the reads made. -/
structure Cursor where
  pos : Nat
  reads : Nat

def Source.read (f : Source) (s : Cursor) (n : Nat) : Int × List UInt8 × Cursor :=
  let m := f.split s.reads n
  (m, readAt f.stream s.pos m, ⟨s.pos + m, s.reads + 1⟩)

def Source.ops (f : Source) : IoOps Cursor := ⟨some f.read, none, none⟩

section Read

variable (f : Source) (iot : IoTerm) (s : Cursor) (buf : List UInt8)

/-- The bytes a read for the buffer returns. -/
def chunk : List UInt8 := readAt f.stream s.pos (f.split s.reads buf.length)

def afterChunk : Cursor := ⟨s.pos + (chunk f s buf).length, s.reads + 1⟩

/-- The in-place pass over what a read for the buffer returns. -/
def pass : Scan := scanLoop (chunk f s buf).length (.start (fill buf (chunk f s buf)) iot.crIn)

theorem chunk_length_le : (chunk f s buf).length ≤ buf.length := by
  rw [chunk, readAt_length]
  exact f.split_le _ _

theorem chunk_ne_nil (h : 1 ≤ buf.length) : chunk f s buf ≠ [] := by
  rw [← List.length_pos_iff, chunk, readAt_length]
  exact f.split_pos _ _ h

theorem pass_inv : ScanInv (fill buf (chunk f s buf)) iot.crIn (chunk f s buf).length (pass f iot s buf) :=
  scan_inv iot.crIn (chunk_length_le f s buf)

theorem pass_crIn : (pass f iot s buf).crIn = state crInStep iot.crIn (chunk f s buf) :=
  scan_crIn iot.crIn (chunk_length_le f s buf)

theorem pass_kept : (pass f iot s buf).buf.take (pass f iot s buf).wp =
    output crInStep iot.crIn (chunk f s buf) :=
  scan_kept iot.crIn (chunk_length_le f s buf)

theorem pass_length : (pass f iot s buf).buf.length = buf.length :=
  scan_length iot.crIn (chunk_length_le f s buf)

theorem pass_wp : (pass f iot s buf).wp = (output crInStep iot.crIn (chunk f s buf)).length :=
  scan_wp iot.crIn (chunk_length_le f s buf)

theorem iotermRead_succ (fuel : Nat) : iotermRead f.ops (fuel + 1) iot s buf =
    if (pass f iot s buf).wp = 0 then
      iotermRead f.ops fuel { iot with crIn := (pass f iot s buf).crIn } (afterChunk f s buf) (pass f iot s buf).buf
    else some ((pass f iot s buf).wp, (pass f iot s buf).buf,
      { iot with crIn := (pass f iot s buf).crIn }, afterChunk f s buf) := by
  have hneg : ¬ ((f.split s.reads buf.length : Int) < 0) := by omega
  simp only [iotermRead, ioread, Source.ops, Source.read, Int.toNat_natCast, pass, chunk,
    afterChunk, readAt_length]
  exact if_neg hneg

end Read

theorem output_false_eq_nil {bs : List UInt8} (h : output crInStep false bs = []) : bs = [] := by
  cases bs with
  | nil => rfl
  | cons ch bs =>
      by_cases hcr : ch = cr <;> simp [output, crInStep, hcr] at h

/-- Only a lf right after a cr collapses to nothing. -/
theorem state_of_output_nil {b : Bool} {bs : List UInt8} (h : output crInStep b bs = []) :
    state crInStep b bs = false ∨ bs = [] := by
  cases bs with
  | nil => exact .inr rfl
  | cons ch bs =>
      left
      obtain ⟨h1, h2⟩ := List.append_eq_nil_iff.mp h
      cases b with
      | false => by_cases hcr : ch = cr <;> simp [crInStep, hcr] at h1
      | true =>
          by_cases hcr : ch = cr
          · simp [crInStep, hcr] at h1
          · by_cases hlf : ch = lf
            · subst hlf
              rw [output_false_eq_nil h2]
              rfl
            · simp [crInStep, hcr, hlf] at h1

/-- What a call of ioterm_read delivers: the automaton's output for the raw
bytes it consumed, at least one byte and at most the length of the buffer. -/
structure Delivers (f : Source) (b : Bool) (s : Cursor) (len m : Nat)
    (r : Int × List UInt8 × IoTerm × Cursor) : Prop where
  pos : r.2.2.2.pos = s.pos + m
  crIn : r.2.2.1.crIn = state crInStep b (readAt f.stream s.pos m)
  bytes : r.2.1.take r.1.toNat = output crInStep b (readAt f.stream s.pos m)
  count : r.1 = (output crInStep b (readAt f.stream s.pos m)).length
  one_le : 1 ≤ r.1
  le_len : r.1 ≤ len

theorem iotermRead_pass (f : Source) (iot : IoTerm) (s : Cursor) (buf : List UInt8) (fuel : Nat)
    (h : output crInStep iot.crIn (chunk f s buf) ≠ []) :
    ∃ m r, iotermRead f.ops (fuel + 1) iot s buf = some r ∧ Delivers f iot.crIn s buf.length m r := by
  have hpos : 0 < (output crInStep iot.crIn (chunk f s buf)).length := List.length_pos_of_ne_nil h
  have hw := (pass_inv f iot s buf).wp
  have hc := chunk_length_le f s buf
  refine ⟨f.split s.reads buf.length, ((pass f iot s buf).wp, (pass f iot s buf).buf,
      { iot with crIn := (pass f iot s buf).crIn }, afterChunk f s buf), ?_, ?_⟩
  · rw [iotermRead_succ, if_neg (by rw [pass_wp]; omega)]
  · refine ⟨?_, pass_crIn f iot s buf, ?_, ?_, ?_, ?_⟩
    · rw [afterChunk, chunk, readAt_length]
    · rw [Int.toNat_natCast, pass_kept]; rfl
    · rw [pass_wp]; rfl
    · rw [pass_wp]; omega
    · simp only; omega

/-- Two rounds of the loop of ioterm_read are enough: only a single lf after a
cr collapses to nothing, and the bit is clear after it. -/
theorem iotermRead_source (f : Source) (iot : IoTerm) (s : Cursor) (buf : List UInt8)
    (hbuf : 1 ≤ buf.length) (fuel : Nat) :
    ∃ m r, iotermRead f.ops (fuel + 2) iot s buf = some r ∧ Delivers f iot.crIn s buf.length m r := by
  by_cases h : output crInStep iot.crIn (chunk f s buf) = []
  · have hcr : state crInStep iot.crIn (chunk f s buf) = false :=
      (state_of_output_nil h).resolve_right (chunk_ne_nil f s buf hbuf)
    have hb : 1 ≤ (pass f iot s buf).buf.length := by rw [pass_length]; exact hbuf
    have hne : output crInStep (pass f iot s buf).crIn
        (chunk f (afterChunk f s buf) (pass f iot s buf).buf) ≠ [] := by
      rw [pass_crIn, hcr]
      exact fun he => chunk_ne_nil f _ _ hb (output_false_eq_nil he)
    obtain ⟨m, r, hr, hd⟩ := iotermRead_pass f { iot with crIn := (pass f iot s buf).crIn }
      (afterChunk f s buf) (pass f iot s buf).buf fuel hne
    have hadd : readAt f.stream s.pos ((chunk f s buf).length + m) =
        chunk f s buf ++ readAt f.stream (afterChunk f s buf).pos m := by
      rw [readAt_add, chunk, readAt_length]
      simp only [afterChunk, chunk, readAt_length]
    have hout : output crInStep iot.crIn (readAt f.stream s.pos ((chunk f s buf).length + m)) =
        output crInStep (pass f iot s buf).crIn (readAt f.stream (afterChunk f s buf).pos m) := by
      rw [hadd, output_append, h, List.nil_append, pass_crIn]
    refine ⟨(chunk f s buf).length + m, r, ?_, ?_, ?_, ?_, ?_, hd.one_le, ?_⟩
    · rw [iotermRead_succ, if_pos (by rw [pass_wp, h]; rfl), hr]
    · rw [hd.pos, afterChunk, Nat.add_assoc]
    · rw [hd.crIn, hadd, state_append, pass_crIn]
    · rw [hd.bytes, hout]
    · rw [hd.count, hout]
    · rw [← pass_length f iot s buf]; exact hd.le_len
  · exact iotermRead_pass f iot s buf (fuel + 1) h

/-- A sequence of ioterm_read calls, one for each buffer: the values returned
with the bytes delivered. -/
def iotermReadAll (raw : IoOps σ) (fuel : Nat) : IoTerm → σ → List (List UInt8) →
    Option (List (Int × List UInt8) × IoTerm × σ)
  | iot, s, [] => some ([], iot, s)
  | iot, s, buf :: bufs => do
      let (n, buf, iot, s) ← iotermRead raw fuel iot s buf
      let (rs, iot, s) ← iotermReadAll raw fuel iot s bufs
      return ((n, buf.take n.toNat) :: rs, iot, s)

theorem iotermReadAll_source (f : Source) (fuel : Nat) (bufs : List (List UInt8))
    (hbufs : ∀ buf ∈ bufs, 1 ≤ buf.length) (iot : IoTerm) (s : Cursor) :
    ∃ rs iot' s' m, iotermReadAll f.ops (fuel + 2) iot s bufs = some (rs, iot', s') ∧ s'.pos = s.pos + m ∧
      (rs.map Prod.snd).flatten = output crInStep iot.crIn (readAt f.stream s.pos m) ∧
      List.Forall₂ (fun buf r => r.1 = r.2.length ∧ 1 ≤ r.1 ∧ r.1 ≤ buf.length) bufs rs := by
  induction bufs generalizing iot s with
  | nil => exact ⟨[], iot, s, 0, rfl, rfl, rfl, .nil⟩
  | cons buf bufs ih =>
      obtain ⟨m, r, hr, hd⟩ := iotermRead_source f iot s buf (hbufs buf (by simp)) fuel
      obtain ⟨n, buf', iot', s'⟩ := r
      obtain ⟨rs, iot'', s'', m', he, hp, ho, hall⟩ := ih (fun b hb => hbufs b (by simp [hb])) iot' s'
      have hpos : s'.pos = s.pos + m := hd.pos
      refine ⟨(n, buf'.take n.toNat) :: rs, iot'', s'', m + m', ?_, by omega, ?_, ?_⟩
      · simp [iotermReadAll, hr, he]
      · have hcr : iot'.crIn = state crInStep iot.crIn (readAt f.stream s.pos m) := hd.crIn
        rw [List.map_cons, List.flatten_cons, ho, readAt_add, output_append, ← hcr, hpos, ← hd.bytes]
      · refine .cons ⟨?_, hd.one_le, hd.le_len⟩ hall
        rw [hd.bytes]
        exact hd.count

/-- Whatever the raw stream, the buffers of the caller and the cuts of the
device: the bytes delivered are the normalised raw bytes consumed, every call
returns between one and the length of its buffer, and the in-place pass leaves
every raw byte in place until it has been read. -/
theorem iotermReadAll_normalizes (f : Source) (fuel : Nat) (bufs : List (List UInt8))
    (hbufs : ∀ buf ∈ bufs, 1 ≤ buf.length) :
    (∃ rs iot s, iotermReadAll f.ops (fuel + 2) iotermInit ⟨0, 0⟩ bufs = some (rs, iot, s) ∧
      (rs.map Prod.snd).flatten = newlines (readAt f.stream 0 s.pos) ∧
      List.Forall₂ (fun buf r => r.1 = r.2.length ∧ 1 ≤ r.1 ∧ r.1 ≤ buf.length) bufs rs) ∧
    ∀ (raw : List UInt8) (b : Bool) (cnt : Nat), cnt ≤ raw.length →
      scanLoop cnt (.start raw b) = scanStep^[cnt] (.start raw b) ∧
      ∀ i j, i ≤ cnt → i ≤ j → (scanStep^[i] (.start raw b)).buf[j]? = raw[j]? := by
  refine ⟨?_, fun raw b cnt hcnt => ⟨scanLoop_start raw b cnt, fun i j hi hij => ?_⟩⟩
  · obtain ⟨rs, iot, s, m, he, hp, ho, hall⟩ := iotermReadAll_source f fuel bufs hbufs iotermInit ⟨0, 0⟩
    refine ⟨rs, iot, s, he, ?_, hall⟩
    rw [ho, hp, ← output_crInStep, Nat.zero_add]
    rfl
  · exact (scanInv_iterate raw b i (by omega)).unread j hij

/-- A device that returns one byte for every read, of the stream cr lf cr lf. -/
def byteSource : Source :=
  ⟨fun i => if i % 2 = 0 then cr else lf, fun _ n => min 1 n, by omega, by omega⟩

theorem iotermReadAll_byteSource : ∃ rs iot s,
    iotermReadAll byteSource.ops 2 iotermInit ⟨0, 0⟩ [[0], [0, 0]] = some (rs, iot, s) ∧
      (rs.map Prod.snd).flatten = newlines (readAt byteSource.stream 0 s.pos) :=
  let ⟨rs, iot, s, he, ho, _⟩ := (iotermReadAll_normalizes byteSource 0 [[0], [0, 0]] (by decide)).1
  ⟨rs, iot, s, he, ho⟩

end RiscvKernel.TermInput
