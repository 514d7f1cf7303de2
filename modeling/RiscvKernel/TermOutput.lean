import RiscvKernel.Io
import RiscvKernel.Lib.Transducer

namespace RiscvKernel.TermOutput

open Io Lib.Transducer

variable {σ : Type}

def cr : UInt8 := 13
def lf : UInt8 := 10

/-- The fields of struct io_term that its operations use; the state of rawio
is passed beside it. -/
structure IoTerm where
  crOut : Bool
  crIn : Bool

def iotermInit : IoTerm := ⟨false, false⟩

/-- The bytes of a buffer from position i up to position j. -/
def slice (buf : List UInt8) (i j : Nat) : List UInt8 := (buf.drop i).take (j - i)

/-- Write out pending bytes: either the value with which ioterm_write returns
at once, or the number of bytes written. -/
def writeOut (raw : IoOps σ) (s : σ) (bs : List UInt8) (acc : Int) : (Int × σ) ⊕ (Nat × σ) :=
  match iowrite raw s bs with
  | (cnt, s) => if cnt < 0 then .inl (cnt, s) else if cnt = 0 then .inl (acc, s) else .inr (cnt.toNat, s)

/-- The scan of ioterm_write from rp on. Everything before wp has been written
out, the bytes from wp to rp are pending. -/
def iotermWriteLoop (raw : IoOps σ) (buf : List UInt8) (wp rp : Nat) (acc : Int) (crOut : Bool) (s : σ) :
    Int × Bool × σ :=
  if h : rp < buf.length then
    if buf[rp] = cr then
      if buf[rp + 1]? = some lf then iotermWriteLoop raw buf wp (rp + 2) acc false s
      else
        match writeOut raw s (slice buf wp (rp + 1)) acc with
        | .inl (v, s) => (v, crOut, s)
        | .inr (cnt, s) =>
            match ioputc raw s lf with
            | (v, s) =>
                if v < 0 then (v, crOut, s)
                else iotermWriteLoop raw buf (wp + cnt) (rp + 1) (acc + cnt) true s
    else if buf[rp] = lf then
      if crOut then iotermWriteLoop raw buf (wp + 1) (rp + 1) acc false s
      else
        match if wp = rp then .inr (0, s) else writeOut raw s (slice buf wp rp) acc with
        | .inl (v, s) => (v, crOut, s)
        | .inr (cnt, s) =>
            match ioputc raw s cr with
            | (v, s) =>
                if v < 0 then (v, crOut, s)
                else iotermWriteLoop raw buf (wp + cnt) (rp + 1) (acc + cnt) false s
    else iotermWriteLoop raw buf wp (rp + 1) acc false s
  else if rp = wp then (acc, crOut, s)
  else
    match writeOut raw s (slice buf wp rp) acc with
    | .inl (v, s) => (v, crOut, s)
    | .inr (cnt, s) => (acc + cnt, crOut, s)
termination_by buf.length - rp

def iotermWrite (raw : IoOps σ) (iot : IoTerm) (s : σ) (buf : List UInt8) : Int × IoTerm × σ :=
  let r := iotermWriteLoop raw buf 0 0 0 iot.crOut s
  (r.1, { iot with crOut := r.2.1 }, r.2.2)

/-- The documented one-bit automaton of output normalization. -/
def crOutStep : Machine Bool UInt8 UInt8
  | false, ch => if ch = cr then (true, [cr, lf]) else if ch = lf then (false, [cr, lf]) else (false, [ch])
  | true, ch => if ch = cr then (true, [cr, lf]) else if ch = lf then (false, []) else (false, [ch])

/-- Line ends as they are read in a text: the sequence cr lf, a lone cr and a
lone lf each become cr lf, every other byte is copied. -/
def crlf : List UInt8 → List UInt8
  | [] => []
  | [ch] => if ch = cr ∨ ch = lf then [cr, lf] else [ch]
  | ch :: ch' :: rest =>
      if ch = cr ∧ ch' = lf then cr :: lf :: crlf rest
      else if ch = cr ∨ ch = lf then cr :: lf :: crlf (ch' :: rest)
      else ch :: crlf (ch' :: rest)

theorem writeOut_sink (k : Sink σ) (s : σ) (bs : List UInt8) (hbs : bs ≠ []) (acc : Int) :
    ∃ s', writeOut k.ops s bs acc = .inr (bs.length, s') ∧ k.out s' = k.out s ++ bs := by
  obtain ⟨hr, ho⟩ := iowrite_sink k s bs
  have hpos : 0 < bs.length := List.length_pos_of_ne_nil hbs
  refine ⟨(iowrite k.ops s bs).2, ?_, ho⟩
  have hneg : ¬ ((bs.length : Int) < 0) := by omega
  have hzero : ¬ ((bs.length : Int) = 0) := by omega
  simp only [writeOut, hr, if_neg hneg, if_neg hzero, Int.toNat_natCast]

theorem slice_self (buf : List UInt8) (i : Nat) : slice buf i i = [] := by simp [slice]

theorem slice_length {buf : List UInt8} {i j : Nat} (hj : j ≤ buf.length) :
    (slice buf i j).length = j - i := by
  simp [slice]; omega

theorem slice_succ {buf : List UInt8} {i j : Nat} (hij : i ≤ j) (hj : j < buf.length) :
    slice buf i (j + 1) = slice buf i j ++ [buf[j]] := by
  have hn : j + 1 - i = (j - i) + 1 := by omega
  have hb : j - i < (buf.drop i).length := by simp; omega
  have hg : (buf.drop i)[j - i] = buf[j] := by simp [hij]
  rw [slice, slice, hn, List.take_succ_eq_append_getElem hb, hg]

theorem crOutStep_cr (b : Bool) : crOutStep b cr = (true, [cr, lf]) := by
  cases b <;> rfl

theorem crOutStep_plain (b : Bool) {ch : UInt8} (hcr : ch ≠ cr) (hlf : ch ≠ lf) :
    crOutStep b ch = (false, [ch]) := by
  cases b <;> simp [crOutStep, hcr, hlf]

/-- What the scan from rp on is to do: emit the pending bytes and then what the
automaton emits for the rest of the buffer. -/
def Follows (k : Sink σ) (buf : List UInt8) (wp rp : Nat) (crOut : Bool) (s : σ) (r : Int × Bool × σ) : Prop :=
  r.2.1 = state crOutStep crOut (buf.drop rp) ∧
    k.out r.2.2 = k.out s ++ slice buf wp rp ++ output crOutStep crOut (buf.drop rp)

section Follows

variable {k : Sink σ} {buf : List UInt8} {wp rp : Nat} {crOut : Bool} {s s' : σ} {r : Int × Bool × σ}

theorem Follows.crlf (hw : wp ≤ rp) (h : rp < buf.length) (h' : rp + 1 < buf.length)
    (hcr : buf[rp] = cr) (hlf : buf[rp + 1] = lf) (hr : Follows k buf wp (rp + 2) false s r) :
    Follows k buf wp rp crOut s r := by
  obtain ⟨hs, ho⟩ := hr
  have hd : buf.drop rp = cr :: lf :: buf.drop (rp + 2) := by
    rw [List.drop_eq_getElem_cons h, List.drop_eq_getElem_cons h', hcr, hlf]
  rw [slice_succ (by omega) h', slice_succ hw h, hcr, hlf] at ho
  refine ⟨?_, ?_⟩
  · rw [hs, hd, state, state, crOutStep_cr]; rfl
  · rw [ho, hd, output, output, crOutStep_cr]; simp [crOutStep, lf, cr]

theorem Follows.lone_cr (hw : wp ≤ rp) (h : rp < buf.length) (hcr : buf[rp] = cr)
    (ho' : k.out s' = k.out s ++ slice buf wp (rp + 1) ++ [lf])
    (hr : Follows k buf (rp + 1) (rp + 1) true s' r) : Follows k buf wp rp crOut s r := by
  obtain ⟨hs, ho⟩ := hr
  rw [slice_self, ho', slice_succ hw h, hcr] at ho
  refine ⟨?_, ?_⟩
  · rw [hs, List.drop_eq_getElem_cons h, hcr, state, crOutStep_cr]
  · rw [ho, List.drop_eq_getElem_cons h, hcr, output, crOutStep_cr]; simp

theorem Follows.skip_lf (h : rp < buf.length) (hlf : buf[rp] = lf)
    (hr : Follows k buf (rp + 1) (rp + 1) false s r) : Follows k buf rp rp true s r := by
  obtain ⟨hs, ho⟩ := hr
  rw [slice_self] at ho
  refine ⟨?_, ?_⟩
  · rw [hs, List.drop_eq_getElem_cons h, hlf]; rfl
  · rw [ho, List.drop_eq_getElem_cons h, hlf, slice_self]; rfl

theorem Follows.lone_lf (h : rp < buf.length) (hlf : buf[rp] = lf)
    (ho' : k.out s' = k.out s ++ slice buf wp rp ++ [cr])
    (hr : Follows k buf rp (rp + 1) false s' r) : Follows k buf wp rp false s r := by
  obtain ⟨hs, ho⟩ := hr
  rw [slice_succ (Nat.le_refl _) h, slice_self, ho', hlf] at ho
  refine ⟨?_, ?_⟩
  · rw [hs, List.drop_eq_getElem_cons h, hlf]; rfl
  · rw [ho, List.drop_eq_getElem_cons h, hlf, output]; simp [crOutStep, lf, cr]

theorem Follows.plain (hw : wp ≤ rp) (h : rp < buf.length) (hcr : buf[rp] ≠ cr) (hlf : buf[rp] ≠ lf)
    (hr : Follows k buf wp (rp + 1) false s r) : Follows k buf wp rp crOut s r := by
  obtain ⟨hs, ho⟩ := hr
  rw [slice_succ hw h] at ho
  refine ⟨?_, ?_⟩
  · rw [hs, List.drop_eq_getElem_cons h, state, crOutStep_plain _ hcr hlf]
  · rw [ho, List.drop_eq_getElem_cons h, output, crOutStep_plain _ hcr hlf]; simp

theorem Follows.done (hr : k.out r.2.2 = k.out s ++ slice buf wp buf.length) (hc : r.2.1 = crOut) :
    Follows k buf wp buf.length crOut s r := by
  simp [Follows, state, output, hr, hc]

end Follows

/-- The scan follows the automaton. The invariant is that no byte is pending
right after a completed cr, so a lf that is skipped stands at wp. -/
theorem iotermWriteLoop_sink (k : Sink σ) (buf : List UInt8) (wp rp : Nat) (acc : Int) (crOut : Bool)
    (s : σ) (hw : wp ≤ rp) (hr : rp ≤ buf.length) (hc : crOut = true → wp = rp) :
    Follows k buf wp rp crOut s (iotermWriteLoop k.ops buf wp rp acc crOut s) := by
  induction hm : buf.length - rp using Nat.strongRecOn generalizing wp rp acc crOut s with
  | ind m ih =>
      rw [iotermWriteLoop]
      by_cases h : rp < buf.length
      · rw [dif_pos h]
        by_cases hcr : buf[rp] = cr
        · rw [if_pos hcr]
          by_cases hla : buf[rp + 1]? = some lf
          · obtain ⟨h', hlf⟩ := List.getElem?_eq_some_iff.mp hla
            rw [if_pos hla]
            exact .crlf hw h h' hcr hlf (ih _ (by omega) wp (rp + 2) acc false s (by omega) h' (by simp) rfl)
          · rw [if_neg hla]
            have hne : slice buf wp (rp + 1) ≠ [] := by simp [slice_succ hw h]
            have hlen : wp + (slice buf wp (rp + 1)).length = rp + 1 := by
              rw [slice_length h]; omega
            obtain ⟨s1, he, ho1⟩ := writeOut_sink k s _ hne acc
            obtain ⟨hv, ho2⟩ := ioputc_sink k s1 lf
            simp only [he, hlen, if_neg (Int.not_lt.mpr hv)]
            exact .lone_cr hw h hcr (by rw [ho2, ho1])
              (ih _ (by omega) _ _ _ true _ (Nat.le_refl _) h (by simp) rfl)
        · rw [if_neg hcr]
          by_cases hlf : buf[rp] = lf
          · rw [if_pos hlf]
            cases crOut with
            | true =>
                obtain rfl : wp = rp := hc rfl
                exact .skip_lf h hlf (ih _ (by omega) _ _ acc false s (Nat.le_refl _) h (by simp) rfl)
            | false =>
                obtain ⟨cnt, s1, he, hcnt, ho1⟩ : ∃ cnt s1,
                    (if wp = rp then .inr (0, s) else writeOut k.ops s (slice buf wp rp) acc) =
                      (.inr (cnt, s1) : (Int × σ) ⊕ (Nat × σ)) ∧ wp + cnt = rp ∧
                      k.out s1 = k.out s ++ slice buf wp rp := by
                  by_cases heq : wp = rp
                  · exact ⟨0, s, by simp [heq], by omega, by simp [heq, slice_self]⟩
                  · have hlen : (slice buf wp rp).length = rp - wp := slice_length hr
                    have hne : slice buf wp rp ≠ [] := by
                      rw [← List.length_pos_iff]; omega
                    obtain ⟨s1, he, ho1⟩ := writeOut_sink k s _ hne acc
                    exact ⟨_, s1, by rw [if_neg heq, he], by omega, ho1⟩
                obtain ⟨hv, ho2⟩ := ioputc_sink k s1 cr
                simp only [Bool.false_eq_true, if_false, he, hcnt, if_neg (Int.not_lt.mpr hv)]
                exact .lone_lf h hlf (by rw [ho2, ho1])
                  (ih _ (by omega) rp (rp + 1) _ false _ (by omega) h (by simp) rfl)
          · rw [if_neg hlf]
            exact .plain hw h hcr hlf (ih _ (by omega) wp (rp + 1) acc false s (by omega) h (by simp) rfl)
      · obtain rfl : rp = buf.length := by omega
        rw [dif_neg h]
        by_cases heq : buf.length = wp
        · rw [if_pos heq]
          exact .done (by rw [← heq, slice_self, List.append_nil]) rfl
        · have hlen : (slice buf wp buf.length).length = buf.length - wp := slice_length hr
          have hne : slice buf wp buf.length ≠ [] := by
            rw [← List.length_pos_iff]; omega
          obtain ⟨s1, he, ho1⟩ := writeOut_sink k s _ hne acc
          rw [if_neg heq, he]
          exact .done ho1 rfl

/-- One call of ioterm_write runs the documented automaton over its buffer. -/
theorem iotermWrite_sink (k : Sink σ) (iot : IoTerm) (s : σ) (buf : List UInt8) :
    (iotermWrite k.ops iot s buf).2.1.crOut = state crOutStep iot.crOut buf ∧
      k.out (iotermWrite k.ops iot s buf).2.2 = k.out s ++ output crOutStep iot.crOut buf := by
  obtain ⟨hs, ho⟩ := iotermWriteLoop_sink k buf 0 0 0 iot.crOut s (Nat.le_refl _) (Nat.zero_le _) (by simp)
  rw [slice_self, List.append_nil, List.drop_zero] at ho
  exact ⟨hs, ho⟩

/-- The buffers are passed to ioterm_write one call each. -/
def iotermWriteAll (raw : IoOps σ) (iot : IoTerm) (s : σ) (bufs : List (List UInt8)) : IoTerm × σ :=
  bufs.foldl (fun x buf => (iotermWrite raw x.1 x.2 buf).2) (iot, s)

theorem output_true_of_ne {ch : UInt8} (h : ch ≠ lf) (rest : List UInt8) :
    output crOutStep true (ch :: rest) = output crOutStep false (ch :: rest) := by
  by_cases hcr : ch = cr
  · rw [hcr, output, output, crOutStep_cr, crOutStep_cr]
  · rw [output, output, crOutStep_plain _ hcr h, crOutStep_plain _ hcr h]

theorem output_crOutStep (s : List UInt8) : output crOutStep false s = crlf s := by
  induction s using crlf.induct with
  | case1 => rfl
  | case2 ch h =>
      rcases h with rfl | rfl <;> rfl
  | case3 ch h =>
      simp only [not_or] at h
      simp [output, crlf, crOutStep_plain _ h.1 h.2, h]
  | case4 ch ch' rest h ih =>
      obtain ⟨rfl, rfl⟩ := h
      rw [crlf, if_pos ⟨rfl, rfl⟩, ← ih]
      rfl
  | case5 ch ch' rest hne h ih =>
      rw [crlf, if_neg hne, if_pos h, ← ih]
      rcases h with rfl | rfl
      · rw [← output_true_of_ne (fun he => hne ⟨rfl, he⟩) rest]
        rfl
      · rfl
  | case6 ch ch' rest hne h ih =>
      rw [crlf, if_neg hne, if_neg h, ← ih]
      simp only [not_or] at h
      rw [output, crOutStep_plain _ h.1 h.2]
      rfl

/-- However a text is cut into buffers, a fresh terminal emits the output of
the documented automaton over the whole text: every line end becomes cr lf,
and the raw bytes are those of a single call. -/
theorem iotermWriteAll_output (k : Sink σ) (s : σ) (bufs : List (List UInt8)) :
    k.out (iotermWriteAll k.ops iotermInit s bufs).2 = k.out s ++ output crOutStep false bufs.flatten ∧
      output crOutStep false bufs.flatten = crlf bufs.flatten ∧
      k.out (iotermWriteAll k.ops iotermInit s bufs).2 =
        k.out (iotermWriteAll k.ops iotermInit s [bufs.flatten]).2 := by
  have hall (bufs : List (List UInt8)) :
      k.out (iotermWriteAll k.ops iotermInit s bufs).2 = k.out s ++ output crOutStep false bufs.flatten :=
    (foldl_follows crOutStep (fun (x : IoTerm × σ) buf => (iotermWrite k.ops x.1 x.2 buf).2) (fun x => x.1.crOut)
      (fun x => k.out x.2) (fun x buf => iotermWrite_sink k x.1 x.2 buf) bufs (iotermInit, s)).2
  refine ⟨hall bufs, output_crOutStep _, ?_⟩
  rw [hall, hall]
  simp

example : (iotermWriteAll Sink.log.ops iotermInit [] [[97, cr], [lf, 98, lf]]).2 =
    [97, cr, lf, 98, cr, lf] := by decide +kernel

end RiscvKernel.TermOutput
