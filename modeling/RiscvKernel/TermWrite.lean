import RiscvKernel.LineEndings

namespace RiscvKernel.TermWrite

open Io Lib.Transducer TermOutput LineEndings

variable {σ : Type}

/-- The operations of an io_term as an I/O object. -/
def termOps (raw : IoOps σ) : IoOps (IoTerm × σ) :=
  ⟨none, some (fun x buf => iotermWrite raw x.1 x.2 buf), none⟩

/-- A buffer that starts with lf, written right after a cr. -/
def Split (crOut : Bool) (buf : List UInt8) : Prop := crOut = true ∧ buf.head? = some lf

instance (crOut : Bool) (buf : List UInt8) : Decidable (Split crOut buf) :=
  inferInstanceAs (Decidable (_ ∧ _))

/-- The count of the scan from rp on: all bytes from wp on, less the lf that is
skipped at rp without being counted. -/
theorem iotermWriteLoop_count (k : Sink σ) (buf : List UInt8) (wp rp : Nat) (acc : Int) (crOut : Bool)
    (s : σ) (hw : wp ≤ rp) (hr : rp ≤ buf.length) (hc : crOut = true → wp = rp) :
    (iotermWriteLoop k.ops buf wp rp acc crOut s).1 =
      acc + (buf.length - wp : Nat) - if Split crOut (buf.drop rp) then 1 else 0 := by
  induction hm : buf.length - rp using Nat.strongRecOn generalizing wp rp acc crOut s with
  | ind m ih =>
      rw [iotermWriteLoop]
      by_cases h : rp < buf.length
      · have hhead : (buf.drop rp).head? = some buf[rp] := by
          rw [List.drop_eq_getElem_cons h, List.head?_cons]
        have hfalse (l : List UInt8) : ¬ Split false l := fun hs => Bool.noConfusion hs.1
        rw [dif_pos h]
        by_cases hcr : buf[rp] = cr
        · have hns : ¬ Split crOut (buf.drop rp) := by
            rintro ⟨-, he⟩
            rw [hhead, hcr] at he
            exact absurd (Option.some.inj he) (by decide)
          rw [if_pos hcr, if_neg hns]
          by_cases hla : buf[rp + 1]? = some lf
          · obtain ⟨h', -⟩ := List.getElem?_eq_some_iff.mp hla
            rw [if_pos hla, ih _ (by omega) wp (rp + 2) acc false s (by omega) h' (by simp) rfl, if_neg (hfalse _)]
          · rw [if_neg hla]
            have hne : slice buf wp (rp + 1) ≠ [] := by simp [slice_succ hw h]
            have hlen : wp + (slice buf wp (rp + 1)).length = rp + 1 := by
              rw [slice_length h]; omega
            have hcnt : (slice buf wp (rp + 1)).length = rp + 1 - wp := slice_length h
            obtain ⟨s1, he, -⟩ := writeOut_sink k s _ hne acc
            obtain ⟨hv, -⟩ := ioputc_sink k s1 lf
            have hnext : ¬ Split true (buf.drop (rp + 1)) := by
              rintro ⟨-, hl⟩
              rw [List.head?_drop] at hl
              exact hla hl
            simp only [he, hlen, if_neg (Int.not_lt.mpr hv)]
            rw [ih _ (by omega) (rp + 1) (rp + 1) _ true _ (Nat.le_refl _) h (by simp) rfl, if_neg hnext, hcnt]
            omega
        · rw [if_neg hcr]
          by_cases hlf : buf[rp] = lf
          · rw [if_pos hlf]
            cases crOut with
            | true =>
                obtain rfl : wp = rp := hc rfl
                have hs : Split true (buf.drop wp) := ⟨rfl, by rw [hhead, hlf]⟩
                rw [if_pos rfl, if_pos hs, ih _ (by omega) _ _ acc false s (Nat.le_refl _) h (by simp) rfl,
                  if_neg (hfalse _)]
                omega
            | false =>
                obtain ⟨cnt, s1, he, hcnt⟩ : ∃ cnt s1,
                    (if wp = rp then .inr (0, s) else writeOut k.ops s (slice buf wp rp) acc) =
                      (.inr (cnt, s1) : (Int × σ) ⊕ (Nat × σ)) ∧ wp + cnt = rp := by
                  by_cases heq : wp = rp
                  · exact ⟨0, s, by simp [heq], by omega⟩
                  · have hlen : (slice buf wp rp).length = rp - wp := slice_length hr
                    have hne : slice buf wp rp ≠ [] := by
                      rw [← List.length_pos_iff]; omega
                    obtain ⟨s1, he, -⟩ := writeOut_sink k s _ hne acc
                    exact ⟨_, s1, by rw [if_neg heq, he], by omega⟩
                obtain ⟨hv, -⟩ := ioputc_sink k s1 cr
                simp only [Bool.false_eq_true, if_false, he, hcnt, if_neg (Int.not_lt.mpr hv)]
                rw [ih _ (by omega) rp (rp + 1) _ false _ (by omega) h (by simp) rfl, if_neg (hfalse _),
                  if_neg (hfalse _)]
                omega
          · have hns : ¬ Split crOut (buf.drop rp) := by
              rintro ⟨-, he⟩
              rw [hhead] at he
              exact hlf (Option.some.inj he)
            rw [if_neg hlf, if_neg hns, ih _ (by omega) wp (rp + 1) acc false s (by omega) h (by simp) rfl,
              if_neg (hfalse _)]
      · obtain rfl : rp = buf.length := by omega
        have hns : ¬ Split crOut (buf.drop buf.length) := by
          rintro ⟨-, he⟩
          simp at he
        rw [dif_neg h, if_neg hns]
        by_cases heq : buf.length = wp
        · rw [if_pos heq, heq]
          simp
        · have hlen : (slice buf wp buf.length).length = buf.length - wp := slice_length hr
          have hne : slice buf wp buf.length ≠ [] := by
            rw [← List.length_pos_iff]; omega
          obtain ⟨s1, he, -⟩ := writeOut_sink k s _ hne acc
          rw [if_neg heq, he, hlen]
          simp

theorem iotermWrite_count (k : Sink σ) (iot : IoTerm) (s : σ) (buf : List UInt8) :
    (iotermWrite k.ops iot s buf).1 = buf.length - if Split iot.crOut buf then 1 else 0 := by
  have h := iotermWriteLoop_count k buf 0 0 0 iot.crOut s (Nat.le_refl _) (Nat.zero_le _) (by simp)
  rw [List.drop_zero, Nat.sub_zero, Int.zero_add] at h
  exact h

theorem state_crOutStep_concat (b : Bool) (s : List UInt8) (c : UInt8) :
    state crOutStep b (s ++ [c]) = decide (c = cr) := by
  rw [state_append]
  exact crOutStep_state _ c

theorem state_crOutStep (s : List UInt8) :
    state crOutStep false s = decide (s.getLast? = some cr) := by
  induction s using List.reverseRecOn with
  | nil => rfl
  | append_singleton s c _ => simp [state_crOutStep_concat]

theorem output_crOutStep_ne_nil {b : Bool} {c : UInt8} (h : ¬ Split b [c]) : output crOutStep b [c] ≠ [] := by
  by_cases hcr : c = cr
  · rw [hcr, output, crOutStep_cr]; simp
  · by_cases hlf : c = lf
    · cases b with
      | false => rw [hlf]; decide
      | true => exact absurd ⟨rfl, by rw [hlf]; rfl⟩ h
    · rw [output, crOutStep_plain b hcr hlf]; simp

/-- What one call of iowrite on a terminal does: a buffer that is not split is
written as the automaton has it; of one that is, the call returns short or its
last byte is written once more. -/
structure Written (k : Sink σ) (x : IoTerm × σ) (buf : List UInt8) (r : Int × IoTerm × σ) : Prop where
  nonneg : 0 ≤ r.1
  crOut : r.2.1.crOut = state crOutStep x.1.crOut buf
  out : ∃ extra, k.out r.2.2 = k.out x.2 ++ output crOutStep x.1.crOut buf ++ extra ∧
    (¬ Split x.1.crOut buf → r.1 = buf.length ∧ extra = []) ∧
    (Split x.1.crOut buf → r.1 = buf.length → extra ≠ [])

theorem written_nil (k : Sink σ) (x : IoTerm × σ) : Written k x [] (iowrite (termOps k.ops) x []) := by
  have he : iowrite (termOps k.ops) x [] = (0, x) := by
    simp [iowrite, termOps, iowriteLoop]
  rw [he]
  exact ⟨Int.le_refl _, rfl, [], by simp [output], fun _ => ⟨rfl, rfl⟩, fun h => absurd h.2 (by simp)⟩

theorem iowriteLoop_done {τ : Type} (write : τ → List UInt8 → Int × τ) {buf : List UInt8} {acc : Nat} (s : τ)
    (h : buf.length ≤ acc) : iowriteLoop write buf acc s = ((acc : Int), s) := by
  rw [iowriteLoop, if_neg (by omega)]

theorem iowriteLoop_once {τ : Type} (write : τ → List UInt8 → Int × τ) {buf : List UInt8} {acc : Nat} (s : τ)
    (h : acc < buf.length) (hw : (write s (buf.drop acc)).1 = (buf.length - acc : Nat)) :
    iowriteLoop write buf acc s = ((buf.length : Int), (write s (buf.drop acc)).2) := by
  rw [iowriteLoop, if_pos h]
  simp only [hw]
  rw [if_neg (by omega), if_neg (by omega), Int.toNat_natCast, iowriteLoop_done _ _ (by omega)]
  rw [show acc + (buf.length - acc) = buf.length by omega]

theorem written_of_not (k : Sink σ) (x : IoTerm × σ) (buf : List UInt8) (hne : buf ≠ [])
    (h : ¬ Split x.1.crOut buf) : Written k x buf (iowrite (termOps k.ops) x buf) := by
  have hpos : 0 < buf.length := List.length_pos_of_ne_nil hne
  have hcount := iotermWrite_count k x.1 x.2 buf
  obtain ⟨hs, ho⟩ := iotermWrite_sink k x.1 x.2 buf
  rw [if_neg h] at hcount
  have he : iowrite (termOps k.ops) x buf = ((buf.length : Int), (iotermWrite k.ops x.1 x.2 buf).2) :=
    iowriteLoop_once (fun x buf => iotermWrite k.ops x.1 x.2 buf) x hpos (by simpa using hcount)
  rw [he]
  exact ⟨by omega, hs, [], by simpa using ho, fun _ => ⟨rfl, rfl⟩, fun hsp => absurd hsp h⟩

theorem written_split (k : Sink σ) (x : IoTerm × σ) (buf : List UInt8) (h : Split x.1.crOut buf) :
    Written k x buf (iowrite (termOps k.ops) x buf) := by
  have hcount := iotermWrite_count k x.1 x.2 buf
  obtain ⟨hs, ho⟩ := iotermWrite_sink k x.1 x.2 buf
  rw [if_pos h] at hcount
  obtain ⟨rest, rfl⟩ : ∃ rest, buf = lf :: rest := by
    cases buf with
    | nil => exact absurd h.2 (by simp)
    | cons c rest => exact ⟨rest, by rw [Option.some.inj h.2]⟩
  generalize hw : iotermWrite k.ops x.1 x.2 (lf :: rest) = w at hcount hs ho
  have hloop : iowrite (termOps k.ops) x (lf :: rest) =
      if w.1 < 0 then w
      else if w.1 = 0 then (((0 : Nat) : Int), w.2)
      else iowriteLoop (fun x buf => iotermWrite k.ops x.1 x.2 buf) (lf :: rest) (0 + w.1.toNat) w.2 := by
    simp only [iowrite, termOps]
    rw [iowriteLoop, if_pos (by simp)]
    simp only [List.drop_zero, hw]
  rw [hloop, if_neg (by rw [hcount]; simp)]
  rcases List.eq_nil_or_concat' rest with rfl | ⟨pre, c, rfl⟩
  · -- the lf alone is consumed but reported as the end of the file
    rw [if_pos (by rw [hcount]; rfl)]
    exact ⟨Int.le_refl _, hs, [], by simpa using ho, fun hn => absurd h hn, fun _ he => absurd he (by simp)⟩
  · -- the call reports one byte less, and iowrite offers the last one again
    have hlast : state crOutStep x.1.crOut (lf :: (pre ++ [c])) = decide (c = cr) := by
      rw [← List.cons_append, state_crOutStep_concat]
    have hns : ¬ Split w.2.1.crOut [c] := by
      rintro ⟨hc, hl⟩
      rw [hs, hlast, decide_eq_true_eq] at hc
      rw [hc] at hl
      exact absurd (Option.some.inj hl) (by decide)
    have hn : w.1 = ((pre.length + 1 : Nat) : Int) := by
      rw [hcount]; simp
    have hdrop : (lf :: (pre ++ [c])).drop (pre.length + 1) = [c] := by simp
    obtain ⟨hs', ho'⟩ := iotermWrite_sink k w.2.1 w.2.2 [c]
    have hcount' := iotermWrite_count k w.2.1 w.2.2 [c]
    rw [if_neg hns] at hcount'
    have hone := iowriteLoop_once (fun x buf => iotermWrite k.ops x.1 x.2 buf) w.2
      (show pre.length + 1 < (lf :: (pre ++ [c])).length by simp) (by rw [hdrop, hcount']; simp)
    rw [if_neg (by rw [hn]; omega), hn, Nat.zero_add, Int.toNat_natCast, hone, hdrop]
    refine ⟨by simp; omega, ?_, output crOutStep w.2.1.crOut [c], ?_, fun hn => absurd h hn, fun _ _ => ?_⟩
    · rw [hs', hlast]
      exact crOutStep_state _ c
    · rw [ho', ho]
    · exact output_crOutStep_ne_nil hns

theorem written (k : Sink σ) (x : IoTerm × σ) (buf : List UInt8) :
    Written k x buf (iowrite (termOps k.ops) x buf) := by
  by_cases h : Split x.1.crOut buf
  · exact written_split k x buf h
  · by_cases hne : buf = []
    · rw [hne]
      exact written_nil k x
    · exact written_of_not k x buf hne h

/-- The buffers are passed to iowrite one call each: the state after them. -/
def iowriteAll (ops : IoOps σ) (s : σ) (bufs : List (List UInt8)) : σ :=
  bufs.foldl (fun s buf => (iowrite ops s buf).2) s

/-- Every one of these calls returns the length of its buffer. -/
def AllReturn (ops : IoOps σ) : σ → List (List UInt8) → Prop
  | _, [] => True
  | s, buf :: bufs => (iowrite ops s buf).1 = buf.length ∧ AllReturn ops (iowrite ops s buf).2 bufs

/-- After the text pre no buffer that starts with lf comes right after a cr. -/
def NoSplit (pre : List UInt8) (bufs : List (List UInt8)) : Prop :=
  ∀ before buf after, bufs = before ++ buf :: after →
    (pre ++ before.flatten).getLast? = some cr → buf.head? ≠ some lf

theorem noSplit_cons (pre buf : List UInt8) (bufs : List (List UInt8)) :
    NoSplit pre (buf :: bufs) ↔ ¬ Split (state crOutStep false pre) buf ∧ NoSplit (pre ++ buf) bufs := by
  rw [state_crOutStep]
  constructor
  · intro h
    refine ⟨fun hs => h [] buf bufs rfl (by simpa using hs.1) hs.2, fun before b after he hl => ?_⟩
    exact h (buf :: before) b after (by rw [he]; rfl) (by simpa [List.append_assoc] using hl)
  · rintro ⟨h1, h2⟩ before b after he hl
    cases before with
    | nil =>
        obtain ⟨rfl, rfl⟩ := List.cons.inj he
        exact fun hb => h1 ⟨by simpa using hl, hb⟩
    | cons b' before =>
        obtain ⟨rfl, rfl⟩ := List.cons.inj he
        exact h2 before b after rfl (by simpa [List.append_assoc] using hl)

theorem iowriteAll_length (k : Sink σ) (bufs : List (List UInt8)) (x : IoTerm × σ) :
    (k.out x.2).length + (output crOutStep x.1.crOut bufs.flatten).length ≤
      (k.out (iowriteAll (termOps k.ops) x bufs).2).length := by
  induction bufs generalizing x with
  | nil => simp [iowriteAll, output]
  | cons buf bufs ih =>
      obtain ⟨-, hs, extra, ho, -, -⟩ := written k x buf
      have h := ih (iowrite (termOps k.ops) x buf).2
      rw [hs, ho] at h
      rw [List.flatten_cons, output_append]
      simp only [List.length_append] at h ⊢
      refine Nat.le_trans ?_ h
      omega

/-- The calls return their lengths and emit the normalised text, exactly when
no buffer is split. -/
theorem iowriteAll_iff (k : Sink σ) (pre : List UInt8) (bufs : List (List UInt8)) (x : IoTerm × σ)
    (hx : x.1.crOut = state crOutStep false pre) :
    (AllReturn (termOps k.ops) x bufs ∧ k.out (iowriteAll (termOps k.ops) x bufs).2 =
      k.out x.2 ++ output crOutStep x.1.crOut bufs.flatten) ↔ NoSplit pre bufs := by
  induction bufs generalizing pre x with
  | nil => simp [AllReturn, iowriteAll, output, NoSplit]
  | cons buf bufs ih =>
      obtain ⟨-, hs, extra, ho, hclean, hdirty⟩ := written k x buf
      have hlen := iowriteAll_length k bufs (iowrite (termOps k.ops) x buf).2
      have hnext : (iowrite (termOps k.ops) x buf).2.1.crOut = state crOutStep false (pre ++ buf) := by
        rw [hs, hx, state_append]
      rw [noSplit_cons, ← hx, ← ih (pre ++ buf) (iowrite (termOps k.ops) x buf).2 hnext, AllReturn,
        show iowriteAll (termOps k.ops) x (buf :: bufs) =
          iowriteAll (termOps k.ops) (iowrite (termOps k.ops) x buf).2 bufs from rfl,
        List.flatten_cons, output_append, ← hs]
      constructor
      · rintro ⟨⟨hr, hrs⟩, hout⟩
        have hextra : extra = [] := by
          rw [hout, ho] at hlen
          simp only [List.length_append] at hlen
          exact List.length_eq_zero_iff.mp (by omega)
        refine ⟨fun hsp => hdirty hsp hr hextra, hrs, ?_⟩
        rw [hout, ho, hextra, List.append_nil, List.append_assoc]
      · rintro ⟨hns, hrs, hout⟩
        obtain ⟨hr, hextra⟩ := hclean hns
        refine ⟨⟨hr, hrs⟩, ?_⟩
        rw [hout, ho, hextra, List.append_nil, List.append_assoc]

/-- A call on the terminal: iowrite of a buffer, ioputc, or ioputs of a string
without its NUL. -/
inductive Call
  | iowrite (buf : List UInt8)
  | ioputc (c : UInt8)
  | ioputs (str : List UInt8)

/-- The buffers a call passes to iowrite. -/
def Call.buffers : Call → List (List UInt8)
  | .iowrite buf => [buf]
  | .ioputc c => [[c]]
  | .ioputs str => [str, [lf]]

def Call.run (ops : IoOps σ) (s : σ) : Call → Int × σ
  | .iowrite buf => Io.iowrite ops s buf
  | .ioputc c => Io.ioputc ops s c
  | .ioputs str => Io.ioputs ops s str

/-- What a call returns once every byte of it has been taken. -/
def Call.result : Call → Int
  | .iowrite buf => buf.length
  | .ioputc c => c.toNat
  | .ioputs _ => 0

def runCalls (ops : IoOps σ) (s : σ) (calls : List Call) : σ :=
  calls.foldl (fun s call => (call.run ops s).2) s

/-- Every call returns its result, and every iowrite in it its length. -/
def CallsReturn (ops : IoOps σ) : σ → List Call → Prop
  | _, [] => True
  | s, call :: calls => (call.run ops s).1 = call.result ∧ AllReturn ops s call.buffers ∧
      CallsReturn ops (call.run ops s).2 calls

/-- The bytes the calls are given, one buffer for every iowrite. -/
def buffers (calls : List Call) : List (List UInt8) := calls.flatMap Call.buffers

theorem Call.run_state (k : Sink σ) (x : IoTerm × σ) (call : Call) :
    (call.run (termOps k.ops) x).2 = iowriteAll (termOps k.ops) x call.buffers := by
  cases call with
  | iowrite buf => rfl
  | ioputc c =>
      simp only [Call.run, Io.ioputc]
      split_ifs <;> rfl
  | ioputs str =>
      have h1 := (written k x str).nonneg
      have h2 := (written k (Io.iowrite (termOps k.ops) x str).2 [10]).nonneg
      simp only [Call.run, Io.ioputs]
      rw [if_neg (by omega), if_neg (by omega)]
      rfl

theorem Call.run_result (k : Sink σ) (x : IoTerm × σ) (call : Call)
    (h : AllReturn (termOps k.ops) x call.buffers) : (call.run (termOps k.ops) x).1 = call.result := by
  cases call with
  | iowrite buf => exact h.1
  | ioputc c =>
      have hr : (Io.iowrite (termOps k.ops) x [c]).1 = 1 := h.1
      simp only [Call.run, Io.ioputc]
      rw [if_neg (by omega), if_neg (by omega)]
      rfl
  | ioputs str =>
      have h1 := (written k x str).nonneg
      have h2 := (written k (Io.iowrite (termOps k.ops) x str).2 [10]).nonneg
      simp only [Call.run, Io.ioputs]
      rw [if_neg (by omega), if_neg (by omega)]
      rfl

theorem allReturn_append (ops : IoOps σ) (s : σ) (bufs bufs' : List (List UInt8)) :
    AllReturn ops s (bufs ++ bufs') ↔ AllReturn ops s bufs ∧ AllReturn ops (iowriteAll ops s bufs) bufs' := by
  induction bufs generalizing s with
  | nil => simp [AllReturn, iowriteAll]
  | cons buf bufs ih => simp only [List.cons_append, AllReturn, ih, and_assoc, iowriteAll, List.foldl_cons]

theorem runCalls_eq (k : Sink σ) (calls : List Call) (x : IoTerm × σ) :
    runCalls (termOps k.ops) x calls = iowriteAll (termOps k.ops) x (buffers calls) := by
  induction calls generalizing x with
  | nil => rfl
  | cons call calls ih =>
      have h := ih (call.run (termOps k.ops) x).2
      rw [Call.run_state] at h
      rw [buffers, List.flatMap_cons, iowriteAll, List.foldl_append]
      rw [runCalls, List.foldl_cons, Call.run_state]
      exact h

theorem callsReturn_iff (k : Sink σ) (calls : List Call) (x : IoTerm × σ) :
    CallsReturn (termOps k.ops) x calls ↔ AllReturn (termOps k.ops) x (buffers calls) := by
  induction calls generalizing x with
  | nil => exact Iff.rfl
  | cons call calls ih =>
      rw [CallsReturn, ih, Call.run_state,
        show buffers (call :: calls) = call.buffers ++ buffers calls from List.flatMap_cons, allReturn_append]
      constructor
      · rintro ⟨-, h, hs⟩
        exact ⟨h, hs⟩
      · rintro ⟨h, hs⟩
        exact ⟨call.run_result k x h, h, hs⟩

/-- ioterm_write counts every byte of its buffer unless the buffer starts with a
lf and the cr before it ended an earlier one; and calls on a fresh terminal emit
the normalised text and return as documented exactly when there is no such buffer. -/
theorem terminal_writes_iff (k : Sink σ) :
    (∀ iot s buf, (iotermWrite k.ops iot s buf).1 = buf.length ↔ ¬ (iot.crOut = true ∧ buf.head? = some lf)) ∧
    ∀ s calls, (CallsReturn (termOps k.ops) (iotermInit, s) calls ∧
        k.out (runCalls (termOps k.ops) (iotermInit, s) calls).2 = k.out s ++ crlf (buffers calls).flatten) ↔
      ∀ before buf after, buffers calls = before ++ buf :: after →
        before.flatten.getLast? = some cr → buf.head? ≠ some lf := by
  constructor
  · intro iot s buf
    rw [iotermWrite_count]
    by_cases h : Split iot.crOut buf
    · rw [if_pos h]
      exact ⟨fun he => by omega, fun hn => absurd h hn⟩
    · rw [if_neg h, Int.sub_zero]
      exact ⟨fun _ => h, fun _ => rfl⟩
  · intro s calls
    rw [callsReturn_iff, runCalls_eq, ← output_crOutStep]
    exact iowriteAll_iff k [] (buffers calls) (iotermInit, s) rfl

/-- A cr and then, in a buffer of its own start, a lf: the lf is reported as the
end of the file, and the last byte after it comes out twice. -/
theorem terminal_writes_split_fails :
    (Call.run (termOps Sink.log.ops) (runCalls (termOps Sink.log.ops) (iotermInit, []) [.iowrite [cr]])
      (.iowrite [lf])).1 = 0 ∧
    (runCalls (termOps Sink.log.ops) (iotermInit, []) [.iowrite [cr], .iowrite [lf, 97]]).2 =
      [cr, lf, 97, 97] ∧ crlf [cr, lf, 97] = [cr, lf, 97] := by
  decide +kernel

end RiscvKernel.TermWrite
