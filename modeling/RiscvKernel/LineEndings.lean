import RiscvKernel.TermInput

namespace RiscvKernel.LineEndings

open Io Lib.Transducer TermOutput TermInput

variable {σ : Type}

/-- A raw stream that ends: a read returns the next bytes of it, at least one
of them as long as one is left and asked for, and nothing at the end. -/
structure Tape (σ : Type) where
  read : σ → Nat → Int × List UInt8 × σ
  rest : σ → List UInt8
  delivers : ∀ s n, ∃ k s', k ≤ n ∧ (rest s ≠ [] → 1 ≤ n → 1 ≤ k) ∧ rest s' = (rest s).drop k ∧
    read s n = ((((rest s).take k).length : Int), (rest s).take k, s')

def Tape.ops (t : Tape σ) : IoOps σ := ⟨some t.read, none, none⟩

/-- The tape that returns as much as is asked for. -/
def Tape.list : Tape (List UInt8) where
  read s n := ((s.take n).length, s.take n, s.drop n)
  rest s := s
  delivers s n := ⟨n, s.drop n, Nat.le_refl _, fun _ h => h, rfl, rfl⟩

/-- The raw bytes o are emitted when the text s is written to a fresh terminal
in one or more calls of ioterm_write. -/
def Emits (s o : List UInt8) : Prop :=
  ∃ (σ : Type) (k : Sink σ) (t : σ) (bufs : List (List UInt8)), bufs ≠ [] ∧ bufs.flatten = s ∧
    k.out (iotermWriteAll k.ops iotermInit t bufs).2 = k.out t ++ o

/-- The bytes d are delivered when the raw stream s is read through a fresh
terminal by calls of ioterm_read, until a further call does not return. -/
def Delivered (s d : List UInt8) : Prop :=
  ∃ (σ : Type) (k : Tape σ) (t t' : σ) (bufs : List (List UInt8)) (fuel : Nat)
    (rs : List (Int × List UInt8)) (iot : IoTerm),
    k.rest t = s ∧ (∀ buf ∈ bufs, 1 ≤ buf.length) ∧
    iotermReadAll k.ops fuel iotermInit t bufs = some (rs, iot, t') ∧
    (∀ fuel buf, 1 ≤ buf.length → iotermRead k.ops fuel iot t' buf = none) ∧
    (rs.map Prod.snd).flatten = d

/-- console_putchar: the state is cprev, the word is what com0_putc is called with. -/
def consolePutchar : Machine UInt8 UInt8 UInt8 := fun cprev c =>
  (c, if c = cr then [c, lf]
    else if c = lf then (if cprev ≠ cr then [cr] else []) ++ [c]
    else [c])

section Equations

variable {ch : UInt8} {s : List UInt8}

theorem newlines_cr_lf : newlines (cr :: lf :: s) = lf :: newlines s := by
  rw [newlines, if_pos ⟨rfl, rfl⟩]

theorem newlines_cr (h : s.head? ≠ some lf) : newlines (cr :: s) = lf :: newlines s := by
  cases s with
  | nil => rfl
  | cons ch s =>
      have hne : ch ≠ lf := fun he => h (by rw [he]; rfl)
      rw [newlines, if_neg (fun hc => hne hc.2), if_pos rfl]

theorem newlines_of_ne (h : ch ≠ cr) : newlines (ch :: s) = ch :: newlines s := by
  cases s with
  | nil => simp [newlines, h]
  | cons ch' s => rw [newlines, if_neg (fun hc => h hc.1), if_neg h]

theorem crlf_cr_lf : crlf (cr :: lf :: s) = cr :: lf :: crlf s := by
  rw [crlf, if_pos ⟨rfl, rfl⟩]

theorem crlf_lf : crlf (lf :: s) = cr :: lf :: crlf s := by
  cases s with
  | nil => rfl
  | cons ch s => rw [crlf, if_neg (fun hc => absurd hc.1 (by decide)), if_pos (Or.inr rfl)]

theorem crlf_cr (h : s.head? ≠ some lf) : crlf (cr :: s) = cr :: lf :: crlf s := by
  cases s with
  | nil => rfl
  | cons ch s =>
      have hne : ch ≠ lf := fun he => h (by rw [he]; rfl)
      rw [crlf, if_neg (fun hc => hne hc.2), if_pos (Or.inl rfl)]

theorem crlf_of_ne (hcr : ch ≠ cr) (hlf : ch ≠ lf) : crlf (ch :: s) = ch :: crlf s := by
  cases s with
  | nil => simp [crlf, hcr, hlf]
  | cons ch' s => rw [crlf, if_neg (fun hc => hcr hc.1), if_neg (by simp [hcr, hlf])]

end Equations

/-- A text is empty, or starts with a line end (cr lf, a lone cr or a lone lf)
or with another byte. -/
theorem lineEnd_induction {P : List UInt8 → Prop} (nil : P [])
    (crlf : ∀ s, P s → P (cr :: lf :: s)) (cr : ∀ s, s.head? ≠ some lf → P s → P (cr :: s))
    (lf : ∀ s, P s → P (lf :: s))
    (other : ∀ ch s, ch ≠ TermOutput.cr → ch ≠ TermOutput.lf → P s → P (ch :: s)) (s : List UInt8) : P s := by
  induction hn : s.length using Nat.strongRecOn generalizing s with
  | ind n ih =>
      subst hn
      cases s with
      | nil => exact nil
      | cons ch s =>
          have hs : P s := ih s.length (by simp) s rfl
          by_cases hcr : ch = TermOutput.cr
          · subst hcr
            cases s with
            | nil => exact cr [] (by simp) hs
            | cons ch' s =>
                by_cases hlf : ch' = TermOutput.lf
                · subst hlf
                  exact crlf s (ih s.length (by simp) s rfl)
                · exact cr (ch' :: s) (by simpa using hlf) hs
          · by_cases hlf : ch = TermOutput.lf
            · subst hlf
              exact lf s hs
            · exact other ch s hcr hlf hs

theorem newlines_crlf (s : List UInt8) : newlines (crlf s) = newlines s := by
  induction s using lineEnd_induction with
  | nil => rfl
  | crlf s ih => rw [crlf_cr_lf, newlines_cr_lf, newlines_cr_lf, ih]
  | cr s h ih => rw [crlf_cr h, newlines_cr_lf, newlines_cr h, ih]
  | lf s ih => rw [crlf_lf, newlines_cr_lf, newlines_of_ne (by decide), ih]
  | other ch s hcr hlf ih => rw [crlf_of_ne hcr hlf, newlines_of_ne hcr, newlines_of_ne hcr, ih]

theorem crlf_crlf (s : List UInt8) : crlf (crlf s) = crlf s := by
  induction s using lineEnd_induction with
  | nil => rfl
  | crlf s ih => rw [crlf_cr_lf, crlf_cr_lf, ih]
  | cr s h ih => rw [crlf_cr h, crlf_cr_lf, ih]
  | lf s ih => rw [crlf_lf, crlf_cr_lf, ih]
  | other ch s hcr hlf ih => rw [crlf_of_ne hcr hlf, crlf_of_ne hcr hlf, ih]

theorem newlines_newlines (s : List UInt8) : newlines (newlines s) = newlines s := by
  induction s using lineEnd_induction with
  | nil => rfl
  | crlf s ih => rw [newlines_cr_lf, newlines_of_ne (by decide), ih]
  | cr s h ih => rw [newlines_cr h, newlines_of_ne (by decide), ih]
  | lf s ih => rw [newlines_of_ne (by decide), newlines_of_ne (by decide), ih]
  | other ch s hcr hlf ih => rw [newlines_of_ne hcr, newlines_of_ne hcr, ih]

theorem crlf_newlines (s : List UInt8) : crlf (newlines s) = crlf s := by
  induction s using lineEnd_induction with
  | nil => rfl
  | crlf s ih => rw [newlines_cr_lf, crlf_lf, crlf_cr_lf, ih]
  | cr s h ih => rw [newlines_cr h, crlf_lf, crlf_cr h, ih]
  | lf s ih => rw [newlines_of_ne (by decide), crlf_lf, crlf_lf, ih]
  | other ch s hcr hlf ih => rw [newlines_of_ne hcr, crlf_of_ne hcr hlf, crlf_of_ne hcr hlf, ih]

theorem emits_iff (s o : List UInt8) : Emits s o ↔ o = crlf s := by
  constructor
  · rintro ⟨σ, k, t, bufs, -, rfl, ho⟩
    obtain ⟨h1, h2, -⟩ := iotermWriteAll_output k t bufs
    rw [h1, h2] at ho
    exact (List.append_cancel_left ho).symm
  · rintro rfl
    obtain ⟨h1, h2, -⟩ := iotermWriteAll_output Sink.log [] [s]
    refine ⟨_, Sink.log, [], [s], by simp, by simp, ?_⟩
    rw [h1, h2]
    simp

section Tape

variable (k : Tape σ)

/-- One round of ioterm_read on a tape: m bytes leave it. -/
theorem iotermRead_round (iot : IoTerm) (s : σ) (buf : List UInt8) : ∃ (m : Nat) (s' : σ) (buf' : List UInt8),
    buf'.length = buf.length ∧ k.rest s' = (k.rest s).drop m ∧ (k.rest s ≠ [] → 1 ≤ buf.length → 1 ≤ m) ∧
    buf'.take (output crInStep iot.crIn ((k.rest s).take m)).length =
      output crInStep iot.crIn ((k.rest s).take m) ∧
    ∀ fuel, iotermRead k.ops (fuel + 1) iot s buf =
      if output crInStep iot.crIn ((k.rest s).take m) = [] then
        iotermRead k.ops fuel { iot with crIn := state crInStep iot.crIn ((k.rest s).take m) } s' buf'
      else some ((output crInStep iot.crIn ((k.rest s).take m)).length, buf',
        { iot with crIn := state crInStep iot.crIn ((k.rest s).take m) }, s') := by
  obtain ⟨m, s', hm, hpos, hrest, hread⟩ := k.delivers s buf.length
  have hlen : ((k.rest s).take m).length ≤ buf.length := by
    rw [List.length_take]; omega
  have hr : ioread k.ops s buf.length = ((((k.rest s).take m).length : Int), (k.rest s).take m, s') := hread
  obtain ⟨buf', hl, ht, he⟩ := iotermRead_chunk iot hr hlen
  exact ⟨m, s', buf', hl, hrest, hpos, ht, he⟩

theorem iotermRead_tape (fuel : Nat) {iot : IoTerm} {s : σ} {buf : List UInt8} {r : Int × List UInt8 × IoTerm × σ}
    (h : iotermRead k.ops fuel iot s buf = some r) :
    ∃ m, k.rest r.2.2.2 = (k.rest s).drop m ∧ r.2.2.1.crIn = state crInStep iot.crIn ((k.rest s).take m) ∧
      r.2.1.take r.1.toNat = output crInStep iot.crIn ((k.rest s).take m) := by
  induction fuel generalizing iot s buf with
  | zero => simp [iotermRead] at h
  | succ fuel ih =>
      obtain ⟨m, s', buf', -, hrest, -, ht, he⟩ := iotermRead_round k iot s buf
      rw [he] at h
      by_cases ho : output crInStep iot.crIn ((k.rest s).take m) = []
      · rw [if_pos ho] at h
        obtain ⟨m', hr', hs', ho'⟩ := ih h
        have hadd : (k.rest s).take (m + m') = (k.rest s).take m ++ (k.rest s').take m' := by
          rw [List.take_add, hrest]
        refine ⟨m + m', ?_, ?_, ?_⟩
        · rw [hr', hrest, List.drop_drop]
        · rw [hs', hadd, state_append]
        · rw [ho', hadd, output_append, ho, List.nil_append]
      · rw [if_neg ho] at h
        obtain rfl := Option.some.inj h
        exact ⟨m, hrest, rfl, ht⟩

theorem iotermRead_ended (fuel : Nat) (iot : IoTerm) (s : σ) (buf : List UInt8)
    (h : output crInStep iot.crIn (k.rest s) = []) :
    iotermRead k.ops fuel iot s buf = none := by
  induction fuel generalizing iot s buf with
  | zero => rfl
  | succ fuel ih =>
      obtain ⟨m, s', buf', -, hrest, -, -, he⟩ := iotermRead_round k iot s buf
      rw [← List.take_append_drop m (k.rest s), output_append, ← hrest] at h
      obtain ⟨ho, hr⟩ := List.append_eq_nil_iff.mp h
      rw [he, if_pos ho]
      exact ih _ _ _ hr

theorem iotermRead_more (fuel : Nat) (iot : IoTerm) (s : σ) (buf : List UInt8) (hbuf : 1 ≤ buf.length) (hf : (k.rest s).length < fuel)
    (h : output crInStep iot.crIn (k.rest s) ≠ []) :
    ∃ r, iotermRead k.ops fuel iot s buf = some r ∧ (k.rest r.2.2.2).length < (k.rest s).length := by
  induction fuel generalizing iot s buf with
  | zero => omega
  | succ fuel ih =>
      obtain ⟨m, s', buf', hl, hrest, hpos, -, he⟩ := iotermRead_round k iot s buf
      have hne : k.rest s ≠ [] := fun hn => h (by rw [hn]; rfl)
      have hm := hpos hne hbuf
      have hlen : 0 < (k.rest s).length := List.length_pos_of_ne_nil hne
      have hless : (k.rest s').length < (k.rest s).length := by
        rw [hrest, List.length_drop]; omega
      rw [he]
      by_cases ho : output crInStep iot.crIn ((k.rest s).take m) = []
      · rw [if_pos ho]
        rw [← List.take_append_drop m (k.rest s), output_append, ho, List.nil_append, ← hrest] at h
        obtain ⟨r, hr, hlt⟩ := ih { iot with crIn := state crInStep iot.crIn ((k.rest s).take m) } s' buf'
          (by omega) (by omega) h
        exact ⟨r, hr, by omega⟩
      · rw [if_neg ho]
        exact ⟨_, rfl, hless⟩

theorem iotermReadAll_tape (fuel : Nat) {iot : IoTerm} {s : σ} (bufs : List (List UInt8))
    {rs : List (Int × List UInt8)} {iot' : IoTerm} {s' : σ} (h : iotermReadAll k.ops fuel iot s bufs = some (rs, iot', s')) :
    ∃ m, k.rest s' = (k.rest s).drop m ∧ iot'.crIn = state crInStep iot.crIn ((k.rest s).take m) ∧
      (rs.map Prod.snd).flatten = output crInStep iot.crIn ((k.rest s).take m) := by
  induction bufs generalizing iot s rs with
  | nil =>
      simp only [iotermReadAll, Option.some.injEq, Prod.mk.injEq] at h
      obtain ⟨rfl, rfl, rfl⟩ := h
      exact ⟨0, rfl, rfl, rfl⟩
  | cons buf bufs ih =>
      simp only [iotermReadAll, Option.bind_eq_bind, Option.bind_eq_some_iff, Option.pure_def,
        Option.some.injEq, Prod.mk.injEq] at h
      obtain ⟨⟨n, buf', iot1, s1⟩, h1, ⟨rs', iot2, s2⟩, h2, rfl, rfl, rfl⟩ := h
      obtain ⟨m, hr, hs, ho⟩ := iotermRead_tape k fuel h1
      obtain ⟨m', hr', hs', ho'⟩ := ih h2
      simp only at hr hs ho
      have hadd : (k.rest s).take (m + m') = (k.rest s).take m ++ (k.rest s1).take m' := by
        rw [List.take_add, hr]
      refine ⟨m + m', ?_, ?_, ?_⟩
      · rw [hr', hr, List.drop_drop]
      · rw [hs', hs, hadd, state_append]
      · rw [List.map_cons, List.flatten_cons, ho', hs, ho, hadd, output_append]

theorem iotermReadAll_drains (fuel : Nat) (iot : IoTerm) (s : σ) (hf : (k.rest s).length < fuel) :
    ∃ bufs rs iot' s', (∀ buf ∈ bufs, 1 ≤ buf.length) ∧
      iotermReadAll k.ops fuel iot s bufs = some (rs, iot', s') ∧
      output crInStep iot'.crIn (k.rest s') = [] := by
  induction hn : (k.rest s).length using Nat.strongRecOn generalizing iot s with
  | ind n ih =>
      by_cases h : output crInStep iot.crIn (k.rest s) = []
      · exact ⟨[], [], iot, s, by simp, rfl, h⟩
      · obtain ⟨⟨v, buf, iot1, s1⟩, hr, hlt⟩ := iotermRead_more k fuel iot s [0] (Nat.le_refl _) hf h
        simp only at hlt
        obtain ⟨bufs, rs, iot', s', hb, hall, ho⟩ := ih _ (by omega) iot1 s1 (by omega) rfl
        refine ⟨[0] :: bufs, (v, buf.take v.toNat) :: rs, iot', s', ?_, ?_, ho⟩
        · simpa using hb
        · simp [iotermReadAll, hr, hall]

end Tape

theorem delivered_iff (s d : List UInt8) : Delivered s d ↔ d = newlines s := by
  constructor
  · rintro ⟨σ, k, t, t', bufs, fuel, rs, iot, rfl, hb, hall, hend, rfl⟩
    obtain ⟨m, hr, hs, ho⟩ := iotermReadAll_tape k fuel bufs hall
    have hnil : output crInStep iot.crIn (k.rest t') = [] := by
      by_contra hne
      obtain ⟨r, hr, -⟩ := iotermRead_more k _ iot t' [0] (Nat.le_refl _) (Nat.lt_succ_self _) hne
      rw [hend _ [0] (Nat.le_refl _)] at hr
      simp at hr
    rw [ho, ← output_crInStep, ← List.append_nil (output crInStep iotermInit.crIn _), ← hnil, hs, hr,
      ← output_append, List.take_append_drop]
    rfl
  · rintro rfl
    obtain ⟨bufs, rs, iot', s', hb, hall, ho⟩ :=
      iotermReadAll_drains Tape.list (s.length + 1) iotermInit s (Nat.lt_succ_self _)
    obtain ⟨m, hr, hs, hout⟩ := iotermReadAll_tape Tape.list _ bufs hall
    refine ⟨_, Tape.list, s, s', bufs, _, rs, iot', rfl, hb, hall,
      fun fuel buf _ => iotermRead_ended Tape.list fuel iot' s' buf ho, ?_⟩
    rw [hout, ← output_crInStep, ← List.append_nil (output crInStep iotermInit.crIn _), ← ho, hs, hr,
      ← output_append, List.take_append_drop]
    rfl

/-- What a text becomes on its way out, and a raw stream on its way in, are
each one normal form of its line ends, and the two agree on what a line end is. -/
theorem normalisations_compose (s : List UInt8) : ∃ o d,
    (∀ x, Emits s x ↔ x = o) ∧ (∀ x, Delivered s x ↔ x = d) ∧
    (∀ x, Delivered o x ↔ x = d) ∧ (∀ x, Emits o x ↔ x = o) ∧
    (∀ x, Delivered d x ↔ x = d) ∧ (∀ x, Emits d x ↔ x = o) := by
  refine ⟨crlf s, newlines s, emits_iff s, delivered_iff s, fun x => ?_, fun x => ?_, fun x => ?_, fun x => ?_⟩
  · rw [delivered_iff, newlines_crlf]
  · rw [emits_iff, crlf_crlf]
  · rw [delivered_iff, newlines_newlines]
  · rw [emits_iff, crlf_newlines]

section Console

/-- How often a lf directly follows a cr, the byte p being in front. -/
def crLfs : UInt8 → List UInt8 → Nat
  | _, [] => 0
  | p, c :: s => (if p = cr ∧ c = lf then 1 else 0) + crLfs c s

theorem crLfs_eq_zero (p : UInt8) (s : List UInt8) : crLfs p s = 0 ↔ ¬ [cr, lf] <:+: p :: s := by
  induction s generalizing p with
  | nil => simp [crLfs, List.infix_cons_iff]
  | cons c s ih =>
      have hc := ih c
      rw [List.infix_cons_iff, crLfs, Nat.add_eq_zero_iff, hc, not_or]
      refine and_congr ?_ Iff.rfl
      rw [List.cons_prefix_cons, List.cons_prefix_cons]
      by_cases hp : p = cr ∧ c = lf <;> simp [hp, eq_comm]

theorem crOutStep_state (b : Bool) (c : UInt8) : (crOutStep b c).1 = decide (c = cr) := by
  by_cases hcr : c = cr
  · rw [hcr, crOutStep_cr]; rfl
  · by_cases hlf : c = lf
    · rw [hlf]; cases b <;> rfl
    · rw [crOutStep_plain b hcr hlf]; simp [hcr]

theorem consolePutchar_of_not {p c : UInt8} (h : ¬ (p = cr ∧ c = lf)) :
    (consolePutchar p c).2 = (crOutStep (decide (p = cr)) c).2 := by
  by_cases hcr : c = cr
  · rw [hcr, crOutStep_cr]; rfl
  · by_cases hlf : c = lf
    · have hp : p ≠ cr := fun hp => h ⟨hp, hlf⟩
      rw [decide_eq_false hp, hlf]
      simp [consolePutchar, crOutStep, hp, show lf ≠ cr by decide]
    · simp [consolePutchar, crOutStep_plain _ hcr hlf, hcr, hlf]

theorem output_consolePutchar_of_not (p : UInt8) (s : List UInt8) (h : crLfs p s = 0) :
    output consolePutchar p s = output crOutStep (decide (p = cr)) s := by
  induction s generalizing p with
  | nil => rfl
  | cons c s ih =>
      obtain ⟨hc, hs⟩ := Nat.add_eq_zero_iff.mp h
      rw [output, output, crOutStep_state, consolePutchar_of_not (by simpa using hc), ← ih c hs]
      rfl

/-- The console emits one more byte than the terminal for every lf after a cr. -/
theorem output_consolePutchar_length (p : UInt8) (s : List UInt8) :
    (output consolePutchar p s).length = (output crOutStep (decide (p = cr)) s).length + crLfs p s := by
  induction s generalizing p with
  | nil => rfl
  | cons c s ih =>
      have hstep : (consolePutchar p c).2.length =
          (crOutStep (decide (p = cr)) c).2.length + if p = cr ∧ c = lf then 1 else 0 := by
        by_cases h : p = cr ∧ c = lf
        · rw [if_pos h, h.1, h.2]; rfl
        · rw [if_neg h, consolePutchar_of_not h, Nat.add_zero]
      rw [output, output, List.length_append, List.length_append, crOutStep_state, hstep, crLfs,
        show (consolePutchar p c).1 = c from rfl, ih c]
      omega

end Console

/-- The console sends the bytes a fresh terminal emits exactly for the texts in
which no lf directly follows a cr: after a cr, which is already sent as cr lf,
it sends the lf of a cr lf once more. -/
theorem console_emits_iff (s : List UInt8) :
    Emits s (output consolePutchar 0 s) ↔ ¬ [cr, lf] <:+: s := by
  have hinf : [cr, lf] <:+: 0 :: s ↔ [cr, lf] <:+: s := by
    rw [List.infix_cons_iff, List.cons_prefix_cons]
    simp [cr]
  rw [emits_iff, ← output_crOutStep, ← hinf, ← crLfs_eq_zero]
  constructor
  · intro h
    have hlen := output_consolePutchar_length 0 s
    rw [h] at hlen
    exact Nat.left_eq_add.mp hlen
  · intro h
    exact output_consolePutchar_of_not 0 s h

theorem console_emits_crlf_fails : ¬ Emits [cr, lf] (output consolePutchar 0 [cr, lf]) := by
  rw [emits_iff]
  decide +kernel

end RiscvKernel.LineEndings
