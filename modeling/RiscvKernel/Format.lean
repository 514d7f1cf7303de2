import RiscvKernel.Lib.Bytes

namespace RiscvKernel.Format

open Lib.Bytes

variable {σ : Type}

/-! The formatter of string.c over any putcfn, with aux as the state that it works on. -/

def padLoop (putcfn : UInt8 → σ → σ) (c : UInt8) (digits : Nat) : Nat → Nat → σ → Nat × σ
  | 0, nout, aux => (nout, aux)
  | len + 1, nout, aux =>
      if digits < len + 1 then padLoop putcfn c digits len (nout + 1) (putcfn c aux) else (nout, aux)

/-- The length of the local buffer of format_int. -/
def bufLen : Nat := 40

/-- The do-while loop of format_int with p as an index of buf: none when p leaves buf. -/
def digitLoop (base : Nat) : Nat → Nat → (Nat → UInt8) → Option (Nat × (Nat → UInt8))
  | 0, _, _ => none
  | p + 1, val, buf =>
      let d := val % base
      let buf := Function.update buf p (UInt8.ofNat (if d < 10 then 48 + d else 97 + d - 10))
      if val / base ≠ 0 then digitLoop base p (val / base) buf else some (p, buf)

/-- The last loop of format_int, over the rest bytes of buf from p on. -/
def outLoop (putcfn : UInt8 → σ → σ) (buf : Nat → UInt8) : Nat → Nat → Nat → σ → Nat × σ
  | 0, _, nout, aux => (nout, aux)
  | rest + 1, p, nout, aux => outLoop putcfn buf rest (p + 1) (nout + 1) (putcfn (buf p) aux)

/-- format_int: none when it leaves its local buffer. -/
def formatInt (putcfn : UInt8 → σ → σ) (aux : σ) (val base : Nat) (zpad : Bool) (len : Nat) : Option (Nat × σ) := do
  let (p, buf) ← digitLoop base bufLen val (fun _ => 0)
  let (nout, aux) := padLoop putcfn (if zpad then 48 else 32) (bufLen - p) len 0 aux
  return outLoop putcfn buf (bufLen - p) p nout aux

def strLoop (putcfn : UInt8 → σ → σ) : List UInt8 → Nat → σ → Nat × σ
  | [], nout, aux => (nout, aux)
  | c :: s, nout, aux => strLoop putcfn s (nout + 1) (putcfn c aux)

def spaces (putcfn : UInt8 → σ → σ) : Nat → σ → σ
  | 0, aux => aux
  | len + 1, aux => spaces putcfn len (putcfn 32 aux)

/-- The characters of the string "(null)". -/
def nullStr : List UInt8 := [40, 110, 117, 108, 108, 41]

/-- format_str on a string by its characters before the NUL, or on NULL. -/
def formatStr (putcfn : UInt8 → σ → σ) (aux : σ) (s : Option (List UInt8)) (len : Nat) : Nat × σ :=
  let (nout, aux) := strLoop putcfn (s.getD nullStr) 0 aux
  if nout < len then (nout + (len - nout), spaces putcfn (len - nout) aux) else (nout, aux)

/-- The 64-bit slots that va_arg takes one after another, and the string behind each pointer,
none behind NULL. -/
structure Args where
  slot : Nat → BitVec 64
  string : BitVec 64 → Option (List UInt8)

/-- va_arg of an int, a long or a long long, as an intmax_t. -/
def Args.signed (args : Args) (lcnt ap : Nat) : BitVec 64 :=
  if lcnt > 0 then args.slot ap else ((args.slot ap).setWidth 32).signExtend 64

def Args.unsigned (args : Args) (lcnt ap : Nat) : BitVec 64 :=
  if lcnt > 0 then args.slot ap else ((args.slot ap).setWidth 32).setWidth 64

/-- What vgprintf keeps besides its place in fmt; ap counts the arguments taken. -/
structure Printing (σ : Type) where
  nout : Nat
  ap : Nat
  aux : σ

def Printing.put (putcfn : UInt8 → σ → σ) (c : UInt8) (s : Printing σ) : Printing σ :=
  { s with nout := s.nout + 1, aux := putcfn c s.aux }

/-- A call of format_int or format_str, and what it returns added to nout. -/
def Printing.add (s : Printing σ) (r : Nat × σ) : Printing σ := { s with nout := s.nout + r.1, aux := r.2 }

/-- The switch of vgprintf on the conversion character. -/
def convert (putcfn : UInt8 → σ → σ) (args : Args) (zpad : Bool) (len lcnt : Nat) (c : UInt8) (s : Printing σ) :
    Option (Printing σ) :=
  if c = 100 then
    let ival := args.signed lcnt s.ap
    let s := { s with ap := s.ap + 1 }
    if ival.slt 0 then
      let s := s.put putcfn 45
      (formatInt putcfn s.aux (-ival).toNat 10 zpad (len - 1)).map s.add
    else (formatInt putcfn s.aux ival.toNat 10 zpad len).map s.add
  else if c = 117 ∨ c = 120 then
    let ival := args.unsigned lcnt s.ap
    let s := { s with ap := s.ap + 1 }
    (formatInt putcfn s.aux ival.toNat (if c = 120 then 16 else 10) zpad len).map s.add
  else if c = 115 then
    let str := args.string (args.slot s.ap)
    let s := { s with ap := s.ap + 1 }
    some (s.add (formatStr putcfn s.aux str len))
  else if c = 112 then
    let ival := args.slot s.ap
    let s := { s with ap := s.ap + 1 }
    let s := s.add (formatStr putcfn s.aux (some [48, 120]) 2)
    (formatInt putcfn s.aux ival.toNat 16 zpad len).map s.add
  else
    let s := s.put putcfn 37
    some (s.put putcfn (if c < 32 ∨ 127 ≤ c then 63 else c))

/-- The character of fmt at p: its NUL stands at its end, and nothing behind it can be read. -/
def char (fmt : List UInt8) (p : Nat) : Option UInt8 := (fmt ++ [0])[p]?

def widthLoop (fmt : List UInt8) : Nat → Nat → Nat → Option (Nat × Nat)
  | 0, _, _ => none
  | fuel + 1, p, len => do
      let c ← char fmt p
      if 48 ≤ c ∧ c ≤ 57 then widthLoop fmt fuel (p + 1) ((10 * len + (c.toNat - 48)) % 2 ^ 32) else return (p, len)

def prefixLoop (fmt : List UInt8) : Nat → Nat → Nat → Option (Nat × Nat)
  | 0, _, _ => none
  | fuel + 1, p, lcnt => do
      let c ← char fmt p
      if c = 108 then prefixLoop fmt fuel (p + 1) (lcnt + 1) else return (p, lcnt)

/-- The directive from the % at p on: the index of its last character and what it prints. -/
def directive (putcfn : UInt8 → σ → σ) (fmt : List UInt8) (args : Args) (fuel p : Nat) (s : Printing σ) :
    Option (Nat × Printing σ) := do
  let p := p + 1
  let zpad := (← char fmt p) == 48
  let (p, len) ← widthLoop fmt fuel p 0
  let (p, lcnt) ← prefixLoop fmt fuel p 0
  let c ← char fmt p
  -- size_t and intmax_t have the size of a long long
  let (p, lcnt) := if c = 122 ∨ c = 106 then (p + 1, 2) else (p, lcnt)
  let c ← char fmt p
  let s ← convert putcfn args zpad len lcnt c s
  return (if c = 0 then p - 1 else p, s)

def vgprintfLoop (putcfn : UInt8 → σ → σ) (fmt : List UInt8) (args : Args) : Nat → Nat → Printing σ → Option (Printing σ)
  | 0, _, _ => none
  | fuel + 1, p, s => do
      let c ← char fmt p
      if c = 0 then return s
      else
        let (p, s) ← if c = 37 then directive putcfn fmt args fuel p s else some (p, s.put putcfn c)
        vgprintfLoop putcfn fmt args fuel (p + 1) s

/-- vgprintf, for at most fuel rounds of its loops: what it returns, and aux afterwards. -/
def vgprintf (putcfn : UInt8 → σ → σ) (aux : σ) (fmt : List UInt8) (args : Args) (fuel : Nat) : Option (Nat × σ) :=
  (vgprintfLoop putcfn fmt args fuel 0 ⟨0, 0, aux⟩).map fun s => (s.nout, s.aux)

/-- struct vsnprintf_state with the memory that pos points into. -/
structure VsnprintfState where
  mem : Nat → UInt8
  pos : Nat
  rem : Nat

def vsnprintfPutc (c : UInt8) (state : VsnprintfState) : VsnprintfState :=
  if state.rem ≤ 1 then state
  else { mem := Function.update state.mem state.pos c, pos := state.pos + 1, rem := state.rem - 1 }

def vsnprintf (mem : Nat → UInt8) (buf bufsz : Nat) (fmt : List UInt8) (args : Args) (fuel : Nat) :
    Option (Nat × (Nat → UInt8)) :=
  (vgprintf vsnprintfPutc ⟨mem, buf, bufsz⟩ fmt args fuel).map fun r =>
    (r.1, if r.2.rem ≠ 0 then Function.update r.2.mem r.2.pos 0 else r.2.mem)

section Loops

variable {putcfn : UInt8 → σ → σ}

/-- The state after the characters of out, put one after another. -/
def putAll (putcfn : UInt8 → σ → σ) (aux : σ) (out : List UInt8) : σ := out.foldl (fun aux c => putcfn c aux) aux

theorem putAll_append (aux : σ) (out out' : List UInt8) :
    putAll putcfn aux (out ++ out') = putAll putcfn (putAll putcfn aux out) out' := List.foldl_append

theorem padLoop_eq (c : UInt8) (digits len nout : Nat) (aux : σ) : padLoop putcfn c digits len nout aux =
    (nout + (len - digits), putAll putcfn aux (List.replicate (len - digits) c)) := by
  induction len generalizing nout aux with
  | zero =>
      rw [padLoop, Nat.zero_sub]
      rfl
  | succ len ih =>
      rw [padLoop]
      by_cases h : digits < len + 1
      · rw [if_pos h, ih, show len + 1 - digits = len - digits + 1 by omega, List.replicate_succ]
        refine Prod.ext ?_ rfl
        show nout + 1 + (len - digits) = nout + (len - digits + 1)
        omega
      · rw [if_neg h, show len + 1 - digits = 0 by omega]
        rfl

theorem outLoop_eq (buf : Nat → UInt8) (rest p nout : Nat) (aux : σ) :
    outLoop putcfn buf rest p nout aux = (nout + rest, putAll putcfn aux (readAt buf p rest)) := by
  induction rest generalizing p nout aux with
  | zero => rfl
  | succ rest ih =>
      rw [outLoop, ih, readAt_succ]
      refine Prod.ext ?_ rfl
      show nout + 1 + rest = nout + (rest + 1)
      omega

theorem strLoop_eq (s : List UInt8) (nout : Nat) (aux : σ) :
    strLoop putcfn s nout aux = (nout + s.length, putAll putcfn aux s) := by
  induction s generalizing nout aux with
  | nil => rfl
  | cons c s ih =>
      rw [strLoop, ih]
      refine Prod.ext ?_ rfl
      show nout + 1 + s.length = nout + (s.length + 1)
      omega

theorem spaces_eq (len : Nat) (aux : σ) : spaces putcfn len aux = putAll putcfn aux (List.replicate len 32) := by
  induction len generalizing aux with
  | zero => rfl
  | succ len ih =>
      rw [spaces, ih, List.replicate_succ]
      rfl

/-- What format_str prints: the string, and spaces after it up to the width. -/
def strOut (s : Option (List UInt8)) (len : Nat) : List UInt8 :=
  s.getD nullStr ++ List.replicate (len - (s.getD nullStr).length) 32

theorem formatStr_eq (aux : σ) (s : Option (List UInt8)) (len : Nat) :
    formatStr putcfn aux s len = ((strOut s len).length, putAll putcfn aux (strOut s len)) := by
  rw [formatStr, strLoop_eq, Nat.zero_add, strOut, putAll_append, List.length_append, List.length_replicate]
  dsimp only
  split
  · rw [spaces_eq]
  · rename_i h
    rw [show len - (s.getD nullStr).length = 0 by omega]
    rfl

end Loops

section Digits

variable {base val : Nat}

def digitChar (d : Nat) : UInt8 := UInt8.ofNat (if d < 10 then 48 + d else 97 + d - 10)

def digitVal (c : UInt8) : Nat := if c.toNat < 97 then c.toNat - 48 else c.toNat - 87

/-- The number that digits denote, the first one the most significant. -/
def readDigits (base : Nat) (ds : List UInt8) : Nat := ds.foldl (fun v c => base * v + digitVal c) 0

/-- The digits of a number, the last one first. -/
def digitsOf (base val : Nat) : List Nat := if val = 0 then [0] else Nat.digits base val

/-- The representation of a number, without leading zeros. -/
def numeral (base val : Nat) : List UInt8 := ((digitsOf base val).map digitChar).reverse

theorem digitVal_digitChar {d : Nat} (h : d < 16) : digitVal (digitChar d) = d := by
  revert d
  decide

theorem digitsOf_step (hb : 1 < base) (hval : val / base ≠ 0) : digitsOf base val = val % base :: digitsOf base (val / base) := by
  have hne : val ≠ 0 := fun he => hval (by rw [he, Nat.zero_div])
  rw [digitsOf, if_neg hne, digitsOf, if_neg hval, Nat.digits_def' hb (Nat.pos_of_ne_zero hne)]

theorem digitsOf_last (hb : 1 < base) (hval : val / base = 0) : digitsOf base val = [val % base] := by
  rw [digitsOf]
  split
  · rename_i h
    rw [h, Nat.zero_mod]
  · rename_i h
    rw [Nat.digits_def' hb (Nat.pos_of_ne_zero h), hval, Nat.digits_zero]

theorem digitsOf_lt (hb : 1 < base) {d : Nat} (hd : d ∈ digitsOf base val) : d < base := by
  rw [digitsOf] at hd
  split at hd
  · rw [List.mem_singleton.mp hd]
    omega
  · exact Nat.digits_lt_base hb hd

theorem digitsOf_length_le (hb : 1 < base) {k : Nat} (hk : 0 < k) (h : val < base ^ k) : (digitsOf base val).length ≤ k := by
  rw [digitsOf]
  split
  · exact hk
  · exact (Nat.digits_length_le_iff hb val).mpr h

theorem numeral_length (base val : Nat) : (numeral base val).length = (digitsOf base val).length := by
  rw [numeral, List.length_reverse, List.length_map]

/-- The do-while loop leaves the representation at the end of the buffer. -/
theorem digitLoop_eq (hb : 1 < base) (p val : Nat) (buf : Nat → UInt8) (h : (digitsOf base val).length ≤ p) :
    ∃ buf', digitLoop base p val buf = some (p - (digitsOf base val).length, buf') ∧
      readAt buf' (p - (digitsOf base val).length) (digitsOf base val).length = numeral base val ∧
      ∀ q, p ≤ q → buf' q = buf q := by
  induction p generalizing val buf with
  | zero =>
      by_cases hval : val / base = 0
      · rw [digitsOf_last hb hval] at h
        exact absurd h (by simp)
      · rw [digitsOf_step hb hval] at h
        exact absurd h (by simp)
  | succ p ih =>
      rw [digitLoop]
      by_cases hval : val / base = 0
      · refine ⟨Function.update buf p (digitChar (val % base)), ?_, ?_, fun q hq => Function.update_of_ne (by omega) _ _⟩
        · rw [if_neg (not_not.mpr hval), digitsOf_last hb hval]
          rfl
        · rw [numeral, digitsOf_last hb hval]
          show [Function.update buf p (digitChar (val % base)) p] = [digitChar (val % base)]
          rw [Function.update_self]
      · rw [if_pos hval]
        rw [digitsOf_step hb hval, List.length_cons] at h
        obtain ⟨buf', hr, hread, hframe⟩ := ih (val / base) (Function.update buf p (digitChar (val % base))) (by omega)
        have hp : p + 1 - (digitsOf base val).length = p - (digitsOf base (val / base)).length := by
          rw [digitsOf_step hb hval, List.length_cons]
          omega
        refine ⟨buf', ?_, ?_, fun q hq => ?_⟩
        · rw [hp]
          exact hr
        · rw [hp, digitsOf_step hb hval, List.length_cons, readAt_add, hread, numeral, numeral, digitsOf_step hb hval,
            List.map_cons, List.reverse_cons]
          congr 1
          show [buf' (p - (digitsOf base (val / base)).length + (digitsOf base (val / base)).length + 0)] = _
          rw [Nat.add_zero, Nat.sub_add_cancel (by omega), hframe p (Nat.le_refl p), Function.update_self]
        · rw [hframe q (by omega), Function.update_of_ne (by omega)]

/-- What format_int prints: the representation, padded on the left up to the width. -/
def intOut (val base : Nat) (zpad : Bool) (len : Nat) : List UInt8 :=
  List.replicate (len - (numeral base val).length) (if zpad then 48 else 32) ++ numeral base val

theorem formatInt_eq {putcfn : UInt8 → σ → σ} (hb : 1 < base) (hval : val < base ^ bufLen) (aux : σ) (zpad : Bool) (len : Nat) :
    formatInt putcfn aux val base zpad len =
      some ((intOut val base zpad len).length, putAll putcfn aux (intOut val base zpad len)) := by
  have hle : (digitsOf base val).length ≤ bufLen := digitsOf_length_le hb (by decide) hval
  obtain ⟨buf', hr, hread, -⟩ := digitLoop_eq hb bufLen val (fun _ => 0) hle
  rw [formatInt, hr]
  simp only [Option.bind_eq_bind, Option.bind_some, padLoop_eq, outLoop_eq]
  rw [show bufLen - (bufLen - (digitsOf base val).length) = (digitsOf base val).length by omega, hread, intOut, putAll_append,
    List.length_append, List.length_replicate, numeral_length, Nat.zero_add]
  rfl

/-- ds is the representation of val in the base. -/
structure Numeral (base val : Nat) (ds : List UInt8) : Prop where
  digits : ∀ c ∈ ds, ∃ d < base, c = digitChar d
  length : ds.length = if val = 0 then 1 else (Nat.digits base val).length
  leading : val ≠ 0 → ds.head? ≠ some 48
  value : readDigits base ds = val

theorem readDigits_numeral (hb : 1 < base) (hb' : base ≤ 16) (val : Nat) : readDigits base (numeral base val) = val := by
  have hval : ∀ d ∈ digitsOf base val, digitVal (digitChar d) = d := fun d hd =>
    digitVal_digitChar (Nat.lt_of_lt_of_le (digitsOf_lt hb hd) hb')
  have hfold : ∀ ds : List Nat, (∀ d ∈ ds, digitVal (digitChar d) = d) →
      readDigits base (ds.map digitChar).reverse = Nat.ofDigits base ds := by
    intro ds hds
    rw [readDigits, List.foldl_reverse, List.foldr_map, Nat.ofDigits_eq_foldr]
    induction ds with
    | nil => rfl
    | cons d ds ih =>
        rw [List.foldr_cons, List.foldr_cons, ih fun e he => hds e (List.mem_cons_of_mem _ he), hds d List.mem_cons_self,
          Nat.add_comm]
        rfl
  rw [numeral, hfold _ hval, digitsOf]
  split
  · rename_i h
    rw [h]
    rfl
  · exact Nat.ofDigits_digits base val

theorem numeral_numeral (hb : 1 < base) (hb' : base ≤ 16) (val : Nat) : Numeral base val (numeral base val) := by
  refine ⟨fun c hc => ?_, ?_, fun hne => ?_, readDigits_numeral hb hb' val⟩
  · rw [numeral, List.mem_reverse, List.mem_map] at hc
    obtain ⟨d, hd, rfl⟩ := hc
    exact ⟨d, digitsOf_lt hb hd, rfl⟩
  · rw [numeral_length, digitsOf]
    split <;> rfl
  · rw [numeral, List.head?_reverse, List.getLast?_map, digitsOf, if_neg hne,
      List.getLast?_eq_getLast_of_ne_nil (Nat.digits_ne_nil_iff_ne_zero.mpr hne)]
    intro hz
    have hlast := Nat.getLast_digit_ne_zero base hne
    have hlt : (Nat.digits base val).getLast (Nat.digits_ne_nil_iff_ne_zero.mpr hne) < 16 :=
      Nat.lt_of_lt_of_le (Nat.digits_lt_base hb (List.getLast_mem _)) hb'
    refine hlast ?_
    rw [← digitVal_digitChar hlt, Option.some.inj hz]
    rfl

/-- format_int prints the representation of its value, padded up to the width, and returns how
many characters that is; its local buffer holds every 64-bit value in any base from 4 on. -/
theorem format_int_exact (putcfn : UInt8 → σ → σ) (aux : σ) (val base : Nat) (zpad : Bool) (len : Nat) (hval : val < 2 ^ 64)
    (hb : 4 ≤ base) (hb' : base ≤ 16) : ∃ ds out, Numeral base val ds ∧
      out = List.replicate (len - ds.length) (if zpad then 48 else 32) ++ ds ∧ out.length = max len ds.length ∧
      formatInt putcfn aux val base zpad len = some (max len ds.length, putAll putcfn aux out) := by
  have hpow : val < base ^ bufLen :=
    calc val < 2 ^ 64 := hval
      _ ≤ 4 ^ bufLen := by decide +kernel
      _ ≤ base ^ bufLen := Nat.pow_le_pow_left hb bufLen
  have hlen : (intOut val base zpad len).length = max len (numeral base val).length := by
    rw [intOut, List.length_append, List.length_replicate]
    omega
  refine ⟨numeral base val, intOut val base zpad len, numeral_numeral (by omega) hb' val, rfl, hlen, ?_⟩
  rw [formatInt_eq (by omega) hpow, hlen]

theorem format_int_exact_hex :
    formatInt (fun c out => out ++ [c]) [] 0xbee 16 true 5 = some (5, [48, 48, 98, 101, 101]) ∧
      ∃ ds out, Numeral 16 0xbee ds ∧ out = List.replicate (5 - ds.length) 48 ++ ds ∧
        formatInt (fun c out => out ++ [c]) [] 0xbee 16 true 5 =
          some (max 5 ds.length, putAll (fun c out => out ++ [c]) [] out) := by
  obtain ⟨ds, out, hds, ho, -, hr⟩ :=
    format_int_exact (fun c out => out ++ [c]) [] 0xbee 16 true 5 (by decide) (by decide) (by decide)
  exact ⟨by decide +kernel, ds, out, hds, ho, hr⟩

end Digits

end RiscvKernel.Format
