import RiscvKernel.TermInput

namespace RiscvKernel.TermLine

open Io Lib.Transducer TermOutput TermInput

variable {σ : Type}

/-- iogetc on a terminal: ioterm_read into the local c, one byte. -/
def iotermGetc (raw : IoOps σ) (fuel : Nat) (iot : IoTerm) (s : σ) : Option (Int × IoTerm × σ) :=
  match iotermRead raw fuel iot s [0] with
  | none => none
  | some (rlen, c, iot, s) =>
      some (if rlen < 0 then rlen else if rlen = 0 then -eio else (c.getD 0 0).toNat, iot, s)

/-- The locals of ioterm_getsn (p as an index of buf) with the terminal and the
state of its raw object. -/
structure Line (σ : Type) where
  buf : List UInt8
  p : Nat
  n : Nat
  iot : IoTerm
  raw : σ

/-- How a turn of the loop of ioterm_getsn ends: with another turn, with the
return of NULL, or with the return of buf. -/
inductive Turn (σ : Type)
  | more (l : Line σ)
  | null (l : Line σ)
  | line (l : Line σ)

/-- Write the bytes to rawio by ioputc; if one of them fails, NULL is returned. -/
def echo (raw : IoOps σ) (l : Line σ) : List UInt8 → (Line σ → Turn σ) → Turn σ
  | [], k => k l
  | c :: cs, k =>
      match ioputc raw l.raw c with
      | (result, s) => if result < 0 then .null { l with raw := s } else echo raw { l with raw := s } cs k

/-- The switch of ioterm_getsn; its escape case is written '\133', octal for 91. -/
def getsnTurn (raw : IoOps σ) (l : Line σ) (c : UInt8) : Turn σ :=
  if c = 91 then .more { l with iot := { l.iot with crIn := false } }
  else if c = cr ∨ c = lf then echo raw l [cr, lf] fun l => .line { l with buf := l.buf.set l.p 0 }
  else if c = 8 ∨ c = 127 then
    if l.p ≠ 0 then echo raw { l with p := l.p - 1, n := l.n + 1 } [8, 32, 8] .more
    else echo raw l [7] .more
  else if 1 < l.n then
    -- the result of ioputc is looked at only after the store
    echo raw { l with buf := l.buf.set l.p c, p := l.p + 1, n := l.n - 1 } [c] .more
  else echo raw l [7] .more

/-- ioterm_getsn on fuel: whether buf is returned, and the locals at the return.
The result of iogetc is stored in a char. -/
def iotermGetsn (raw : IoOps σ) : Nat → Line σ → Option (Bool × Line σ)
  | 0, _ => none
  | fuel + 1, l =>
      match iotermGetc raw fuel l.iot l.raw with
      | none => none
      | some (c, iot, s) =>
          match getsnTurn raw { l with iot := iot, raw := s } (UInt8.ofInt c) with
          | .more l => iotermGetsn raw fuel l
          | .null l => some (false, l)
          | .line l => some (true, l)

/-- One byte of the edited line, of which at most n - 1 are kept. -/
def editStep (n : Nat) (kept : List UInt8) (c : UInt8) : List UInt8 :=
  if c = 8 ∨ c = 127 then kept.dropLast
  else if kept.length < n - 1 then kept ++ [c]
  else kept

def edit (n : Nat) (line : List UInt8) : List UInt8 := line.foldl (editStep n) []

/-- A raw object without errors: next s bs says that bs are the next bytes to be
read; a byte that is written is accepted and takes none of them away. -/
structure Keyboard (σ : Type) where
  ops : IoOps σ
  next : σ → List UInt8 → Prop
  read_next : ∀ s c cs, next s (c :: cs) → ∃ s', ioread ops s 1 = (1, [c], s') ∧ next s' cs
  write_next : ∀ s c, ∃ s', iowrite ops s [c] = (1, s') ∧ ∀ cs, next s cs → next s' cs

/-- A byte comes through the int that iogetc returns unchanged. -/
theorem ofInt_toNat (c : UInt8) : UInt8.ofInt (c.toNat : Int) = c := by
  have h : c.toNat < 2 ^ 8 := c.toNat_lt
  rw [UInt8.ofInt, Int.emod_eq_of_lt (by omega) (by exact_mod_cast h), Int.toNat_natCast, UInt8.ofNat_toNat]

section Keyboard

variable (k : Keyboard σ)

/-- An echo succeeds and changes nothing but the state of the raw object. -/
theorem echo_keyboard (l : Line σ) (cs : List UInt8) (f : Line σ → Turn σ) :
    ∃ s', echo k.ops l cs f = f { l with raw := s' } ∧ ∀ bs, k.next l.raw bs → k.next s' bs := by
  induction cs generalizing l with
  | nil => exact ⟨l.raw, rfl, fun _ h => h⟩
  | cons c cs ih =>
      obtain ⟨s1, hw, hn⟩ := k.write_next l.raw c
      obtain ⟨s2, he, hn'⟩ := ih { l with raw := s1 }
      have hput : ioputc k.ops l.raw c = ((c.toNat : Int), s1) := by
        simp [ioputc, hw]
      refine ⟨s2, ?_, fun bs h => hn' bs (hn bs h)⟩
      simp only [echo, hput]
      rw [if_neg (by omega), he]

theorem crInStep_cases (b : Bool) (ch : UInt8) :
    crInStep b ch = (false, []) ∨ ∃ b' c, crInStep b ch = (b', [c]) ∧ (c ≠ lf → b' = false) := by
  by_cases hcr : ch = cr
  · exact .inr ⟨true, lf, by rw [hcr]; cases b <;> rfl, fun h => absurd rfl h⟩
  · by_cases hlf : b = true ∧ ch = lf
    · exact .inl (by rw [hlf.1, hlf.2]; rfl)
    · refine .inr ⟨false, ch, ?_, fun _ => rfl⟩
      cases b with
      | false => simp [crInStep, hcr]
      | true =>
          have hne : ch ≠ lf := fun he => hlf ⟨rfl, he⟩
          simp [crInStep, hcr, hne]

/-- A read of one byte delivers the first of the normalised bytes still to come. -/
theorem iotermRead_keyboard (fuel : Nat) (bs : List UInt8) (iot : IoTerm) (s : σ) (buf : List UInt8)
    (hbuf : buf.length = 1) (c : UInt8) (d : List UInt8) (hn : k.next s bs)
    (hd : output crInStep iot.crIn bs = c :: d) (hf : bs.length < fuel) :
    ∃ iot' s' bs', iotermRead k.ops fuel iot s buf = some (1, [c], iot', s') ∧ k.next s' bs' ∧
      output crInStep iot'.crIn bs' = d ∧ bs'.length < bs.length ∧ (c ≠ lf → iot'.crIn = false) := by
  induction bs generalizing fuel iot s buf with
  | nil => simp [output] at hd
  | cons b bs ih =>
      obtain ⟨fuel, rfl⟩ : ∃ f, fuel = f + 1 := ⟨fuel - 1, by omega⟩
      obtain ⟨s1, hr, hn1⟩ := k.read_next s b bs hn
      obtain ⟨buf', hlen, htake, he⟩ := iotermRead_chunk iot
        (show ioread k.ops s buf.length = (([b].length : Int), [b], s1) by rw [hbuf]; exact hr)
        (Nat.le_of_eq hbuf.symm)
      have hlt : bs.length < fuel := Nat.lt_of_succ_lt_succ hf
      have hone : output crInStep iot.crIn [b] = (crInStep iot.crIn b).2 := by simp [output]
      have hst : state crInStep iot.crIn [b] = (crInStep iot.crIn b).1 := rfl
      rw [hone, hst] at he
      rw [hone] at htake
      rw [output] at hd
      rcases crInStep_cases iot.crIn b with hs | ⟨b', c', hs, hb'⟩
      · -- a lf after a cr collapses to nothing, and the loop reads again
        rw [hs] at he hd
        obtain ⟨iot', s', bs', hread, hnext, hout, hless, hcr⟩ :=
          ih fuel { iot with crIn := false } s1 buf' (by rw [hlen, hbuf]) hn1 hd hlt
        exact ⟨iot', s', bs', by rw [he, if_pos rfl, hread], hnext, hout, Nat.lt_succ_of_lt hless, hcr⟩
      · rw [hs] at he hd htake
        obtain ⟨rfl, rfl⟩ := List.cons.inj hd
        have hbuf' : buf' = [c'] := by
          rw [← List.take_of_length_le (i := 1) (Nat.le_of_eq (hlen.trans hbuf))]
          exact htake
        refine ⟨{ iot with crIn := b' }, s1, bs, ?_, hn1, rfl, Nat.lt_succ_self _, hb'⟩
        rw [he, if_neg (by simp), hbuf']
        rfl

theorem iotermGetc_keyboard (fuel : Nat) (bs : List UInt8) (iot : IoTerm) (s : σ) (c : UInt8) (d : List UInt8)
    (hn : k.next s bs) (hd : output crInStep iot.crIn bs = c :: d) (hf : bs.length < fuel) :
    ∃ iot' s' bs', iotermGetc k.ops fuel iot s = some ((c.toNat : Int), iot', s') ∧ k.next s' bs' ∧
      output crInStep iot'.crIn bs' = d ∧ bs'.length < bs.length ∧ (c ≠ lf → iot'.crIn = false) := by
  obtain ⟨iot', s', bs', hr, h⟩ := iotermRead_keyboard k fuel bs iot s [0] rfl c d hn hd hf
  exact ⟨iot', s', bs', by simp [iotermGetc, hr], h⟩

/-- The line kept so far and the room for it, when kept are the bytes up to p. -/
structure Keeps (n : Nat) (kept : List UInt8) (l : Line σ) : Prop where
  take : l.buf.take l.p = kept
  p : l.p = kept.length
  room : l.n + l.p = n
  spare : 1 ≤ l.n
  fits : n ≤ l.buf.length

variable {n : Nat} {kept : List UInt8} {l : Line σ}

theorem Keeps.store (h : Keeps n kept l) (hn : 1 < l.n) (c : UInt8) :
    Keeps n (kept ++ [c]) { l with buf := l.buf.set l.p c, p := l.p + 1, n := l.n - 1 } := by
  have hr := h.room
  have hf := h.fits
  have hp : l.p < (l.buf.set l.p c).length := by rw [List.length_set]; omega
  refine ⟨?_, by simp [h.p], by simp only; omega, by simp only; omega, by simpa using hf⟩
  simp only
  rw [List.take_succ_eq_append_getElem hp, List.getElem_set_self, List.take_set_of_le (Nat.le_refl _), h.take]

theorem Keeps.erase (h : Keeps n kept l) (hp : l.p ≠ 0) :
    Keeps n kept.dropLast { l with p := l.p - 1, n := l.n + 1 } := by
  have hr := h.room
  have hkp := h.p
  refine ⟨?_, by simp only [List.length_dropLast]; omega, by simp only; omega, Nat.le_add_left _ _, h.fits⟩
  rw [List.dropLast_eq_take, ← h.take, List.take_take, List.length_take]
  have hf := h.fits
  congr 1
  simp only
  omega

/-- A turn on a byte that is no line end: the byte is edited into the line,
unless it is the one taken for an escape. -/
theorem getsnTurn_keyboard (h : Keeps n kept l) {c : UInt8} (hcr : c ≠ cr) (hlf : c ≠ lf) :
    ∃ l' : Line σ, getsnTurn k.ops l c = .more l' ∧
      Keeps n (if c = 91 then kept else editStep n kept c) l' ∧
      l'.iot.crIn = (if c = 91 then false else l.iot.crIn) ∧ ∀ bs, k.next l.raw bs → k.next l'.raw bs := by
  have hroom := h.room
  have hp := h.p
  simp only [getsnTurn]
  by_cases h91 : c = 91
  · rw [if_pos h91, if_pos h91, if_pos h91]
    exact ⟨_, rfl, ⟨h.take, h.p, h.room, h.spare, h.fits⟩, rfl, fun _ hb => hb⟩
  · rw [if_neg h91, if_neg h91, if_neg h91, if_neg (by simp [hcr, hlf]), editStep]
    by_cases hdel : c = 8 ∨ c = 127
    · rw [if_pos hdel, if_pos hdel]
      by_cases hz : l.p = 0
      · obtain ⟨s', he, hn⟩ := echo_keyboard k l [7] .more
        rw [if_neg (by simp [hz]), he]
        have hnil : kept = [] := List.length_eq_zero_iff.mp (by omega)
        exact ⟨_, rfl, ⟨by simp [hz, hnil], by simp [hz, hnil], h.room, h.spare, h.fits⟩, rfl, hn⟩
      · obtain ⟨s', he, hn⟩ := echo_keyboard k { l with p := l.p - 1, n := l.n + 1 } [8, 32, 8] .more
        have hk := h.erase hz
        rw [if_pos hz, he]
        exact ⟨_, rfl, ⟨hk.take, hk.p, hk.room, hk.spare, hk.fits⟩, rfl, hn⟩
    · rw [if_neg hdel, if_neg hdel]
      by_cases hlen : 1 < l.n
      · obtain ⟨s', he, hn⟩ := echo_keyboard k { l with buf := l.buf.set l.p c, p := l.p + 1, n := l.n - 1 } [c] .more
        have hk := h.store hlen c
        rw [if_pos hlen, if_pos (by omega), he]
        exact ⟨_, rfl, ⟨hk.take, hk.p, hk.room, hk.spare, hk.fits⟩, rfl, hn⟩
      · obtain ⟨s', he, hn⟩ := echo_keyboard k l [7] .more
        rw [if_neg hlen, if_neg (by omega), he]
        exact ⟨_, rfl, ⟨h.take, h.p, h.room, h.spare, h.fits⟩, rfl, hn⟩

/-- ioterm_getsn edits the delivered line, without the bytes it takes for escapes. -/
theorem iotermGetsn_keyboard (line d : List UInt8) (hcr : cr ∉ line) (hlf : lf ∉ line)
    (fuel : Nat) (bs : List UInt8) (hk : Keeps n kept l) (hnext : k.next l.raw bs)
    (hout : output crInStep l.iot.crIn bs = line ++ lf :: d) (hf : bs.length < fuel) :
    ∃ l' : Line σ, iotermGetsn k.ops (fuel + 1) l = some (true, l') ∧
      l'.p = ((line.filter (· ≠ 91)).foldl (editStep n) kept).length ∧
      l'.buf.take l'.p = (line.filter (· ≠ 91)).foldl (editStep n) kept ∧ l'.buf[l'.p]? = some 0 := by
  induction line generalizing kept l fuel bs with
  | nil =>
      obtain ⟨iot', s', bs', hget, -⟩ := iotermGetc_keyboard k fuel bs l.iot l.raw lf d hnext hout hf
      obtain ⟨s2, he, -⟩ := echo_keyboard k { l with iot := iot', raw := s' } [cr, lf]
        fun l => .line { l with buf := l.buf.set l.p 0 }
      have hturn : getsnTurn k.ops { l with iot := iot', raw := s' } lf =
          .line { l with buf := l.buf.set l.p 0, iot := iot', raw := s2 } := by
        rw [getsnTurn, if_neg (by decide), if_pos (Or.inr rfl), he]
      have hlen : l.p < l.buf.length := by
        have hr := hk.room
        have hs := hk.spare
        have hfit := hk.fits
        omega
      refine ⟨{ l with buf := l.buf.set l.p 0, iot := iot', raw := s2 }, ?_, hk.p, ?_, ?_⟩
      · simp only [iotermGetsn, hget, ofInt_toNat, hturn]
      · simp only
        rw [List.take_set_of_le (Nat.le_refl _), hk.take]
        rfl
      · simp [hlen]
  | cons c line ih =>
      have hc : c ≠ cr := fun he => hcr (by rw [he]; exact List.mem_cons_self)
      have hl : c ≠ lf := fun he => hlf (by rw [he]; exact List.mem_cons_self)
      obtain ⟨fuel, rfl⟩ : ∃ f, fuel = f + 1 := ⟨fuel - 1, by omega⟩
      obtain ⟨iot', s', bs', hget, hnext', hout', hless, hst⟩ :=
        iotermGetc_keyboard k (fuel + 1) bs l.iot l.raw c (line ++ lf :: d) hnext hout hf
      have hkeep : Keeps n kept { l with iot := iot', raw := s' } :=
        ⟨hk.take, hk.p, hk.room, hk.spare, hk.fits⟩
      obtain ⟨l1, hturn, hk1, hcr1, hn1⟩ := getsnTurn_keyboard k hkeep hc hl
      have hcrIn : l1.iot.crIn = iot'.crIn := by
        rw [hcr1, hst hl]
        exact ite_self _
      obtain ⟨l', hg, hp, ht, hz⟩ := ih (fun hm => hcr (List.mem_cons_of_mem _ hm))
        (fun hm => hlf (List.mem_cons_of_mem _ hm)) fuel bs' hk1 (hn1 bs' hnext') (by rw [hcrIn, hout']) (by omega)
      have hfold : ((c :: line).filter (· ≠ 91)).foldl (editStep n) kept =
          (line.filter (· ≠ 91)).foldl (editStep n) (if c = 91 then kept else editStep n kept c) := by
        by_cases h91 : c = 91 <;> simp [h91]
      refine ⟨l', ?_, by rw [hfold, hp], by rw [hfold, ht], hz⟩
      rw [iotermGetsn, hget]
      simp only
      rw [ofInt_toNat, hturn]
      exact hg

theorem cr_notMem_output (b : Bool) (bs : List UInt8) : cr ∉ output crInStep b bs := by
  induction bs generalizing b with
  | nil => simp [output]
  | cons ch bs ih =>
      rw [output, List.mem_append, not_or]
      refine ⟨?_, ih _⟩
      by_cases hcr : ch = cr
      · rw [hcr]
        cases b <;> decide
      · cases b with
        | false => simp [crInStep, hcr, eq_comm]
        | true =>
            simp only [crInStep, if_neg hcr]
            split_ifs
            · simp
            · simpa using fun h => hcr h.symm

end Keyboard

theorem edit_append (n : Nat) (u v : List UInt8) : edit n (u ++ v) = v.foldl (editStep n) (edit n u) :=
  List.foldl_append ..

/-- Bytes that arrive when the line is full can be struck out. -/
theorem edit_filter (n : Nat) (line : List UInt8)
    (h : ∀ u v, line = u ++ 91 :: v → n - 1 ≤ (edit n u).length) :
    edit n (line.filter (· ≠ 91)) = edit n line := by
  induction line using List.reverseRecOn with
  | nil => rfl
  | append_singleton u c ih =>
      have hu := ih fun u' v he => h u' (v ++ [c]) (by rw [he]; simp)
      rw [List.filter_append, edit_append, edit_append, hu]
      by_cases h91 : c = 91
      · have hfull := h u [] (by rw [h91])
        subst h91
        have hstep : editStep n (edit n u) 91 = edit n u := by
          rw [editStep, if_neg (by decide), if_neg (Nat.not_lt.mpr hfull)]
        rw [List.foldl_cons, List.foldl_nil, hstep]
        rfl
      · rw [List.filter_cons_of_pos (by simpa using h91)]
        rfl

/-- The array holds the line, and the NUL stored by ioterm_getsn right after it. -/
def Holds (l : Line σ) (kept : List UInt8) : Prop := l.buf.take l.p = kept ∧ l.buf[l.p]? = some 0

/-- ioterm_getsn returns the edited line exactly when the bytes '[' (91) before
the newline, which it takes for escapes, can be struck out without changing the
edited line; so when there are none, and when each of them finds the line full. -/
theorem getsn_edits_iff (k : Keyboard σ) (iot : IoTerm) (s : σ) (buf : List UInt8) (n : Nat) (hn : 1 ≤ n)
    (hbuf : n ≤ buf.length) (bs line d : List UInt8) (hnext : k.next s bs)
    (hline : output crInStep iot.crIn bs = line ++ lf :: d) (hlf : lf ∉ line) :
    ∃ l' : Line σ, iotermGetsn k.ops (bs.length + 2) ⟨buf, 0, n, iot, s⟩ = some (true, l') ∧
      (Holds l' (edit n line) ↔ edit n (line.filter (· ≠ 91)) = edit n line) ∧
      ((∀ u v, line = u ++ 91 :: v → n - 1 ≤ (edit n u).length) → Holds l' (edit n line)) := by
  have hcr : cr ∉ line := by
    intro hm
    apply cr_notMem_output iot.crIn bs
    rw [hline]
    exact List.mem_append_left _ hm
  have hk : Keeps n [] (⟨buf, 0, n, iot, s⟩ : Line σ) := ⟨rfl, rfl, rfl, hn, hbuf⟩
  obtain ⟨l', hg, -, ht, hz⟩ := iotermGetsn_keyboard k line d hcr hlf (bs.length + 1) bs hk hnext hline
    (Nat.lt_succ_self _)
  have hiff : Holds l' (edit n line) ↔ edit n (line.filter (· ≠ 91)) = edit n line := by
    rw [Holds, ht, and_iff_left hz]
    exact Iff.rfl
  exact ⟨l', hg, hiff, fun h => hiff.mpr (edit_filter n line h)⟩

/-- A keyboard on which the bytes of the state are typed. -/
def typed : Keyboard (List UInt8) where
  ops := ⟨some fun s n => ((s.take n).length, s.take n, s.drop n), some fun s bs => (bs.length, s), none⟩
  next s bs := s = bs
  read_next := by
    rintro _ c cs rfl
    exact ⟨cs, rfl, rfl⟩
  write_next s c := ⟨s, by simp [iowrite, iowriteLoop], fun _ h => h⟩

theorem getsn_edits_backspace : ∃ l' : Line (List UInt8),
    iotermGetsn typed.ops 6 ⟨[1, 1, 1], 0, 3, iotermInit, [97, 98, 8, lf]⟩ = some (true, l') ∧
      Holds l' [97] := by
  obtain ⟨l', hg, -, h⟩ := getsn_edits_iff typed iotermInit [97, 98, 8, lf] [1, 1, 1] 3 (by decide) (by decide)
    [97, 98, 8, lf] [97, 98, 8] [] rfl (by decide) (by decide)
  refine ⟨l', hg, h fun u v he => ?_⟩
  have hm : (91 : UInt8) ∈ ([97, 98, 8] : List UInt8) := by rw [he]; simp
  exact absurd hm (by decide)

/-- A typed '[' is not in the line returned. -/
theorem getsn_bracket_fails : ∃ l' : Line (List UInt8),
    iotermGetsn typed.ops 4 ⟨[1, 1, 1], 0, 3, iotermInit, [91, lf]⟩ = some (true, l') ∧
      ¬ Holds l' (edit 3 [91]) := by
  have h : (iotermGetsn typed.ops 4 ⟨[1, 1, 1], 0, 3, iotermInit, [91, lf]⟩).map
      (fun r => (r.1, r.2.buf, r.2.p)) = some (true, [0, 1, 1], 0) := by decide +kernel
  obtain ⟨⟨b, l'⟩, hg, he⟩ := Option.map_eq_some_iff.mp h
  obtain ⟨rfl, hb, hp⟩ : b = true ∧ l'.buf = [0, 1, 1] ∧ l'.p = 0 := by simpa using he
  exact ⟨l', hg, by rw [Holds, hb, hp]; decide⟩

/-- The contract of read in io.h: a negative error, or as many bytes as the
result says, at most bufsz. -/
def Contract (raw : IoOps σ) : Prop :=
  ∀ s n, (ioread raw s n).1 < 0 ∨
    ((ioread raw s n).1 = (ioread raw s n).2.1.length ∧ (ioread raw s n).2.1.length ≤ n)

/-- Reads of n bytes return 0 from now on. -/
def AtEnd (raw : IoOps σ) (n : Nat) (s : σ) : Prop :=
  ∀ i, (ioread raw ((fun s => (ioread raw s n).2.2)^[i] s) n).1 = 0

/-- What ioterm_read is to return for reads of n bytes: the error that is
reported, 0 at the end of the file, or the number of normalised bytes of the
first chunk that has any. -/
inductive Outcome (raw : IoOps σ) (n : Nat) : Bool → σ → Int → Prop
  | error {b s} : (ioread raw s n).1 < 0 → Outcome raw n b s (ioread raw s n).1
  | ended {b s} : AtEnd raw n s → Outcome raw n b s 0
  | data {b s} : 0 ≤ (ioread raw s n).1 → output crInStep b (ioread raw s n).2.1 ≠ [] →
      Outcome raw n b s (output crInStep b (ioread raw s n).2.1).length
  | later {b s v} : 0 ≤ (ioread raw s n).1 → output crInStep b (ioread raw s n).2.1 = [] →
      Outcome raw n (state crInStep b (ioread raw s n).2.1) (ioread raw s n).2.2 v → Outcome raw n b s v

/-- An error, or a byte that normalisation does not drop, still comes. -/
inductive Comes (raw : IoOps σ) (n : Nat) : Bool → σ → Prop
  | error {b s} : (ioread raw s n).1 < 0 → Comes raw n b s
  | data {b s} : output crInStep b (ioread raw s n).2.1 ≠ [] → Comes raw n b s
  | later {b s} : Comes raw n (state crInStep b (ioread raw s n).2.1) (ioread raw s n).2.2 → Comes raw n b s

section Ends

variable {raw : IoOps σ}

section Round

variable {n : Nat} {iot : IoTerm} {s : σ} {buf : List UInt8} (hn : buf.length = n)
include hn

theorem iotermRead_error (h : (ioread raw s n).1 < 0) (fuel : Nat) : iotermRead raw (fuel + 1) iot s buf =
    some ((ioread raw s n).1, fill buf (ioread raw s n).2.1, iot, (ioread raw s n).2.2) := by
  subst hn
  simp only [iotermRead]
  rw [if_pos h]

theorem iotermRead_ok (hc : Contract raw) (h : 0 ≤ (ioread raw s n).1) :
    ∃ buf' : List UInt8, buf'.length = n ∧
      buf'.take (output crInStep iot.crIn (ioread raw s n).2.1).length = output crInStep iot.crIn (ioread raw s n).2.1 ∧
      ∀ fuel, iotermRead raw (fuel + 1) iot s buf =
      if output crInStep iot.crIn (ioread raw s n).2.1 = [] then
        iotermRead raw fuel { iot with crIn := state crInStep iot.crIn (ioread raw s n).2.1 }
          (ioread raw s n).2.2 buf'
      else some ((output crInStep iot.crIn (ioread raw s n).2.1).length, buf',
        { iot with crIn := state crInStep iot.crIn (ioread raw s n).2.1 }, (ioread raw s n).2.2) := by
  subst hn
  obtain ⟨hv, hl⟩ := (hc s buf.length).resolve_left (by omega)
  obtain ⟨buf', hlen, htake, he⟩ := iotermRead_chunk iot
    (show ioread raw s buf.length =
      (((ioread raw s buf.length).2.1.length : Int), (ioread raw s buf.length).2.1, (ioread raw s buf.length).2.2)
      by rw [← hv]) hl
  exact ⟨buf', hlen, htake, he⟩

end Round

/-- ioterm_read returns what it is to return, once something comes. -/
theorem Comes.returns (hc : Contract raw) {n : Nat} {b : Bool} {s : σ} (h : Comes raw n b s)
    (iot : IoTerm) (hb : iot.crIn = b) (buf : List UInt8) (hn : buf.length = n) :
    ∃ fuel r, iotermRead raw fuel iot s buf = some r ∧ Outcome raw n b s r.1 := by
  have now {b : Bool} {s : σ} {iot : IoTerm} {buf : List UInt8} (hb : iot.crIn = b) (hn : buf.length = n)
      (h : output crInStep b (ioread raw s n).2.1 ≠ [] ∨ (ioread raw s n).1 < 0) :
      ∃ fuel r, iotermRead raw fuel iot s buf = some r ∧ Outcome raw n b s r.1 := by
    subst hb
    by_cases herr : (ioread raw s n).1 < 0
    · exact ⟨1, _, iotermRead_error hn herr 0, .error herr⟩
    · obtain ⟨buf', -, -, he⟩ := iotermRead_ok hn hc (Int.not_lt.mp herr)
      have hd := h.resolve_right herr
      exact ⟨1, _, by rw [he, if_neg hd], .data (Int.not_lt.mp herr) hd⟩
  induction h generalizing iot buf with
  | error herr => exact now hb hn (Or.inr herr)
  | data hd => exact now hb hn (Or.inl hd)
  | @later b s _ ih =>
      by_cases hnow : output crInStep b (ioread raw s n).2.1 ≠ [] ∨ (ioread raw s n).1 < 0
      · exact now hb hn hnow
      · simp only [not_or, not_not, Int.not_lt] at hnow
        subst hb
        obtain ⟨buf', hlen, -, he⟩ := iotermRead_ok hn hc hnow.2
        obtain ⟨fuel, r, hr, ho⟩ :=
          ih { iot with crIn := state crInStep iot.crIn (ioread raw s n).2.1 } rfl buf' hlen
        exact ⟨fuel + 1, r, by rw [he, if_pos hnow.1, hr], .later hnow.2 hnow.1 ho⟩

theorem comes_of_iotermRead (hc : Contract raw) {n : Nat} (fuel : Nat) {iot : IoTerm} {s : σ} {buf : List UInt8}
    (hn : buf.length = n) {r : Int × List UInt8 × IoTerm × σ} (h : iotermRead raw fuel iot s buf = some r) :
    Comes raw n iot.crIn s := by
  induction fuel generalizing iot s buf with
  | zero => simp [iotermRead] at h
  | succ fuel ih =>
      by_cases herr : (ioread raw s n).1 < 0
      · exact .error herr
      · obtain ⟨buf', hlen, -, he⟩ := iotermRead_ok hn hc (Int.not_lt.mp herr)
        rw [he] at h
        by_cases ho : output crInStep iot.crIn (ioread raw s n).2.1 = []
        · rw [if_pos ho] at h
          exact .later (ih hlen h)
        · exact .data ho

theorem iotermRead_mono (fuel : Nat) {iot : IoTerm} {s : σ} {buf : List UInt8}
    {r : Int × List UInt8 × IoTerm × σ} (h : iotermRead raw fuel iot s buf = some r) :
    iotermRead raw (fuel + 1) iot s buf = some r := by
  induction fuel generalizing iot s buf with
  | zero => simp [iotermRead] at h
  | succ fuel ih =>
      rw [iotermRead] at h ⊢
      simp only at h ⊢
      split_ifs at h ⊢ with h1 h2
      · exact h
      · exact ih h
      · exact h

theorem iotermGetc_mono (fuel : Nat) {iot : IoTerm} {s : σ} {r : Int × IoTerm × σ}
    (h : iotermGetc raw fuel iot s = some r) (more : Nat) : iotermGetc raw (fuel + more) iot s = some r := by
  induction more with
  | zero => exact h
  | succ more ih =>
      rw [iotermGetc] at ih
      cases hr : iotermRead raw (fuel + more) iot s [0] with
      | none => simp [hr] at ih
      | some r' =>
          rw [hr] at ih
          rw [iotermGetc, ← Nat.add_assoc, iotermRead_mono _ hr]
          exact ih

/-- What iogetc returns does not depend on the fuel. -/
theorem iotermGetc_eq {f g : Nat} {iot : IoTerm} {s : σ} {r r' : Int × IoTerm × σ}
    (h : iotermGetc raw f iot s = some r) (h' : iotermGetc raw g iot s = some r') : r = r' := by
  have h1 := iotermGetc_mono f h g
  have h2 := iotermGetc_mono g h' f
  rw [Nat.add_comm, h2] at h1
  exact (Option.some.inj h1).symm

end Ends

/-! The dialogue of ioterm_getsn with the raw object. -/

/-- What the next byte asked for is: the error that the raw object reports, or the next normalised
byte. -/
inductive Delivers (raw : IoOps σ) : Bool → σ → Int → Bool → σ → Prop
  | error {b s} : (ioread raw s 1).1 < 0 → Delivers raw b s (ioread raw s 1).1 b (ioread raw s 1).2.2
  | byte {b s c} : 0 ≤ (ioread raw s 1).1 → output crInStep b (ioread raw s 1).2.1 = [c] →
      Delivers raw b s (c.toNat : Int) (state crInStep b (ioread raw s 1).2.1) (ioread raw s 1).2.2
  | later {b s v b' s'} : 0 ≤ (ioread raw s 1).1 → output crInStep b (ioread raw s 1).2.1 = [] →
      Delivers raw (state crInStep b (ioread raw s 1).2.1) (ioread raw s 1).2.2 v b' s' → Delivers raw b s v b' s'

/-- The bytes are offered to the raw object one at a time: its state behind them, if it refuses
none. -/
def accepted (raw : IoOps σ) : σ → List UInt8 → Option σ
  | s, [] => some s
  | s, c :: cs => if (ioputc raw s c).1 < 0 then none else accepted raw (ioputc raw s c).2 cs

/-- The bit of the normalisation, how many characters the line has and how much room, and the raw
object. -/
structure Dialogue (σ : Type) where
  crIn : Bool
  kept : Nat
  room : Nat
  raw : σ

def IsNewline (c : UInt8) : Prop := c = cr ∨ c = lf

instance decidableIsNewline (c : UInt8) : Decidable (IsNewline c) := inferInstanceAs (Decidable (_ ∨ _))

/-- The echo of a byte. -/
def Dialogue.reply (d : Dialogue σ) (c : UInt8) : List UInt8 :=
  if c = 91 then []
  else if c = cr ∨ c = lf then [cr, lf]
  else if c = 8 ∨ c = 127 then if d.kept ≠ 0 then [8, 32, 8] else [7]
  else if 1 < d.room then [c]
  else [7]

/-- Behind the echo of a byte that is no newline. -/
def Dialogue.after (d : Dialogue σ) (c : UInt8) (b : Bool) (s : σ) : Dialogue σ :=
  if c = 91 then ⟨false, d.kept, d.room, s⟩
  else if c = 8 ∨ c = 127 then if d.kept ≠ 0 then ⟨b, d.kept - 1, d.room + 1, s⟩ else ⟨b, d.kept, d.room, s⟩
  else if 1 < d.room then ⟨b, d.kept + 1, d.room - 1, s⟩
  else ⟨b, d.kept, d.room, s⟩

/-- The raw object delivers these and accepts the echo of each; none is a newline. An error is
taken for the byte it is narrowed to. -/
inductive Typed (raw : IoOps σ) : Dialogue σ → List Int → Dialogue σ → Prop
  | nil (d) : Typed raw d [] d
  | cons {d v vs b s s' d'} : Delivers raw d.crIn d.raw v b s → ¬ IsNewline (UInt8.ofInt v) →
      accepted raw s (d.reply (UInt8.ofInt v)) = some s' → Typed raw (d.after (UInt8.ofInt v) b s') vs d' →
      Typed raw d (v :: vs) d'

/-- A newline is delivered before the input ends or fails. -/
def Newline (raw : IoOps σ) (d : Dialogue σ) : Prop :=
  ∃ vs d' v b s, Typed raw d vs d' ∧ (∀ v ∈ vs, 0 ≤ v) ∧ Delivers raw d'.crIn d'.raw v b s ∧ 0 ≤ v ∧
    IsNewline (UInt8.ofInt v)

/-- The input ends or fails before a newline. -/
def InputFails (raw : IoOps σ) (d : Dialogue σ) : Prop :=
  ∃ vs d', Typed raw d vs d' ∧ (∀ v ∈ vs, 0 ≤ v) ∧
    (¬ Comes raw 1 d'.crIn d'.raw ∨ ∃ v b s, Delivers raw d'.crIn d'.raw v b s ∧ v < 0)

/-- The raw object refuses a byte of the echo. -/
def Refused (raw : IoOps σ) (d : Dialogue σ) : Prop :=
  ∃ vs d' v b s, Typed raw d vs d' ∧ Delivers raw d'.crIn d'.raw v b s ∧
    accepted raw s (d'.reply (UInt8.ofInt v)) = none

def Line.dialogue (l : Line σ) : Dialogue σ := ⟨l.iot.crIn, l.p, l.n, l.raw⟩

/-- The locals of ioterm_getsn after iogetc. -/
def Line.got (l : Line σ) (r : Int × IoTerm × σ) : Line σ := { l with iot := r.2.1, raw := r.2.2 }

/-- ioterm_getsn returns, and returns NULL if the input ends or fails first. -/
def GetsnEnds (raw : IoOps σ) (l : Line σ) : Prop :=
  (∃ fuel r, iotermGetsn raw fuel l = some r) ∧
    (InputFails raw l.dialogue → ∀ fuel r, iotermGetsn raw fuel l = some r → r.1 = false)

section Dialogue

variable {raw : IoOps σ}

theorem output_of_contract (hc : Contract raw) {b : Bool} {s : σ} (h : 0 ≤ (ioread raw s 1).1) :
    output crInStep b (ioread raw s 1).2.1 = [] ∨ ∃ c, output crInStep b (ioread raw s 1).2.1 = [c] := by
  obtain ⟨-, hlen⟩ := (hc s 1).resolve_left (Int.not_lt.mpr h)
  generalize (ioread raw s 1).2.1 = bs at hlen
  match bs, hlen with
  | [], _ => exact .inl rfl
  | [ch], _ =>
      have hone : output crInStep b [ch] = (crInStep b ch).2 := by simp [output]
      rw [hone]
      rcases crInStep_cases b ch with hs | ⟨b', c, hs, -⟩
      · exact .inl (by rw [hs])
      · exact .inr ⟨c, by rw [hs]⟩

/-- The call of ioterm_read by iogetc. -/
theorem Delivers.read (hc : Contract raw) {b b' : Bool} {s s' : σ} {v : Int} (h : Delivers raw b s v b' s') :
    ∀ (iot : IoTerm) (buf : List UInt8), iot.crIn = b → buf.length = 1 → ∃ fuel rlen buf',
      iotermRead raw fuel iot s buf = some (rlen, buf', { iot with crIn := b' }, s') ∧
        v = if rlen < 0 then rlen else if rlen = 0 then -eio else ((buf'.getD 0 0).toNat : Int) := by
  induction h with
  | error herr =>
      rintro iot buf rfl hbuf
      exact ⟨1, _, _, iotermRead_error hbuf herr 0, (if_pos herr).symm⟩
  | @byte b s c hok hone =>
      rintro iot buf rfl hbuf
      obtain ⟨buf', -, htake, he⟩ := iotermRead_ok hbuf hc hok
      rw [hone] at htake
      refine ⟨1, 1, buf', ?_, ?_⟩
      · rw [he, if_neg (by rw [hone]; exact List.cons_ne_nil _ _), hone]
        rfl
      · have hget : buf'.getD 0 0 = c := by
          have hfirst := congrArg (fun l => List.getD l 0 0) htake
          simpa [List.getD_eq_getElem?_getD, List.getElem?_take] using hfirst
        rw [hget]
        rfl
  | @later b s v b' s' hok hnil _ ih =>
      rintro iot buf rfl hbuf
      obtain ⟨buf', hlen, -, he⟩ := iotermRead_ok hbuf hc hok
      obtain ⟨fuel, rlen, buf'', hr, hv⟩ := ih { iot with crIn := state crInStep iot.crIn (ioread raw s 1).2.1 } buf' rfl hlen
      exact ⟨fuel + 1, rlen, buf'', by rw [he, if_pos hnil, hr], hv⟩

theorem Delivers.getc (hc : Contract raw) {iot : IoTerm} {s s' : σ} {v : Int} {b' : Bool}
    (h : Delivers raw iot.crIn s v b' s') : ∃ fuel, iotermGetc raw fuel iot s = some (v, { iot with crIn := b' }, s') := by
  obtain ⟨fuel, rlen, buf, hr, hv⟩ := h.read hc iot [0] rfl rfl
  exact ⟨fuel, by simp only [iotermGetc, hr, hv]⟩

theorem Comes.delivers (hc : Contract raw) {b : Bool} {s : σ} (h : Comes raw 1 b s) : ∃ v b' s', Delivers raw b s v b' s' := by
  induction h with
  | error herr => exact ⟨_, _, _, .error herr⟩
  | @data b s hne =>
      by_cases herr : (ioread raw s 1).1 < 0
      · exact ⟨_, _, _, .error herr⟩
      · obtain ⟨c, hone⟩ := (output_of_contract hc (Int.not_lt.mp herr)).resolve_left hne
        exact ⟨_, _, _, .byte (Int.not_lt.mp herr) hone⟩
  | @later b s _ ih =>
      by_cases herr : (ioread raw s 1).1 < 0
      · exact ⟨_, _, _, .error herr⟩
      · rcases output_of_contract hc (b := b) (Int.not_lt.mp herr) with hnil | ⟨c, hone⟩
        · obtain ⟨v, b', s', hd⟩ := ih
          exact ⟨v, b', s', .later (Int.not_lt.mp herr) hnil hd⟩
        · exact ⟨_, _, _, .byte (Int.not_lt.mp herr) hone⟩

/-- Whatever iogetc returns is delivered. -/
theorem delivers_of_getc (hc : Contract raw) {fuel : Nat} {iot : IoTerm} {s : σ} {r : Int × IoTerm × σ}
    (h : iotermGetc raw fuel iot s = some r) : Delivers raw iot.crIn s r.1 r.2.1.crIn r.2.2 := by
  have hcomes : Comes raw 1 iot.crIn s := by
    rw [iotermGetc] at h
    cases hr : iotermRead raw fuel iot s [0] with
    | none => simp [hr] at h
    | some r' => exact comes_of_iotermRead hc fuel rfl hr
  obtain ⟨v, b', s', hd⟩ := hcomes.delivers hc
  obtain ⟨g, hg⟩ := hd.getc hc
  rw [iotermGetc_eq h hg]
  exact hd

theorem Delivers.comes {b b' : Bool} {s s' : σ} {v : Int} (h : Delivers raw b s v b' s') : Comes raw 1 b s := by
  induction h with
  | error herr => exact .error herr
  | byte hok hone => exact .data (by rw [hone]; exact List.cons_ne_nil _ _)
  | later hok hnil _ ih => exact .later ih

theorem Delivers.unique (hc : Contract raw) {b b₁ b₂ : Bool} {s s₁ s₂ : σ} {v₁ v₂ : Int}
    (h₁ : Delivers raw b s v₁ b₁ s₁) (h₂ : Delivers raw b s v₂ b₂ s₂) : v₁ = v₂ ∧ b₁ = b₂ ∧ s₁ = s₂ := by
  obtain ⟨f, hf⟩ := @Delivers.getc _ raw hc ⟨false, b⟩ _ _ _ _ h₁
  obtain ⟨g, hg⟩ := @Delivers.getc _ raw hc ⟨false, b⟩ _ _ _ _ h₂
  have heq := iotermGetc_eq hf hg
  simp only [Prod.mk.injEq, IoTerm.mk.injEq, true_and] at heq
  exact heq

theorem echo_accepted (l : Line σ) (cs : List UInt8) (f : Line σ → Turn σ) :
    match accepted raw l.raw cs with
    | none => ∃ l', echo raw l cs f = .null l'
    | some s => echo raw l cs f = f { l with raw := s } := by
  induction cs generalizing l with
  | nil => rfl
  | cons c cs ih =>
      rw [accepted, echo]
      simp only
      by_cases hneg : (ioputc raw l.raw c).1 < 0
      · rw [if_pos hneg, if_pos hneg]
        exact ⟨_, rfl⟩
      · rw [if_neg hneg, if_neg hneg]
        exact ih { l with raw := (ioputc raw l.raw c).2 }

/-- How a turn on a byte ends, as the dialogue has it. -/
def Follows (raw : IoOps σ) (l : Line σ) (c : UInt8) (t : Turn σ) : Prop :=
  match accepted raw l.raw (l.dialogue.reply c) with
  | none => ∃ l', t = .null l'
  | some s => if c = cr ∨ c = lf then ∃ l', t = .line l' else ∃ l', t = .more l' ∧ l'.dialogue = l.dialogue.after c l.iot.crIn s

theorem follows_more {l l₁ : Line σ} {c : UInt8} {cs : List UInt8} (hraw : l₁.raw = l.raw) (hnl : ¬ (c = cr ∨ c = lf))
    (hreply : l.dialogue.reply c = cs)
    (hafter : ∀ s, ({ l₁ with raw := s } : Line σ).dialogue = l.dialogue.after c l.iot.crIn s) :
    Follows raw l c (echo raw l₁ cs .more) := by
  have hecho := @echo_accepted _ raw l₁ cs .more
  rw [hraw] at hecho
  rw [Follows, hreply]
  cases hacc : accepted raw l.raw cs with
  | none =>
      rw [hacc] at hecho
      exact hecho
  | some s =>
      rw [hacc] at hecho
      simp only [if_neg hnl]
      exact ⟨_, hecho, hafter s⟩

/-- A turn of ioterm_getsn is a step of the dialogue. -/
theorem getsnTurn_follows (l : Line σ) (c : UInt8) : Follows raw l c (getsnTurn raw l c) := by
  by_cases h91 : c = 91
  · have hnl : ¬ (c = cr ∨ c = lf) := by rw [h91]; decide
    rw [getsnTurn, if_pos h91]
    refine @follows_more _ raw l { l with iot := { l.iot with crIn := false } } c [] rfl hnl ?_ fun s => ?_
    · rw [Dialogue.reply, if_pos h91]
    · rw [Dialogue.after, if_pos h91]
      rfl
  · by_cases hnl : c = cr ∨ c = lf
    · have hecho := @echo_accepted _ raw l [cr, lf] fun l => .line { l with buf := l.buf.set l.p 0 }
      rw [getsnTurn, if_neg h91, if_pos hnl, Follows, Dialogue.reply, if_neg h91, if_pos hnl]
      cases hacc : accepted raw l.raw [cr, lf] with
      | none =>
          rw [hacc] at hecho
          exact hecho
      | some s =>
          rw [hacc] at hecho
          simp only [if_pos hnl]
          exact ⟨_, hecho⟩
    · rw [getsnTurn, if_neg h91, if_neg hnl]
      by_cases hdel : c = 8 ∨ c = 127
      · rw [if_pos hdel]
        by_cases hp : l.p = 0
        · rw [if_neg (not_not.mpr hp)]
          refine follows_more rfl hnl ?_ fun s => ?_
          · rw [Dialogue.reply, if_neg h91, if_neg hnl, if_pos hdel]
            exact if_neg (not_not.mpr hp)
          · rw [Dialogue.after, if_neg h91, if_pos hdel]
            exact (if_neg (not_not.mpr hp)).symm
        · rw [if_pos hp]
          refine follows_more rfl hnl ?_ fun s => ?_
          · rw [Dialogue.reply, if_neg h91, if_neg hnl, if_pos hdel]
            exact if_pos hp
          · rw [Dialogue.after, if_neg h91, if_pos hdel]
            exact (if_pos hp).symm
      · rw [if_neg hdel]
        by_cases hroom : 1 < l.n
        · rw [if_pos hroom]
          refine follows_more rfl hnl ?_ fun s => ?_
          · rw [Dialogue.reply, if_neg h91, if_neg hnl, if_neg hdel]
            exact if_pos hroom
          · rw [Dialogue.after, if_neg h91, if_neg hdel]
            exact (if_pos hroom).symm
        · rw [if_neg hroom]
          refine follows_more rfl hnl ?_ fun s => ?_
          · rw [Dialogue.reply, if_neg h91, if_neg hnl, if_neg hdel]
            exact if_neg hroom
          · rw [Dialogue.after, if_neg h91, if_neg hdel]
            exact (if_neg hroom).symm

/-- The turn behind what iogetc delivers. -/
theorem follows_got {l : Line σ} {v : Int} {iot : IoTerm} {s : σ} {c : UInt8} {t : Turn σ}
    (h : Follows raw (l.got (v, iot, s)) c t) :
    match accepted raw s (l.dialogue.reply c) with
    | none => ∃ l', t = .null l'
    | some s' => if IsNewline c then ∃ l', t = .line l' else ∃ l', t = .more l' ∧ l'.dialogue = l.dialogue.after c iot.crIn s' := h

end Dialogue

section Getsn

variable {raw : IoOps σ}

theorem iotermGetsn_turn {fuel : Nat} {l : Line σ} {r : Int × IoTerm × σ}
    (h : iotermGetc raw fuel l.iot l.raw = some r) : iotermGetsn raw (fuel + 1) l =
      match getsnTurn raw (l.got r) (UInt8.ofInt r.1) with
      | .more l => iotermGetsn raw fuel l
      | .null l => some (false, l)
      | .line l => some (true, l) := by
  rw [iotermGetsn, h]
  rfl

/-- What a return of ioterm_getsn says about its last turns. -/
theorem iotermGetsn_some {fuel : Nat} {l : Line σ} {r : Bool × Line σ}
    (h : iotermGetsn raw (fuel + 1) l = some r) : ∃ g, iotermGetc raw fuel l.iot l.raw = some g ∧
      (getsnTurn raw (l.got g) (UInt8.ofInt g.1) = .null r.2 ∧ r.1 = false ∨
        getsnTurn raw (l.got g) (UInt8.ofInt g.1) = .line r.2 ∧ r.1 = true ∨
        ∃ l', getsnTurn raw (l.got g) (UInt8.ofInt g.1) = .more l' ∧ iotermGetsn raw fuel l' = some r) := by
  cases hg : iotermGetc raw fuel l.iot l.raw with
  | none => simp [iotermGetsn, hg] at h
  | some g =>
      refine ⟨g, rfl, ?_⟩
      rw [iotermGetsn_turn hg] at h
      cases ht : getsnTurn raw (l.got g) (UInt8.ofInt g.1) with
      | more l' =>
          rw [ht] at h
          exact .inr (.inr ⟨l', rfl, h⟩)
      | null l' =>
          rw [ht] at h
          obtain rfl := Option.some.inj h
          exact .inl ⟨rfl, rfl⟩
      | line l' =>
          rw [ht] at h
          obtain rfl := Option.some.inj h
          exact .inr (.inl ⟨rfl, rfl⟩)

theorem iotermGetsn_mono {fuel : Nat} {l : Line σ} {r : Bool × Line σ} (h : iotermGetsn raw fuel l = some r)
    (more : Nat) : iotermGetsn raw (fuel + more) l = some r := by
  induction fuel generalizing l with
  | zero => simp [iotermGetsn] at h
  | succ fuel ih =>
      obtain ⟨g, hg, ht⟩ := iotermGetsn_some h
      rw [Nat.add_right_comm, iotermGetsn_turn (iotermGetc_mono fuel hg more)]
      rcases ht with ⟨ht, hr⟩ | ⟨ht, hr⟩ | ⟨l', ht, hl⟩
      · rw [ht, ← hr]
      · rw [ht, ← hr]
      · rw [ht]
        exact ih hl

theorem iotermGetsn_eq {f g : Nat} {l : Line σ} {r r' : Bool × Line σ} (h : iotermGetsn raw f l = some r)
    (h' : iotermGetsn raw g l = some r') : r = r' := by
  have h1 := iotermGetsn_mono h g
  have h2 := iotermGetsn_mono h' f
  rw [Nat.add_comm, h2] at h1
  exact (Option.some.inj h1).symm

/-- One more turn before a return. -/
theorem iotermGetsn_later {f g : Nat} {l l' : Line σ} {r : Int × IoTerm × σ} {v : Bool × Line σ}
    (hg : iotermGetc raw f l.iot l.raw = some r) (ht : getsnTurn raw (l.got r) (UInt8.ofInt r.1) = .more l')
    (hl : iotermGetsn raw g l' = some v) : iotermGetsn raw (f + g + 1) l = some v := by
  rw [iotermGetsn_turn (iotermGetc_mono f hg g), ht, Nat.add_comm f g]
  exact iotermGetsn_mono hl f

/-- What is typed takes ioterm_getsn from one place of the dialogue to the other. -/
theorem Typed.getsn (hc : Contract raw) {d d' : Dialogue σ} {vs : List Int} (h : Typed raw d vs d') :
    ∀ l : Line σ, l.dialogue = d → ∃ l' : Line σ, l'.dialogue = d' ∧
      ∀ g r, iotermGetsn raw g l' = some r → ∃ f, iotermGetsn raw f l = some r := by
  induction h with
  | nil d => exact fun l hl => ⟨l, hl, fun g r hr => ⟨g, hr⟩⟩
  | @cons d v vs b s s' d' hd hnl hacc _ ih =>
      rintro l rfl
      obtain ⟨f, hf⟩ := @Delivers.getc _ raw hc l.iot _ _ _ _ hd
      have hturn := follows_got (@getsnTurn_follows _ raw (l.got (v, { l.iot with crIn := b }, s)) (UInt8.ofInt v))
      rw [hacc] at hturn
      simp only [if_neg hnl] at hturn
      obtain ⟨l₁, hmore, hafter⟩ := hturn
      obtain ⟨l', hl', hret⟩ := ih l₁ hafter
      refine ⟨l', hl', fun g r hr => ?_⟩
      obtain ⟨g', hg'⟩ := hret g r hr
      exact ⟨_, iotermGetsn_later hf hmore hg'⟩

/-- The last turn: the raw object refuses a byte of the echo, or it accepts that of a newline. -/
theorem Delivers.getsn (hc : Contract raw) {l : Line σ} {v : Int} {b : Bool} {s : σ}
    (h : Delivers raw l.dialogue.crIn l.dialogue.raw v b s) :
    (accepted raw s (l.dialogue.reply (UInt8.ofInt v)) = none → ∃ f l', iotermGetsn raw f l = some (false, l')) ∧
    (IsNewline (UInt8.ofInt v) → ∃ f r, iotermGetsn raw f l = some r) := by
  obtain ⟨f, hf⟩ := @Delivers.getc _ raw hc l.iot _ _ _ _ h
  have hturn := follows_got (@getsnTurn_follows _ raw (l.got (v, { l.iot with crIn := b }, s)) (UInt8.ofInt v))
  have hnull : accepted raw s (l.dialogue.reply (UInt8.ofInt v)) = none → ∃ f l', iotermGetsn raw f l = some (false, l') := by
    intro hacc
    rw [hacc] at hturn
    obtain ⟨l', ht⟩ := hturn
    exact ⟨f + 1, l', by rw [iotermGetsn_turn hf, ht]⟩
  refine ⟨hnull, fun hnl => ?_⟩
  cases hacc : accepted raw s (l.dialogue.reply (UInt8.ofInt v)) with
  | none =>
      obtain ⟨f, l', hr⟩ := hnull hacc
      exact ⟨f, _, hr⟩
  | some s' =>
      rw [hacc] at hturn
      simp only [if_pos hnl] at hturn
      obtain ⟨l', ht⟩ := hturn
      exact ⟨f + 1, (true, l'), by rw [iotermGetsn_turn hf, ht]⟩

theorem Newline.returns (hc : Contract raw) {l : Line σ} (h : Newline raw l.dialogue) :
    ∃ fuel r, iotermGetsn raw fuel l = some r := by
  obtain ⟨vs, d', v, b, s, htyped, -, hd, -, hnl⟩ := h
  obtain ⟨l', rfl, hret⟩ := htyped.getsn hc l rfl
  obtain ⟨g, r, hr⟩ := (hd.getsn hc).2 hnl
  obtain ⟨f, hf⟩ := hret g r hr
  exact ⟨f, r, hf⟩

theorem Refused.returns (hc : Contract raw) {l : Line σ} (h : Refused raw l.dialogue) :
    ∃ fuel l', iotermGetsn raw fuel l = some (false, l') := by
  obtain ⟨vs, d', v, b, s, htyped, hd, hacc⟩ := h
  obtain ⟨l', rfl, hret⟩ := htyped.getsn hc l rfl
  obtain ⟨g, l'', hr⟩ := (hd.getsn hc).1 hacc
  obtain ⟨f, hf⟩ := hret g _ hr
  exact ⟨f, l'', hf⟩

/-- The raw object decides the dialogue: a newline comes before the end and before an error, or
behind one of them. -/
theorem Newline.not_inputFails (hc : Contract raw) {d : Dialogue σ} (h : Newline raw d) : ¬ InputFails raw d := by
  obtain ⟨vs, d', v, b, s, htyped, hpos, hd, hv, hnl⟩ := h
  rintro ⟨ws, e, htyped', hpos', hfails⟩
  induction htyped generalizing ws with
  | nil d =>
      cases htyped' with
      | nil =>
          rcases hfails with hend | ⟨w, b', s', hd', hw⟩
          · exact hend hd.comes
          · obtain ⟨rfl, -, -⟩ := hd.unique hc hd'
            omega
      | cons hd' hnl' _ _ =>
          obtain ⟨rfl, -, -⟩ := hd.unique hc hd'
          exact hnl' hnl
  | cons hd₁ hnl₁ hacc₁ _ ih =>
      cases htyped' with
      | nil =>
          rcases hfails with hend | ⟨w, b', s', hd', hw⟩
          · exact hend hd₁.comes
          · obtain ⟨rfl, -, -⟩ := hd₁.unique hc hd'
            have := hpos _ List.mem_cons_self
            omega
      | cons hd' hnl' hacc' htail' =>
          obtain ⟨rfl, rfl, rfl⟩ := hd₁.unique hc hd'
          obtain rfl := Option.some.inj (hacc₁.symm.trans hacc')
          exact ih (fun w hw => hpos w (List.mem_cons_of_mem _ hw)) hd _ htail' (fun w hw => hpos' w (List.mem_cons_of_mem _ hw))

/-- The turns of a call that returns, read as the dialogue. -/
theorem getsn_dialogue (hc : Contract raw) (fuel : Nat) {l : Line σ} {r : Bool × Line σ}
    (h : iotermGetsn raw fuel l = some r) : ∃ vs d' v b s, Typed raw l.dialogue vs d' ∧ Delivers raw d'.crIn d'.raw v b s ∧
      if r.1 then IsNewline (UInt8.ofInt v) else accepted raw s (d'.reply (UInt8.ofInt v)) = none := by
  induction fuel generalizing l with
  | zero => simp [iotermGetsn] at h
  | succ fuel ih =>
      obtain ⟨g, hg, hcases⟩ := iotermGetsn_some h
      have hd := delivers_of_getc hc hg
      have hturn := follows_got (@getsnTurn_follows _ raw (l.got g) (UInt8.ofInt g.1))
      cases hacc : accepted raw g.2.2 (l.dialogue.reply (UInt8.ofInt g.1)) with
      | none =>
          rw [hacc] at hturn
          obtain ⟨l₁, hnull⟩ := hturn
          rcases hcases with ⟨-, hr⟩ | ⟨ht, -⟩ | ⟨l', ht, -⟩
          · exact ⟨[], l.dialogue, g.1, _, _, .nil _, hd, by rw [hr]; exact hacc⟩
          · rw [hnull] at ht
            cases ht
          · rw [hnull] at ht
            cases ht
      | some s =>
          rw [hacc] at hturn
          by_cases hnl : IsNewline (UInt8.ofInt g.1)
          · simp only [if_pos hnl] at hturn
            obtain ⟨l₁, hline⟩ := hturn
            rcases hcases with ⟨ht, -⟩ | ⟨-, hr⟩ | ⟨l', ht, -⟩
            · rw [hline] at ht
              cases ht
            · exact ⟨[], l.dialogue, g.1, _, _, .nil _, hd, by rw [hr]; exact hnl⟩
            · rw [hline] at ht
              cases ht
          · simp only [if_neg hnl] at hturn
            obtain ⟨l₁, hmore, hafter⟩ := hturn
            rcases hcases with ⟨ht, -⟩ | ⟨ht, -⟩ | ⟨l', ht, hrest⟩
            · rw [hmore] at ht
              cases ht
            · rw [hmore] at ht
              cases ht
            · rw [hmore] at ht
              obtain rfl := Turn.more.inj ht
              obtain ⟨vs, d', v, b, s', htyped, hlast⟩ := ih hrest
              rw [hafter] at htyped
              exact ⟨g.1 :: vs, d', v, b, s', .cons hd hnl hacc htyped, hlast⟩

theorem refused_of_null (hc : Contract raw) {fuel : Nat} {l l' : Line σ} (h : iotermGetsn raw fuel l = some (false, l')) :
    Refused raw l.dialogue := by
  obtain ⟨vs, d', v, b, s, htyped, hd, hacc⟩ := getsn_dialogue hc fuel h
  exact ⟨vs, d', v, b, s, htyped, hd, hacc⟩

/-- An error that is typed comes before everything behind it. -/
theorem Typed.nonneg {d d' : Dialogue σ} {vs : List Int} (h : Typed raw d vs d') (hf : ¬ InputFails raw d) :
    (∀ v ∈ vs, 0 ≤ v) ∧ ¬ InputFails raw d' := by
  induction h with
  | nil d => exact ⟨fun v hv => (List.not_mem_nil hv).elim, hf⟩
  | @cons d v vs b s s' d' hd hnl hacc htail ih =>
      have hv : 0 ≤ v := Int.not_lt.mp fun hneg =>
        hf ⟨[], d, .nil d, fun v hv => (List.not_mem_nil hv).elim, .inr ⟨v, b, s, hd, hneg⟩⟩
      have hnext : ¬ InputFails raw (d.after (UInt8.ofInt v) b s') := by
        rintro ⟨ws, e, htyped, hpos, hfails⟩
        refine hf ⟨v :: ws, e, .cons hd hnl hacc htyped, fun w hw => ?_, hfails⟩
        rcases List.mem_cons.mp hw with rfl | hw
        · exact hv
        · exact hpos w hw
      obtain ⟨hpos, hlast⟩ := ih hnext
      refine ⟨fun w hw => ?_, hlast⟩
      rcases List.mem_cons.mp hw with rfl | hw
      · exact hv
      · exact hpos w hw

theorem newline_of_line (hc : Contract raw) {fuel : Nat} {l l' : Line σ} (h : iotermGetsn raw fuel l = some (true, l'))
    (hf : ¬ InputFails raw l.dialogue) : Newline raw l.dialogue := by
  obtain ⟨vs, d', v, b, s, htyped, hd, hnl⟩ := getsn_dialogue hc fuel h
  obtain ⟨hpos, hlast⟩ := htyped.nonneg hf
  have hv : 0 ≤ v := Int.not_lt.mp fun hneg =>
    hlast ⟨[], d', .nil d', fun v hv => (List.not_mem_nil hv).elim, .inr ⟨v, b, s, hd, hneg⟩⟩
  exact ⟨vs, d', v, b, s, htyped, hpos, hd, hv, hnl⟩

end Getsn

/-- ioterm_read returns exactly when an error or a byte that it delivers still
comes: never at the end of the file. ioterm_getsn returns, with NULL if the
input ends or fails first, exactly when the raw object delivers a newline before that, or
refuses a byte of the echo. -/
theorem terminal_reads_end_iff (raw : IoOps σ) (hc : Contract raw) :
    (∀ iot s buf, (∃ fuel r, iotermRead raw fuel iot s buf = some r ∧ Outcome raw buf.length iot.crIn s r.1) ↔
      Comes raw buf.length iot.crIn s) ∧
    ∀ l : Line σ, GetsnEnds raw l ↔ Newline raw l.dialogue ∨ Refused raw l.dialogue := by
  refine ⟨fun iot s buf => ⟨?_, fun h => h.returns hc iot rfl buf rfl⟩, fun l => ⟨?_, ?_⟩⟩
  · rintro ⟨fuel, r, hr, -⟩
    exact comes_of_iotermRead hc fuel rfl hr
  · rintro ⟨⟨fuel, ⟨b, l'⟩, hr⟩, hnull⟩
    cases b with
    | false => exact .inr (refused_of_null hc hr)
    | true =>
        left
        apply newline_of_line hc hr
        intro hf
        exact Bool.noConfusion (hnull hf fuel _ hr)
  · rintro (h | h)
    · exact ⟨h.returns hc, fun hf => absurd hf (h.not_inputFails hc)⟩
    · obtain ⟨fuel, l', hl⟩ := h.returns hc
      refine ⟨⟨fuel, _, hl⟩, fun _ g r hr => ?_⟩
      rw [iotermGetsn_eq hr hl]

/-- A raw object at its end, and one whose reads fail with -EIO; both take every
byte that is written. -/
def atEndOps : IoOps Unit := ⟨some fun s _ => (0, [], s), some fun s bs => (bs.length, s), none⟩
def failingOps : IoOps Unit := ⟨some fun s _ => (-eio, [], s), some fun s bs => (bs.length, s), none⟩

theorem contract_atEndOps : Contract atEndOps := fun _ n => .inr ⟨rfl, Nat.zero_le n⟩
theorem contract_failingOps : Contract failingOps := fun _ _ => .inl (show (-eio : Int) < 0 by decide)

theorem terminal_reads_failing : ∃ fuel r, iotermRead failingOps fuel iotermInit () [0] = some r ∧
    Outcome failingOps 1 false () r.1 :=
  ((terminal_reads_end_iff failingOps contract_failingOps).1 iotermInit () [0]).mpr
    (.error (by decide))

theorem not_comes_atEndOps (b : Bool) (s : Unit) : ¬ Comes atEndOps 1 b s := by
  intro h
  induction h with
  | error h => exact absurd h (Int.lt_irrefl 0)
  | data h => exact h rfl
  | later _ ih => exact ih

theorem iotermGetsn_failingOps (fuel : Nat) (l : Line Unit) : iotermGetsn failingOps fuel l = none := by
  induction fuel generalizing l with
  | zero => rfl
  | succ fuel ih =>
      cases fuel with
      | zero => rfl
      | succ fuel =>
          have hread : (ioread failingOps l.raw 1).1 < 0 := show (-eio : Int) < 0 by decide
          have hget : iotermGetc failingOps (fuel + 1) l.iot l.raw = some (-eio, l.iot, l.raw) := by
            rw [iotermGetc, iotermRead_error rfl hread]
            rfl
          have hput (c : UInt8) : ioputc failingOps l.raw c = ((c.toNat : Int), l.raw) := by
            simp [ioputc, iowrite, failingOps, iowriteLoop]
          obtain ⟨l', ht⟩ : ∃ l', getsnTurn failingOps (l.got (-eio, l.iot, l.raw)) 251 = .more l' := by
            rw [getsnTurn, if_neg (by decide), if_neg (by decide), if_neg (by decide)]
            split_ifs
            · exact ⟨_, by simp only [echo, Line.got, hput]; rfl⟩
            · exact ⟨_, by simp only [echo, Line.got, hput]; rfl⟩
          rw [iotermGetsn_turn hget, show UInt8.ofInt (-eio) = 251 by decide, ht]
          exact ih l'

/-- At the end of the file ioterm_read does not return, and ioterm_getsn takes a
persistent error for an endless input. -/
theorem terminal_reads_end_fails :
    (¬ ∃ fuel r, iotermRead atEndOps fuel iotermInit () [0] = some r) ∧
      ¬ ∃ fuel r, iotermGetsn failingOps fuel ⟨[0], 0, 1, iotermInit, ()⟩ = some r := by
  constructor
  · rintro ⟨fuel, r, hr⟩
    exact not_comes_atEndOps _ _ (comes_of_iotermRead (n := 1) contract_atEndOps fuel rfl hr)
  · rintro ⟨fuel, r, hr⟩
    rw [iotermGetsn_failingOps] at hr
    exact absurd hr (by simp)

end RiscvKernel.TermLine
