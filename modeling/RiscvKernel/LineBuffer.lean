import RiscvKernel.TermLine

namespace RiscvKernel.LineBuffer

open Io TermOutput TermLine

variable {σ : Type} {raw : IoOps σ} {size : Nat} {buf₀ buf : List UInt8} {p n : Nat}

/-- The turns of ioterm_getsn on a sequence of characters; each comes with what iogetc leaves of
the terminal and of its raw object. -/
def iotermTurns (raw : IoOps σ) : List (UInt8 × IoTerm × σ) → Turn σ → Turn σ
  | (c, iot, s) :: input, .more l => iotermTurns raw input (getsnTurn raw { l with iot, raw := s } c)
  | _, t => t

/-- The locals of console_getsn, p as an index of buf. -/
structure Local where
  buf : List UInt8
  p : Nat
  n : Nat

/-- The switch of console_getsn: whether it returns. -/
def consoleTurn (l : Local) (c : UInt8) : Bool × Local :=
  if c = cr then (false, l)
  else if c = lf then (true, { l with buf := l.buf.set l.p 0 })
  else if c = 8 ∨ c = 127 then if l.p ≠ 0 then (false, { l with p := l.p - 1, n := l.n + 1 }) else (false, l)
  else if 1 < l.n then (false, { buf := l.buf.set l.p c, p := l.p + 1, n := l.n - 1 })
  else (false, l)

/-- The turns of console_getsn on a sequence of characters. -/
def consoleTurns : List UInt8 → Local → Bool × Local
  | [], l => (false, l)
  | c :: cs, l => if (consoleTurn l c).1 then consoleTurn l c else consoleTurns cs (consoleTurn l c).2

/-- The write position is in the first size bytes of the buffer, as much room is left as it
leaves, and the bytes behind are untouched. -/
structure Guarded (size : Nat) (buf₀ buf : List UInt8) (p n : Nat) : Prop where
  position : p < size
  room : p + n = size
  length : buf.length = buf₀.length
  behind : ∀ i, size ≤ i → buf[i]? = buf₀[i]?

theorem Guarded.start (h : 1 ≤ size) (buf : List UInt8) : Guarded size buf buf 0 size :=
  ⟨h, Nat.zero_add size, rfl, fun _ _ => rfl⟩

theorem Guarded.set (h : Guarded size buf₀ buf p n) (c : UInt8) : Guarded size buf₀ (buf.set p c) p n := by
  have hp := h.position
  refine ⟨hp, h.room, by rw [List.length_set, h.length], fun i hi => ?_⟩
  rw [List.getElem?_set_ne (by omega)]
  exact h.behind i hi

theorem Guarded.store (h : Guarded size buf₀ buf p n) (hn : 1 < n) (c : UInt8) :
    Guarded size buf₀ (buf.set p c) (p + 1) (n - 1) := by
  have hroom := h.room
  exact ⟨by omega, by omega, (h.set c).length, (h.set c).behind⟩

theorem Guarded.erase (h : Guarded size buf₀ buf p n) (hp : p ≠ 0) : Guarded size buf₀ buf (p - 1) (n + 1) := by
  have hroom := h.room
  have hlt := h.position
  exact ⟨by omega, by omega, h.length, h.behind⟩

/-- The NUL that ends the line is inside the buffer. -/
def Ended (size : Nat) (buf : List UInt8) (p : Nat) : Prop := p < size ∧ buf[p]? = some 0

theorem Guarded.ended (h : Guarded size buf₀ buf p n) (hfit : size ≤ buf₀.length) : Ended size (buf.set p 0) p := by
  have hp := h.position
  refine ⟨hp, List.getElem?_set_self ?_⟩
  rw [h.length]
  omega

section Ioterm

/-- The locals at the end of a turn. -/
def turnLine : Turn σ → Line σ
  | .more l | .null l | .line l => l

def GuardedTurn (size : Nat) (buf₀ : List UInt8) (t : Turn σ) : Prop :=
  Guarded size buf₀ (turnLine t).buf (turnLine t).p (turnLine t).n ∧ ∀ l, t = .line l → Ended size l.buf l.p

/-- An echo changes nothing but the state of the raw object. -/
theorem echo_cases (l : Line σ) (cs : List UInt8) (f : Line σ → Turn σ) :
    ∃ s', echo raw l cs f = .null { l with raw := s' } ∨ echo raw l cs f = f { l with raw := s' } := by
  induction cs generalizing l with
  | nil => exact ⟨l.raw, .inr rfl⟩
  | cons c cs ih =>
      rw [echo]
      simp only
      split_ifs
      · exact ⟨_, .inl rfl⟩
      · exact ih { l with raw := (ioputc raw l.raw c).2 }

theorem guarded_echo {l : Line σ} (h : Guarded size buf₀ l.buf l.p l.n) (cs : List UInt8) :
    GuardedTurn size buf₀ (echo raw l cs .more) := by
  obtain ⟨s', he | he⟩ := echo_cases l cs .more
  · rw [he]
    exact ⟨h, fun l hl => by cases hl⟩
  · rw [he]
    exact ⟨h, fun l hl => by cases hl⟩

/-- Every branch of the switch of ioterm_getsn keeps the position in the buffer. -/
theorem guarded_getsnTurn {l : Line σ} (h : Guarded size buf₀ l.buf l.p l.n) (hfit : size ≤ buf₀.length) (c : UInt8) :
    GuardedTurn size buf₀ (getsnTurn raw l c) := by
  rw [getsnTurn]
  split_ifs with hesc hnl hdel hp hn
  · exact ⟨h, fun l hl => by cases hl⟩
  · obtain ⟨s', he | he⟩ := echo_cases l [cr, lf] fun l => .line { l with buf := l.buf.set l.p 0 }
    · rw [he]
      exact ⟨h, fun l hl => by cases hl⟩
    · rw [he]
      refine ⟨h.set 0, fun l' hl => ?_⟩
      obtain rfl := Turn.line.inj hl
      exact h.ended hfit
  · exact guarded_echo (h.erase hp) _
  · exact guarded_echo h _
  · exact guarded_echo (l := { l with buf := l.buf.set l.p c, p := l.p + 1, n := l.n - 1 }) (h.store hn c) _
  · exact guarded_echo h _

theorem guarded_iotermTurns (hfit : size ≤ buf₀.length) (input : List (UInt8 × IoTerm × σ)) {t : Turn σ}
    (h : GuardedTurn size buf₀ t) : GuardedTurn size buf₀ (iotermTurns raw input t) := by
  induction input generalizing t with
  | nil => exact h
  | cons i input ih =>
      obtain ⟨c, iot, s⟩ := i
      cases t with
      | more l => exact ih (guarded_getsnTurn (l := { l with iot, raw := s }) h.1 hfit c)
      | null l => exact h
      | line l => exact h

/-- What ioterm_getsn returns is where its turns on some input end. -/
theorem iotermGetsn_turns {fuel : Nat} {l l' : Line σ} {b : Bool} (h : iotermGetsn raw fuel l = some (b, l')) :
    ∃ input, iotermTurns raw input (.more l) = if b then .line l' else .null l' := by
  induction fuel generalizing l with
  | zero => cases h
  | succ fuel ih =>
      cases hg : iotermGetc raw fuel l.iot l.raw with
      | none => simp [iotermGetsn, hg] at h
      | some r =>
          rw [iotermGetsn_turn hg] at h
          cases ht : getsnTurn raw (l.got r) (UInt8.ofInt r.1) with
          | more l₁ =>
              rw [ht] at h
              obtain ⟨input, hi⟩ := ih h
              exact ⟨(UInt8.ofInt r.1, r.2.1, r.2.2) :: input, (congrArg (iotermTurns raw input) ht).trans hi⟩
          | null l₁ =>
              rw [ht] at h
              obtain ⟨rfl, rfl⟩ := Prod.mk.inj (Option.some.inj h)
              exact ⟨[(UInt8.ofInt r.1, r.2.1, r.2.2)], ht⟩
          | line l₁ =>
              rw [ht] at h
              obtain ⟨rfl, rfl⟩ := Prod.mk.inj (Option.some.inj h)
              exact ⟨[(UInt8.ofInt r.1, r.2.1, r.2.2)], ht⟩

end Ioterm

section Console

def GuardedLocal (size : Nat) (buf₀ : List UInt8) (t : Bool × Local) : Prop :=
  Guarded size buf₀ t.2.buf t.2.p t.2.n ∧ (t.1 = true → Ended size t.2.buf t.2.p)

/-- Every branch of the switch of console_getsn keeps the position in the buffer. -/
theorem guarded_consoleTurn {l : Local} (h : Guarded size buf₀ l.buf l.p l.n) (hfit : size ≤ buf₀.length) (c : UInt8) :
    GuardedLocal size buf₀ (consoleTurn l c) := by
  rw [consoleTurn]
  split_ifs with hcr hlf hdel hp hn
  · exact ⟨h, fun hr => by cases hr⟩
  · exact ⟨h.set 0, fun _ => h.ended hfit⟩
  · exact ⟨h.erase hp, fun hr => by cases hr⟩
  · exact ⟨h, fun hr => by cases hr⟩
  · exact ⟨h.store hn c, fun hr => by cases hr⟩
  · exact ⟨h, fun hr => by cases hr⟩

theorem guarded_consoleTurns (hfit : size ≤ buf₀.length) (cs : List UInt8) {l : Local} (h : Guarded size buf₀ l.buf l.p l.n) :
    GuardedLocal size buf₀ (consoleTurns cs l) := by
  induction cs generalizing l with
  | nil => exact ⟨h, fun hr => by cases hr⟩
  | cons c cs ih =>
      rw [consoleTurns]
      split
      · exact guarded_consoleTurn h hfit c
      · exact ih (guarded_consoleTurn h hfit c).1

end Console

/-- However the line is edited, and however long the input is, both functions stay in their
buffer and end the line in it. -/
theorem line_buffers_guarded (raw : IoOps σ) (iot : IoTerm) (s : σ) (size : Nat) (hsize : 1 ≤ size) (buf : List UInt8)
    (hfit : size ≤ buf.length) :
    (∀ input, GuardedTurn size buf (iotermTurns raw input (.more ⟨buf, 0, size, iot, s⟩))) ∧
      (∀ fuel b l, iotermGetsn raw fuel ⟨buf, 0, size, iot, s⟩ = some (b, l) →
        Guarded size buf l.buf l.p l.n ∧ (b = true → Ended size l.buf l.p)) ∧
      ∀ cs, GuardedLocal size buf (consoleTurns cs ⟨buf, 0, size⟩) := by
  have h₀ : GuardedTurn size buf (.more ⟨buf, 0, size, iot, s⟩) :=
    ⟨.start hsize buf, fun l hl => by cases hl⟩
  refine ⟨fun input => guarded_iotermTurns hfit input h₀, fun fuel b l hr => ?_,
    fun cs => guarded_consoleTurns hfit cs (.start hsize buf)⟩
  obtain ⟨input, hi⟩ := iotermGetsn_turns hr
  have h : GuardedTurn size buf (iotermTurns raw input (.more ⟨buf, 0, size, iot, s⟩)) := guarded_iotermTurns hfit input h₀
  rw [hi] at h
  cases b with
  | true => exact ⟨h.1, fun _ => h.2 l rfl⟩
  | false => exact ⟨h.1, fun hb => by cases hb⟩

theorem line_buffers_guarded_twoBytes : GuardedLocal 2 [7, 7, 7] (consoleTurns [65, 66, 8, 67, lf] ⟨[7, 7, 7], 0, 2⟩) ∧
    consoleTurns [65, 66, 8, 67, lf] ⟨[7, 7, 7], 0, 2⟩ = (true, ⟨[67, 0, 7], 1, 1⟩) :=
  ⟨(line_buffers_guarded failingOps iotermInit () 2 (by decide) [7, 7, 7] (by decide)).2.2 _, rfl⟩

end RiscvKernel.LineBuffer
