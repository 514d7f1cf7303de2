import RiscvKernel.FormatScan
import RiscvKernel.TermWrite

namespace RiscvKernel.FormattedOutput

open Io Lib.Transducer TermOutput LineEndings TermWrite Format FormatScan

variable {σ : Type}

/-! Formatted output to the console and to a terminal. -/

structure IovprintfState (σ : Type) where
  io : σ
  err : Int

def iovprintfPutc (ops : IoOps σ) (c : UInt8) (state : IovprintfState σ) : IovprintfState σ :=
  if state.err = 0 then
    let result := ioputc ops state.io c
    { io := result.2, err := if result.1 < 0 then result.1 else state.err }
  else state

/-- iovprintf, which ioprintf calls with its arguments. -/
def iovprintf (ops : IoOps σ) (io : σ) (fmt : List UInt8) (args : Args) (fuel : Nat) : Option (Int × σ) :=
  (vgprintf (iovprintfPutc ops) ⟨io, 0⟩ fmt args fuel).map fun r => (if r.2.err ≠ 0 then r.2.err else r.1, r.2.io)

/-- cprev of console_putchar, and what com0_putc was called with. -/
structure Console where
  cprev : UInt8
  sent : List UInt8

def vprintfPutc (c : UInt8) (con : Console) : Console :=
  { cprev := (consolePutchar con.cprev c).1, sent := con.sent ++ (consolePutchar con.cprev c).2 }

/-- console_vprintf, which console_printf and kprintf call with their arguments. -/
def consoleVprintf (con : Console) (fmt : List UInt8) (args : Args) (fuel : Nat) : Option (Nat × Console) :=
  vgprintf vprintfPutc con fmt args fuel

/-- A call of a printing function. -/
structure Call where
  fmt : List UInt8
  args : Args

def iovprintfAll (ops : IoOps σ) (fuel : Nat) : σ → List Call → Option (List Int × σ)
  | io, [] => some ([], io)
  | io, c :: calls => do
      let (r, io) ← iovprintf ops io c.fmt c.args fuel
      let (rs, io) ← iovprintfAll ops fuel io calls
      return (r :: rs, io)

def consoleVprintfAll (fuel : Nat) : Console → List Call → Option (List Nat × Console)
  | con, [] => some ([], con)
  | con, c :: calls => do
      let (r, con) ← consoleVprintf con c.fmt c.args fuel
      let (rs, con) ← consoleVprintfAll fuel con calls
      return (r :: rs, con)

/-- The characters that vgprintf puts. -/
def Call.text (c : Call) : List UInt8 :=
  ((vgprintf (fun ch out => out ++ [ch]) [] c.fmt c.args (c.fmt.length + 1)).map Prod.snd).getD []

def Call.Ends (fuel : Nat) (c : Call) : Prop := 0 ∉ c.fmt ∧ c.fmt.length < fuel

section Text

variable {τ : Type} {fuel : Nat} {c : Call}

theorem putAll_collect (out acc : List UInt8) : putAll (fun ch out => out ++ [ch]) acc out = acc ++ out := by
  induction out generalizing acc with
  | nil => exact (List.append_nil acc).symm
  | cons ch out ih =>
      refine (ih (acc ++ [ch])).trans ?_
      rw [List.append_assoc, List.singleton_append]

/-- Every putcfn gets the same characters, and their number is returned. -/
theorem vgprintf_text (h : c.Ends fuel) (putcfn : UInt8 → τ → τ) (aux : τ) :
    vgprintf putcfn aux c.fmt c.args fuel = some (c.text.length, putAll putcfn aux c.text) := by
  obtain ⟨pieces, hp⟩ := exists_scanned c.fmt h.1
  have htext : c.text = (printed c.args pieces 0).1 := by
    rw [Call.text, vgprintf_scan hp _ _ c.args (Nat.lt_succ_self _), putAll_collect]
    rfl
  rw [htext, vgprintf_scan hp putcfn aux c.args h.2]

end Text

section Console

variable {fuel : Nat}

theorem putAll_vprintfPutc (out : List UInt8) (con : Console) : putAll vprintfPutc con out =
    ⟨state consolePutchar con.cprev out, con.sent ++ output consolePutchar con.cprev out⟩ := by
  induction out generalizing con with
  | nil =>
      rw [output, List.append_nil]
      rfl
  | cons c out ih =>
      refine (ih (vprintfPutc c con)).trans ?_
      rw [state, output, ← List.append_assoc]
      rfl

theorem consoleVprintfAll_text {calls : List Call} (h : ∀ c ∈ calls, c.Ends fuel) (con : Console) :
    consoleVprintfAll fuel con calls = some (calls.map fun c => c.text.length,
      putAll vprintfPutc con (calls.flatMap Call.text)) := by
  induction calls generalizing con with
  | nil => rfl
  | cons c calls ih =>
      rw [consoleVprintfAll, consoleVprintf, vgprintf_text (h c List.mem_cons_self), Option.bind_eq_bind, Option.bind_some]
      simp only [ih (fun c' hc => h c' (List.mem_cons_of_mem _ hc)), List.flatMap_cons, putAll_append]
      rfl

end Console

section Terminal

variable (k : Sink σ) {x : IoTerm × σ} {fuel : Nat}

/-- A lf right after a cr is skipped by the terminal, which ioputc takes for the end of the file. -/
theorem ioputc_split {c : UInt8} (h : Split x.1.crOut [c]) : (ioputc (termOps k.ops) x c).1 = -eio := by
  have hcount := iotermWrite_count k x.1 x.2 [c]
  rw [if_pos h] at hcount
  have hzero : (iowrite (termOps k.ops) x [c]).1 = 0 := by
    simp only [iowrite, termOps]
    rw [iowriteLoop, if_pos (by simp)]
    simp only [List.drop_zero]
    rw [hcount]
    rfl
  rw [ioputc, hzero]
  rfl

theorem ioputc_plain {c : UInt8} (h : ¬ Split x.1.crOut [c]) : (ioputc (termOps k.ops) x c).1 = c.toNat ∧
    k.out (ioputc (termOps k.ops) x c).2.2 = k.out x.2 ++ (crOutStep x.1.crOut c).2 ∧
    (ioputc (termOps k.ops) x c).2.1.crOut = (crOutStep x.1.crOut c).1 := by
  obtain ⟨-, hcr, extra, hout, hplain, -⟩ := written k x [c]
  obtain ⟨hr, rfl⟩ := hplain h
  rw [List.append_nil, output, output, List.append_nil] at hout
  rw [ioputc, hr]
  exact ⟨rfl, hout, hcr⟩

theorem putAll_failed {ops : IoOps σ} {st : IovprintfState σ} (h : st.err ≠ 0) (out : List UInt8) :
    putAll (iovprintfPutc ops) st out = st := by
  induction out with
  | nil => rfl
  | cons c out ih =>
      refine Eq.trans ?_ ih
      exact congrArg (fun st => putAll (iovprintfPutc ops) st out) (if_neg h)

theorem iovprintfPutc_zero (ops : IoOps σ) (c : UInt8) (io : σ) : iovprintfPutc ops c ⟨io, 0⟩ =
    ⟨(ioputc ops io c).2, if (ioputc ops io c).1 < 0 then (ioputc ops io c).1 else 0⟩ := if_pos rfl

variable {p : UInt8}

/-- The characters go out as the console sends them, up to a lf right after a cr. -/
theorem putAll_term (out : List UInt8) (hp : x.1.crOut = decide (p = cr)) :
    (crLfs p out = 0 → ∃ io, putAll (iovprintfPutc (termOps k.ops)) ⟨x, 0⟩ out = ⟨io, 0⟩ ∧
      k.out io.2 = k.out x.2 ++ output consolePutchar p out ∧ io.1.crOut = decide (state consolePutchar p out = cr)) ∧
    (crLfs p out ≠ 0 → (putAll (iovprintfPutc (termOps k.ops)) ⟨x, 0⟩ out).err = -eio) := by
  induction out generalizing x p with
  | nil => exact ⟨fun _ => ⟨x, rfl, (List.append_nil _).symm, hp⟩, fun h => absurd rfl h⟩
  | cons c out ih =>
      have hstep : putAll (iovprintfPutc (termOps k.ops)) ⟨x, 0⟩ (c :: out) =
          putAll (iovprintfPutc (termOps k.ops)) (iovprintfPutc (termOps k.ops) c ⟨x, 0⟩) out := rfl
      rw [hstep, iovprintfPutc_zero, crLfs]
      by_cases hs : p = cr ∧ c = lf
      · have hfail := @ioputc_split _ k x c ⟨by rw [hp, hs.1]; rfl, by rw [hs.2]; rfl⟩
        rw [if_pos hs, hfail, if_pos (by decide), putAll_failed (show -eio ≠ 0 by decide)]
        exact ⟨fun h => by omega, fun _ => rfl⟩
      · have hsplit : ¬ Split x.1.crOut [c] := by
          rintro ⟨hcr, hlf⟩
          rw [hp, decide_eq_true_eq] at hcr
          exact hs ⟨hcr, Option.some.inj hlf⟩
        obtain ⟨hr, hout, hstate⟩ := @ioputc_plain _ k x c hsplit
        rw [crOutStep_state] at hstate
        rw [hp, ← consolePutchar_of_not hs] at hout
        obtain ⟨hgood, hbad⟩ := @ih (ioputc (termOps k.ops) x c).2 c hstate
        rw [if_neg hs, hr, if_neg (by omega), Nat.zero_add]
        refine ⟨fun h => ?_, hbad⟩
        obtain ⟨io, he, hsent, hlast⟩ := hgood h
        refine ⟨io, he, ?_, hlast⟩
        rw [hsent, hout, List.append_assoc]
        rfl

theorem iovprintf_text {c : Call} (h : c.Ends fuel) (hp : x.1.crOut = decide (p = cr)) :
    (crLfs p c.text = 0 → ∃ io, iovprintf (termOps k.ops) x c.fmt c.args fuel = some ((c.text.length : Int), io) ∧
      k.out io.2 = k.out x.2 ++ output consolePutchar p c.text ∧ io.1.crOut = decide (state consolePutchar p c.text = cr)) ∧
    (crLfs p c.text ≠ 0 → ∃ io, iovprintf (termOps k.ops) x c.fmt c.args fuel = some (-eio, io)) := by
  obtain ⟨hgood, hbad⟩ := putAll_term k c.text hp
  rw [iovprintf, vgprintf_text h, Option.map_some]
  refine ⟨fun hz => ?_, fun hz => ?_⟩
  · obtain ⟨io, he, hout⟩ := hgood hz
    rw [he]
    exact ⟨io, rfl, hout⟩
  · simp only [hbad hz]
    exact ⟨_, rfl⟩

theorem crLfs_append (s t : List UInt8) : crLfs p (s ++ t) = crLfs p s + crLfs (state consolePutchar p s) t := by
  induction s generalizing p with
  | nil => exact (Nat.zero_add _).symm
  | cons c s ih =>
      rw [List.cons_append, crLfs, crLfs, ih, Nat.add_assoc]
      rfl

theorem iovprintfAll_ends {calls : List Call} (h : ∀ c ∈ calls, c.Ends fuel) (ops : IoOps σ) (io : σ) :
    ∃ r, iovprintfAll ops fuel io calls = some r := by
  induction calls generalizing io with
  | nil => exact ⟨_, rfl⟩
  | cons c calls ih =>
      rw [iovprintfAll, iovprintf, vgprintf_text (h c List.mem_cons_self), Option.map_some, Option.bind_eq_bind, Option.bind_some]
      obtain ⟨r, hr⟩ := ih (fun c' hc => h c' (List.mem_cons_of_mem _ hc)) (putAll (iovprintfPutc ops) ⟨io, 0⟩ c.text).io
      simp only [hr]
      exact ⟨_, rfl⟩

theorem iovprintfAll_text {calls : List Call} (h : ∀ c ∈ calls, c.Ends fuel) (hp : x.1.crOut = decide (p = cr)) :
    (crLfs p (calls.flatMap Call.text) = 0 → ∃ io,
      iovprintfAll (termOps k.ops) fuel x calls = some (calls.map fun c => (c.text.length : Int), io) ∧
      k.out io.2 = k.out x.2 ++ output consolePutchar p (calls.flatMap Call.text) ∧
      io.1.crOut = decide (state consolePutchar p (calls.flatMap Call.text) = cr)) ∧
    (crLfs p (calls.flatMap Call.text) ≠ 0 → ∃ rs io, iovprintfAll (termOps k.ops) fuel x calls = some (rs, io) ∧ -eio ∈ rs) := by
  induction calls generalizing x p with
  | nil => exact ⟨fun _ => ⟨x, rfl, (List.append_nil _).symm, hp⟩, fun h => absurd rfl h⟩
  | cons c calls ih =>
      have hcalls : ∀ c' ∈ calls, c'.Ends fuel := fun c' hc => h c' (List.mem_cons_of_mem _ hc)
      obtain ⟨hgood, hbad⟩ := iovprintf_text k (h c List.mem_cons_self) hp
      rw [List.flatMap_cons, crLfs_append, iovprintfAll]
      by_cases hz : crLfs p c.text = 0
      · obtain ⟨io, he, hout, hlast⟩ := hgood hz
        obtain ⟨hgoods, hbads⟩ := ih hcalls hlast
        rw [hz, Nat.zero_add, he, Option.bind_eq_bind, Option.bind_some]
        refine ⟨fun hzs => ?_, fun hzs => ?_⟩
        · obtain ⟨io', he', hout', hlast'⟩ := hgoods hzs
          simp only [he']
          refine ⟨io', rfl, ?_, ?_⟩
          · rw [hout', hout, output_append, List.append_assoc]
          · rw [hlast', state_append]
        · obtain ⟨rs, io', he', hmem⟩ := hbads hzs
          simp only [he']
          exact ⟨_, _, rfl, List.mem_cons_of_mem _ hmem⟩
      · obtain ⟨io, he⟩ := hbad hz
        obtain ⟨r, hr⟩ := iovprintfAll_ends hcalls (termOps k.ops) io
        rw [he, Option.bind_eq_bind, Option.bind_some]
        refine ⟨fun hzs => by omega, fun _ => ?_⟩
        simp only [hr]
        exact ⟨_, _, rfl, List.mem_cons_self⟩

/-- Calls of console_printf return the lengths of their texts and send them with the line ends of
the console. The same calls on a terminal all succeed exactly if no lf directly follows a cr in
what is printed, also across calls; then they return and send the same. -/
theorem printing_agrees (k : Sink σ) (x : IoTerm × σ) (con : Console) (hx : x.1.crOut = decide (con.cprev = cr)) (fuel : Nat)
    (calls : List Call) (hc : ∀ c ∈ calls, c.Ends fuel) :
    ∃ con' rs x', consoleVprintfAll fuel con calls = some (calls.map fun c => c.text.length, con') ∧
      con'.sent = con.sent ++ output consolePutchar con.cprev (calls.flatMap Call.text) ∧
      iovprintfAll (termOps k.ops) fuel x calls = some (rs, x') ∧
      ((∀ r ∈ rs, 0 ≤ r) ↔ ¬ [cr, lf] <:+: con.cprev :: calls.flatMap Call.text) ∧
      (¬ [cr, lf] <:+: con.cprev :: calls.flatMap Call.text →
        rs = calls.map (fun c => (c.text.length : Int)) ∧
        k.out x'.2 = k.out x.2 ++ output consolePutchar con.cprev (calls.flatMap Call.text) ∧
        x'.1.crOut = decide (con'.cprev = cr)) := by
  obtain ⟨hgood, hbad⟩ := iovprintfAll_text k hc hx
  rw [← crLfs_eq_zero]
  have hcon := consoleVprintfAll_text hc con
  rw [putAll_vprintfPutc] at hcon
  by_cases hz : crLfs con.cprev (calls.flatMap Call.text) = 0
  · obtain ⟨io, he, hout, hlast⟩ := hgood hz
    refine ⟨_, _, io, hcon, rfl, he, ⟨fun _ => hz, fun _ r hr => ?_⟩, fun _ => ⟨rfl, hout, hlast⟩⟩
    obtain ⟨c, -, rfl⟩ := List.mem_map.mp hr
    omega
  · obtain ⟨rs, io, he, hmem⟩ := hbad hz
    refine ⟨_, rs, io, hcon, rfl, he, ⟨fun hall => ?_, fun h => absurd h hz⟩, fun h => absurd h hz⟩
    exact absurd (hall _ hmem) (by decide)

/-- printf("%d\n", -42) twice, to the console and to a fresh terminal. -/
theorem printing_agrees_twice : ∃ con' x',
    consoleVprintfAll 4 ⟨0, []⟩ [⟨[37, 100, 10], minusFortyTwo⟩, ⟨[37, 100, 10], minusFortyTwo⟩] = some ([4, 4], con') ∧
      iovprintfAll (termOps Sink.log.ops) 4 (iotermInit, []) [⟨[37, 100, 10], minusFortyTwo⟩, ⟨[37, 100, 10], minusFortyTwo⟩] =
        some ([4, 4], x') ∧ con'.sent = x'.2 := by
  have htext : Call.text ⟨[37, 100, 10], minusFortyTwo⟩ = [45, 52, 50, 10] := by decide +kernel
  obtain ⟨con', rs, x', hcon, hsent, hterm, -, hagree⟩ := printing_agrees Sink.log (iotermInit, []) ⟨0, []⟩ rfl 4
    [⟨[37, 100, 10], minusFortyTwo⟩, ⟨[37, 100, 10], minusFortyTwo⟩]
    (by simp [Call.Ends])
  simp only [List.flatMap_cons, List.flatMap_nil, List.map_cons, List.map_nil, htext] at hcon hsent hagree
  obtain ⟨rfl, hout, -⟩ := hagree (by rw [← crLfs_eq_zero]; decide)
  exact ⟨con', x', hcon, hterm, hsent.trans hout.symm⟩

end Terminal

end RiscvKernel.FormattedOutput
