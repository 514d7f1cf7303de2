import RiscvKernel.DriverView
import RiscvKernel.Lib.RingBuffer

namespace RiscvKernel.Uart

open Thread Scheduler SchedulerInv StepFrame DriverView Lib.RingBuffer

variable {nthr : Nat}

def serialRbufsz : Nat := 64

/-- hpos and tpos are of type uint16_t. -/
def posMod : Nat := 65536

def longMax : Nat := 2 ^ 63 - 1

def lsrOe : BitVec 8 := 2
def lsrDr : BitVec 8 := 1
def lsrThre : BitVec 8 := 32
def ierDreie : BitVec 8 := 1
def ierThreie : BitVec 8 := 2

/-- The conditions rxbnotempty and txbnotfull. -/
def rxbnotempty : Nat := 0
def txbnotfull : Nat := 1

def rbufInit (rbuf : Ringbuf UInt8) : Ringbuf UInt8 := { rbuf with hpos := 0, tpos := 0 }

def rbufEmpty (rbuf : Ringbuf UInt8) : Bool := rbuf.hpos = rbuf.tpos

def rbufFull (rbuf : Ringbuf UInt8) : Bool := (rbuf.tpos + posMod - rbuf.hpos) % posMod = serialRbufsz

def rbufStore (rbuf : Ringbuf UInt8) (tpos : Nat) (c : UInt8) : Ringbuf UInt8 :=
  { rbuf with data := Function.update rbuf.data (tpos % serialRbufsz) c }

def rbufLoad (rbuf : Ringbuf UInt8) (hpos : Nat) : UInt8 := rbuf.data (hpos % serialRbufsz)

def rbufPut (rbuf : Ringbuf UInt8) (c : UInt8) : Ringbuf UInt8 :=
  { rbufStore rbuf rbuf.tpos c with tpos := (rbuf.tpos + 1) % posMod }

def rbufGet (rbuf : Ringbuf UInt8) : UInt8 × Ringbuf UInt8 :=
  (rbufLoad rbuf rbuf.hpos, { rbuf with hpos := (rbuf.hpos + 1) % posMod })

/-- A struct uart_device with its ier, and what happened since uart_open: the bytes read
from rbr, returned by uart_read and written to thr, what each uart_write takes from its
buffer, and the bytes put into txbuf with the number of their uart_write. -/
structure UartDevice where
  rxovrcnt : Nat
  rxbuf : Ringbuf UInt8
  txbuf : Ringbuf UInt8
  ier : BitVec 8
  taken : List UInt8
  returned : List UInt8
  sent : List UInt8
  writes : List (List UInt8)
  accepted : List (Nat × UInt8)

/-- The places in uart_read and uart_write between which an interrupt can come. rbuf_get
and rbuf_put are cut between the access to data and that to the position, the updates of
ier between the load and the store. -/
inductive UartCall
  | uartRead (bufsz : Nat)
  | readWait (bufsz : Nat)
  | readCopy (bufsz : Nat) (buf : List UInt8)
  | readGet (bufsz : Nat) (buf : List UInt8)
  | readNext (bufsz : Nat) (buf : List UInt8) (hpos : Nat) (c : UInt8)
  | readLoadIer (buf : List UInt8)
  | readStoreIer (buf : List UInt8) (ier : BitVec 8)
  | uartWrite (buf : List UInt8)
  | writeLoop (id : Nat) (buf : List UInt8)
  | writeWait (id : Nat) (buf : List UInt8)
  | writeFill (id : Nat) (buf : List UInt8)
  | writePut (id : Nat) (c : UInt8) (buf : List UInt8)
  | writeNext (id : Nat) (c : UInt8) (buf : List UInt8) (tpos : Nat)
  | writeLoadIer (id : Nat) (buf : List UInt8)
  | writeStoreIer (id : Nat) (buf : List UInt8) (ier : BitVec 8)

def uartOpen (dev : UartDevice) : UartDevice :=
  { dev with
    rxbuf := rbufInit dev.rxbuf, txbuf := rbufInit dev.txbuf, ier := ierDreie
    taken := [], returned := [], sent := [], writes := [], accepted := [] }

/-- One step of uart_read or uart_write. -/
def uartStep : UartCall → UartDevice → UartDevice × List (Call UartCall)
  | .uartRead bufsz, s => (s, if min bufsz longMax = 0 then [] else [.intrDisable, .dev (.readWait (min bufsz longMax))])
  | .readWait bufsz, s =>
      (s, if rbufEmpty s.rxbuf then [.conditionWait rxbnotempty, .dev (.readWait bufsz)]
        else [.intrEnable, .dev (.readCopy bufsz [])])
  | .readCopy bufsz buf, s =>
      (s, [.dev (if !rbufEmpty s.rxbuf && buf.length < bufsz then .readGet bufsz buf else .readLoadIer buf)])
  | .readGet bufsz buf, s => (s, [.dev (.readNext bufsz buf s.rxbuf.hpos (rbufLoad s.rxbuf s.rxbuf.hpos))])
  | .readNext bufsz buf hpos c, s =>
      ({ s with rxbuf := { s.rxbuf with hpos := (hpos + 1) % posMod } }, [.dev (.readCopy bufsz (buf ++ [c]))])
  | .readLoadIer buf, s => (s, [.dev (.readStoreIer buf s.ier)])
  | .readStoreIer buf ier, s => ({ s with ier := ier ||| ierDreie, returned := s.returned ++ buf }, [])
  | .uartWrite buf, s =>
      ({ s with writes := s.writes ++ [buf.take longMax] }, [.dev (.writeLoop s.writes.length (buf.take longMax))])
  | .writeLoop id buf, s => (s, if buf.isEmpty then [] else [.intrDisable, .dev (.writeWait id buf)])
  | .writeWait id buf, s =>
      (s, if rbufFull s.txbuf then [.conditionWait txbnotfull, .dev (.writeWait id buf)]
        else [.intrEnable, .dev (.writeFill id buf)])
  | .writeFill id buf, s =>
      (s, [.dev (match buf with
        | c :: buf' => if rbufFull s.txbuf then .writeLoadIer id buf else .writePut id c buf'
        | [] => .writeLoadIer id [])])
  | .writePut id c buf, s =>
      ({ s with txbuf := rbufStore s.txbuf s.txbuf.tpos c }, [.dev (.writeNext id c buf s.txbuf.tpos)])
  | .writeNext id c buf tpos, s =>
      ({ s with txbuf := { s.txbuf with tpos := (tpos + 1) % posMod }, accepted := s.accepted ++ [(id, c)] },
        [.dev (.writeFill id buf)])
  | .writeLoadIer id buf, s => (s, [.dev (.writeStoreIer id buf s.ier)])
  | .writeStoreIer id buf ier, s => ({ s with ier := ier ||| ierThreie }, [.dev (.writeLoop id buf)])

/-- What uart_isr reads from the device: lsr and, when there is data, rbr. -/
structure Lines where
  lsr : BitVec 8
  rbr : UInt8

def isrOverrun (e : Lines) (s : UartDevice) : UartDevice :=
  if e.lsr &&& lsrOe ≠ 0 then { s with rxovrcnt := (s.rxovrcnt + 1) % 2 ^ 32 } else s

def isrReceive (e : Lines) (s : UartDevice) : UartDevice × List Nat :=
  if e.lsr &&& lsrDr ≠ 0 then
    if rbufFull s.rxbuf then ({ s with ier := s.ier &&& ~~~ierDreie }, [])
    else
      ({ s with rxbuf := rbufPut s.rxbuf e.rbr, taken := s.taken ++ [e.rbr] },
        if rbufEmpty s.rxbuf then [rxbnotempty] else [])
  else (s, [])

def isrTransmit (e : Lines) (s : UartDevice) : UartDevice × List Nat :=
  if e.lsr &&& lsrThre ≠ 0 then
    if rbufEmpty s.txbuf then ({ s with ier := s.ier &&& ~~~ierThreie }, [])
    else
      ({ s with txbuf := (rbufGet s.txbuf).2, sent := s.sent ++ [(rbufGet s.txbuf).1] },
        if rbufFull s.txbuf then [txbnotfull] else [])
  else (s, [])

def uartIsr (e : Lines) (s : UartDevice) : UartDevice × List Nat :=
  let (s, rx) := isrReceive e (isrOverrun e s)
  let (s, tx) := isrTransmit e s
  (s, rx ++ tx)

/-- The threads that use one opened uart_device. -/
def uart : Client UartDevice UartCall Lines where
  exec i ctx s := ⟨(uartStep i s).1, ctx.sie, ctx.satp, (uartStep i s).2⟩
  entry
    | .uartRead _, _, _ | .uartWrite _, _, _ => true
    | _, _, _ => false
  ownCond n := n = rxbnotempty ∨ n = txbnotfull
  isr := uartIsr
  env _ s := s
  mtag _ _ := 0

/-- uart_read and uart_write test their buffer with interrupts disabled and return with
interrupts enabled when they had something to do. -/
def uartDiscipline : Discipline UartCall where
  need
    | .readWait _, b | .writeWait _ _, b => b = false
    | .writeFill _ _, b | .writePut _ _ _, b | .writeNext _ _ _ _, b | .writeLoadIer _ _, b
    | .writeStoreIer _ _ _, b => b = true
    | _, _ => True
  out
    | .uartRead bufsz, b => if bufsz = 0 then b else true
    | .uartWrite buf, b | .writeLoop _ buf, b => if buf.isEmpty then b else true
    | .readWait _, _ | .writeWait _ _, _ => true
    | _, b => b
  guarded n := n = rxbnotempty ∨ n = txbnotfull

def rests : UartCall → Prop
  | .readWait _ | .writeWait _ _ => True
  | _ => False

theorem uart_push (i : UartCall) (s : UartDevice) (b : Bool) (hneed : uartDiscipline.need i b) :
    Ends uartDiscipline b ((uartStep i s).2.map Pc.call) (uartDiscipline.out i b) := by
  cases i with
  | uartRead bufsz =>
      by_cases hz : bufsz = 0
      · subst hz
        rfl
      · have hmin : min bufsz longMax ≠ 0 := Nat.ne_of_gt (Nat.lt_min.mpr ⟨Nat.pos_of_ne_zero hz, by decide⟩)
        simp only [uartStep, if_neg hmin, uartDiscipline, if_neg hz]
        exact ⟨trivial, .inr ⟨rfl, .inr rfl⟩⟩
  | readWait bufsz =>
      simp only [uartStep]
      split
      · exact ⟨fun _ _ _ => hneed, .inr ⟨hneed, .inr rfl⟩⟩
      · exact ⟨trivial, .inr ⟨trivial, .inr rfl⟩⟩
  | readCopy bufsz buf =>
      simp only [uartStep]
      split
      · exact ⟨trivial, .inr rfl⟩
      · exact ⟨trivial, .inr rfl⟩
  | uartWrite buf =>
      refine ⟨trivial, .inr ?_⟩
      cases buf <;> rfl
  | writeLoop id buf =>
      cases buf with
      | nil => rfl
      | cons c buf => exact ⟨trivial, .inr ⟨rfl, .inr rfl⟩⟩
  | writeWait id buf =>
      simp only [uartStep]
      split
      · exact ⟨fun _ _ _ => hneed, .inr ⟨hneed, .inr rfl⟩⟩
      · exact ⟨trivial, .inr ⟨rfl, .inr rfl⟩⟩
  | writeFill id buf =>
      simp only [uartStep]
      split
      · split
        · exact ⟨hneed, .inr rfl⟩
        · exact ⟨hneed, .inr rfl⟩
      · exact ⟨hneed, .inr rfl⟩
  | writeStoreIer id buf ier =>
      obtain rfl : b = true := hneed
      refine ⟨trivial, .inr ?_⟩
      cases buf <;> rfl
  | readGet bufsz buf | readNext bufsz buf hpos c | readLoadIer buf => exact ⟨trivial, .inr rfl⟩
  | readStoreIer buf ier => rfl
  | writePut id c buf | writeNext id c buf tpos | writeLoadIer id buf => exact ⟨hneed, .inr rfl⟩

theorem uart_obeys : Obeys uartDiscipline uart := by
  refine ⟨fun i ctx s hneed => uart_push i s ctx.sie hneed, fun i ctx s he => ?_, fun n hn => decide_eq_true hn⟩
  cases i <;> trivial

/-- What a step of uart_read or uart_write goes on with. -/
def next (i : UartCall) (s : UartDevice) : Option UartCall := (devs ((uartStep i s).2.map Pc.call)).head?

theorem uart_rules : Rules uart uartDiscipline rests := by
  refine ⟨uart_obeys, fun i ctx s => ?_, fun i ctx s j hj => ?_, fun i ctx s n _ hm => ?_⟩
  · show (devs ((uartStep i s).2.map Pc.call)).length ≤ 1
    cases i with
    | uartRead | readWait | writeLoop | writeWait =>
        simp only [uartStep]
        split <;> simp [devs]
    | readStoreIer => exact Nat.zero_le _
    | _ => exact Nat.le_refl _
  · have hj' : j ∈ devs (((uartStep i s).2.map Pc.call).dropWhile prompt) := hj
    cases i with
    | uartRead | writeLoop =>
        simp only [uartStep] at hj'
        split at hj' <;> cases hj'
    | readWait | writeWait =>
        simp only [uartStep] at hj'
        split at hj'
        · obtain rfl := List.mem_singleton.mp hj'
          trivial
        · cases hj'
    | _ => cases hj'
  · have hm' : Call.conditionWait n ∈ (uartStep i s).2.tail := hm
    cases i with
    | uartRead | readWait | writeLoop | writeWait =>
        simp only [uartStep] at hm'
        split at hm'
        · simp at hm'
        · simp at hm'
    | _ => cases hm'

section Receive

abbrev Queue (rbuf : Ringbuf UInt8) (l : List UInt8) : Prop := Holds serialRbufsz posMod rbuf l

theorem dvd_posMod : serialRbufsz ∣ posMod := by decide

theorem serialRbufsz_lt : serialRbufsz < posMod := by decide

theorem rbufEmpty_iff {rbuf : Ringbuf UInt8} {l : List UInt8} (h : Queue rbuf l) : rbufEmpty rbuf = true ↔ l = [] := by
  rw [rbufEmpty, decide_eq_true_iff]
  exact h.eq_nil_iff serialRbufsz_lt

theorem rbufFull_iff {rbuf : Ringbuf UInt8} {l : List UInt8} (h : Queue rbuf l) :
    rbufFull rbuf = true ↔ l.length = serialRbufsz := by
  rw [rbufFull, decide_eq_true_iff, h.distance serialRbufsz_lt]

theorem Queue.rbufPut {rbuf : Ringbuf UInt8} {l : List UInt8} (h : Queue rbuf l) (hl : rbufFull rbuf ≠ true) (c : UInt8) :
    Queue (rbufPut rbuf c) (l ++ [c]) := by
  have hlt : l.length < serialRbufsz := Nat.lt_of_le_of_ne h.length_le fun he => hl ((rbufFull_iff h).mpr he)
  exact (h.write dvd_posMod hlt c).advance_tail dvd_posMod hlt (Function.update_self ..)

/-- What the uart_read in progress has put into its buffer. -/
def copied : Option UartCall → List UInt8
  | some (.readCopy _ buf) | some (.readGet _ buf) | some (.readNext _ buf _ _) | some (.readLoadIer buf)
  | some (.readStoreIer buf _) => buf
  | _ => []

/-- Between the test of rxbuf and the update of ier. -/
def copying : Option UartCall → Prop
  | some (.readCopy _ _) | some (.readGet _ _) | some (.readNext _ _ _ _) | some (.readLoadIer _)
  | some (.readStoreIer _ _) => True
  | _ => False

/-- What the local variables of the current thread say about rxbuf. -/
def ReadAt (rbuf : Ringbuf UInt8) (rx : List UInt8) : Option UartCall → Prop
  | some (.readGet _ _) => rx ≠ []
  | some (.readNext _ _ hpos c) => hpos = rbuf.hpos ∧ rx.head? = some c
  | some (.writeStoreIer _ _ ier) => ier.getLsbD 0 = true ∨ rx.length = serialRbufsz
  | _ => True

/-- The receiving side, with the step j of the current thread; w: somebody waits for
rxbnotempty. -/
structure ReadOk (s : UartDevice) (j : Option UartCall) (w : Prop) (rx : List UInt8) : Prop where
  rxbuf : Queue s.rxbuf rx
  taken : s.returned ++ copied j ++ rx = s.taken
  empty : w → rx = []
  dreie : s.ier.getLsbD 0 = true ∨ rx.length = serialRbufsz ∨ copying j
  alone : copying j → ¬ w
  locals : ReadAt s.rxbuf rx j

theorem copied_eq_nil {j : Option UartCall} (h : ¬ copying j) : copied j = [] := by
  cases j with
  | none => rfl
  | some i => cases i <;> first | rfl | exact absurd trivial h

variable {s s' : UartDevice} {i : UartCall} {j j' : Option UartCall} {w w' : Prop} {rx : List UInt8}

/-- Steps outside the copying part of uart_read. -/
theorem ReadOk.keep (h : ReadOk s j w rx) (hrx : s'.rxbuf = s.rxbuf) (htaken : s'.taken = s.taken)
    (hret : s'.returned = s.returned) (hier : s'.ier = s.ier) (hj : ¬ copying j) (hj' : ¬ copying j')
    (hat : ReadAt s.rxbuf rx j') (hw : w' → w) : ReadOk s' j' w' rx := by
  refine ⟨by rw [hrx]; exact h.rxbuf, ?_, fun hw' => h.empty (hw hw'), ?_, fun hc => absurd hc hj', by rwa [hrx]⟩
  · have := h.taken
    rwa [copied_eq_nil hj, ← copied_eq_nil hj', ← hret, ← htaken] at this
  · rw [hier]
    exact h.dreie.imp_right fun hd => .inl (hd.resolve_right hj)

theorem ReadOk.step (h : ReadOk s (some i) w rx) :
    ∃ rx', ReadOk (uartStep i s).1 (next i s) (w ∨ (uartStep i s).2.head? = some (.conditionWait rxbnotempty)) rx' := by
  cases i with
  | uartRead bufsz =>
      refine ⟨rx, ?_⟩
      simp only [next, uartStep]
      split
      · exact h.keep rfl rfl rfl rfl id id trivial (by simp)
      · exact h.keep rfl rfl rfl rfl id id trivial (by simp)
  | readWait bufsz =>
      refine ⟨rx, ?_⟩
      simp only [next, uartStep]
      split
      · exact ⟨h.rxbuf, h.taken, fun _ => (rbufEmpty_iff h.rxbuf).mp ‹_›, h.dreie, False.elim, trivial⟩
      · refine ⟨h.rxbuf, h.taken, fun hw => ?_, .inr (.inr trivial), fun _ hw => ?_, trivial⟩
        · exact h.empty (hw.resolve_right (by simp))
        · have hrx := h.empty (hw.resolve_right (by simp))
          exact absurd ((rbufEmpty_iff h.rxbuf).mpr hrx) ‹_›
  | readCopy bufsz buf =>
      refine ⟨rx, ?_⟩
      have hw : ¬ w := h.alone trivial
      simp only [next, uartStep]
      split
      · rename_i hc
        rw [Bool.and_eq_true] at hc
        refine ⟨h.rxbuf, h.taken, by simp [hw], .inr (.inr trivial), by simp [hw], fun he => ?_⟩
        have := (rbufEmpty_iff h.rxbuf).mpr he
        simp [this] at hc
      · exact ⟨h.rxbuf, h.taken, by simp [hw], .inr (.inr trivial), by simp [hw], trivial⟩
  | readGet bufsz buf =>
      have hw : ¬ w := h.alone trivial
      obtain ⟨c, rx', rfl⟩ := List.exists_cons_of_ne_nil (show rx ≠ [] from h.locals)
      refine ⟨c :: rx', h.rxbuf, h.taken, by simp [hw, uartStep], .inr (.inr trivial), by simp [hw, uartStep], rfl, ?_⟩
      rw [List.head?_cons]
      exact congrArg some h.rxbuf.head.symm
  | readNext bufsz buf hpos c =>
      have hw : ¬ w := h.alone trivial
      obtain ⟨rfl, hc⟩ := h.locals
      obtain ⟨rx', rfl⟩ := List.head?_eq_some_iff.mp hc
      refine ⟨rx', h.rxbuf.advance_head dvd_posMod, ?_, by simp [hw, uartStep], .inr (.inr trivial), by simp [hw, uartStep],
        trivial⟩
      have := h.taken
      simpa [copied, next, uartStep, devs] using this
  | readLoadIer buf =>
      have hw : ¬ w := h.alone trivial
      exact ⟨rx, h.rxbuf, h.taken, by simp [hw, uartStep], .inr (.inr trivial), by simp [hw, uartStep], trivial⟩
  | readStoreIer buf ier =>
      have hw : ¬ w := h.alone trivial
      refine ⟨rx, h.rxbuf, ?_, by simp [hw, uartStep], .inl ?_, by simp [hw, uartStep], trivial⟩
      · have := h.taken
        simpa [copied, next, uartStep, devs] using this
      · simp [uartStep, ierDreie]
  | uartWrite buf => exact ⟨rx, h.keep rfl rfl rfl rfl id id trivial (by simp [uartStep])⟩
  | writeLoop id' buf =>
      refine ⟨rx, ?_⟩
      simp only [next, uartStep]
      split
      · exact h.keep rfl rfl rfl rfl id id trivial (by simp)
      · exact h.keep rfl rfl rfl rfl id id trivial (by simp)
  | writeWait id' buf =>
      refine ⟨rx, ?_⟩
      simp only [next, uartStep]
      split
      · exact h.keep rfl rfl rfl rfl id id trivial (by simp [rxbnotempty, txbnotfull])
      · exact h.keep rfl rfl rfl rfl id id trivial (by simp)
  | writeFill id' buf =>
      refine ⟨rx, ?_⟩
      simp only [next, uartStep]
      split
      · split
        · exact h.keep rfl rfl rfl rfl id id trivial (by simp)
        · exact h.keep rfl rfl rfl rfl id id trivial (by simp)
      · exact h.keep rfl rfl rfl rfl id id trivial (by simp)
  | writePut id' c buf => exact ⟨rx, h.keep rfl rfl rfl rfl id id trivial (by simp [uartStep])⟩
  | writeNext id' c buf tpos => exact ⟨rx, h.keep rfl rfl rfl rfl id id trivial (by simp [uartStep])⟩
  | writeLoadIer id' buf =>
      exact ⟨rx, h.keep rfl rfl rfl rfl id id (h.dreie.imp_right fun hd => hd.resolve_right id) (by simp [uartStep])⟩
  | writeStoreIer id' buf ier =>
      refine ⟨rx, h.rxbuf, h.taken, fun hw => h.empty (hw.resolve_right (by simp [uartStep])), ?_, False.elim, trivial⟩
      have := h.locals
      refine this.imp (fun hb => ?_) .inl
      simp [uartStep, hb]

theorem ReadOk.mono (h : ReadOk s j w rx) (hw : w' → w) : ReadOk s j w' rx :=
  ⟨h.rxbuf, h.taken, fun hw' => h.empty (hw hw'), h.dreie, fun hc hw' => h.alone hc (hw hw'), h.locals⟩

theorem not_copying_of_resting (hj : Resting rests j) : ¬ copying j := by
  cases j with
  | none => exact id
  | some i =>
      have := hj i rfl
      cases i <;> first | exact id | exact this.elim

theorem readAt_of_resting (hj : Resting rests j) (rbuf : Ringbuf UInt8) (rx : List UInt8) : ReadAt rbuf rx j := by
  cases j with
  | none => trivial
  | some i =>
      have := hj i rfl
      cases i <;> trivial

theorem ReadOk.switch (h : ReadOk s j w rx) (hj : Resting rests j) (hj' : Resting rests j') : ReadOk s j' w rx :=
  h.keep rfl rfl rfl rfl (not_copying_of_resting hj) (not_copying_of_resting hj') (readAt_of_resting hj' _ _) id

theorem ReadOk.receive (h : ReadOk s j w rx) (e : Lines) :
    ∃ rx', ReadOk (isrReceive e s).1 j (w ∧ rxbnotempty ∉ (isrReceive e s).2) rx' := by
  unfold isrReceive
  split
  · split
    · rename_i hfull
      exact ⟨rx, h.rxbuf, h.taken, fun hw => h.empty hw.1, .inr (.inl ((rbufFull_iff h.rxbuf).mp hfull)),
        fun hc hw => h.alone hc hw.1, h.locals⟩
    · rename_i hfull
      have hne : rx.length ≠ serialRbufsz := fun he => hfull ((rbufFull_iff h.rxbuf).mpr he)
      refine ⟨rx ++ [e.rbr], h.rxbuf.rbufPut hfull e.rbr, ?_, fun hw => ?_, ?_, fun hc hw => h.alone hc hw.1, ?_⟩
      · rw [← List.append_assoc, h.taken]
      · have hempty := (rbufEmpty_iff h.rxbuf).mpr (h.empty hw.1)
        simp [hempty] at hw
      · exact h.dreie.imp_right fun hd => .inr (hd.resolve_left hne)
      · have hl := h.locals
        unfold ReadAt at hl ⊢
        split
        · simp
        · exact ⟨hl.1, by rw [List.head?_append, hl.2]; rfl⟩
        · exact .inl (hl.resolve_right hne)
        · trivial
  · exact ⟨rx, h.mono And.left⟩

theorem ReadOk.transmit (h : ReadOk s j w rx) (e : Lines) :
    ReadOk (isrTransmit e s).1 j (w ∧ rxbnotempty ∉ (isrTransmit e s).2) rx := by
  unfold isrTransmit
  split
  · split
    · refine ⟨h.rxbuf, h.taken, fun hw => h.empty hw.1, ?_, fun hc hw => h.alone hc hw.1, h.locals⟩
      refine h.dreie.imp_left fun hb => ?_
      simp [hb, ierThreie]
    · exact ⟨h.rxbuf, h.taken, fun hw => h.empty hw.1, h.dreie, fun hc hw => h.alone hc hw.1, h.locals⟩
  · exact h.mono And.left

theorem ReadOk.isr (h : ReadOk s j w rx) (e : Lines) :
    ∃ rx', ReadOk (uartIsr e s).1 j (w ∧ rxbnotempty ∉ (uartIsr e s).2) rx' := by
  have ho : ReadOk (isrOverrun e s) j w rx := by
    unfold isrOverrun
    split
    · exact ⟨h.rxbuf, h.taken, h.empty, h.dreie, h.alone, h.locals⟩
    · exact h
  obtain ⟨rx', hr⟩ := ho.receive e
  refine ⟨rx', (hr.transmit e).mono fun hw => ?_⟩
  obtain ⟨hw, hm⟩ := hw
  rw [uartIsr, List.mem_append, not_or] at hm
  exact ⟨⟨hw, hm.1⟩, hm.2⟩

end Receive

section Transmit

/-- Between the test of txbuf and the update of ier. -/
def filling : Option UartCall → Prop
  | some (.writeFill _ _) | some (.writePut _ _ _) | some (.writeNext _ _ _ _) | some (.writeLoadIer _ _)
  | some (.writeStoreIer _ _ _) => True
  | _ => False

/-- What the local variables of the current thread say about txbuf. -/
def WriteAt (rbuf : Ringbuf UInt8) (tx : List UInt8) : Option UartCall → Prop
  | some (.writePut _ _ _) => tx.length < serialRbufsz
  | some (.writeNext _ c _ tpos) => tpos = rbuf.tpos ∧ rbuf.data (tpos % serialRbufsz) = c ∧ tx.length < serialRbufsz
  | some (.readStoreIer _ ier) => ier.getLsbD 1 = true ∨ tx = []
  | _ => True

/-- The sending side, with the step j of the current thread; w: somebody waits for
txbnotfull. -/
structure WriteOk (s : UartDevice) (j : Option UartCall) (w : Prop) (tx : List UInt8) : Prop where
  txbuf : Queue s.txbuf tx
  sent : s.sent ++ tx = s.accepted.map Prod.snd
  full : w → tx.length = serialRbufsz
  threie : s.ier.getLsbD 1 = true ∨ tx = [] ∨ filling j
  alone : filling j → ¬ w
  locals : WriteAt s.txbuf tx j

variable {s s' : UartDevice} {i : UartCall} {j j' : Option UartCall} {w w' : Prop} {tx : List UInt8}

/-- Steps outside the filling part of uart_write. -/
theorem WriteOk.keep (h : WriteOk s j w tx) (htx : s'.txbuf = s.txbuf) (hsent : s'.sent = s.sent)
    (hacc : s'.accepted = s.accepted) (hier : s'.ier = s.ier) (hj : ¬ filling j) (hj' : ¬ filling j')
    (hat : WriteAt s.txbuf tx j') (hw : w' → w) : WriteOk s' j' w' tx := by
  refine ⟨by rw [htx]; exact h.txbuf, ?_, fun hw' => h.full (hw hw'), ?_, fun hc => absurd hc hj', by rwa [htx]⟩
  · rw [hsent, hacc]
    exact h.sent
  · rw [hier]
    exact h.threie.imp_right fun hd => .inl (hd.resolve_right hj)

theorem WriteOk.lt_of_not_full (h : WriteOk s j w tx) (hf : rbufFull s.txbuf ≠ true) : tx.length < serialRbufsz :=
  Nat.lt_of_le_of_ne h.txbuf.length_le fun he => hf ((rbufFull_iff h.txbuf).mpr he)

theorem WriteOk.step (h : WriteOk s (some i) w tx) :
    ∃ tx', WriteOk (uartStep i s).1 (next i s) (w ∨ (uartStep i s).2.head? = some (.conditionWait txbnotfull)) tx' := by
  cases i with
  | uartWrite buf => exact ⟨tx, h.keep rfl rfl rfl rfl id id trivial (by simp [uartStep])⟩
  | writeLoop id' buf =>
      refine ⟨tx, ?_⟩
      simp only [next, uartStep]
      split
      · exact h.keep rfl rfl rfl rfl id id trivial (by simp)
      · exact h.keep rfl rfl rfl rfl id id trivial (by simp)
  | writeWait id' buf =>
      refine ⟨tx, ?_⟩
      simp only [next, uartStep]
      split
      · exact ⟨h.txbuf, h.sent, fun _ => (rbufFull_iff h.txbuf).mp ‹_›, h.threie, False.elim, trivial⟩
      · refine ⟨h.txbuf, h.sent, fun hw => ?_, .inr (.inr trivial), fun _ hw => ?_, trivial⟩
        · exact h.full (hw.resolve_right (by simp))
        · have htx := h.full (hw.resolve_right (by simp))
          exact absurd ((rbufFull_iff h.txbuf).mpr htx) ‹_›
  | writeFill id' buf =>
      refine ⟨tx, ?_⟩
      have hw : ¬ w := h.alone trivial
      simp only [next, uartStep]
      split
      · split
        · exact ⟨h.txbuf, h.sent, by simp [hw], .inr (.inr trivial), by simp [hw], trivial⟩
        · exact ⟨h.txbuf, h.sent, by simp [hw], .inr (.inr trivial), by simp [hw], h.lt_of_not_full ‹_›⟩
      · exact ⟨h.txbuf, h.sent, by simp [hw], .inr (.inr trivial), by simp [hw], trivial⟩
  | writePut id' c buf =>
      have hw : ¬ w := h.alone trivial
      have hlt : tx.length < serialRbufsz := h.locals
      exact ⟨tx, h.txbuf.write dvd_posMod hlt c, h.sent, by simp [hw, uartStep], .inr (.inr trivial),
        by simp [hw, uartStep], rfl, Function.update_self .., hlt⟩
  | writeNext id' c buf tpos =>
      have hw : ¬ w := h.alone trivial
      obtain ⟨rfl, hc, hlt⟩ := h.locals
      refine ⟨tx ++ [c], h.txbuf.advance_tail dvd_posMod hlt hc, ?_, by simp [hw, uartStep], .inr (.inr trivial),
        by simp [hw, uartStep], trivial⟩
      simp only [uartStep, List.map_append, ← h.sent]
      simp
  | writeLoadIer id' buf =>
      have hw : ¬ w := h.alone trivial
      exact ⟨tx, h.txbuf, h.sent, by simp [hw, uartStep], .inr (.inr trivial), by simp [hw, uartStep], trivial⟩
  | writeStoreIer id' buf ier =>
      have hw : ¬ w := h.alone trivial
      refine ⟨tx, h.txbuf, h.sent, by simp [hw, uartStep], .inl ?_, by simp [hw, uartStep], trivial⟩
      simp [uartStep, ierThreie]
  | uartRead bufsz =>
      refine ⟨tx, ?_⟩
      simp only [next, uartStep]
      split
      · exact h.keep rfl rfl rfl rfl id id trivial (by simp)
      · exact h.keep rfl rfl rfl rfl id id trivial (by simp)
  | readWait bufsz =>
      refine ⟨tx, ?_⟩
      simp only [next, uartStep]
      split
      · exact h.keep rfl rfl rfl rfl id id trivial (by simp [rxbnotempty, txbnotfull])
      · exact h.keep rfl rfl rfl rfl id id trivial (by simp)
  | readCopy bufsz buf =>
      refine ⟨tx, ?_⟩
      simp only [next, uartStep]
      split
      · exact h.keep rfl rfl rfl rfl id id trivial (by simp)
      · exact h.keep rfl rfl rfl rfl id id trivial (by simp)
  | readGet bufsz buf => exact ⟨tx, h.keep rfl rfl rfl rfl id id trivial (by simp [uartStep])⟩
  | readNext bufsz buf hpos c => exact ⟨tx, h.keep rfl rfl rfl rfl id id trivial (by simp [uartStep])⟩
  | readLoadIer buf =>
      exact ⟨tx, h.keep rfl rfl rfl rfl id id (h.threie.imp_right fun hd => hd.resolve_right id) (by simp [uartStep])⟩
  | readStoreIer buf ier =>
      refine ⟨tx, h.txbuf, h.sent, fun hw => h.full (hw.resolve_right (by simp [uartStep])), ?_, False.elim, trivial⟩
      have := h.locals
      refine this.imp (fun hb => ?_) .inl
      simp [uartStep, hb]

theorem WriteOk.mono (h : WriteOk s j w tx) (hw : w' → w) : WriteOk s j w' tx :=
  ⟨h.txbuf, h.sent, fun hw' => h.full (hw hw'), h.threie, fun hc hw' => h.alone hc (hw hw'), h.locals⟩

theorem not_filling_of_resting (hj : Resting rests j) : ¬ filling j := by
  cases j with
  | none => exact id
  | some i =>
      have := hj i rfl
      cases i <;> first | exact id | exact this.elim

theorem writeAt_of_resting (hj : Resting rests j) (rbuf : Ringbuf UInt8) (tx : List UInt8) : WriteAt rbuf tx j := by
  cases j with
  | none => trivial
  | some i =>
      have := hj i rfl
      cases i <;> trivial

theorem WriteOk.switch (h : WriteOk s j w tx) (hj : Resting rests j) (hj' : Resting rests j') : WriteOk s j' w tx :=
  h.keep rfl rfl rfl rfl (not_filling_of_resting hj) (not_filling_of_resting hj') (writeAt_of_resting hj' _ _) id

theorem WriteOk.transmit (h : WriteOk s j w tx) (e : Lines) :
    ∃ tx', WriteOk (isrTransmit e s).1 j (w ∧ txbnotfull ∉ (isrTransmit e s).2) tx' := by
  unfold isrTransmit
  split
  · split
    · rename_i hempty
      exact ⟨tx, h.txbuf, h.sent, fun hw => h.full hw.1, .inr (.inl ((rbufEmpty_iff h.txbuf).mp hempty)),
        fun hc hw => h.alone hc hw.1, h.locals⟩
    · rename_i hempty
      have hne : tx ≠ [] := fun he => hempty ((rbufEmpty_iff h.txbuf).mpr he)
      obtain ⟨c, tx', rfl⟩ := List.exists_cons_of_ne_nil hne
      refine ⟨tx', h.txbuf.advance_head dvd_posMod, ?_, fun hw => ?_, ?_, fun hc hw => h.alone hc hw.1, ?_⟩
      · rw [show (rbufGet s.txbuf).1 = c from h.txbuf.head, List.append_assoc]
        exact h.sent
      · have hfull := (rbufFull_iff h.txbuf).mpr (h.full hw.1)
        simp [hfull] at hw
      · exact h.threie.imp_right fun hd => .inr (hd.resolve_left hne)
      · have hl := h.locals
        unfold WriteAt at hl ⊢
        split
        · exact Nat.lt_of_succ_lt hl
        · exact ⟨hl.1, hl.2.1, Nat.lt_of_succ_lt hl.2.2⟩
        · exact .inl (hl.resolve_right hne)
        · trivial
  · exact ⟨tx, h.mono And.left⟩

theorem WriteOk.receive (h : WriteOk s j w tx) (e : Lines) :
    WriteOk (isrReceive e s).1 j (w ∧ txbnotfull ∉ (isrReceive e s).2) tx := by
  unfold isrReceive
  split
  · split
    · refine ⟨h.txbuf, h.sent, fun hw => h.full hw.1, ?_, fun hc hw => h.alone hc hw.1, h.locals⟩
      refine h.threie.imp_left fun hb => ?_
      simp [hb, ierDreie]
    · exact ⟨h.txbuf, h.sent, fun hw => h.full hw.1, h.threie, fun hc hw => h.alone hc hw.1, h.locals⟩
  · exact h.mono And.left

theorem WriteOk.isr (h : WriteOk s j w tx) (e : Lines) :
    ∃ tx', WriteOk (uartIsr e s).1 j (w ∧ txbnotfull ∉ (uartIsr e s).2) tx' := by
  have ho : WriteOk (isrOverrun e s) j w tx := by
    unfold isrOverrun
    split
    · exact ⟨h.txbuf, h.sent, h.full, h.threie, h.alone, h.locals⟩
    · exact h
  obtain ⟨tx', ht⟩ := (ho.receive e).transmit e
  refine ⟨tx', ht.mono fun hw => ?_⟩
  obtain ⟨hw, hm⟩ := hw
  rw [uartIsr, List.mem_append, not_or] at hm
  exact ⟨⟨hw, hm.1⟩, hm.2⟩

end Transmit

section Writers

/-- The number of the uart_write at this step and what it still has to put into txbuf. -/
def writing : Option UartCall → Option (Nat × List UInt8)
  | some (.writeLoop id buf) | some (.writeWait id buf) | some (.writeFill id buf) | some (.writeLoadIer id buf)
  | some (.writeStoreIer id buf _) => some (id, buf)
  | some (.writePut id c buf) | some (.writeNext id c buf _) => some (id, c :: buf)
  | _ => none

def bytesOf (id : Nat) (l : List (Nat × UInt8)) : List UInt8 := (l.filter (·.1 = id)).map Prod.snd

theorem bytesOf_append (id : Nat) (l l' : List (Nat × UInt8)) : bytesOf id (l ++ l') = bytesOf id l ++ bytesOf id l' := by
  simp [bytesOf]

/-- Every uart_write has put the first part of its buffer into txbuf, and still has the rest. -/
structure Writers (s : UartDevice) (job : Ptr → Option UartCall) : Prop where
  mine : ∀ p id l, writing (job p) = some (id, l) → s.writes[id]? = some (bytesOf id s.accepted ++ l)
  done : ∀ id buf, s.writes[id]? = some buf → (∃ p l, writing (job p) = some (id, l)) ∨ bytesOf id s.accepted = buf
  unique : ∀ p q id l l', writing (job p) = some (id, l) → writing (job q) = some (id, l') → p = q
  known : ∀ x ∈ s.accepted, x.1 < s.writes.length

variable {s s' : UartDevice} {i : UartCall} {j : Option UartCall} {job job' : Ptr → Option UartCall} {tp : Ptr}

theorem Writers.same (h : Writers s job) (hw : s'.writes = s.writes) (ha : s'.accepted = s.accepted)
    (hj : ∀ p, writing (job' p) = writing (job p)) : Writers s' job' := by
  refine ⟨fun p id l hp => ?_, fun id buf hb => ?_, fun p q id l l' hp hq => ?_, ?_⟩
  · rw [hj] at hp
    rw [hw, ha]
    exact h.mine p id l hp
  · rw [hw] at hb
    simp only [hj, ha]
    exact h.done id buf hb
  · rw [hj] at hp hq
    exact h.unique p q id l l' hp hq
  · rw [hw, ha]
    exact h.known

theorem writing_update (h : writing (job tp) = writing j) (p : Ptr) :
    writing (Function.update job tp j p) = writing (job p) := by
  rcases eq_or_ne p tp with rfl | hne
  · rw [Function.update_self, h]
  · rw [Function.update_of_ne hne]

theorem Writers.start (h : Writers s job) (b : List UInt8) (hj : writing (job tp) = none)
    (hj' : writing j = some (s.writes.length, b)) :
    Writers { s with writes := s.writes ++ [b] } (Function.update job tp j) := by
  have hnew : bytesOf s.writes.length s.accepted = [] := by
    rw [bytesOf, List.map_eq_nil_iff, List.filter_eq_nil_iff]
    intro x hx he
    have := h.known x hx
    simp at he
    omega
  have hother : ∀ p id l, p ≠ tp → writing (Function.update job tp j p) = some (id, l) →
      writing (job p) = some (id, l) ∧ id < s.writes.length := fun p id l hne hp => by
    rw [Function.update_of_ne hne] at hp
    exact ⟨hp, (List.getElem?_eq_some_iff.mp (h.mine p id l hp)).1⟩
  refine ⟨fun p id l hp => ?_, fun id buf hb => ?_, fun p q id l l' hp hq => ?_, fun x hx => ?_⟩
  · rcases eq_or_ne p tp with rfl | hne
    · rw [Function.update_self, hj'] at hp
      cases hp
      rw [hnew, List.getElem?_concat_length, List.nil_append]
    · obtain ⟨hp, hlt⟩ := hother p id l hne hp
      rw [List.getElem?_append_left hlt]
      exact h.mine p id l hp
  · rcases Nat.lt_trichotomy id s.writes.length with hlt | rfl | hlt
    · rw [List.getElem?_append_left hlt] at hb
      refine (h.done id buf hb).imp_left ?_
      rintro ⟨p, l, hp⟩
      have hne : p ≠ tp := by
        rintro rfl
        rw [hj] at hp
        cases hp
      exact ⟨p, l, by rwa [Function.update_of_ne hne]⟩
    · exact .inl ⟨tp, b, by rw [Function.update_self, hj']⟩
    · rw [List.getElem?_eq_none (by simpa using Nat.succ_le_of_lt hlt)] at hb
      cases hb
  · rcases eq_or_ne p tp with rfl | hp'
    · rcases eq_or_ne q p with rfl | hq'
      · rfl
      · rw [Function.update_self, hj'] at hp
        cases hp
        exact absurd (hother q _ _ hq' hq).2 (Nat.lt_irrefl _)
    · rcases eq_or_ne q tp with rfl | hq'
      · rw [Function.update_self, hj'] at hq
        cases hq
        exact absurd (hother p _ _ hp' hp).2 (Nat.lt_irrefl _)
      · exact h.unique p q id l l' (hother p _ _ hp' hp).1 (hother q _ _ hq' hq).1
  · rw [List.length_append]
    exact Nat.lt_add_right _ (h.known x hx)

theorem Writers.put (h : Writers s job) {id : Nat} {c : UInt8} {l : List UInt8} (hj : writing (job tp) = some (id, c :: l))
    (hj' : writing j = some (id, l)) (txbuf : Ringbuf UInt8) :
    Writers { s with txbuf, accepted := s.accepted ++ [(id, c)] } (Function.update job tp j) := by
  have hmine := h.mine tp id _ hj
  have hbytes : ∀ id', id' ≠ id → bytesOf id' (s.accepted ++ [(id, c)]) = bytesOf id' s.accepted := fun id' hne => by
    rw [bytesOf_append, show bytesOf id' [(id, c)] = [] by simp [bytesOf, hne.symm], List.append_nil]
  have hother : ∀ p id' l', p ≠ tp → writing (Function.update job tp j p) = some (id', l') →
      writing (job p) = some (id', l') ∧ id' ≠ id := fun p id' l' hne hp => by
    rw [Function.update_of_ne hne] at hp
    refine ⟨hp, ?_⟩
    rintro rfl
    exact hne (h.unique p tp _ _ _ hp hj)
  refine ⟨fun p id' l' hp => ?_, fun id' buf hb => ?_, fun p q id' l₁ l₂ hp hq => ?_, fun x hx => ?_⟩
  · rcases eq_or_ne p tp with rfl | hne
    · rw [Function.update_self, hj'] at hp
      cases hp
      rw [bytesOf_append, List.append_assoc, show bytesOf id [(id, c)] = [c] by simp [bytesOf]]
      exact hmine
    · obtain ⟨hp, hne'⟩ := hother p id' l' hne hp
      rw [hbytes id' hne']
      exact h.mine p id' l' hp
  · rcases eq_or_ne id' id with rfl | hne
    · exact .inl ⟨tp, l, by rw [Function.update_self, hj']⟩
    · rw [hbytes id' hne]
      refine (h.done id' buf hb).imp_left ?_
      rintro ⟨p, l', hp⟩
      have hne' : p ≠ tp := by
        rintro rfl
        rw [hj] at hp
        cases hp
        exact hne rfl
      exact ⟨p, l', by rwa [Function.update_of_ne hne']⟩
  · rcases eq_or_ne p tp with rfl | hp'
    · rcases eq_or_ne q p with rfl | hq'
      · rfl
      · rw [Function.update_self, hj'] at hp
        cases hp
        exact absurd rfl (hother q _ _ hq' hq).2
    · rcases eq_or_ne q tp with rfl | hq'
      · rw [Function.update_self, hj'] at hq
        cases hq
        exact absurd rfl (hother p _ _ hp' hp).2
      · exact h.unique p q id' l₁ l₂ (hother p _ _ hp' hp).1 (hother q _ _ hq' hq).1
  · rcases List.mem_append.mp hx with hx | hx
    · exact h.known x hx
    · obtain rfl := List.mem_singleton.mp hx
      exact (List.getElem?_eq_some_iff.mp hmine).1

theorem Writers.finish (h : Writers s job) {id : Nat} (hj : writing (job tp) = some (id, []))
    (hj' : writing j = none) : Writers s (Function.update job tp j) := by
  have hother : ∀ p id' l', writing (Function.update job tp j p) = some (id', l') → writing (job p) = some (id', l') :=
    fun p id' l' hp => by
      rcases eq_or_ne p tp with rfl | hne
      · rw [Function.update_self, hj'] at hp
        cases hp
      · rwa [Function.update_of_ne hne] at hp
  refine ⟨fun p id' l' hp => h.mine p id' l' (hother p _ _ hp), fun id' buf hb => ?_,
    fun p q id' l₁ l₂ hp hq => h.unique p q id' l₁ l₂ (hother p _ _ hp) (hother q _ _ hq), h.known⟩
  rcases h.done id' buf hb with ⟨p, l', hp⟩ | hd
  · rcases eq_or_ne p tp with rfl | hne
    · rw [hj] at hp
      cases hp
      have := (h.mine p id [] hj).symm.trans hb
      rw [List.append_nil] at this
      exact .inr (Option.some.inj this)
    · exact .inl ⟨p, l', by rwa [Function.update_of_ne hne]⟩
  · exact .inr hd

theorem Writers.step (h : Writers s job) (hj : job tp = some i) :
    Writers (uartStep i s).1 (Function.update job tp (next i s)) := by
  cases i with
  | uartWrite buf => exact h.start _ (by rw [hj]; rfl) rfl
  | writeNext id c buf tpos => exact h.put (by rw [hj]; rfl) rfl _
  | writeLoop id buf =>
      cases buf with
      | nil => exact h.finish (by rw [hj]; rfl) rfl
      | cons c buf => exact h.same rfl rfl (writing_update (by rw [hj]; rfl))
  | uartRead bufsz =>
      refine h.same rfl rfl (writing_update ?_)
      rw [hj]
      simp only [next, uartStep]
      split <;> rfl
  | readWait bufsz | writeWait id buf =>
      refine h.same rfl rfl (writing_update ?_)
      rw [hj]
      simp only [next, uartStep]
      split <;> rfl
  | readCopy bufsz buf =>
      refine h.same rfl rfl (writing_update ?_)
      rw [hj]
      simp only [next, uartStep]
      split <;> rfl
  | writeFill id buf =>
      refine h.same rfl rfl (writing_update ?_)
      rw [hj]
      simp only [next, uartStep]
      split
      · split <;> rfl
      · rfl
  | _ => exact h.same rfl rfl (writing_update (by rw [hj]; rfl))

end Writers

theorem uartIsr_writes (e : Lines) (s : UartDevice) : (uartIsr e s).1.writes = s.writes := by
  have hr : ∀ s, (isrReceive e s).1.writes = s.writes := fun s => by
    unfold isrReceive
    split
    · split <;> rfl
    · rfl
  have ht : ∀ s, (isrTransmit e s).1.writes = s.writes := fun s => by
    unfold isrTransmit
    split
    · split <;> rfl
    · rfl
  rw [uartIsr, ht, hr, isrOverrun]
  split <;> rfl

theorem uartIsr_accepted (e : Lines) (s : UartDevice) : (uartIsr e s).1.accepted = s.accepted := by
  have hr : ∀ s, (isrReceive e s).1.accepted = s.accepted := fun s => by
    unfold isrReceive
    split
    · split <;> rfl
    · rfl
  have ht : ∀ s, (isrTransmit e s).1.accepted = s.accepted := fun s => by
    unfold isrTransmit
    split
    · split <;> rfl
    · rfl
  rw [uartIsr, ht, hr, isrOverrun]
  split <;> rfl

/-- What uart_read, uart_write and uart_isr keep. -/
structure UartInv (v : View UartDevice UartCall) : Prop where
  resting : ∀ p, p ≠ v.tp → Resting rests (v.job p)
  receive : ∃ rx, ReadOk v.dev (v.job v.tp) (∃ p, v.waited rxbnotempty p) rx
  transmit : ∃ tx, WriteOk v.dev (v.job v.tp) (∃ p, v.waited txbnotfull p) tx
  writers : Writers v.dev v.job

theorem uartInv_move {v v' : View UartDevice UartCall} (h : UartInv v) (hm : Move uart uartDiscipline rests v v') :
    UartInv v' := by
  obtain ⟨hrest, ⟨rx, hrx⟩, ⟨tx, htx⟩, hw⟩ := h
  cases hm with
  | exec i ctx job tp need awake =>
      rw [job] at hrx htx
      have hj : (v.exec uart uartDiscipline i ctx).job v.tp = next i v.dev := Function.update_self ..
      refine ⟨fun p hp => ?_, ?_, ?_, hw.step job⟩
      · show Resting rests (Function.update v.job v.tp _ p)
        rw [Function.update_of_ne (show p ≠ v.tp from hp)]
        exact hrest p hp
      · obtain ⟨rx', h'⟩ := hrx.step
        refine ⟨rx', ?_⟩
        rw [show (v.exec uart uartDiscipline i ctx).tp = v.tp from rfl, hj]
        exact h'.mono fun ⟨p, hw⟩ => hw.imp (fun hw => ⟨p, hw⟩) fun hw => hw.2.2
      · obtain ⟨tx', h'⟩ := htx.step
        refine ⟨tx', ?_⟩
        rw [show (v.exec uart uartDiscipline i ctx).tp = v.tp from rfl, hj]
        exact h'.mono fun ⟨p, hw⟩ => hw.imp (fun hw => ⟨p, hw⟩) fun hw => hw.2.2
  | switch next old new =>
      refine ⟨fun p hp => ?_, ⟨rx, hrx.switch old new⟩, ⟨tx, htx.switch old new⟩, hw⟩
      rcases eq_or_ne p v.tp with rfl | hne
      · exact old
      · exact hrest p hne
  | entry i ctx job tp entry =>
      rw [job] at hrx htx
      refine ⟨fun p hp => ?_, ⟨rx, ?_⟩, ⟨tx, ?_⟩, ?_⟩
      · show Resting rests (Function.update v.job v.tp _ p)
        rw [Function.update_of_ne hp]
        exact hrest p hp
      · simp only [Function.update_self]
        cases i <;> first | exact hrx.keep rfl rfl rfl rfl id id trivial id | cases entry
      · simp only [Function.update_self]
        cases i <;> first | exact htx.keep rfl rfl rfl rfl id id trivial id | cases entry
      · refine hw.same rfl rfl (writing_update ?_)
        rw [job]
        cases i <;> first | rfl | cases entry
  | isr e =>
      obtain ⟨rx', hrx'⟩ := hrx.isr e
      obtain ⟨tx', htx'⟩ := htx.isr e
      refine ⟨hrest, ⟨rx', hrx'.mono fun ⟨p, hw⟩ => ⟨⟨p, hw.1⟩, hw.2⟩⟩,
        ⟨tx', htx'.mono fun ⟨p, hw⟩ => ⟨⟨p, hw.1⟩, hw.2⟩⟩, ?_⟩
      exact hw.same (uartIsr_writes e v.dev) (uartIsr_accepted e v.dev) fun _ => rfl
  | env e => exact ⟨hrest, ⟨rx, hrx⟩, ⟨tx, htx⟩, hw⟩

/-- The data and the wake-ups of an opened uart_device. -/
structure UartSafe (k : Kernel UartDevice UartCall) : Prop where
  read : ∃ rest, Queue k.dev.rxbuf rest ∧ k.dev.returned ++ copied (devs (k.code k.tp)).head? ++ rest = k.dev.taken
  write : ∃ rest, Queue k.dev.txbuf rest ∧ k.dev.sent ++ rest = k.dev.accepted.map Prod.snd
  writer : ∀ id buf, k.dev.writes[id]? = some buf → ∃ left,
    bytesOf id (k.dev.accepted.take k.dev.sent.length) ++ bytesOf id (k.dev.accepted.drop k.dev.sent.length) ++ left = buf ∧
      (left = [] ∨ ∃ p, writing (devs (k.code p)).head? = some (id, left))
  rxbnotempty : tlempty (k.waitList (.ext rxbnotempty)) = false →
    rbufEmpty k.dev.rxbuf = true ∧ k.dev.ier &&& ierDreie ≠ 0
  txbnotfull : tlempty (k.waitList (.ext txbnotfull)) = false →
    rbufFull k.dev.txbuf = true ∧ k.dev.ier &&& ierThreie ≠ 0

theorem uartInv_open (dev : UartDevice) (tp : Ptr) : UartInv ⟨uartOpen dev, tp, fun _ => none, fun _ _ => False⟩ := by
  have hnil : ∀ rbuf : Ringbuf UInt8, Queue (rbufInit rbuf) [] := fun rbuf => holds_nil rbuf.data (by decide)
  refine ⟨fun _ _ => nofun, ⟨[], hnil _, rfl, fun ⟨_, hw⟩ => hw.elim, .inl (show ierDreie.getLsbD 0 = true by decide), nofun, trivial⟩,
    ⟨[], hnil _, rfl, fun ⟨_, hw⟩ => hw.elim, .inr (.inl rfl), nofun, trivial⟩, nofun, nofun, nofun, nofun⟩

theorem and_ne_zero {b c : BitVec 8} {i : Nat} (hb : b.getLsbD i = true) (hc : c.getLsbD i = true) : b &&& c ≠ 0 := fun he => by
  have := congrArg (·.getLsbD i) he
  simp [hb, hc] at this

theorem uartSafe_of_inv {k : Kernel UartDevice UartCall} (hd : Driven nthr uartDiscipline rests k)
    (h : UartInv (view uartDiscipline k)) : UartSafe k := by
  obtain ⟨rx, hrx⟩ := h.receive
  obtain ⟨tx, htx⟩ := h.transmit
  refine ⟨⟨rx, hrx.rxbuf, hrx.taken⟩, ⟨tx, htx.txbuf, htx.sent⟩, fun id buf hbuf => ?_, fun he => ?_, fun he => ?_⟩
  · rw [← bytesOf_append, List.take_append_drop]
    rcases h.writers.done id buf hbuf with ⟨p, l, hp⟩ | hdone
    · have := (h.writers.mine p id l hp).symm.trans hbuf
      exact ⟨l, Option.some.inj this, .inr ⟨p, hp⟩⟩
    · exact ⟨[], by rw [List.append_nil]; exact hdone, .inl rfl⟩
  · have hw := hd.waited_of_waitList (.inl rfl) he
    have hnil := hrx.empty hw
    refine ⟨(rbufEmpty_iff hrx.rxbuf).mpr hnil, and_ne_zero (i := 0) (hrx.dreie.resolve_right ?_) rfl⟩
    rintro (hl | hc)
    · rw [hnil] at hl
      cases hl
    · exact hrx.alone hc hw
  · have hw := hd.waited_of_waitList (.inr rfl) he
    have hfull := htx.full hw
    refine ⟨(rbufFull_iff htx.txbuf).mpr hfull, and_ne_zero (i := 1) (htx.threie.resolve_right ?_) rfl⟩
    rintro (hl | hc)
    · rw [hl] at hfull
      cases hfull
    · exact htx.alone hc hw

/-- Every interleaving of uart_read and uart_write calls with runs of uart_isr keeps the
data in order, and nobody waits whom no interrupt will wake. -/
theorem run_uartSafe (hn : 2 ≤ nthr) (dev : UartDevice) (satp : Nat) (sie : Bool) (ls : List (Label UartCall Lines))
    (k : Kernel UartDevice UartCall) (hr : run uart nthr (threadInit nthr (uartOpen dev) satp sie) ls = .ok k) : UartSafe k := by
  have h₀ : UartInv (view uartDiscipline (threadInit nthr (uartOpen dev) satp sie)) := by
    rw [view_threadInit]
    exact uartInv_open dev mainThread
  obtain ⟨hd, h⟩ := (driven_threadInit hn uartDiscipline rests (uartOpen dev) satp sie).run uart_rules
    (fun _ _ => uartInv_move) h₀ hr
  exact uartSafe_of_inv hd h

def blankDevice : UartDevice where
  rxovrcnt := 0
  rxbuf := ⟨0, 0, fun _ => 0⟩
  txbuf := ⟨0, 0, fun _ => 0⟩
  ier := 0
  taken := []
  returned := []
  sent := []
  writes := []
  accepted := []

/-- The main thread writes one byte and waits for input; two bytes arrive. -/
def echo : List (Label UartCall Lines) :=
  (.call (.dev (.uartWrite [65])) :: List.replicate 12 .run : List (Label UartCall Lines)) ++
    (.isr ⟨lsrThre, 0⟩ :: .call (.dev (.uartRead 8)) :: List.replicate 15 .run : List (Label UartCall Lines)) ++
    (.isr ⟨lsrDr, 66⟩ :: .isr ⟨lsrDr, 67⟩ :: List.replicate 30 .run : List (Label UartCall Lines))

theorem run_uartSafe_echo : ∃ k,
    run uart 16 (threadInit 16 (uartOpen blankDevice) 0 true) echo = .ok k ∧ k.dev.returned = [66, 67] ∧ k.dev.sent = [65] ∧
      UartSafe k := by
  have hview : ((run uart 16 (threadInit 16 (uartOpen blankDevice) 0 true) echo).toOption.map fun k =>
      (k.dev.returned, k.dev.sent)) = some ([66, 67], [65]) := by decide +kernel
  cases hr : run uart 16 (threadInit 16 (uartOpen blankDevice) 0 true) echo with
  | error s =>
      rw [hr] at hview
      cases hview
  | ok k =>
      rw [hr] at hview
      obtain ⟨h₁, h₂⟩ := Prod.mk.inj (Option.some.inj hview)
      exact ⟨k, rfl, h₁, h₂, run_uartSafe (by decide) blankDevice 0 true echo k hr⟩

section Fifo

/-- A call of rbuf_put or rbuf_get. -/
inductive RbufCall
  | put (c : UInt8)
  | get

/-- Calls one after another, with the bytes that the gets return: none when a byte is put
into a full buffer or taken from an empty one. -/
def rbufCalls : List RbufCall → Ringbuf UInt8 → Option (List UInt8 × Ringbuf UInt8)
  | [], rbuf => some ([], rbuf)
  | .put c :: calls, rbuf => if rbufFull rbuf then none else rbufCalls calls (rbufPut rbuf c)
  | .get :: calls, rbuf =>
      if rbufEmpty rbuf then none
      else (rbufCalls calls (rbufGet rbuf).2).map fun r => ((rbufGet rbuf).1 :: r.1, r.2)

/-- The bytes put, in order. -/
def puts : List RbufCall → List UInt8
  | [] => []
  | .put c :: calls => c :: puts calls
  | .get :: calls => puts calls

def gets : List RbufCall → Nat
  | [] => 0
  | .put _ :: calls => gets calls
  | .get :: calls => gets calls + 1

variable {rbuf r : Ringbuf UInt8} {held got : List UInt8}

theorem Queue.rbufGet {c : UInt8} (h : Queue rbuf (c :: held)) : (rbufGet rbuf).1 = c ∧ Queue (rbufGet rbuf).2 held :=
  ⟨h.head, h.advance_head dvd_posMod⟩

/-- What a buffer that holds some bytes returns, and what it holds after the calls. -/
theorem Queue.rbufCalls (h : Queue rbuf held) {calls : List RbufCall} (hr : rbufCalls calls rbuf = some (got, r)) :
    got.length = gets calls ∧ ∃ held', held ++ puts calls = got ++ held' ∧ Queue r held' := by
  induction calls generalizing rbuf held got with
  | nil =>
      obtain ⟨rfl, rfl⟩ := Prod.mk.inj (Option.some.inj hr)
      exact ⟨rfl, held, List.append_nil held, h⟩
  | cons call calls ih =>
      cases call with
      | put c =>
          rw [Uart.rbufCalls] at hr
          split at hr
          · cases hr
          · rename_i hf
            obtain ⟨hlen, held', he, hq⟩ := ih (h.rbufPut hf c) hr
            exact ⟨hlen, held', by rw [← he, puts, List.append_assoc, List.singleton_append], hq⟩
      | get =>
          rw [Uart.rbufCalls] at hr
          split at hr
          · cases hr
          · rename_i hne
            cases held with
            | nil => exact absurd ((rbufEmpty_iff h).mpr rfl) hne
            | cons c held =>
                obtain ⟨hc, hq⟩ := Queue.rbufGet h
                obtain ⟨⟨out, r'⟩, hr', he⟩ := Option.map_eq_some_iff.mp hr
                obtain ⟨rfl, rfl⟩ := Prod.mk.inj he
                obtain ⟨hlen, held', he, hq'⟩ := ih hq hr'
                refine ⟨congrArg Nat.succ hlen, held', ?_, hq'⟩
                rw [puts, List.cons_append, he, hc]
                rfl

/-- From rbuf_init on, whatever number of times the positions wrap around: the gets return the
bytes put, in order, and the two tests tell how many bytes are held. -/
theorem rbuf_is_fifo (rbuf : Ringbuf UInt8) (calls : List RbufCall) (got : List UInt8) (r : Ringbuf UInt8)
    (hr : rbufCalls calls (rbufInit rbuf) = some (got, r)) :
    got.length = gets calls ∧ got <+: puts calls ∧
      (rbufEmpty r = true ↔ gets calls = (puts calls).length) ∧
      (rbufFull r = true ↔ (puts calls).length = gets calls + serialRbufsz) := by
  have h₀ : Queue (rbufInit rbuf) [] := holds_nil rbuf.data (by decide)
  obtain ⟨hlen, held, he, hq⟩ := h₀.rbufCalls hr
  rw [List.nil_append] at he
  have hputs : (puts calls).length = gets calls + held.length := by
    rw [he, List.length_append, hlen]
  refine ⟨hlen, ⟨held, he.symm⟩, ?_, ?_⟩
  · rw [rbufEmpty_iff hq, ← List.length_eq_zero_iff]
    omega
  · rw [rbufFull_iff hq]
    omega

theorem rbuf_is_fifo_twoPuts : ∃ r, rbufCalls [.put 65, .get, .put 66] (rbufInit ⟨9, 9, fun _ => 0⟩) = some ([65], r) ∧
    [65] <+: puts [.put 65, .get, .put 66] := by
  have hout : (rbufCalls [.put 65, .get, .put 66] (rbufInit ⟨9, 9, fun _ => 0⟩)).map Prod.fst = some [65] := by decide +kernel
  obtain ⟨⟨out, r⟩, hr, rfl⟩ := Option.map_eq_some_iff.mp hout
  exact ⟨r, hr, (rbuf_is_fifo ⟨9, 9, fun _ => 0⟩ _ _ r hr).2.1⟩

end Fifo

end RiscvKernel.Uart
