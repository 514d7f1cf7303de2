import RiscvKernel.Format

namespace RiscvKernel.FormatScan

open Lib.Bytes Format

variable {σ : Type} {putcfn : UInt8 → σ → σ} {args : Args} {fmt pre post rest : List UInt8} {p fuel : Nat}

/-- A directive; conv is none when the NUL cuts it off. -/
structure Directive where
  width : List UInt8
  ls : Nat
  size : Option UInt8
  conv : Option UInt8

namespace Directive

def text (d : Directive) : List UInt8 := 37 :: (d.width ++ (List.replicate d.ls 108 ++ (d.size.toList ++ d.conv.toList)))

def zpad (d : Directive) : Bool := d.width.head? == some 48

def len (d : Directive) : Nat := d.width.foldl (fun len c => (10 * len + (c.toNat - 48)) % 2 ^ 32) 0

def lcnt (d : Directive) : Nat := if d.size.isSome then 2 else d.ls

end Directive

/-- A format string is literal characters and directives. -/
inductive Piece
  | lit (c : UInt8)
  | directive (d : Directive)

def Piece.text : Piece → List UInt8
  | .lit c => [c]
  | .directive d => d.text

/-- What a conversion prints, and the number of arguments taken after it. -/
def convertOut (args : Args) (zpad : Bool) (len lcnt : Nat) (c : UInt8) (ap : Nat) : List UInt8 × Nat :=
  if c = 100 then
    let ival := args.signed lcnt ap
    (if ival.slt 0 then 45 :: intOut (-ival).toNat 10 zpad (len - 1) else intOut ival.toNat 10 zpad len, ap + 1)
  else if c = 117 ∨ c = 120 then (intOut (args.unsigned lcnt ap).toNat (if c = 120 then 16 else 10) zpad len, ap + 1)
  else if c = 115 then (strOut (args.string (args.slot ap)) len, ap + 1)
  else if c = 112 then (strOut (some [48, 120]) 2 ++ intOut (args.slot ap).toNat 16 zpad len, ap + 1)
  else ([37, if c < 32 ∨ 127 ≤ c then 63 else c], ap)

def Piece.print (args : Args) (ap : Nat) : Piece → List UInt8 × Nat
  | .lit c => ([c], ap)
  | .directive d => convertOut args d.zpad d.len d.lcnt (d.conv.getD 0) ap

/-- What the pieces print, one after another. -/
def printed (args : Args) : List Piece → Nat → List UInt8 × Nat
  | [], ap => ([], ap)
  | piece :: pieces, ap =>
      let r := piece.print args ap
      let r' := printed args pieces r.2
      (r.1 ++ r'.1, r'.2)

/-- The state of vgprintf after the characters of out. -/
def after (putcfn : UInt8 → σ → σ) (s : Printing σ) (out : List UInt8 × Nat) : Printing σ :=
  ⟨s.nout + out.1.length, out.2, putAll putcfn s.aux out.1⟩

section Convert

theorem formatInt_word (w : BitVec 64) {base : Nat} (hb : 10 ≤ base) (aux : σ) (zpad : Bool) (len : Nat) :
    formatInt putcfn aux w.toNat base zpad len =
      some ((intOut w.toNat base zpad len).length, putAll putcfn aux (intOut w.toNat base zpad len)) := by
  refine formatInt_eq (by omega) ?_ aux zpad len
  calc w.toNat < 2 ^ 64 := w.isLt
    _ ≤ 10 ^ bufLen := by decide +kernel
    _ ≤ base ^ bufLen := Nat.pow_le_pow_left hb bufLen

/-- Every conversion prints its characters and counts them. -/
theorem convert_eq (zpad : Bool) (len lcnt : Nat) (c : UInt8) (s : Printing σ) :
    convert putcfn args zpad len lcnt c s = some (after putcfn s (convertOut args zpad len lcnt c s.ap)) := by
  rw [convert, convertOut]
  by_cases hd : c = 100
  · rw [if_pos hd, if_pos hd]
    dsimp only
    by_cases hneg : (args.signed lcnt s.ap).slt 0
    · rw [if_pos hneg, if_pos hneg, formatInt_word _ (by decide)]
      simp only [Option.map_some, Printing.add, Printing.put, after, List.length_cons, putAll, List.foldl_cons, Option.some.injEq,
        Printing.mk.injEq, and_self, and_true]
      omega
    · rw [if_neg hneg, if_neg hneg, formatInt_word _ (by decide)]
      rfl
  rw [if_neg hd, if_neg hd]
  by_cases hu : c = 117 ∨ c = 120
  · rw [if_pos hu, if_pos hu]
    dsimp only
    rw [formatInt_word _ (by split <;> decide)]
    rfl
  rw [if_neg hu, if_neg hu]
  by_cases hs : c = 115
  · rw [if_pos hs, if_pos hs]
    dsimp only
    rw [formatStr_eq]
    rfl
  rw [if_neg hs, if_neg hs]
  by_cases hp : c = 112
  · rw [if_pos hp, if_pos hp]
    dsimp only
    rw [formatStr_eq, formatInt_word _ (by decide)]
    simp only [Option.map_some, Printing.add, after, List.length_append, putAll_append, Option.some.injEq, Printing.mk.injEq, and_self,
      and_true]
    omega
  · rw [if_neg hp, if_neg hp]
    rfl

end Convert

section Scan

def isDigit (c : UInt8) : Prop := 48 ≤ c ∧ c ≤ 57

instance (c : UInt8) : Decidable (isDigit c) := inferInstanceAs (Decidable (48 ≤ c ∧ c ≤ 57))

/-- The directive is what the scan takes of its own text followed by post: no loop ends early,
and only the NUL can cut it off. -/
structure Directive.Cut (d : Directive) (post : List UInt8) : Prop where
  width : ∀ c ∈ d.width, isDigit c
  size : ∀ c ∈ d.size, c = 122 ∨ c = 106
  conv : ∀ c ∈ d.conv, c ≠ 0
  ends : d.conv = none → post = []
  width_ends : d.ls = 0 → d.size = none → ¬ isDigit (d.conv.getD 0)
  prefix_ends : d.size = none → d.conv.getD 0 ≠ 108 ∧ d.conv.getD 0 ≠ 122 ∧ d.conv.getD 0 ≠ 106

/-- The pieces that make up a format string. -/
inductive Scanned : List Piece → List UInt8 → Prop
  | nil : Scanned [] []
  | lit {c pieces rest} : c ≠ 37 → c ≠ 0 → Scanned pieces rest → Scanned (.lit c :: pieces) (c :: rest)
  | directive {d pieces post} : d.Cut post → Scanned pieces post → Scanned (.directive d :: pieces) (d.text ++ post)

theorem Scanned.text {pieces : List Piece} (h : Scanned pieces fmt) : pieces.flatMap Piece.text = fmt := by
  induction h with
  | nil => rfl
  | lit _ _ _ ih => rw [List.flatMap_cons, ih]; rfl
  | directive _ _ ih => rw [List.flatMap_cons, ih]; rfl

/-- The first character of rest, or its NUL. -/
def first (rest : List UInt8) : UInt8 := rest.head?.getD 0

theorem char_first (pre rest : List UInt8) : char (pre ++ rest) pre.length = some (first rest) := by
  rw [char, List.append_assoc, List.getElem?_append_right (Nat.le_refl _), Nat.sub_self]
  cases rest <;> rfl

theorem char_of_split (pre : List UInt8) {rest : List UInt8} (h : fmt = pre ++ rest) (hp : p = pre.length) : char fmt p = some (first rest) := by
  rw [h, hp, char_first]

theorem widthLoop_scan (ds : List UInt8) (hds : ∀ c ∈ ds, isDigit c) (hrest : ¬ isDigit (first rest)) (pre : List UInt8) (len : Nat)
    (hfuel : ds.length < fuel) : widthLoop (pre ++ (ds ++ rest)) fuel pre.length len =
      some (pre.length + ds.length, ds.foldl (fun len c => (10 * len + (c.toNat - 48)) % 2 ^ 32) len) := by
  induction ds generalizing pre len fuel with
  | nil =>
      obtain ⟨fuel, rfl⟩ : ∃ f, fuel = f + 1 := ⟨fuel - 1, by simp at hfuel; omega⟩
      rw [List.nil_append, widthLoop, char_first]
      exact if_neg hrest
  | cons c ds ih =>
      obtain ⟨fuel, rfl⟩ : ∃ f, fuel = f + 1 := ⟨fuel - 1, by simp at hfuel; omega⟩
      have hnext := ih (fun c hc => hds c (List.mem_cons_of_mem _ hc)) (pre ++ [c])
        ((10 * len + (c.toNat - 48)) % 2 ^ 32) (Nat.lt_of_succ_lt_succ hfuel)
      rw [widthLoop, char_first]
      refine (if_pos (hds c List.mem_cons_self)).trans ?_
      rw [List.append_assoc, List.singleton_append, List.length_append, List.length_singleton] at hnext
      rw [List.cons_append]
      refine hnext.trans ?_
      rw [List.length_cons, List.foldl_cons, Nat.add_assoc, Nat.add_comm 1]

theorem prefixLoop_scan (n : Nat) (hrest : first rest ≠ 108) (pre : List UInt8) (lcnt : Nat) (hfuel : n < fuel) :
    prefixLoop (pre ++ (List.replicate n 108 ++ rest)) fuel pre.length lcnt = some (pre.length + n, lcnt + n) := by
  induction n generalizing pre lcnt fuel with
  | zero =>
      obtain ⟨fuel, rfl⟩ : ∃ f, fuel = f + 1 := ⟨fuel - 1, by omega⟩
      rw [List.replicate_zero, List.nil_append, prefixLoop, char_first]
      exact if_neg hrest
  | succ n ih =>
      obtain ⟨fuel, rfl⟩ : ∃ f, fuel = f + 1 := ⟨fuel - 1, by omega⟩
      have hnext := ih (pre ++ [108]) (lcnt + 1) (Nat.lt_of_succ_lt_succ hfuel)
      rw [prefixLoop, char_first, List.replicate_succ, List.cons_append]
      simp only [Option.bind_eq_bind, Option.bind_some, show ∀ l, first (108 :: l) = 108 from fun _ => rfl, if_true]
      rw [List.append_assoc, List.singleton_append, List.length_append, List.length_singleton] at hnext
      refine hnext.trans ?_
      rw [Nat.add_assoc, Nat.add_comm 1, Nat.add_assoc, Nat.add_comm 1]

theorem Directive.Cut.first_conv {d : Directive} (h : d.Cut post) : first (d.conv.toList ++ post) = d.conv.getD 0 := by
  cases hc : d.conv with
  | some c => rfl
  | none =>
      rw [h.ends hc]
      rfl

/-- The character after the l's: z or j if the directive has one. -/
theorem Directive.Cut.first_size {d : Directive} (h : d.Cut post) :
    first (d.size.toList ++ (d.conv.toList ++ post)) ≠ 108 ∧
      (first (d.size.toList ++ (d.conv.toList ++ post)) = 122 ∨ first (d.size.toList ++ (d.conv.toList ++ post)) = 106 ↔
        d.size.isSome) := by
  cases hs : d.size with
  | some c =>
      rcases h.size c hs with rfl | rfl
      · exact ⟨by show (122 : UInt8) ≠ 108; decide, iff_of_true (.inl rfl) rfl⟩
      · exact ⟨by show (106 : UInt8) ≠ 108; decide, iff_of_true (.inr rfl) rfl⟩
  | none =>
      obtain ⟨h₁, h₂, h₃⟩ := h.prefix_ends hs
      rw [Option.toList_none, List.nil_append, h.first_conv]
      exact ⟨h₁, iff_of_false (not_or.mpr ⟨h₂, h₃⟩) Bool.false_ne_true⟩

/-- The character after the width is no digit. -/
theorem Directive.Cut.first_prefix {d : Directive} (h : d.Cut post) :
    ¬ isDigit (first (List.replicate d.ls 108 ++ (d.size.toList ++ (d.conv.toList ++ post)))) := by
  cases hls : d.ls with
  | succ n => exact (by decide : ¬ isDigit 108)
  | zero =>
      rw [List.replicate_zero, List.nil_append]
      cases hs : d.size with
      | some c =>
          rcases h.size c hs with rfl | rfl
          · exact (by decide : ¬ isDigit 122)
          · exact (by decide : ¬ isDigit 106)
      | none =>
          rw [Option.toList_none, List.nil_append, h.first_conv]
          exact h.width_ends hls hs

theorem Directive.Cut.zpad_eq {d : Directive} (h : d.Cut post) :
    (first (d.width ++ (List.replicate d.ls 108 ++ (d.size.toList ++ (d.conv.toList ++ post)))) == 48) = d.zpad := by
  rw [Directive.zpad]
  cases hw : d.width with
  | cons c ds => rfl
  | nil =>
      have hne : first (List.replicate d.ls 108 ++ (d.size.toList ++ (d.conv.toList ++ post))) ≠ 48 := fun he =>
        h.first_prefix (by rw [he]; decide)
      rw [List.nil_append]
      exact beq_eq_false_iff_ne.mpr hne

/-- vgprintf takes a directive as a whole, to its last character, and prints it once. -/
theorem directive_scan {d : Directive} (h : d.Cut post) (s : Printing σ) (hfuel : d.text.length ≤ fuel) :
    directive putcfn (pre ++ (d.text ++ post)) args fuel pre.length s =
      some (pre.length + d.text.length - 1, after putcfn s ((Piece.directive d).print args s.ap)) := by
  have htext : pre ++ (d.text ++ post) =
      (pre ++ [37]) ++ (d.width ++ (List.replicate d.ls 108 ++ (d.size.toList ++ (d.conv.toList ++ post)))) := by
    simp only [Directive.text, List.append_assoc, List.cons_append, List.nil_append]
  have hlen : d.text.length = 1 + d.width.length + d.ls + d.size.toList.length + d.conv.toList.length := by
    simp only [Directive.text, List.length_cons, List.length_append, List.length_replicate]
    omega
  have hone : pre.length + 1 = (pre ++ [37]).length := by rw [List.length_append, List.length_singleton]
  have hwidth := widthLoop_scan d.width h.width h.first_prefix (pre ++ [37]) 0 (show d.width.length < fuel by omega)
  have hprefix := prefixLoop_scan d.ls h.first_size.1 (pre ++ [37] ++ d.width) 0 (show d.ls < fuel by omega)
  generalize hP : pre ++ [37] ++ d.width = P at hprefix
  have hsize : char (P ++ (List.replicate d.ls 108 ++ (d.size.toList ++ (d.conv.toList ++ post)))) (P.length + d.ls) =
      some (first (d.size.toList ++ (d.conv.toList ++ post))) := by
    refine char_of_split (P ++ List.replicate d.ls 108) (by rw [List.append_assoc]) ?_
    rw [List.length_append, List.length_replicate]
  have hpair : (if first (d.size.toList ++ (d.conv.toList ++ post)) = 122 ∨ first (d.size.toList ++ (d.conv.toList ++ post)) = 106
      then (P.length + d.ls + 1, 2) else (P.length + d.ls, 0 + d.ls)) = (P.length + d.ls + d.size.toList.length, d.lcnt) := by
    simp only [h.first_size.2, Directive.lcnt]
    cases d.size with
    | some c => rfl
    | none => rw [Nat.zero_add]; rfl
  have hconv : char (P ++ (List.replicate d.ls 108 ++ (d.size.toList ++ (d.conv.toList ++ post))))
      (P.length + d.ls + d.size.toList.length) = some (d.conv.getD 0) := by
    rw [← h.first_conv]
    refine char_of_split (P ++ List.replicate d.ls 108 ++ d.size.toList) (by simp only [List.append_assoc]) ?_
    simp only [List.length_append, List.length_replicate]
  have hlast : (if d.conv.getD 0 = 0 then P.length + d.ls + d.size.toList.length - 1 else P.length + d.ls + d.size.toList.length) =
      pre.length + d.text.length - 1 := by
    have hPlen : P.length = pre.length + 1 + d.width.length := by
      rw [← hP, List.length_append, List.length_append, List.length_singleton]
    cases hc : d.conv with
    | some c =>
        have hne : c ≠ 0 := h.conv c hc
        rw [hc, Option.toList_some, List.length_singleton] at hlen
        rw [Option.getD_some, if_neg hne]
        omega
    | none =>
        rw [hc, Option.toList_none, List.length_nil] at hlen
        rw [Option.getD_none, if_pos rfl]
        omega
  rw [directive, htext]
  dsimp only
  rw [hone, char_first, hwidth]
  simp only [Option.bind_eq_bind, Option.bind_some]
  rw [← List.append_assoc, ← List.length_append, hP, hprefix]
  simp only [Option.bind_some, hsize, hpair, hconv, convert_eq, h.zpad_eq]
  rw [hlast]
  rfl

theorem after_after (s : Printing σ) (r r' : List UInt8 × Nat) :
    after putcfn (after putcfn s r) r' = after putcfn s (r.1 ++ r'.1, r'.2) := by
  simp only [after, putAll_append, List.length_append, Nat.add_assoc]

theorem text_pos (d : Directive) : 0 < d.text.length := Nat.succ_pos _

/-- vgprintf goes through the pieces one after another and stops at the NUL. -/
theorem vgprintfLoop_scan {pieces : List Piece} (h : Scanned pieces rest) (pre : List UInt8) (s : Printing σ)
    (hfuel : rest.length < fuel) :
    vgprintfLoop putcfn (pre ++ rest) args fuel pre.length s = some (after putcfn s (printed args pieces s.ap)) := by
  induction h generalizing pre s fuel with
  | nil =>
      obtain ⟨fuel, rfl⟩ : ∃ f, fuel = f + 1 := ⟨fuel - 1, by omega⟩
      rw [vgprintfLoop, char_first]
      rfl
  | @lit c pieces rest hne h0 _ ih =>
      obtain ⟨fuel, rfl⟩ : ∃ f, fuel = f + 1 := ⟨fuel - 1, by omega⟩
      have hnext := ih (pre ++ [c]) (s.put putcfn c) (Nat.lt_of_succ_lt_succ hfuel)
      rw [List.append_assoc, List.singleton_append, List.length_append, List.length_singleton] at hnext
      rw [vgprintfLoop, char_first]
      simp only [Option.bind_eq_bind, Option.bind_some, show first (c :: rest) = c from rfl, if_neg h0, if_neg hne, hnext]
      exact congrArg some (after_after s ([c], s.ap) _)
  | @directive d pieces post hcut _ ih =>
      obtain ⟨fuel, rfl⟩ : ∃ f, fuel = f + 1 := ⟨fuel - 1, by omega⟩
      have hpos := text_pos d
      rw [List.length_append] at hfuel
      have hdir : directive putcfn (pre ++ (d.text ++ post)) args fuel pre.length s = _ := directive_scan hcut s (by omega)
      have hnext := ih (pre ++ d.text) (after putcfn s ((Piece.directive d).print args s.ap)) (show post.length < fuel by omega)
      rw [List.append_assoc, List.length_append] at hnext
      rw [vgprintfLoop, char_first]
      simp only [Option.bind_eq_bind, Option.bind_some, show first (d.text ++ post) = 37 from rfl, hdir,
        show (37 : UInt8) ≠ 0 by decide, if_true, if_false]
      rw [Nat.sub_add_cancel (by omega), hnext]
      exact congrArg some (after_after s _ _)

theorem exists_span (q : UInt8 → Prop) [DecidablePred q] (h0 : ¬ q 0) (l : List UInt8) :
    ∃ a b, l = a ++ b ∧ (∀ c ∈ a, q c) ∧ ¬ q (first b) := by
  induction l with
  | nil => exact ⟨[], [], rfl, fun c hc => (by cases hc), h0⟩
  | cons c l ih =>
      by_cases hc : q c
      · obtain ⟨a, b, rfl, ha, hb⟩ := ih
        refine ⟨c :: a, b, rfl, fun e he => ?_, hb⟩
        rcases List.mem_cons.mp he with rfl | he
        · exact hc
        · exact ha e he
      · exact ⟨[], c :: l, rfl, fun e he => (by cases he), hc⟩

theorem exists_size (l : List UInt8) : ∃ (size : Option UInt8) (b : List UInt8), l = size.toList ++ b ∧
    (∀ c ∈ size, c = 122 ∨ c = 106) ∧ (size = none → first b ≠ 122 ∧ first b ≠ 106) := by
  by_cases h : first l = 122 ∨ first l = 106
  · cases l with
    | nil => exact absurd h (by decide)
    | cons c l => exact ⟨some c, l, rfl, fun e he => Option.some.inj he ▸ h, fun hs => (by cases hs)⟩
  · exact ⟨none, l, rfl, fun e he => (by cases he), fun _ => not_or.mp h⟩

/-- What follows a % starts with a directive. -/
theorem exists_cut (l : List UInt8) (h0 : 0 ∉ l) : ∃ (d : Directive) (post : List UInt8), 37 :: l = d.text ++ post ∧ d.Cut post ∧ post <:+ l := by
  obtain ⟨width, l₁, rfl, hwidth, h₁⟩ := exists_span isDigit (by decide) l
  obtain ⟨ells, l₂, rfl, hells, h₂⟩ := exists_span (· = 108) (by decide) l₁
  obtain ⟨size, l₃, rfl, hsize, h₃⟩ := exists_size l₂
  have hrep : ells = List.replicate ells.length 108 := List.eq_replicate_iff.mpr ⟨rfl, hells⟩
  obtain ⟨conv, post, rfl, hconv, hends⟩ : ∃ (conv : Option UInt8) (post : List UInt8), l₃ = conv.toList ++ post ∧
      (∀ c ∈ conv, c ∈ l₃) ∧ (conv = none → post = []) := by
    cases l₃ with
    | nil => exact ⟨none, [], rfl, fun c hc => (by cases hc), fun _ => rfl⟩
    | cons c l => exact ⟨some c, l, rfl, fun e he => Option.some.inj he ▸ List.mem_cons_self, fun hc => (by cases hc)⟩
  have hfirst : first (conv.toList ++ post) = conv.getD 0 := by
    cases conv with
    | some c => rfl
    | none =>
        rw [hends rfl]
        rfl
  refine ⟨⟨width, ells.length, size, conv⟩, post, ?_, ⟨hwidth, hsize, fun c hc he => ?_, hends, fun hls hs => ?_, fun hs => ?_⟩, ?_⟩
  · simp only [Directive.text, ← hrep, List.cons_append, List.append_assoc]
  · subst he
    exact h0 (by simp [hconv 0 hc])
  · obtain rfl : size = none := hs
    obtain rfl : ells = [] := List.eq_nil_of_length_eq_zero hls
    rw [← hfirst]
    exact h₁
  · obtain rfl : size = none := hs
    obtain ⟨hz, hj⟩ := h₃ rfl
    rw [← hfirst]
    exact ⟨h₂, hz, hj⟩
  · exact ⟨width ++ (ells ++ (size.toList ++ conv.toList)), by simp only [List.append_assoc]⟩

theorem exists_scanned (fmt : List UInt8) (h0 : 0 ∉ fmt) : ∃ pieces, Scanned pieces fmt := by
  induction hn : fmt.length using Nat.strong_induction_on generalizing fmt with
  | _ n ih =>
      subst hn
      cases fmt with
      | nil => exact ⟨[], .nil⟩
      | cons c l =>
          have hl : 0 ∉ l := fun hm => h0 (List.mem_cons_of_mem _ hm)
          by_cases hc : c = 37
          · subst hc
            obtain ⟨d, post, htext, hcut, hsuf⟩ := exists_cut l hl
            have hlt : post.length < (37 :: l).length := Nat.lt_succ_of_le hsuf.length_le
            obtain ⟨pieces, hp⟩ := ih post.length hlt post (fun hm => hl (hsuf.subset hm)) rfl
            exact ⟨.directive d :: pieces, htext ▸ .directive hcut hp⟩
          · obtain ⟨pieces, hp⟩ := ih l.length (Nat.lt_succ_self _) l hl rfl
            exact ⟨.lit c :: pieces, .lit hc (fun he => h0 (he ▸ List.mem_cons_self)) hp⟩

theorem vgprintf_scan {pieces : List Piece} (h : Scanned pieces fmt) (putcfn : UInt8 → σ → σ) (aux : σ) (args : Args)
    (hfuel : fmt.length < fuel) : vgprintf putcfn aux fmt args fuel =
      some ((printed args pieces 0).1.length, putAll putcfn aux (printed args pieces 0).1) := by
  have hloop : vgprintfLoop putcfn ([] ++ fmt) args fuel ([] : List UInt8).length ⟨0, 0, aux⟩ = _ :=
    vgprintfLoop_scan h [] _ hfuel
  rw [List.nil_append, List.length_nil] at hloop
  rw [vgprintf, hloop, Option.map_some, after, Nat.zero_add]

end Scan

/-- The scan of every format string ends and reads nothing behind its NUL; each character is
printed as it stands or belongs to one directive, and they are taken in order. -/
theorem format_scanned_once (fmt : List UInt8) (h0 : 0 ∉ fmt) : ∃ pieces, Scanned pieces fmt ∧ pieces.flatMap Piece.text = fmt ∧
    ∀ (σ : Type) (putcfn : UInt8 → σ → σ) (aux : σ) (args : Args) (fuel : Nat), fmt.length < fuel →
      vgprintf putcfn aux fmt args fuel =
        some ((printed args pieces 0).1.length, putAll putcfn aux (printed args pieces 0).1) := by
  obtain ⟨pieces, hp⟩ := exists_scanned fmt h0
  exact ⟨pieces, hp, hp.text, fun σ putcfn aux args fuel hfuel => vgprintf_scan hp putcfn aux args hfuel⟩

/-- A directive in the middle, and one that the NUL cuts off. -/
theorem format_scanned_once_cutOff : ∃ pieces, pieces.flatMap Piece.text = [97, 37, 48, 52, 108, 100, 33, 37, 53, 108] ∧
    ∀ args : Args, vgprintf (fun c out => out ++ [c]) [] [97, 37, 48, 52, 108, 100, 33, 37, 53, 108] args 11 =
      some ((printed args pieces 0).1.length, putAll (fun c out => out ++ [c]) [] (printed args pieces 0).1) := by
  obtain ⟨pieces, -, htext, hr⟩ := format_scanned_once [97, 37, 48, 52, 108, 100, 33, 37, 53, 108] (by decide)
  exact ⟨pieces, htext, fun args => hr _ _ [] args 11 (by decide)⟩

section Bounded

theorem writeAt_cons (mem : Nat → UInt8) (a : Nat) (c : UInt8) (bs : List UInt8) :
    writeAt (Function.update mem a c) (a + 1) bs = writeAt mem a (c :: bs) := by
  rw [← writeAt_singleton]
  exact writeAt_append mem a [c] bs

theorem writeAt_concat (mem : Nat → UInt8) (a : Nat) (c : UInt8) (bs : List UInt8) :
    Function.update (writeAt mem a bs) (a + bs.length) c = writeAt mem a (bs ++ [c]) := by
  rw [← writeAt_singleton]
  exact writeAt_append mem a bs [c]

/-- vsnprintf_putc stores characters as long as there is room for a NUL after them. -/
theorem putAll_vsnprintfPutc (out : List UInt8) (mem : Nat → UInt8) (pos rem : Nat) :
    putAll vsnprintfPutc ⟨mem, pos, rem⟩ out =
      ⟨writeAt mem pos (out.take (rem - 1)), pos + (out.take (rem - 1)).length, rem - (out.take (rem - 1)).length⟩ := by
  induction out generalizing mem pos rem with
  | nil => rw [List.take_nil, writeAt_nil]; rfl
  | cons c out ih =>
      show putAll vsnprintfPutc (vsnprintfPutc c ⟨mem, pos, rem⟩) out = _
      by_cases hrem : rem ≤ 1
      · rw [vsnprintfPutc, if_pos hrem, ih, show rem - 1 = 0 by omega, List.take_zero, List.take_zero]
      · rw [vsnprintfPutc, if_neg hrem, ih]
        dsimp only
        rw [writeAt_cons, show rem - 1 = rem - 2 + 1 by omega, List.take_succ_cons, List.length_cons, Nat.add_sub_cancel,
          Nat.add_assoc, Nat.add_comm 1, VsnprintfState.mk.injEq]
        exact ⟨rfl, rfl, by omega⟩

/-- vsnprintf returns the number of characters that vgprintf prints, whatever the size of the
buffer, and leaves there as many of them as fit before a NUL. -/
theorem vsnprintf_truncates (fmt : List UInt8) (h0 : 0 ∉ fmt) (args : Args) (fuel : Nat) (hfuel : fmt.length < fuel) :
    ∃ out : List UInt8,
      (∀ (σ : Type) (putcfn : UInt8 → σ → σ) (aux : σ), vgprintf putcfn aux fmt args fuel =
        some (out.length, putAll putcfn aux out)) ∧
      ∀ mem buf bufsz, ∃ mem', vsnprintf mem buf bufsz fmt args fuel = some (out.length, mem') ∧
        (∀ a, a < buf ∨ buf + bufsz ≤ a → mem' a = mem a) ∧
        (0 < bufsz → readAt mem' buf (min out.length (bufsz - 1) + 1) = out.take (min out.length (bufsz - 1)) ++ [0]) := by
  obtain ⟨pieces, hp⟩ := exists_scanned fmt h0
  refine ⟨(printed args pieces 0).1, fun σ putcfn aux => vgprintf_scan hp putcfn aux args hfuel, fun mem buf bufsz => ?_⟩
  generalize hout : (printed args pieces 0).1 = out
  have hrun := vgprintf_scan hp vsnprintfPutc ⟨mem, buf, bufsz⟩ args hfuel
  rw [hout, putAll_vsnprintfPutc] at hrun
  have hlen : (out.take (bufsz - 1)).length = min out.length (bufsz - 1) := by rw [List.length_take, Nat.min_comm]
  by_cases hsz : bufsz = 0
  · refine ⟨mem, ?_, fun a _ => rfl, fun h => absurd hsz (by omega)⟩
    rw [vsnprintf, hrun, hsz, Nat.zero_sub, List.take_zero, writeAt_nil]
    rfl
  · have hmem : vsnprintf mem buf bufsz fmt args fuel = some (out.length, writeAt mem buf (out.take (bufsz - 1) ++ [0])) := by
      rw [vsnprintf, hrun, Option.map_some]
      dsimp only
      rw [if_pos (by omega), writeAt_concat]
    refine ⟨_, hmem, fun a ha => writeAt_outside ?_, fun _ => ?_⟩
    · rw [List.length_append, List.length_singleton]
      omega
    · have hread := readAt_writeAt mem buf (out.take (bufsz - 1) ++ [0])
      rw [List.length_append, List.length_singleton, hlen] at hread
      rw [hread, Nat.min_comm, ← List.take_eq_take_min]

/-- A number that does not fit. -/
def minusFortyTwo : Args := ⟨fun _ => -42, fun _ => none⟩

theorem vsnprintf_truncates_fourBytes :
    (vsnprintf (fun _ => 7) 100 4 [37, 48, 52, 100, 33] minusFortyTwo 6).map (fun r => (r.1, readAt r.2 100 5)) =
      some (5, [45, 48, 52, 0, 7]) ∧
    ∃ (out : List UInt8) (mem' : Nat → UInt8),
      vsnprintf (fun _ => 7) 100 4 [37, 48, 52, 100, 33] minusFortyTwo 6 = some (out.length, mem') ∧
      readAt mem' 100 (min out.length 3 + 1) = out.take (min out.length 3) ++ [0] := by
  obtain ⟨out, -, hr⟩ := vsnprintf_truncates [37, 48, 52, 100, 33] (by decide) minusFortyTwo 6 (by decide)
  obtain ⟨mem', he, -, hread⟩ := hr (fun _ => 7) 100 4
  exact ⟨by decide +kernel, out, mem', he, hread (by decide)⟩

end Bounded

end RiscvKernel.FormatScan
