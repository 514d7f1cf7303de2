import RiscvKernel.Lib.LinkedList

namespace RiscvKernel.Thread

open Lib.LinkedList

/-- Address of a struct thread. -/
abbrev Ptr := Nat

def mainThread : Ptr := 0

def idleThread : Ptr := 1

inductive ThreadState
  | uninitialized | stopped | waiting | running | ready | exited
  deriving DecidableEq, Repr

/-- Address of a struct condition: the child_exit of a thread, or one of the
conditions outside thread.c. -/
inductive Cond
  | childExit (t : Ptr)
  | ext (n : Nat)
  deriving DecidableEq, Repr

structure ThreadList where
  head : Option Ptr
  tail : Option Ptr
  deriving DecidableEq, Repr

/-- The list_next member of every struct thread. -/
abbrev Links := Ptr → Option Ptr

def tlclear : ThreadList := ⟨none, none⟩

def tlempty (list : ThreadList) : Bool := list.head.isNone

/-- tlinsert: none when an assertion fails. -/
def tlinsert (next : Links) (list : ThreadList) (thr : Ptr) : Option (Links × ThreadList) :=
  let next := Function.update next thr none
  match list.tail with
  | some tail =>
      if list.head.isSome then some (Function.update next tail (some thr), ⟨list.head, some thr⟩) else none
  | none => if list.head.isNone then some (next, ⟨some thr, some thr⟩) else none

def tlremove (next : Links) (list : ThreadList) : Links × ThreadList × Option Ptr :=
  match list.head with
  | none => (next, list, none)
  | some thr =>
      (Function.update next thr none, ⟨next thr, if (next thr).isSome then list.tail else none⟩, some thr)

/-- tlappend: the links, l0 and l1 after it, none when an assertion fails. -/
def tlappend (next : Links) (l0 l1 : ThreadList) : Option (Links × ThreadList × ThreadList) :=
  match l0.head, l0.tail with
  | some _, none => none
  | some _, some tail =>
      match l1.head, l1.tail with
      | some _, none => none
      | some head, some tail' => some (Function.update next tail (some head), ⟨l0.head, some tail'⟩, tlclear)
      | none, _ => some (next, l0, tlclear)
  | none, some _ => none
  | none, none => some (next, l1, tlclear)

/-- The threads of a well-formed list, from head to tail. -/
def IsList (next : Links) (list : ThreadList) (l : List Ptr) : Prop :=
  Linked (fun w => w) next list.head l ∧ list.tail = l.getLast?

section Lists

variable {next next' : Links} {list l0 l1 : ThreadList} {l xs ys : List Ptr} {p : Ptr}

theorem isList_tlclear (next : Links) : IsList next tlclear [] := ⟨rfl, rfl⟩

/-- A list is where its threads are. -/
theorem IsList.congr (h : IsList next list l) (hn : ∀ p ∈ l, next' p = next p) : IsList next' list l :=
  ⟨h.1.congr hn, h.2⟩

theorem IsList.tlempty_iff (h : IsList next list l) : tlempty list = true ↔ l = [] := by
  cases l with
  | nil => exact iff_of_true (by rw [tlempty, Option.isNone_iff_eq_none]; exact h.1) rfl
  | cons p l => simp [tlempty, show list.head = some p from h.1.1]

theorem IsList.head (h : IsList next list l) : list.head = l.head? := by
  cases l with
  | nil => exact h.1
  | cons p l => exact h.1.1

theorem tlinsert_isList (h : IsList next list l) (hnd : l.Nodup) (hp : p ∉ l) :
    ∃ next' list', tlinsert next list p = some (next', list') ∧ IsList next' list' (l ++ [p]) ∧
      ∀ q, q ≠ p → q ∉ l → next' q = next q := by
  have hh := h.head
  have ht := h.2
  rcases List.eq_nil_or_concat' l with rfl | ⟨l, t, rfl⟩
  · refine ⟨Function.update next p none, ⟨some p, some p⟩, ?_, ⟨⟨rfl, ?_⟩, rfl⟩, fun q hq _ => ?_⟩
    · rw [tlinsert, ht, hh]
      rfl
    · rw [Function.update_self]
      rfl
    · rw [Function.update_of_ne hq]
  · have hne : p ≠ t := fun he => hp (by simp [he])
    obtain ⟨-, -, hdisj⟩ := List.nodup_append.mp hnd
    have htl : t ∉ l := fun hm => hdisj t hm t (by simp) rfl
    have hlink := @Linked.update _ _ _ _ _ none _ _ _ h.1 hp
    refine ⟨Function.update (Function.update next p none) t (some p), ⟨list.head, some p⟩, ?_, ⟨?_, ?_⟩,
      fun q hq hm => ?_⟩
    · rw [tlinsert, ht, List.getLast?_concat, hh]
      cases l <;> rfl
    · rw [List.append_assoc]
      have hone : Linked id (Function.update next p none) (some p) [p] := ⟨rfl, by rw [Function.update_self]; rfl⟩
      exact hlink.join hone htl (by simpa using Ne.symm hne)
    · rw [List.getLast?_concat]
    · rw [Function.update_of_ne (fun he => hm (by simp [he])), Function.update_of_ne hq]

theorem tlremove_isList (h : IsList next list (p :: l)) (hnd : (p :: l).Nodup) :
    ∃ next' list', tlremove next list = (next', list', some p) ∧ IsList next' list' l ∧
      ∀ q, q ≠ p → next' q = next q := by
  have hp : p ∉ l := (List.nodup_cons.mp hnd).1
  refine ⟨Function.update next p none, ⟨next p, if (next p).isSome then list.tail else none⟩, ?_,
    ⟨h.1.2.update hp, ?_⟩, fun q hq => Function.update_of_ne hq _ _⟩
  · rw [tlremove, show list.head = some p from h.1.1]
  · cases l with
    | nil => rw [show next p = none from h.1.2]; rfl
    | cons q l => rw [show next p = some q from h.1.2.1, h.2]; rfl

theorem tlappend_isList (h₀ : IsList next l0 xs) (h₁ : IsList next l1 ys) (hnd : xs.Nodup)
    (hdisj : ∀ q ∈ xs, q ∉ ys) :
    ∃ next' l', tlappend next l0 l1 = some (next', l', tlclear) ∧ IsList next' l' (xs ++ ys) ∧
      ∀ q ∉ xs, next' q = next q := by
  have hh₀ := h₀.head
  have ht₀ := h₀.2
  have hh₁ := h₁.head
  have ht₁ := h₁.2
  rcases List.eq_nil_or_concat' xs with rfl | ⟨xs, t, rfl⟩
  · refine ⟨next, l1, ?_, h₁, fun q _ => rfl⟩
    rw [tlappend, hh₀, ht₀]
    rfl
  · have hhead : ∃ h, l0.head = some h := by
      rw [hh₀]
      cases xs <;> exact ⟨_, rfl⟩
    obtain ⟨hd, hhead⟩ := hhead
    rw [List.getLast?_concat] at ht₀
    rcases List.eq_nil_or_concat' ys with rfl | ⟨ys, u, rfl⟩
    · refine ⟨next, l0, ?_, by rw [List.append_nil]; exact h₀, fun q _ => rfl⟩
      rw [tlappend, hhead, ht₀, hh₁, ht₁]
      rfl
    · have hhead' : ∃ h, l1.head = some h := by
        rw [hh₁]
        cases ys <;> exact ⟨_, rfl⟩
      obtain ⟨hd', hhead'⟩ := hhead'
      rw [List.getLast?_concat] at ht₁
      obtain ⟨-, -, hx⟩ := List.nodup_append.mp hnd
      have htx : t ∉ xs := fun hm => hx t hm t (by simp) rfl
      refine ⟨Function.update next t l1.head, ⟨l0.head, some u⟩, ?_, ⟨?_, ?_⟩, fun q hq => ?_⟩
      · rw [tlappend, hhead, ht₀, hhead', ht₁]
      · rw [List.append_assoc]
        exact h₀.1.join h₁.1 htx (hdisj t (by simp))
      · rw [← List.append_assoc, List.getLast?_concat]
      · exact Function.update_of_ne (fun he => hq (by simp [he])) _ _

/-- Two well-formed lists without a common thread. -/
structure Apart (next : Links) (l0 l1 : ThreadList) (xs ys : List Ptr) : Prop where
  left : IsList next l0 xs
  right : IsList next l1 ys
  nodup : (xs ++ ys).Nodup

theorem Apart.not_mem_left (h : Apart next l0 l1 xs ys) (hp : p ∈ ys) : p ∉ xs :=
  fun hx => (List.nodup_append.mp h.nodup).2.2 p hx p hp rfl

theorem Apart.insert (h : Apart next l0 l1 xs ys) (hp : p ∉ xs ++ ys) :
    ∃ next' l0', tlinsert next l0 p = some (next', l0') ∧ Apart next' l0' l1 (xs ++ [p]) ys ∧
      ∀ q ∉ p :: (xs ++ ys), next' q = next q := by
  rw [List.mem_append, not_or] at hp
  obtain ⟨next', l0', he, hl, hframe⟩ := tlinsert_isList h.left (List.nodup_append.mp h.nodup).1 hp.1
  refine ⟨next', l0', he, ⟨hl, h.right.congr fun q hq => ?_, ?_⟩, fun q hq => ?_⟩
  · exact hframe q (fun heq => hp.2 (heq ▸ hq)) (h.not_mem_left hq)
  · rw [List.append_assoc, List.singleton_append]
    exact List.nodup_middle.mpr (List.nodup_cons.mpr ⟨by simp [hp], h.nodup⟩)
  · simp only [List.mem_cons, List.mem_append, not_or] at hq
    exact hframe q hq.1 hq.2.1

theorem Apart.remove (h : Apart next l0 l1 xs ys) :
    ∃ next' l0', tlremove next l0 = (next', l0', xs.head?) ∧ Apart next' l0' l1 xs.tail ys ∧
      (∀ q ∈ xs.head?, next' q = none) ∧ ∀ q ∉ xs ++ ys, next' q = next q := by
  cases xs with
  | nil =>
      have hh : l0.head = none := h.left.head
      exact ⟨next, l0, by rw [tlremove, hh]; rfl, h, fun q hq => absurd hq (by simp), fun q _ => rfl⟩
  | cons p xs =>
      have hnd : (p :: xs).Nodup := (List.nodup_append.mp h.nodup).1
      obtain ⟨next', l0', he, hl, hframe⟩ := tlremove_isList h.left hnd
      have hnext : next' = Function.update next p none := by
        rw [tlremove, show l0.head = some p from h.left.1.1] at he
        exact (congrArg Prod.fst he).symm
      refine ⟨next', l0', he, ⟨hl, h.right.congr fun q hq => hframe q ?_, ?_⟩, fun q hq => ?_, fun q hq => hframe q ?_⟩
      · rintro rfl
        exact h.not_mem_left hq List.mem_cons_self
      · exact (List.nodup_cons.mp h.nodup).2
      · obtain rfl : p = q := Option.some.inj hq
        rw [hnext, Function.update_self]
      · rintro rfl
        exact hq List.mem_cons_self

theorem Apart.append (h : Apart next l0 l1 xs ys) :
    ∃ next' l0' l1', tlappend next l0 l1 = some (next', l0', l1') ∧ Apart next' l0' l1' (xs ++ ys) [] ∧
      ∀ q ∉ xs ++ ys, next' q = next q := by
  obtain ⟨hx, -, hdisj⟩ := List.nodup_append.mp h.nodup
  obtain ⟨next', l0', he, hl, hframe⟩ := tlappend_isList h.left h.right hx fun q hq hy => hdisj q hq q hy rfl
  refine ⟨next', l0', tlclear, he, ⟨hl, isList_tlclear next', ?_⟩, fun q hq => hframe q ?_⟩
  · rw [List.append_nil]
    exact h.nodup
  · exact fun hm => hq (List.mem_append_left ys hm)

/-- The operations on thread lists are those on sequences: no assertion fails, two lists that
are well-formed and disjoint stay so, and the links of all other threads are left alone. -/
theorem thread_lists_are_sequences (h : Apart next l0 l1 xs ys) :
    (∀ thr ∉ xs ++ ys, ∃ next' l0', tlinsert next l0 thr = some (next', l0') ∧ Apart next' l0' l1 (xs ++ [thr]) ys ∧
      ∀ q ∉ thr :: (xs ++ ys), next' q = next q) ∧
    (∃ next' l0', tlremove next l0 = (next', l0', xs.head?) ∧ Apart next' l0' l1 xs.tail ys ∧
      (∀ thr ∈ xs.head?, next' thr = none) ∧ ∀ q ∉ xs ++ ys, next' q = next q) ∧
    (∃ next' l0' l1', tlappend next l0 l1 = some (next', l0', l1') ∧ Apart next' l0' l1' (xs ++ ys) [] ∧
      ∀ q ∉ xs ++ ys, next' q = next q) := by
  refine ⟨fun thr hthr => h.insert hthr, h.remove, h.append⟩

/-- Thread 2 before thread 3 on one list, thread 4 on the other. -/
def twoLists : Links := Function.update (fun _ => none) 2 (some 3)

theorem thread_lists_are_sequences_twoLists : Apart twoLists ⟨some 2, some 3⟩ ⟨some 4, some 4⟩ [2, 3] [4] ∧
    ∃ next' l0' l1', tlappend twoLists ⟨some 2, some 3⟩ ⟨some 4, some 4⟩ = some (next', l0', l1') ∧
      Apart next' l0' l1' [2, 3, 4] [] := by
  have h : Apart twoLists ⟨some 2, some 3⟩ ⟨some 4, some 4⟩ [2, 3] [4] :=
    ⟨⟨⟨rfl, rfl, rfl⟩, rfl⟩, ⟨⟨rfl, rfl⟩, rfl⟩, by decide⟩
  obtain ⟨-, -, next', l0', l1', he, ha, -⟩ := thread_lists_are_sequences h
  exact ⟨h, next', l0', l1', he, ha⟩

end Lists

end RiscvKernel.Thread
