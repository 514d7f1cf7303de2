import RiscvKernel.Io

namespace RiscvKernel.VirtioFeatures

open Io

/-- virtio_featset_t, of VIRTIO_FEATLEN words. -/
abbrev Featset := Fin 4 → BitVec 32

def virtioFIndirectDesc : Fin 128 := 28

def virtioFRingReset : Fin 128 := 40

def virtioBlkFBlkSize : Fin 128 := 6

def virtioBlkFTopology : Fin 128 := 10

def word (k : Fin 128) : Fin 4 := ⟨k / 32, by omega⟩

def virtioFeatsetInit (_fts : Featset) : Featset := fun _ => 0

def virtioFeatsetAdd (fts : Featset) (k : Fin 128) : Featset :=
  Function.update fts (word k) (fts (word k) ||| 1#32 <<< (k.val % 32))

def virtioFeatsetTest (fts : Featset) (k : Fin 128) : Bool := (fts (word k) >>> (k.val % 32)) &&& 1 ≠ 0

/-- The features a are among the features b. -/
def Subset (a b : Featset) : Prop := ∀ i, b i &&& a i = a i

instance (a b : Featset) : Decidable (Subset a b) := inferInstanceAs (Decidable (∀ i, b i &&& a i = a i))

def statFeaturesOk : BitVec 32 := 1 <<< 3

/-- The registers of the device that the negotiation writes; of driver_features the value that
was written last for each word. -/
structure Regs where
  deviceFeaturesSel : Fin 4
  driverFeaturesSel : Fin 4
  driverFeatures : Fin 4 → Option (BitVec 32)
  status : BitVec 32

/-- A device: the features that device_features shows, and whether it leaves FEATURES_OK set. -/
structure Device where
  offered : Featset
  featuresOk : Bool

/-- What status shows after FEATURES_OK was written to it. -/
def setFeaturesOk (dev : Device) (status : BitVec 32) : BitVec 32 :=
  if dev.featuresOk then status ||| statFeaturesOk else status &&& ~~~statFeaturesOk

def needLoop (dev : Device) (needed : Featset) : List (Fin 4) → Regs → Except Regs Regs
  | [], regs => .ok regs
  | i :: is, regs =>
      if needed i ≠ 0 then
        let regs := { regs with deviceFeaturesSel := i }
        if dev.offered regs.deviceFeaturesSel &&& needed i ≠ needed i then .error regs else needLoop dev needed is regs
      else needLoop dev needed is regs

def wantLoop (dev : Device) (wanted : Featset) : List (Fin 4) → Featset → Regs → Featset × Regs
  | [], enabled, regs => (enabled, regs)
  | i :: is, enabled, regs =>
      if wanted i ≠ 0 then
        let regs := { regs with deviceFeaturesSel := i, driverFeaturesSel := i }
        let enabled := Function.update enabled i (dev.offered regs.deviceFeaturesSel &&& wanted i)
        wantLoop dev wanted is enabled
          { regs with driverFeatures := Function.update regs.driverFeatures regs.driverFeaturesSel (some (enabled i)) }
      else wantLoop dev wanted is enabled regs

/-- virtio_negotiate_features: the result, the array enabled and the registers; none when the
assertion fails. -/
def virtioNegotiateFeatures (dev : Device) (regs : Regs) (enabled wanted needed : Featset) : Option (Int × Featset × Regs) :=
  match needLoop dev needed (List.finRange 4) regs with
  | .error regs => some (-enotsup, enabled, regs)
  | .ok regs =>
      let (enabled, regs) := wantLoop dev wanted (List.finRange 4) enabled regs
      let status := setFeaturesOk dev regs.status
      if status &&& statFeaturesOk = 0 then none else some (0, enabled, { regs with status })

/-- needed_features of vioblk_attach, whatever was on the stack. -/
def neededFeatures (stack : Featset) : Featset :=
  virtioFeatsetAdd (virtioFeatsetAdd (virtioFeatsetInit stack) virtioFRingReset) virtioFIndirectDesc

def wantedFeatures (stack : Featset) : Featset :=
  virtioFeatsetAdd (virtioFeatsetAdd (virtioFeatsetInit stack) virtioBlkFBlkSize) virtioBlkFTopology

/-- The call of vioblk_attach, with what is on the stack in its three arrays. -/
def vioblkNegotiate (dev : Device) (regs : Regs) (enabled wanted needed : Featset) : Option (Int × Featset × Regs) :=
  virtioNegotiateFeatures dev regs enabled (wantedFeatures wanted) (neededFeatures needed)

section Loops

variable {dev : Device} {wanted needed : Featset}

/-- The first loop goes through if all words of needed are offered, and writes no features. -/
theorem needLoop_spec (is : List (Fin 4)) (regs : Regs) :
    (∀ i ∈ is, dev.offered i &&& needed i = needed i) ∧
        (∃ regs', needLoop dev needed is regs = .ok regs' ∧ regs'.driverFeatures = regs.driverFeatures) ∨
      (¬ ∀ i ∈ is, dev.offered i &&& needed i = needed i) ∧ ∃ regs', needLoop dev needed is regs = .error regs' := by
  induction is generalizing regs with
  | nil => exact .inl ⟨fun i hi => absurd hi List.not_mem_nil, regs, rfl, rfl⟩
  | cons i is ih =>
      rw [List.forall_mem_cons, needLoop]
      by_cases hz : needed i = 0
      · have hi : dev.offered i &&& needed i = needed i := by simp [hz]
        rw [if_neg (not_not.mpr hz), and_iff_right hi]
        exact ih regs
      · rw [if_pos hz]
        simp only
        by_cases hs : dev.offered i &&& needed i = needed i
        · rw [if_neg (not_not.mpr hs), and_iff_right hs]
          exact ih { regs with deviceFeaturesSel := i }
        · rw [if_pos hs]
          exact .inr ⟨fun h => hs h.1, _, rfl⟩

/-- The words that something is wanted of are enabled and written, the others stay as they are. -/
theorem wantLoop_spec (is : List (Fin 4)) (enabled : Featset) (regs : Regs) (j : Fin 4) :
    (wantLoop dev wanted is enabled regs).1 j =
        (if j ∈ is ∧ wanted j ≠ 0 then dev.offered j &&& wanted j else enabled j) ∧
      (wantLoop dev wanted is enabled regs).2.driverFeatures j =
        if j ∈ is ∧ wanted j ≠ 0 then some (dev.offered j &&& wanted j) else regs.driverFeatures j := by
  induction is generalizing enabled regs with
  | nil => simp [wantLoop]
  | cons i is ih =>
      rw [wantLoop]
      by_cases hz : wanted i = 0
      · rw [if_neg (not_not.mpr hz)]
        obtain ⟨he, hd⟩ := ih enabled regs
        rw [he, hd]
        have hiff : j ∈ i :: is ∧ wanted j ≠ 0 ↔ j ∈ is ∧ wanted j ≠ 0 := by
          refine and_congr_left fun hj => ?_
          rw [List.mem_cons]
          refine or_iff_right fun hji => hj ?_
          rw [hji, hz]
        simp only [hiff, and_self]
      · rw [if_pos hz]
        simp only [Function.update_self]
        obtain ⟨he, hd⟩ := ih (Function.update enabled i (dev.offered i &&& wanted i))
          { regs with deviceFeaturesSel := i, driverFeaturesSel := i, driverFeatures := Function.update regs.driverFeatures i (some (dev.offered i &&& wanted i)) }
        rw [he, hd]
        by_cases hji : j = i
        · subst hji
          simp only [Function.update_self, ite_self, hz, ne_eq, not_false_eq_true, List.mem_cons_self, and_self, if_true]
        · simp [hji]

theorem setFeaturesOk_clear (dev : Device) (status : BitVec 32) :
    setFeaturesOk dev status &&& statFeaturesOk = 0 ↔ dev.featuresOk = false := by
  cases hok : dev.featuresOk with
  | false =>
      rw [setFeaturesOk, hok, if_neg Bool.false_ne_true, BitVec.and_assoc, BitVec.and_comm (~~~statFeaturesOk)]
      simp
  | true =>
      have hbit : ((status ||| statFeaturesOk) &&& statFeaturesOk).getLsbD 3 = true := by
        simp [statFeaturesOk]
      rw [setFeaturesOk, hok, if_pos rfl]
      refine iff_of_false (fun hz => ?_) (Ne.symm Bool.false_ne_true)
      rw [hz] at hbit
      cases hbit

/-- What virtio_negotiate_features does with any two sets of features: without the needed ones
it returns -ENOTSUP and enables nothing, otherwise it enables the wanted ones. -/
theorem virtioNegotiateFeatures_spec (dev : Device) (regs : Regs) (enabled wanted needed : Featset) :
    (¬ Subset needed dev.offered ∧ ∃ regs',
        virtioNegotiateFeatures dev regs enabled wanted needed = some (-enotsup, enabled, regs')) ∨
      (Subset needed dev.offered ∧ dev.featuresOk = false ∧
        virtioNegotiateFeatures dev regs enabled wanted needed = none) ∨
      Subset needed dev.offered ∧ dev.featuresOk = true ∧ ∃ enabled' regs',
        virtioNegotiateFeatures dev regs enabled wanted needed = some (0, enabled', regs') ∧
        (∀ j, enabled' j = if wanted j ≠ 0 then dev.offered j &&& wanted j else enabled j) ∧
        ∀ j, regs'.driverFeatures j = if wanted j ≠ 0 then some (dev.offered j &&& wanted j) else regs.driverFeatures j := by
  unfold virtioNegotiateFeatures
  rcases @needLoop_spec dev needed (List.finRange 4) regs with ⟨hn, regs₁, he, hd⟩ | ⟨hn, regs₁, he⟩
  · have hsub : Subset needed dev.offered := fun i => hn i (List.mem_finRange i)
    have hspec := @wantLoop_spec dev wanted (List.finRange 4) enabled regs₁
    rw [he]
    simp only
    cases hok : dev.featuresOk with
    | false =>
        refine .inr (.inl ⟨hsub, rfl, ?_⟩)
        exact if_pos ((setFeaturesOk_clear dev _).mpr hok)
    | true =>
        have hset : ∀ status, ¬ setFeaturesOk dev status &&& statFeaturesOk = 0 := fun status hz => by
          rw [(setFeaturesOk_clear dev status).mp hz] at hok
          cases hok
        rw [if_neg (hset _)]
        refine .inr (.inr ⟨hsub, rfl, _, _, rfl, fun j => ?_, fun j => ?_⟩)
        · rw [(hspec j).1]
          simp
        · simp only [(hspec j).2, hd]
          simp
  · refine .inl ⟨fun h => hn fun i _ => h i, regs₁, ?_⟩
    rw [he]

end Loops

/-- What the driver wants from a negotiation that succeeds. -/
structure Negotiated (dev : Device) (needed enabled : Featset) (regs : Regs) : Prop where
  needed : Subset needed enabled
  offered : Subset enabled dev.offered
  written : ∀ i, regs.driverFeatures i = some (enabled i)

/-- The negotiation of vioblk_attach returns 0 only if the needed features are enabled then, and
what it leaves in enabled does not depend on what was there before. -/
structure EnablesNeeded (dev : Device) (regs : Regs) (wanted needed : Featset) : Prop where
  enables : ∀ prior enabled regs', vioblkNegotiate dev regs prior wanted needed = some (0, enabled, regs') →
    Negotiated dev (neededFeatures needed) enabled regs'
  defines : ∀ prior prior' result result' enabled enabled' regs' regs'',
    vioblkNegotiate dev regs prior wanted needed = some (result, enabled, regs') →
    vioblkNegotiate dev regs prior' wanted needed = some (result', enabled', regs'') → enabled = enabled'

section Sets

theorem neededFeatures_eq (stack : Featset) : neededFeatures stack = ![1#32 <<< 28, 1#32 <<< 8, 0, 0] := by
  show neededFeatures (fun _ => 0) = _
  decide

theorem wantedFeatures_eq (stack : Featset) : wantedFeatures stack = ![1#32 <<< 6 ||| 1#32 <<< 10, 0, 0, 0] := by
  show wantedFeatures (fun _ => 0) = _
  decide

/-- The needed feature of the first word is not among the wanted ones. -/
theorem not_subset_wanted (wanted needed enabled offered : Featset) (he : enabled 0 = offered 0 &&& wantedFeatures wanted 0) :
    ¬ Subset (neededFeatures needed) enabled := by
  intro h
  have hbit := congrArg (fun w => w.getLsbD 28) (h 0)
  rw [he, neededFeatures_eq, wantedFeatures_eq] at hbit
  simp at hbit

/-- The negotiation of vioblk_attach does what the driver needs only where the call does not
return at all, since a device that offers both features refuses FEATURES_OK. -/
theorem enablesNeeded_iff (dev : Device) (regs : Regs) (wanted needed : Featset) :
    EnablesNeeded dev regs wanted needed ↔ Subset (neededFeatures needed) dev.offered ∧ dev.featuresOk = false := by
  have hspec := fun prior => virtioNegotiateFeatures_spec dev regs prior (wantedFeatures wanted) (neededFeatures needed)
  constructor
  · intro h
    rcases hspec fun _ => 0 with ⟨hsub, regs', he⟩ | ⟨hsub, hok, he⟩ | ⟨hsub, hok, enabled, regs', he, hen, -⟩
    · obtain ⟨-, regs'', he'⟩ := (hspec fun _ => 1).resolve_right fun hs => by
        rcases hs with hs | hs <;> exact hsub hs.1
      exact absurd (congrFun (h.defines _ _ _ _ _ _ _ _ he he') 0) (by decide)
    · exact ⟨hsub, hok⟩
    · have hwanted : wantedFeatures wanted 0 ≠ 0 := by
        rw [wantedFeatures_eq]
        decide
      have h₀ := hen 0
      rw [if_pos hwanted] at h₀
      exact absurd (h.enables _ _ _ he).needed (not_subset_wanted wanted needed enabled dev.offered h₀)
  · rintro ⟨hsub, hok⟩
    have hnone : ∀ prior, vioblkNegotiate dev regs prior wanted needed = none := fun prior => by
      rcases hspec prior with ⟨hn, -⟩ | ⟨-, -, he⟩ | ⟨-, hok', -⟩
      · exact absurd hsub hn
      · exact he
      · rw [hok] at hok'
        cases hok'
    refine ⟨fun prior enabled regs' he => ?_, fun prior prior' r r' e e' regs' regs'' he => ?_⟩
    · rw [hnone] at he
      cases he
    · rw [hnone] at he
      cases he

end Sets

/-- A device that offers every feature. -/
def offersAll : Device := ⟨fun _ => BitVec.allOnes 32, true⟩

def regsAtReset : Regs := ⟨0, 0, fun _ => none, 0⟩

theorem not_enablesNeeded_offersAll : ¬ EnablesNeeded offersAll regsAtReset (fun _ => 0) fun _ => 0 := by
  intro h
  have hr : ((vioblkNegotiate offersAll regsAtReset (fun _ => 0) (fun _ => 0) fun _ => 0).map fun r => (r.1, r.2.1 0)) =
      some ((0 : Int), 1#32 <<< 6 ||| 1#32 <<< 10) := by decide +kernel
  cases hn : vioblkNegotiate offersAll regsAtReset (fun _ => 0) (fun _ => 0) fun _ => 0 with
  | none =>
      rw [hn] at hr
      cases hr
  | some r =>
      obtain ⟨result, enabled, regs'⟩ := r
      rw [hn] at hr
      obtain ⟨rfl, he⟩ := Prod.mk.inj (Option.some.inj hr)
      have he' : enabled 0 = 1#32 <<< 6 ||| 1#32 <<< 10 := he
      have h₀ := (h.enables _ _ _ hn).needed 0
      rw [he'] at h₀
      revert h₀
      decide +kernel

end RiscvKernel.VirtioFeatures
