import Atproto.Identity.Webvh.Proof
import Mathlib.Algebra.Order.BigOperators.Group.Finset

/-!
# The threshold of the witnesses

The weights of the proofs are added up one proof after another, so a witness counts as often
as its proofs are repeated.  The threshold counts every witness once exactly when the weights of
the different witnesses reach it, or no proof has a weight.
-/

namespace Atproto.Identity.Webvh

open Atproto.Dasl Atproto.Repo

/-! ### Sums of weights -/

/-- The weights of some first proofs reach a threshold, in 64 bits. -/
def Reaches (threshold start : Nat) (weights : List Nat) : Prop :=
  ∃ part, part ≠ [] ∧ part <+: weights ∧ threshold ≤ (start + part.sum) % 2 ^ 64

variable {threshold start weight : Nat} {weights : List Nat}

theorem not_reaches_nil :
  ¬ Reaches threshold start []
  := by
  rintro ⟨part, hpart, hprefix, -⟩
  exact hpart (List.prefix_nil.mp hprefix)

theorem reaches_cons :
  Reaches threshold start (weight :: weights) ↔
    threshold ≤ (start + weight) % 2 ^ 64 ∨
      Reaches threshold ((start + weight) % 2 ^ 64) weights
  := by
  constructor
  · rintro ⟨part, hpart, hprefix, hle⟩
    obtain ⟨first, rest, rfl⟩ := List.exists_cons_of_ne_nil hpart
    obtain ⟨rfl, hrest⟩ := List.cons_prefix_cons.mp hprefix
    rw [List.sum_cons, ← Nat.add_assoc] at hle
    by_cases hnil : rest = []
    · subst hnil
      exact Or.inl hle
    · rw [← Nat.mod_add_mod] at hle
      exact Or.inr ⟨rest, hnil, hrest, hle⟩
  · rintro (hle | ⟨part, hpart, hprefix, hle⟩)
    · refine ⟨[weight], nofun, List.cons_prefix_cons.mpr ⟨rfl, List.nil_prefix⟩, ?_⟩
      rwa [List.sum_singleton]
    · refine ⟨weight :: part, nofun, List.cons_prefix_cons.mpr ⟨rfl, hprefix⟩, ?_⟩
      rwa [List.sum_cons, ← Nat.add_assoc, ← Nat.mod_add_mod]

theorem Reaches.append (h : Reaches threshold start weights) (more : List Nat) :
  Reaches threshold start (weights ++ more)
  := by
  obtain ⟨part, hpart, hprefix, hle⟩ := h
  exact ⟨part, hpart, hprefix.trans (List.prefix_append weights more), hle⟩

/-- Weights that do not reach the threshold, followed by one weight again and again. -/
theorem reaches_append_replicate {n : Nat} (hnot : ¬ Reaches threshold 0 weights) :
  Reaches threshold 0 (weights ++ List.replicate n weight) ↔
    ∃ k, 0 < k ∧ k ≤ n ∧ threshold ≤ (weights.sum + k * weight) % 2 ^ 64
  := by
  constructor
  · rintro ⟨part, hpart, hprefix, hle⟩
    rcases List.prefix_or_prefix_of_prefix hprefix (List.prefix_append weights _) with hfirst | hall
    · exact absurd ⟨part, hpart, hfirst, hle⟩ hnot
    · obtain ⟨rest, rfl⟩ := hall
      obtain ⟨hlength, hrest⟩ :=
        List.prefix_replicate_iff.mp ((List.prefix_append_right_inj weights).mp hprefix)
      rw [Nat.zero_add, List.sum_append, hrest, List.sum_replicate_nat] at hle
      refine ⟨rest.length, ?_, hlength, hle⟩
      by_contra hzero
      have hnil : rest = [] := List.length_eq_zero_iff.mp (Nat.eq_zero_of_not_pos hzero)
      subst hnil
      apply hnot ⟨weights, _, List.prefix_refl weights, _⟩
      · rwa [List.append_nil] at hpart
      · simpa using hle
  · rintro ⟨k, hpos, hk, hle⟩
    refine ⟨weights ++ List.replicate k weight, ?_, ?_, ?_⟩
    · intro hnil
      have hreplicate := (List.append_eq_nil_iff.mp hnil).2
      rw [List.replicate_eq_nil_iff] at hreplicate
      omega
    · rw [List.prefix_append_right_inj, List.prefix_replicate_iff, List.length_replicate]
      exact ⟨hk, rfl⟩
    · rwa [Nat.zero_add, List.sum_append, List.sum_replicate_nat]

/-- Without wrapping around, the sum of all weights decides. -/
theorem reaches_iff_of_fits (hfits : ∀ w ∈ weights, threshold + w ≤ 2 ^ 64)
    (hstart : start < threshold ∨ threshold = 0 ∧ start = 0) :
  Reaches threshold start weights ↔ weights ≠ [] ∧ threshold ≤ start + weights.sum
  := by
  induction weights generalizing start with
  | nil => exact iff_of_false not_reaches_nil fun h => h.1 rfl
  | cons weight weights ih =>
    obtain ⟨hweight, hweights⟩ := List.forall_mem_cons.mp hfits
    rw [reaches_cons, and_iff_right (List.cons_ne_nil weight weights), List.sum_cons]
    by_cases hzero : threshold = 0
    · subst hzero
      exact iff_of_true (Or.inl (Nat.zero_le _)) (Nat.zero_le _)
    · have hmod : (start + weight) % 2 ^ 64 = start + weight := Nat.mod_eq_of_lt (by omega)
      rw [hmod]
      by_cases hle : threshold ≤ start + weight
      · exact iff_of_true (Or.inl hle) (by omega)
      · rw [or_iff_right hle, ih hweights (Or.inl (Nat.lt_of_not_le hle)), Nat.add_assoc]
        apply and_iff_right_of_imp
        rintro hsum rfl
        exact hle (by simpa using hsum)

/-- A weight that is not zero reaches every threshold in the end, unless the sum wraps around. -/
theorem exists_multiple (hpos : 0 < weight) (hfits : threshold + weight ≤ 2 ^ 64) {sum : Nat}
    (hsum : sum < threshold) :
  ∃ k, threshold ≤ (sum + k * weight) % 2 ^ 64
  := by
  have hdiv := Nat.div_add_mod (threshold - sum - 1) weight
  have hlt := Nat.mod_lt (threshold - sum - 1) hpos
  use (threshold - sum - 1) / weight + 1
  rw [Nat.add_mul, Nat.one_mul, Nat.mul_comm, Nat.mod_eq_of_lt (by omega)]
  omega

/-! ### What is counted -/

variable {library : WebvhLibrary} {entry : Json} {config : WitnessConfig}
  {proof : DataIntegrityProof} {proofs : List DataIntegrityProof}

/-- The proof is valid, and by the key of this witness. -/
structure ApprovedBy (library : WebvhLibrary) (entry : Json) (config : WitnessConfig)
    (proof : DataIntegrityProof) (witness : WitnessEntry) : Prop where
  type : proof.type = textOf "DataIntegrityProof"
  cryptosuite : proof.cryptosuite = textOf "eddsa-jcs-2022"
  signed : ∃ multikey publicKeyBytes signatureBytes,
    extractMultikey proof.verificationMethod = some multikey ∧
    findWitness config multikey = some witness ∧
    decodeEd25519Multikey library multikey = .ok publicKeyBytes ∧
    decodeProofValue library proof.proofValue = .ok signatureBytes ∧
    verifyEd25519Signature library publicKeyBytes (signedBytes library entry) signatureBytes = .ok ()

/-- The witness that is counted for a proof. -/
theorem countedWitness_eq_some {witness : WitnessEntry} :
  countedWitness library entry config proof = some witness ↔
    ApprovedBy library entry config proof witness
  := by
  rw [countedWitness]
  constructor
  · intro h
    split_ifs at h with hskip
    obtain ⟨htype, hcryptosuite⟩ := not_or.mp hskip
    obtain ⟨multikey, hmultikey, h⟩ := Option.bind_eq_some_iff.mp h
    obtain ⟨other, hwitness, h⟩ := Option.bind_eq_some_iff.mp h
    obtain ⟨publicKeyBytes, hpublic, h⟩ := Option.bind_eq_some_iff.mp h
    obtain ⟨signatureBytes, hsignature, h⟩ := Option.bind_eq_some_iff.mp h
    obtain ⟨⟨⟩, hverify, h⟩ := Option.bind_eq_some_iff.mp h
    cases h
    exact ⟨not_not.mp htype, not_not.mp hcryptosuite, multikey, publicKeyBytes, signatureBytes,
      hmultikey, hwitness, Logic.toOption_eq_some.mp hpublic, Logic.toOption_eq_some.mp hsignature,
      Logic.toOption_eq_some.mp hverify⟩
  · rintro ⟨htype, hcryptosuite, multikey, publicKeyBytes, signatureBytes, hmultikey, hwitness,
      hpublic, hsignature, hverify⟩
    rw [if_neg (not_or.mpr ⟨not_not.mpr htype, not_not.mpr hcryptosuite⟩), hmultikey]
    simp only [Option.bind_eq_bind, Option.bind_some, hwitness, Logic.toOption_eq_some.mpr hpublic,
      Logic.toOption_eq_some.mpr hsignature, Logic.toOption_eq_some.mpr hverify]

/-- The witnesses that are counted, as often as they are. -/
def signers (library : WebvhLibrary) (entry : Json) (config : WitnessConfig)
    (proofs : List DataIntegrityProof) : List WitnessEntry :=
  proofs.filterMap (countedWitness library entry config)

/-- The weights that are added up. -/
def signedWeights (library : WebvhLibrary) (entry : Json) (config : WitnessConfig)
    (proofs : List DataIntegrityProof) : List Nat :=
  (signers library entry config proofs).map WitnessEntry.weight

theorem accumulateWeight_eq_ok {accumulatedWeight : Nat} :
  accumulateWeight library entry config accumulatedWeight proofs = .ok () ↔
    Reaches config.threshold accumulatedWeight (signedWeights library entry config proofs)
  := by
  induction proofs generalizing accumulatedWeight with
  | nil => exact iff_of_false nofun not_reaches_nil
  | cons proof proofs ih =>
    rw [accumulateWeight, signedWeights, signers]
    cases hcounted : countedWitness library entry config proof with
    | none =>
      rw [List.filterMap_cons_none hcounted]
      exact ih
    | some witness =>
      rw [List.filterMap_cons_some hcounted, List.map_cons, reaches_cons]
      simp only
      split_ifs with hreached
      · exact iff_of_true rfl (Or.inl hreached)
      · rw [ih, or_iff_right hreached]
        rfl

theorem verifyWitnessProofs_eq_ok {entryIndex : Nat} :
  verifyWitnessProofs library entry proofs config entryIndex = .ok () ↔
    Reaches config.threshold 0 (signedWeights library entry config proofs)
  := by
  rw [verifyWitnessProofs]
  split_ifs with hempty
  · rw [List.isEmpty_iff.mp hempty]
    exact iff_of_false nofun not_reaches_nil
  · rw [Logic.mapError_eq_ok, accumulateWeight_eq_ok]

/-! ### Different witnesses -/

/-- What the approval of a witness weighs. -/
def weightOf (config : WitnessConfig) (id : Text) : Nat :=
  ((config.witnesses.find? fun witness => witness.id = id).map WitnessEntry.weight).getD 0

/-- What the approvals of the different witnesses weigh together. -/
def distinctWeight (library : WebvhLibrary) (entry : Json) (config : WitnessConfig)
    (proofs : List DataIntegrityProof) : Nat :=
  ∑ id ∈ ((signers library entry config proofs).map WitnessEntry.id).toFinset, weightOf config id

theorem weightOf_eq {witness : WitnessEntry} {multikey : Text}
    (h : findWitness config multikey = some witness) :
  weightOf config witness.id = witness.weight
  := by
  have hfirst : config.witnesses.find? (fun other => other.id = witness.id) = some witness := by
    obtain ⟨hid, before, after, hconfig, hbefore⟩ := List.find?_eq_some_iff_append.mp h
    apply List.find?_eq_some_iff_append.mpr
    refine ⟨decide_eq_true rfl, before, after, hconfig, fun other hother => ?_⟩
    have hother' := hbefore other hother
    simp only [decide_eq_true_eq, Bool.not_eq_true', decide_eq_false_iff_not] at hid hother' ⊢
    exact fun heq => hother' (heq ▸ hid)
  rw [weightOf, hfirst]
  rfl

theorem weightOf_of_mem_signers {witness : WitnessEntry}
    (h : witness ∈ signers library entry config proofs) :
  weightOf config witness.id = witness.weight
  := by
  obtain ⟨proof, -, hcounted⟩ := List.mem_filterMap.mp h
  obtain ⟨multikey, -, -, -, hwitness, -⟩ := (countedWitness_eq_some.mp hcounted).signed
  exact weightOf_eq hwitness

/-- Counted once, the witnesses weigh no more than counted as often as they signed. -/
theorem sum_toFinset_le (witnesses : List WitnessEntry) :
  ∑ id ∈ (witnesses.map WitnessEntry.id).toFinset, weightOf config id ≤
    (witnesses.map fun witness => weightOf config witness.id).sum
  := by
  induction witnesses with
  | nil => exact Nat.le_refl 0
  | cons witness witnesses ih =>
    rw [List.map_cons, List.map_cons, List.toFinset_cons, List.sum_cons]
    by_cases hmem : witness.id ∈ (witnesses.map WitnessEntry.id).toFinset
    · rw [Finset.insert_eq_of_mem hmem]
      exact ih.trans (Nat.le_add_left _ _)
    · rw [Finset.sum_insert hmem]
      exact Nat.add_le_add_left ih _

theorem distinctWeight_le :
  distinctWeight library entry config proofs ≤ (signedWeights library entry config proofs).sum
  := by
  have hweights : signedWeights library entry config proofs =
      (signers library entry config proofs).map fun witness => weightOf config witness.id :=
    List.map_congr_left fun witness hwitness => (weightOf_of_mem_signers hwitness).symm
  rw [hweights]
  exact sum_toFinset_le _

/-! ### Counting once -/

/-- The proofs are accepted only when different witnesses who signed reach the threshold, and
repeating one of the proofs changes nothing. -/
structure CountsOnce (library : WebvhLibrary) (entry : Json) (config : WitnessConfig)
    (proofs : List DataIntegrityProof) (entryIndex : Nat) : Prop where
  distinct : verifyWitnessProofs library entry proofs config entryIndex = .ok () →
    ∃ ids : Finset Text, config.threshold ≤ ∑ id ∈ ids, weightOf config id ∧
      ∀ id ∈ ids, ∃ witness, witness.id = id ∧ ∃ proof ∈ proofs,
        ApprovedBy library entry config proof witness
  repeated : ∀ proof ∈ proofs, ∀ n : Nat,
    verifyWitnessProofs library entry (proofs ++ List.replicate n proof) config entryIndex =
        .ok () ↔
      verifyWitnessProofs library entry proofs config entryIndex = .ok ()

/-- The threshold is reached by different witnesses when it is reached, and otherwise no further
multiple of a weight reaches it. -/
structure Settled (threshold distinct : Nat) (weights : List Nat) : Prop where
  reached : Reaches threshold 0 weights → threshold ≤ distinct
  unreached : ¬ Reaches threshold 0 weights →
    ∀ weight ∈ weights, ∀ k, (weights.sum + k * weight) % 2 ^ 64 < threshold

/-- No sum of weights up to the threshold wraps around. -/
def WitnessConfig.Fits (config : WitnessConfig) : Prop :=
  ∀ witness ∈ config.witnesses, config.threshold + witness.weight ≤ 2 ^ 64

theorem settled_iff_of_fits {distinct : Nat} (hfits : ∀ w ∈ weights, threshold + w ≤ 2 ^ 64)
    (hdistinct : distinct ≤ weights.sum) :
  Settled threshold distinct weights ↔ (∀ weight ∈ weights, weight = 0) ∨ threshold ≤ distinct
  := by
  have hreaches : Reaches threshold 0 weights ↔ weights ≠ [] ∧ threshold ≤ weights.sum := by
    rw [reaches_iff_of_fits hfits (by omega), Nat.zero_add]
  constructor
  · intro h
    by_contra hnone
    obtain ⟨hzero, hlt⟩ := not_or.mp hnone
    push Not at hzero
    obtain ⟨weight, hweight, hne⟩ := hzero
    have hnot := mt h.reached hlt
    have hsum : weights.sum < threshold := by
      rw [hreaches, not_and, Nat.not_le] at hnot
      exact hnot (List.ne_nil_of_mem hweight)
    obtain ⟨k, hk⟩ := exists_multiple (Nat.pos_of_ne_zero hne) (hfits weight hweight) hsum
    exact Nat.not_lt.mpr hk (h.unreached hnot weight hweight k)
  · intro h
    have hsum : ∀ weight ∈ weights, ¬ Reaches threshold 0 weights → weights.sum < threshold := by
      intro weight hweight hnot
      rw [hreaches, not_and, Nat.not_le] at hnot
      exact hnot (List.ne_nil_of_mem hweight)
    rcases h with hzero | hle
    · have hsumZero : weights.sum = 0 := List.sum_eq_zero hzero
      constructor
      · intro hreached
        rw [hreaches, hsumZero] at hreached
        exact hreached.2.trans (Nat.zero_le _)
      · intro hnot weight hweight k
        have hlt := hsum weight hweight hnot
        rw [hzero weight hweight, hsumZero]
        omega
    · constructor
      · exact fun _ => hle
      · intro hnot weight hweight k
        have hlt := hsum weight hweight hnot
        omega

theorem signedWeights_append (more : List DataIntegrityProof) :
  signedWeights library entry config (proofs ++ more) =
    signedWeights library entry config proofs ++ signedWeights library entry config more
  := by
  rw [signedWeights, signers, List.filterMap_append, List.map_append]
  rfl

theorem signedWeights_replicate {witness : WitnessEntry} {n : Nat}
    (h : countedWitness library entry config proof = some witness) :
  signedWeights library entry config (List.replicate n proof) = List.replicate n witness.weight
  := by
  induction n with
  | zero => rfl
  | succ n ih =>
    rw [List.replicate_succ, signedWeights, signers, List.filterMap_cons_some h, List.map_cons,
      List.replicate_succ, ← ih]
    rfl

theorem signedWeights_replicate_none {n : Nat}
    (h : countedWitness library entry config proof = none) :
  signedWeights library entry config (List.replicate n proof) = []
  := by
  induction n with
  | zero => rfl
  | succ n ih =>
    rw [List.replicate_succ, signedWeights, signers, List.filterMap_cons_none h]
    exact ih

/-- Different witnesses who signed reach the threshold when all of them together do. -/
theorem distinct_iff :
  (∃ ids : Finset Text, config.threshold ≤ ∑ id ∈ ids, weightOf config id ∧
      ∀ id ∈ ids, ∃ witness, witness.id = id ∧ ∃ proof ∈ proofs,
        ApprovedBy library entry config proof witness) ↔
    config.threshold ≤ distinctWeight library entry config proofs
  := by
  constructor
  · rintro ⟨ids, hle, hids⟩
    apply hle.trans (Finset.sum_le_sum_of_subset _)
    intro id hid
    obtain ⟨witness, rfl, proof, hproof, happroved⟩ := hids id hid
    rw [List.mem_toFinset]
    exact List.mem_map_of_mem
      (List.mem_filterMap.mpr ⟨proof, hproof, countedWitness_eq_some.mpr happroved⟩)
  · intro hle
    refine ⟨_, hle, fun id hid => ?_⟩
    obtain ⟨witness, hwitness, rfl⟩ := List.mem_map.mp (List.mem_toFinset.mp hid)
    obtain ⟨proof, hproof, hcounted⟩ := List.mem_filterMap.mp hwitness
    exact ⟨witness, rfl, proof, hproof, countedWitness_eq_some.mp hcounted⟩

theorem repeated_iff {entryIndex : Nat} :
  (∀ proof ∈ proofs, ∀ n : Nat,
      verifyWitnessProofs library entry (proofs ++ List.replicate n proof) config entryIndex =
          .ok () ↔
        verifyWitnessProofs library entry proofs config entryIndex = .ok ()) ↔
    (¬ Reaches config.threshold 0 (signedWeights library entry config proofs) →
      ∀ weight ∈ signedWeights library entry config proofs, ∀ k,
        ((signedWeights library entry config proofs).sum + k * weight) % 2 ^ 64 <
          config.threshold)
  := by
  constructor
  · intro h hnot weight hweight k
    obtain ⟨witness, hwitness, rfl⟩ := List.mem_map.mp hweight
    obtain ⟨proof, hproof, hcounted⟩ := List.mem_filterMap.mp hwitness
    have hrepeat := (h proof hproof k).not
    rw [verifyWitnessProofs_eq_ok, verifyWitnessProofs_eq_ok, signedWeights_append,
      signedWeights_replicate hcounted, reaches_append_replicate hnot] at hrepeat
    by_contra hle
    rcases Nat.eq_zero_or_pos k with rfl | hpos
    · apply hnot ⟨_, List.ne_nil_of_mem hweight, List.prefix_refl _, _⟩
      rw [Nat.zero_add]
      rwa [Nat.not_lt, Nat.zero_mul, Nat.add_zero] at hle
    · exact hrepeat.mpr hnot ⟨k, hpos, Nat.le_refl k, Nat.not_lt.mp hle⟩
  · intro h proof hproof n
    rw [verifyWitnessProofs_eq_ok, verifyWitnessProofs_eq_ok, signedWeights_append]
    by_cases hreached : Reaches config.threshold 0 (signedWeights library entry config proofs)
    · exact iff_of_true (hreached.append _) hreached
    · cases hcounted : countedWitness library entry config proof with
      | none => rw [signedWeights_replicate_none hcounted, List.append_nil]
      | some witness =>
        rw [signedWeights_replicate hcounted, reaches_append_replicate hreached]
        apply iff_of_false _ hreached
        rintro ⟨k, -, -, hle⟩
        have hweight : witness.weight ∈ signedWeights library entry config proofs :=
          List.mem_map_of_mem (List.mem_filterMap.mpr ⟨proof, hproof, hcounted⟩)
        exact Nat.not_lt.mpr hle (h hreached _ hweight k)

theorem mem_of_mem_signers {witness : WitnessEntry}
    (h : witness ∈ signers library entry config proofs) :
  witness ∈ config.witnesses
  := by
  obtain ⟨proof, -, hcounted⟩ := List.mem_filterMap.mp h
  obtain ⟨multikey, -, -, -, hwitness, -⟩ := (countedWitness_eq_some.mp hcounted).signed
  exact List.mem_of_find?_eq_some hwitness

/-- Every witness counts once exactly when the different witnesses reach the threshold whenever
it is reached, and no repetition reaches it otherwise: without sums that wrap around, when no
proof has a weight or the different witnesses reach the threshold. -/
theorem countsOnce_iff {entryIndex : Nat} :
  (CountsOnce library entry config proofs entryIndex ↔
      Settled config.threshold (distinctWeight library entry config proofs)
        (signedWeights library entry config proofs)) ∧
    (config.Fits → (CountsOnce library entry config proofs entryIndex ↔
      (∀ weight ∈ signedWeights library entry config proofs, weight = 0) ∨
        config.threshold ≤ distinctWeight library entry config proofs))
  := by
  have hsettled : CountsOnce library entry config proofs entryIndex ↔
      Settled config.threshold (distinctWeight library entry config proofs)
        (signedWeights library entry config proofs) := by
    constructor
    · rintro ⟨hdistinct, hrepeated⟩
      rw [verifyWitnessProofs_eq_ok, distinct_iff] at hdistinct
      exact ⟨hdistinct, repeated_iff.mp hrepeated⟩
    · rintro ⟨hreached, hunreached⟩
      refine ⟨?_, repeated_iff.mpr hunreached⟩
      rwa [verifyWitnessProofs_eq_ok, distinct_iff]
  refine ⟨hsettled, fun hfits => hsettled.trans (settled_iff_of_fits ?_ distinctWeight_le)⟩
  intro weight hweight
  obtain ⟨witness, hwitness, rfl⟩ := List.mem_map.mp hweight
  exact hfits witness (mem_of_mem_signers hwitness)

/-! ### One proof twice -/

/-- Libraries that accept every key and every signature of the right length. -/
def permissive : WebvhLibrary where
  multibaseDecode bytes :=
    if bytes.length = 1 then .ok (0xed :: 0x01 :: List.replicate 32 0)
    else .ok (List.replicate 64 0)
  multibaseEncode _ := Text.empty
  sha256 _ := []
  verifyingKey _ := .ok ()
  verifySignature _ _ _ := .ok ()
  floatText _ := []

/-- The proof of a witness, by its key. -/
def sampleProof (key : String) : DataIntegrityProof where
  type := textOf "DataIntegrityProof"
  cryptosuite := textOf "eddsa-jcs-2022"
  verificationMethod := textOf ("did:key:" ++ key ++ "#" ++ key)
  created := Text.empty
  proofPurpose := Text.empty
  proofValue := Text.empty

/-- Two witnesses of weight 1. -/
def sampleConfig (threshold : Nat) : WitnessConfig where
  threshold := threshold
  witnesses := [{ id := textOf "did:key:z", weight := 1 }, { id := textOf "did:key:y", weight := 1 }]

/-- A proof twice, and the proof of another witness. -/
theorem countsOnce_sample :
  CountsOnce permissive .null (sampleConfig 2) [sampleProof "z", sampleProof "z", sampleProof "y"] 1
  := by
  refine (countsOnce_iff.2 ?_).mpr (Or.inr ?_)
  · intro witness hwitness
    rcases List.mem_pair.mp hwitness with rfl | rfl
    · decide
    · decide
  · decide

/-- One proof is refused at a threshold of 2, and the same proof twice is accepted. -/
theorem repeated_proof_accepted :
  verifyWitnessProofs permissive .null [sampleProof "z"] (sampleConfig 2) 1 ≠ .ok () ∧
    verifyWitnessProofs permissive .null [sampleProof "z", sampleProof "z"] (sampleConfig 2) 1 =
      .ok () ∧
    ¬ CountsOnce permissive .null (sampleConfig 2) [sampleProof "z", sampleProof "z"] 1
  := by
  refine ⟨nofun, rfl, fun h => ?_⟩
  have hle := distinct_iff.mp (h.distinct rfl)
  revert hle
  decide

end Atproto.Identity.Webvh
