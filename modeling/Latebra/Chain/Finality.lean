import Latebra.Foundation.Quorum
import Latebra.Crypto.FreeSuite
import Latebra.State.Ledger

/-!
# Finality certificates

Validators sign votes for the blocks they have adopted, and votes of more than two thirds of the
stake of a validator set make a certificate. `Certificate.verify` goes through the votes in order
with the signers it has seen and the stake it has counted. `Certificate.verify_eq_true` says what it
accepts, and `Certificate.signed_both` that two certificates that one set accepts share signers with
more than one third of its stake.
-/

set_option autoImplicit false
set_option relaxedAutoImplicit false

namespace Latebra.Chain

open Foundation Crypto Latebra.Types

/-- A validator set: ids with their stakes. -/
abbrev ValidatorSet := List (Bytes32 × UInt64)

/-- The stake of a whole set. -/
def totalStake (set : ValidatorSet) : ℕ := (set.map fun member ↦ member.2.toNat).sum

/-- One validator's signed attestation that a block is on its adopted chain. -/
structure Vote where
  blockId : Bytes32
  height : UInt64
  validator : Bytes32
  sig : Bytes64
deriving DecidableEq

/-- The signature of a vote is one of its validator over it. -/
def Vote.verify (C : CryptoSuite) (vote : Vote) : Bool :=
  match C.keyFromBytes vote.validator, C.signatureFromBytes vote.sig with
  | some pk, some sig =>
    C.verifySignature pk (finalityVoteSigningBytes vote.blockId vote.height) sig
  | _, _ => false

/-- A quorum of votes for one block. -/
structure Certificate where
  blockId : Bytes32
  height : UInt64
  /-- The signers with their signatures. -/
  votes : List (Bytes32 × Bytes64)
deriving DecidableEq

namespace Certificate

variable (C : CryptoSuite) (cert : Certificate) (set : ValidatorSet)

/-- The vote of a signer of a certificate. -/
def voteOf (entry : Bytes32 × Bytes64) : Vote := ⟨cert.blockId, cert.height, entry.1, entry.2⟩

/-- The stake counted over the votes, on top of what was counted before. There is none as soon as a
signer was seen before, is not in the set, or has not signed. -/
def tally (seen : List Bytes32) (voted : ℕ) : List (Bytes32 × Bytes64) → Option ℕ
  | [] => some voted
  | entry :: rest =>
    if entry.1 ∈ seen then none
    else
      match set.find? fun member ↦ member.1 = entry.1 with
      | none => none
      | some member =>
        if (cert.voteOf entry).verify C then
          tally (entry.1 :: seen) (voted + member.2.toNat) rest
        else none

/-- Verify a certificate against the validator set of its block. -/
def verify : Bool :=
  if cert.votes.isEmpty ∨ set.isEmpty then false
  else
    match cert.tally C set [] 0 cert.votes with
    | none => false
    | some voted => 3 * voted > 2 * totalStake set

/-- Wire encoding. -/
def encode : Bytes :=
  bytesOf32 cert.blockId ++ u64Le cert.height ++ leBytes 4 cert.votes.length ++
    cert.votes.flatMap fun entry ↦ bytesOf32 entry.1 ++ bytesOf64 entry.2

/-- The ids that signed a certificate. -/
def signers : List Bytes32 := cert.votes.map Prod.fst

end Certificate

/-- The stake of an id in a set, zero for an outsider. -/
def stakeOf (set : ValidatorSet) (id : Bytes32) : ℕ :=
  ((set.find? fun member ↦ member.1 = id).map fun member ↦ member.2.toNat).getD 0

theorem stakeOf_of_mem {set : ValidatorSet} (hdistinct : (set.map Prod.fst).Nodup)
    {member : Bytes32 × UInt64} (hmem : member ∈ set) : stakeOf set member.1 = member.2.toNat := by
  induction set with
  | nil => exact nomatch hmem
  | cons first rest ih =>
    rw [List.map_cons, List.nodup_cons] at hdistinct
    unfold stakeOf
    by_cases hfirst : first.1 = member.1
    · have hsame : first = member := by
        rcases List.mem_cons.mp hmem with rfl | hrest
        · rfl
        · exact absurd (hfirst ▸ List.mem_map_of_mem hrest) hdistinct.1
      rw [List.find?_cons_of_pos (by simpa using hfirst), hsame]
      rfl
    · have hrest : member ∈ rest := by
        rcases List.mem_cons.mp hmem with rfl | hrest
        · exact absurd rfl hfirst
        · exact hrest
      rw [List.find?_cons_of_neg (by simpa using hfirst)]
      exact ih hdistinct.2 hrest

theorem find?_isSome_iff (set : ValidatorSet) (id : Bytes32) :
    (set.find? fun member ↦ member.1 = id).isSome ↔ id ∈ set.map Prod.fst := by
  rw [List.find?_isSome, List.mem_map]
  simp

/-- The stakes of the members of a set sum to its total. -/
theorem sum_stakeOf {set : ValidatorSet} (hdistinct : (set.map Prod.fst).Nodup) :
    ((set.map Prod.fst).map (stakeOf set)).sum = totalStake set := by
  rw [List.map_map, totalStake]
  exact congrArg List.sum (List.map_congr_left fun member hmem ↦ stakeOf_of_mem hdistinct hmem)

variable {C : CryptoSuite}

namespace Certificate

variable {cert cert' : Certificate} {set : ValidatorSet}

/-- The tally counts the votes exactly when the signers are new, distinct, members and have
signed. -/
theorem tally_eq_some {seen : List Bytes32} {voted counted : ℕ}
    {votes : List (Bytes32 × Bytes64)} :
    cert.tally C set seen voted votes = some counted ↔
      (∀ entry ∈ votes, entry.1 ∉ seen) ∧ (votes.map Prod.fst).Nodup ∧
        (∀ entry ∈ votes, entry.1 ∈ set.map Prod.fst) ∧
        (∀ entry ∈ votes, (cert.voteOf entry).verify C = true) ∧
        counted = voted + (votes.map fun entry ↦ stakeOf set entry.1).sum := by
  induction votes generalizing seen voted with
  | nil =>
    simp only [tally, Option.some.injEq, List.map_nil, List.sum_nil, List.nodup_nil,
      List.not_mem_nil, false_implies, implies_true, true_and, Nat.add_zero]
    exact eq_comm
  | cons entry rest ih =>
    rw [tally]
    split
    · next hseen => simp [hseen]
    · next hnew =>
      split
      · next hnone =>
        have houtside : entry.1 ∉ set.map Prod.fst := by
          rw [← find?_isSome_iff, hnone]
          simp
        simp only [List.forall_mem_cons, reduceCtorEq, false_iff]
        tauto
      · next member hmember =>
        have hinside : entry.1 ∈ set.map Prod.fst := by
          rw [← find?_isSome_iff, hmember]
          rfl
        have hstake : stakeOf set entry.1 = member.2.toNat := by
          rw [stakeOf, hmember]
          rfl
        split
        · next hsigned =>
          rw [ih]
          simp only [List.forall_mem_cons, List.map_cons, List.nodup_cons, List.sum_cons, hstake]
          constructor
          · rintro ⟨hfresh, hnodup, hmembers, hsignatures, hcounted⟩
            refine ⟨⟨hnew, fun later hlater ↦ List.not_mem_of_not_mem_cons (hfresh later hlater)⟩,
              ⟨?_, hnodup⟩, ⟨hinside, hmembers⟩, ⟨hsigned, hsignatures⟩, by omega⟩
            intro hagain
            obtain ⟨later, hlater, heq⟩ := List.mem_map.mp hagain
            exact List.ne_of_not_mem_cons (hfresh later hlater) heq
          · rintro ⟨⟨-, hfresh⟩, ⟨hdistinct, hnodup⟩, ⟨-, hmembers⟩, ⟨-, hsignatures⟩, hcounted⟩
            refine ⟨fun later hlater ↦ ?_, hnodup, hmembers, hsignatures, by omega⟩
            refine List.not_mem_cons_of_ne_of_not_mem ?_ (hfresh later hlater)
            exact fun heq ↦ hdistinct (heq ▸ List.mem_map_of_mem hlater)
        · next hforged =>
          simp only [List.forall_mem_cons, reduceCtorEq, false_iff]
          tauto

/-- What a certificate is accepted for: distinct members of the set have signed it, and their stakes
sum to strictly more than two thirds of the total. -/
theorem verify_eq_true :
    cert.verify C set = true ↔
      cert.signers.Nodup ∧ (∀ id ∈ cert.signers, id ∈ set.map Prod.fst) ∧
        (∀ entry ∈ cert.votes, (cert.voteOf entry).verify C = true) ∧
        2 * totalStake set < 3 * (cert.signers.map (stakeOf set)).sum := by
  have hsum : (cert.signers.map (stakeOf set)).sum =
      (cert.votes.map fun entry ↦ stakeOf set entry.1).sum := by
    rw [signers, List.map_map]
    rfl
  have hmembers : (∀ id ∈ cert.signers, id ∈ set.map Prod.fst) ↔
      ∀ entry ∈ cert.votes, entry.1 ∈ set.map Prod.fst := List.forall_mem_map
  rw [hsum, hmembers, verify]
  split
  · next hempty =>
    rw [List.isEmpty_iff, List.isEmpty_iff] at hempty
    refine ⟨fun hno ↦ (nomatch hno), fun haccepted ↦ ?_⟩
    obtain ⟨-, hinside, -, hweight⟩ := haccepted
    refine absurd hweight ?_
    rcases hempty with hnone | hnone
    · rw [hnone]
      simp
    · have hvotes : cert.votes = [] := by
        rw [List.eq_nil_iff_forall_not_mem]
        intro entry hentry
        have houtside := hinside entry hentry
        rw [hnone] at houtside
        exact nomatch houtside
      rw [hvotes]
      simp
  · cases hcounted : cert.tally C set [] 0 cert.votes with
    | none =>
      refine ⟨fun hno ↦ (nomatch hno), fun haccepted ↦ ?_⟩
      obtain ⟨hnodup, hinside, hsigned, -⟩ := haccepted
      have hsome : cert.tally C set [] 0 cert.votes = some _ :=
        tally_eq_some.mpr ⟨fun _ _ ↦ List.not_mem_nil, hnodup, hinside, hsigned, rfl⟩
      rw [hcounted] at hsome
      exact nomatch hsome
    | some voted =>
      obtain ⟨-, hnodup, hinside, hsigned, rfl⟩ := tally_eq_some.mp hcounted
      simp only [Nat.zero_add, gt_iff_lt, decide_eq_true_eq]
      exact ⟨fun hweight ↦ ⟨hnodup, hinside, hsigned, hweight⟩, fun haccepted ↦ haccepted.2.2.2⟩

/-- The signers of an accepted certificate are a quorum of the set. -/
theorem isQuorum_of_verify (hdistinct : (set.map Prod.fst).Nodup)
    (haccepted : cert.verify C set = true) :
    IsQuorum (set.map Prod.fst).toFinset (stakeOf set) cert.signers.toFinset := by
  obtain ⟨hnodup, hinside, -, hweight⟩ := verify_eq_true.mp haccepted
  refine ⟨fun id hid ↦ ?_, ?_⟩
  · exact List.mem_toFinset.mpr (hinside id (List.mem_toFinset.mp hid))
  · rw [List.sum_toFinset _ hdistinct, List.sum_toFinset _ hnodup, sum_stakeOf hdistinct]
    exact hweight

end Certificate

/-- The validators of a set that signed both certificates. -/
def signedBoth (set : ValidatorSet) (cert cert' : Certificate) : ValidatorSet :=
  set.filter fun member ↦ member.1 ∈ cert.signers ∧ member.1 ∈ cert'.signers

/-- Quorum intersection, and what a certificate is accepted for. Of two certificates for conflicting
blocks that one set accepts, the validators that signed both hold strictly more than one third of
the stake. -/
theorem Certificate.signed_both {set : ValidatorSet} (hdistinct : (set.map Prod.fst).Nodup) :
    (∀ cert cert' : Certificate, cert.height = cert'.height → cert.blockId ≠ cert'.blockId →
      cert.verify C set = true → cert'.verify C set = true →
        totalStake set < 3 * totalStake (signedBoth set cert cert')) ∧
      ∀ cert : Certificate, cert.verify C set = true ↔
        cert.signers.Nodup ∧ (∀ id ∈ cert.signers, id ∈ set.map Prod.fst) ∧
          (∀ entry ∈ cert.votes, (cert.voteOf entry).verify C = true) ∧
          2 * totalStake set < 3 * (cert.signers.map (stakeOf set)).sum := by
  refine ⟨?_, fun cert ↦ verify_eq_true⟩
  intro cert cert' _ _ haccepted haccepted'
  have hshared := quorum_inter (isQuorum_of_verify hdistinct haccepted)
    (isQuorum_of_verify hdistinct haccepted')
  have hboth : (cert.signers.toFinset ∩ cert'.signers.toFinset) =
      ((signedBoth set cert cert').map Prod.fst).toFinset := by
    obtain ⟨-, hinside, -⟩ := verify_eq_true.mp haccepted
    ext id
    simp only [Finset.mem_inter, List.mem_toFinset, signedBoth, List.mem_map, List.mem_filter,
      decide_eq_true_eq]
    constructor
    · rintro ⟨hfirst, hsecond⟩
      obtain ⟨member, hmember, rfl⟩ := List.mem_map.mp (hinside id hfirst)
      exact ⟨member, ⟨hmember, hfirst, hsecond⟩, rfl⟩
    · rintro ⟨member, ⟨-, hsigned⟩, rfl⟩
      exact hsigned
  have hsublist : (signedBoth set cert cert').Sublist set := List.filter_sublist
  have hdistinct' : ((signedBoth set cert cert').map Prod.fst).Nodup :=
    hdistinct.sublist (hsublist.map Prod.fst)
  rw [hboth, List.sum_toFinset _ hdistinct, List.sum_toFinset _ hdistinct', sum_stakeOf hdistinct,
    List.map_map] at hshared
  have hstakes : (signedBoth set cert cert').map (stakeOf set ∘ Prod.fst) =
      (signedBoth set cert cert').map fun member ↦ member.2.toNat :=
    List.map_congr_left fun member hmember ↦ stakeOf_of_mem hdistinct (hsublist.subset hmember)
  rwa [hstakes] at hshared

/-- Three validators sign two blocks at one height. -/
def doubleSigned (block : Bytes32) : Certificate := ⟨block, 9, [(5, 5), (6, 6), (7, 7)]⟩

theorem signed_both_doubleSigned :
    totalStake [(5, 100), (6, 100), (7, 90)] <
      3 * totalStake (signedBoth [(5, 100), (6, 100), (7, 90)] (doubleSigned 1) (doubleSigned 2)) :=
  (Certificate.signed_both (C := freeSuite) (by decide)).1 (doubleSigned 1) (doubleSigned 2) rfl
    (by decide) (by decide +kernel) (by decide +kernel)

/-! ### The validator set of a ledger -/

/-- The key of a scanned staking record is determined by its id. -/
theorem key_of_eligible {entry : Bytes × Bytes} {member : Bytes32 × UInt64} (L : State.Ledger C)
    (hscan : entry ∈ L.scan State.REC_VALIDATOR)
    (hmember : (do
      let id ← bytes32Of (entry.1.drop 1)
      let v ← State.decodeValidator entry.2
      if v.tombstoned = false ∧ State.MIN_VALIDATOR_STAKE ≤ v.staked then some (id, v.staked)
      else none) = some member) : entry.1 = State.REC_VALIDATOR :: bytesOf32 member.1 := by
  obtain ⟨id, hid, hrest⟩ := Option.bind_eq_some_iff.mp hmember
  obtain ⟨v, -, hlast⟩ := Option.bind_eq_some_iff.mp hrest
  have hsame : id = member.1 := by
    split at hlast
    · rw [← Option.some.inj hlast]
    · exact nomatch hlast
  have hbody := eq_bytesOf32_of_bytes32Of hid
  obtain ⟨-, htag⟩ := List.mem_filter.mp hscan
  rcases entry with ⟨_ | ⟨tag, rest⟩, body⟩
  · simp at htag
  · obtain rfl : tag = State.REC_VALIDATOR := by simpa using htag
    rw [← hsame]
    exact congrArg (List.cons _) hbody

/-- The validator set of a ledger has one entry an id. -/
theorem nodup_validatorSet (L : State.Ledger C) : (L.validatorSet.map Prod.fst).Nodup := by
  have hkeys : (L.scan State.REC_VALIDATOR).Pairwise fun first second ↦ first.1 ≠ second.1 :=
    List.pairwise_map.mp ((FMap.nodup_keys _).sublist (List.filter_sublist.map _))
  have heligible : (L.eligible.map Prod.fst).Nodup := by
    rw [List.Nodup, List.pairwise_map, State.Ledger.eligible, List.pairwise_filterMap]
    refine hkeys.imp_of_mem fun hfirst hsecond hne member hmember other hother heq ↦ hne ?_
    rw [key_of_eligible L hfirst hmember, key_of_eligible L hsecond hother, heq]
  have hsorted : ((L.eligible.mergeSort State.Ledger.validatorLe).map Prod.fst).Nodup :=
    ((List.mergeSort_perm _ _).map Prod.fst).nodup_iff.mpr heligible
  exact hsorted.sublist ((List.take_sublist _ _).map Prod.fst)

end Latebra.Chain
