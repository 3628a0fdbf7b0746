import Latebra.Crypto.AnonProofs
import Latebra.Crypto.SolventProofs

/-!
# What an anonymous transfer moves

The sub-proofs of an anonymous transfer are bound to one another by the values they open. An
`AnonWitness` holds what each of them proves knowledge of: the two openings in range, the branch of
every membership proof, the openings of the links, the blinding factor of the sum, and the place,
the key and the blinding factors of the fused disjunction. Every commitment is opened twice by it,
and `AnonWitness.relations` lists the differences. When none of them relates the two bases, the
values agree, and the transfer debits one member of the ring, the one whose key the prover knows, of
the amount and the fee: `Movement`. The total of the encrypted balances falls by the fee.
-/

set_option autoImplicit false
set_option relaxedAutoImplicit false

namespace Latebra.Crypto

open Foundation
open Foundation.SigmaProtocol

/-- The witness of a link. -/
structure LinkWitness (Scalar : Type) where
  value : Scalar
  blind : Scalar
  mask : Scalar

/-- What the sub-proofs of an anonymous transfer prove knowledge of. A membership proof opens its
delta to zero on the left, and to the debit on the right. -/
structure AnonWitness (Scalar : Type) where
  remaining : UInt64 × Scalar
  amount : UInt64 × Scalar
  membership : ℕ → Scalar ⊕ Scalar
  links : ℕ → LinkWitness Scalar
  credit : LinkWitness Scalar
  sum : Scalar
  index : ℕ
  x : Scalar
  s : Scalar
  g : Scalar

/-- A link opens a commitment and a ciphertext to one value. -/
structure LinkWitness.Opens {P : ProofSuite} (lk : LinkWitness P.Scalar)
    (key : PublicKey P.ground.Point) (cDelta : P.ground.Point) (enc : Ciphertext P.ground.Point) :
    Prop where
  delta : commit P.G P.H (lk.value, lk.blind) = cDelta
  enc : enc = ⟨lk.value • P.G + lk.mask • key.point, lk.mask • P.G⟩

namespace AnonWitness

open AnonTransfer

variable {P : ProofSuite} (w : AnonWitness P.Scalar) (xfer : P.Anon)

/-- The opening of the debit: the amount and the fee. -/
def debit : Opening P.Scalar := P.opening w.amount + ((xfer.fee.toNat : P.Scalar), 0)

/-- The opening of a delta in its membership proof. -/
def member (i : ℕ) : Opening P.Scalar :=
  match w.membership i with
  | .inl s => (0, s)
  | .inr s => w.debit xfer + (0, s)

/-- The differences of the openings of one point. The last but one compares the solvency relation
with what the member holds. -/
def relations (balance : ℕ → ℕ) : List (Opening P.Scalar) :=
  [(w.credit.value, w.credit.blind) - P.opening w.amount,
    w.debit xfer + (0, w.s) - w.member xfer w.index,
    P.opening w.remaining + w.debit xfer - ((balance w.index : P.Scalar), w.g),
    (∑ i ∈ Finset.range xfer.ring.length, w.member xfer i) - (w.debit xfer + (0, w.sum))] ++
  (List.range xfer.ring.length).map fun i ↦
    ((w.links i).value, (w.links i).blind) - w.member xfer i

/-- Those of the differences that compare amounts: all but the one with the balance of the sender. -/
def valueRelations : List (Opening P.Scalar) :=
  [(w.credit.value, w.credit.blind) - P.opening w.amount,
    w.debit xfer + (0, w.s) - w.member xfer w.index,
    (∑ i ∈ Finset.range xfer.ring.length, w.member xfer i) - (w.debit xfer + (0, w.sum))] ++
  (List.range xfer.ring.length).map fun i ↦
    ((w.links i).value, (w.links i).blind) - w.member xfer i

theorem valueRelations_subset (balance : ℕ → ℕ) :
    w.valueRelations xfer ⊆ w.relations xfer balance := by
  intro o ho
  rcases List.mem_append.mp ho with hfirst | hlink
  · apply List.mem_append_left
    fin_cases hfirst <;> simp
  · exact List.mem_append_right _ hlink

/-- Each sub-proof of a transfer that is verified yields its witness. -/
structure Yields (oracle : Bytes → P.Scalar) (token : UInt32) : Prop where
  range : P.verifyMultiple xfer.proof.rp (ascii "Latebra.AnonTransfer.range.v3")
      [xfer.proof.v, P.ground.compress (cAmtOf P xfer)] = true →
    xfer.proof.v = P.ground.compress (P.commitDelta w.remaining.1 w.remaining.2) ∧
      cAmtOf P xfer = P.commitDelta w.amount.1 w.amount.2
  membership : ∀ v, ∀ i < xfer.ring.length,
    membershipVerify P oracle xfer (fusedChallengeOf P oracle xfer token v) i = true →
      match w.membership i with
      | .inl s => xfer.proof.deltas.getD i 0 = s • P.H
      | .inr s => xfer.proof.deltas.getD i 0 - xfer.proof.cDebit = s • P.H
  link : ∀ v, ∀ i < xfer.ring.length,
    linkVerify P oracle xfer (fusedChallengeOf P oracle xfer token v) i = true →
      (w.links i).Opens (keyAt P xfer.ring i) (xfer.proof.deltas.getD i 0)
        (ciphertextAt P xfer.enc i)
  credit : ∀ v, xfer.proof.creditLink.verify P oracle (fusedChallengeOf P oracle xfer token v)
      xfer.output.oneTime (cAmtOf P xfer) xfer.credit = true →
    w.credit.Opens xfer.output.oneTime (cAmtOf P xfer) xfer.credit
  sum : ∀ v, sumVerify P oracle xfer (fusedChallengeOf P oracle xfer token v) = true →
    xfer.proof.deltas.sum - xfer.proof.cDebit = w.sum • P.H
  fused : ∀ v, fusedChallengeOf P oracle xfer token v = xfer.proof.e.sum →
    P.ground.decompress xfer.proof.v = some v →
    w.index < xfer.ring.length ∧
      w.x • P.G = (keyAt P xfer.ring w.index).point ∧
      xfer.proof.deltas.getD w.index 0 - xfer.proof.cDebit = w.s • P.H ∧
      solvencyTarget P v (ciphertextAt P xfer.balances w.index) xfer.proof.cDebit =
        w.g • P.H - w.x • (ciphertextAt P xfer.balances w.index).d ∧
      w.x • epochBase P xfer.epoch = xfer.nullifierPoint

/-- The relations of all sub-proofs together. -/
structure Satisfies : Prop where
  lengthDeltas : xfer.proof.deltas.length = xfer.ring.length
  amount : cAmtOf P xfer = P.commitDelta w.amount.1 w.amount.2
  member : ∀ i < xfer.ring.length,
    xfer.proof.deltas.getD i 0 = commit P.G P.H (w.member xfer i)
  link : ∀ i < xfer.ring.length,
    (w.links i).Opens (keyAt P xfer.ring i) (xfer.proof.deltas.getD i 0) (ciphertextAt P xfer.enc i)
  credit : w.credit.Opens xfer.output.oneTime (cAmtOf P xfer) xfer.credit
  sum : xfer.proof.deltas.sum - xfer.proof.cDebit = w.sum • P.H
  index : w.index < xfer.ring.length
  owner : w.x • P.G = (keyAt P xfer.ring w.index).point
  debited : xfer.proof.deltas.getD w.index 0 - xfer.proof.cDebit = w.s • P.H
  solvent : P.commitDelta w.remaining.1 w.remaining.2 -
      (ciphertextAt P xfer.balances w.index).c + xfer.proof.cDebit =
    w.g • P.H - w.x • (ciphertextAt P xfer.balances w.index).d
  nullifier : w.x • epochBase P xfer.epoch = xfer.nullifierPoint

variable {w xfer} {oracle : Bytes → P.Scalar} {token : UInt32}

/-- The commitment to the debit opens to the amount and the fee. -/
theorem cDebit_eq (hamount : cAmtOf P xfer = P.commitDelta w.amount.1 w.amount.2) :
    xfer.proof.cDebit = commit P.G P.H (w.debit xfer) := by
  rw [cAmtOf, sub_eq_iff_eq_add] at hamount
  rw [hamount, debit, commit_apply, ProofSuite.commitDelta]
  show _ = ((w.amount.1.toNat : P.Scalar) + (xfer.fee.toNat : P.Scalar)) • P.G +
    (w.amount.2 + 0) • P.H
  module

/-- A verified transfer whose sub-proofs yield their witnesses satisfies their relations. -/
theorem Yields.satisfies (hyields : w.Yields xfer oracle token)
    (hverified : verify P oracle xfer token = true) : w.Satisfies xfer := by
  obtain ⟨haligned, hrelations⟩ := Bool.and_eq_true_iff.mp hverified
  obtain ⟨hrange, v, hv, hsum, hmembership, hlinks, hcredit, hconserved⟩ :=
    relations_eq_true.mp hrelations
  obtain ⟨-, -, -, hwidth⟩ := of_decide_eq_true haligned
  obtain ⟨hremaining, hamount⟩ := hyields.range hrange
  obtain ⟨hindex, howner, hdebited, hsolvent, hnullifier⟩ := hyields.fused v hsum hv
  rw [hremaining, P.ground.decompress_compress] at hv
  obtain rfl := Option.some.inj hv
  constructor
  · exact (of_decide_eq_true hwidth).1
  · exact hamount
  · intro i hi
    have hbranch := hyields.membership _ i hi (hmembership i hi)
    unfold member
    cases hm : w.membership i with
    | inl s =>
      rw [hm] at hbranch
      rw [hbranch, commit_apply, zero_smul, zero_add]
    | inr s =>
      rw [hm] at hbranch
      rw [map_add, ← cDebit_eq hamount, commit_apply, zero_smul, zero_add, ← hbranch,
        add_sub_cancel]
  · exact fun i hi ↦ hyields.link _ i hi (hlinks i hi)
  · exact hyields.credit _ hcredit
  · exact hyields.sum _ hconserved
  · exact hindex
  · exact howner
  · exact hdebited
  · exact hsolvent
  · exact hnullifier

/-- Whether a membership proof opens its delta to the debit. -/
def carries (w : AnonWitness P.Scalar) (i : ℕ) : Prop := (w.membership i).isRight = true

instance (w : AnonWitness P.Scalar) : DecidablePred w.carries := fun i ↦
  inferInstanceAs (Decidable ((w.membership i).isRight = true))

theorem member_fst (i : ℕ) :
    (w.member xfer i).1 = if w.carries i then (w.debit xfer).1 else 0 := by
  cases hm : w.membership i with
  | inl s => simp [member, carries, hm]
  | inr s => simp [member, carries, hm]

/-- The amounts that the sub-proofs open agree. -/
structure AmountsAgree (w : AnonWitness P.Scalar) (xfer : P.Anon) : Prop where
  credit : w.credit.value = (w.amount.1.toNat : P.Scalar)
  index : (w.member xfer w.index).1 = (w.debit xfer).1
  sum : ∑ i ∈ Finset.range xfer.ring.length, (w.member xfer i).1 = (w.debit xfer).1
  link : ∀ i < xfer.ring.length, (w.links i).value = (w.member xfer i).1

/-- The values that the sub-proofs open agree, with one another and with what the sender holds. -/
structure Agrees (w : AnonWitness P.Scalar) (xfer : P.Anon) (balance : ℕ → ℕ) : Prop
    extends w.AmountsAgree xfer where
  balance : (w.remaining.1.toNat : P.Scalar) + (w.debit xfer).1 = (balance w.index : P.Scalar)

/-- The sum of the commitments is the commitment to the sum. -/
theorem Satisfies.sum_deltas (hsat : w.Satisfies xfer) :
    xfer.proof.deltas.sum =
      commit P.G P.H (∑ i ∈ Finset.range xfer.ring.length, w.member xfer i) := by
  have hentries : xfer.proof.deltas =
      (List.range xfer.ring.length).map fun i ↦ commit P.G P.H (w.member xfer i) := by
    apply List.ext_getElem
    · rw [List.length_map, List.length_range, hsat.lengthDeltas]
    · intro i hi hi'
      have hin : i < xfer.ring.length := hi.trans_eq hsat.lengthDeltas
      rw [List.getElem_map, List.getElem_range, ← hsat.member i hin, List.getD_eq_getElem _ _ hi]
  rw [hentries, sum_map_range, map_sum]

/-- When the openings of one point relate the bases no further, the amounts agree. -/
theorem Satisfies.amountsAgree (hsat : w.Satisfies xfer)
    (hindependent : Independent P.G P.H (w.valueRelations xfer)) : w.AmountsAgree xfer := by
  have hdebit := cDebit_eq hsat.amount
  constructor
  · have hcommit : commit P.G P.H (w.credit.value, w.credit.blind) =
        commit P.G P.H (P.opening w.amount) := hsat.credit.delta.trans hsat.amount
    have heq := hindependent.eq_of_commit_eq (by simp [valueRelations]) hcommit
    exact congrArg Prod.fst heq
  · have hcommit : commit P.G P.H (w.debit xfer + (0, w.s)) =
        commit P.G P.H (w.member xfer w.index) := by
      rw [map_add, ← hdebit, ← hsat.member _ hsat.index, commit_apply (o := (0, w.s)), ← hsat.debited]
      module
    have heq := hindependent.eq_of_commit_eq (by simp [valueRelations]) hcommit
    rw [← heq]
    exact add_zero _
  · have hcommit : commit P.G P.H (∑ i ∈ Finset.range xfer.ring.length, w.member xfer i) =
        commit P.G P.H (w.debit xfer + (0, w.sum)) := by
      rw [← hsat.sum_deltas, map_add, ← hdebit, ← sub_eq_iff_eq_add', hsat.sum, commit_apply,
        zero_smul, zero_add]
    have heq := hindependent.eq_of_commit_eq (by simp [valueRelations]) hcommit
    rw [← Prod.fst_sum, heq]
    exact add_zero _
  · intro i hi
    have hcommit : commit P.G P.H ((w.links i).value, (w.links i).blind) =
        commit P.G P.H (w.member xfer i) := (hsat.link i hi).delta.trans (hsat.member i hi)
    have hmem : ((w.links i).value, (w.links i).blind) - w.member xfer i ∈
        w.valueRelations xfer := by
      apply List.mem_append_right
      exact List.mem_map.mpr ⟨i, List.mem_range.mpr hi, rfl⟩
    exact congrArg Prod.fst (hindependent.eq_of_commit_eq hmem hcommit)

/-- When the balance of the sender is known too, all values agree. -/
theorem Satisfies.agrees (hsat : w.Satisfies xfer) {balance : ℕ → ℕ}
    (hbalance : P.Encrypts (keyAt P xfer.ring w.index) (ciphertextAt P xfer.balances w.index)
      (balance w.index))
    (hindependent : Independent P.G P.H (w.relations xfer balance)) : w.Agrees xfer balance := by
  refine ⟨hsat.amountsAgree fun o ho ↦ hindependent o (valueRelations_subset w xfer balance ho), ?_⟩
  have hdebit := cDebit_eq hsat.amount
  have hcommit : commit P.G P.H (P.opening w.remaining + w.debit xfer) =
      commit P.G P.H ((balance w.index : P.Scalar), w.g) := by
    obtain ⟨r, hct⟩ := hbalance
    have hsolvent : P.commitDelta w.remaining.1 w.remaining.2 -
        ((balance w.index : P.Scalar) • P.G + r • w.x • P.G) + xfer.proof.cDebit =
        w.g • P.H - w.x • r • P.G := by
      have htarget := hsat.solvent
      rw [hct, ← hsat.owner] at htarget
      exact htarget
    have hsum : P.commitDelta w.remaining.1 w.remaining.2 + xfer.proof.cDebit =
        w.g • P.H - w.x • r • P.G + ((balance w.index : P.Scalar) • P.G + r • w.x • P.G) := by
      rw [← hsolvent]
      abel
    rw [map_add, ← hdebit]
    show P.commitDelta w.remaining.1 w.remaining.2 + xfer.proof.cDebit =
      (balance w.index : P.Scalar) • P.G + w.g • P.H
    rw [hsum]
    module
  exact congrArg Prod.fst (hindependent.eq_of_commit_eq (by simp [relations]) hcommit)

/-! ### The integers -/

/-- The debit of a transfer in integers. -/
def debitValue (w : AnonWitness P.Scalar) (xfer : P.Anon) : ℕ :=
  w.amount.1.toNat + xfer.fee.toNat

theorem debit_fst : (w.debit xfer).1 = (w.debitValue xfer : P.Scalar) :=
  (Nat.cast_add (R := P.Scalar) _ _).symm

theorem debitValue_lt : w.debitValue xfer < P.order := by
  have horder := P.order_large
  have hamount := w.amount.1.toNat_lt
  have hfee := xfer.fee.toNat_lt
  unfold debitValue
  omega

theorem debit_fst_ne_zero (hfee : 0 < xfer.fee.toNat) : (w.debit xfer).1 ≠ 0 := by
  intro hzero
  rw [debit_fst, ← Nat.cast_zero] at hzero
  have horder := P.order_large
  have hnone := ProofSuite.natCast_inj debitValue_lt (by omega) hzero
  unfold debitValue at hnone
  omega

/-- What a member is debited of. -/
def debitOf (w : AnonWitness P.Scalar) (xfer : P.Anon) (i : ℕ) : ℕ :=
  if w.carries i then w.debitValue xfer else 0

theorem debitOf_cast (i : ℕ) : (w.debitOf xfer i : P.Scalar) = (w.member xfer i).1 := by
  rw [member_fst, debit_fst, debitOf, Nat.cast_ite, Nat.cast_zero]

/-- The ciphertexts of a transfer say one amount: the debits of its ring are together what is
credited and the fee. -/
theorem AmountsAgree.exists_amount (hagree : w.AmountsAgree xfer) (hsat : w.Satisfies xfer) :
    (∀ i < xfer.ring.length,
      P.Encrypts (keyAt P xfer.ring i) (ciphertextAt P xfer.enc i) (w.debitOf xfer i)) ∧
    ∃ amount, P.Encrypts xfer.output.oneTime xfer.credit amount ∧
      ∑ i ∈ Finset.range xfer.ring.length, w.debitOf xfer i = amount + xfer.fee.toNat := by
  refine ⟨fun i hi ↦ ⟨(w.links i).mask, ?_⟩, ?_⟩
  · rw [debitOf_cast, ← hagree.link i hi]
    exact (hsat.link i hi).enc
  have hcast : ((∑ i ∈ Finset.range xfer.ring.length, w.debitOf xfer i : ℕ) : P.Scalar) =
      (w.debitValue xfer : P.Scalar) := by
    rw [Nat.cast_sum, ← debit_fst, ← hagree.sum]
    exact Finset.sum_congr rfl fun i _ ↦ debitOf_cast i
  -- the members that carry the debit are one, or one and a multiple of the order
  have hle : w.debitValue xfer ≤ ∑ i ∈ Finset.range xfer.ring.length, w.debitOf xfer i := by
    by_cases hzero : w.debitValue xfer = 0
    · rw [hzero]
      exact Nat.zero_le _
    · have hcarries : ∃ i ∈ Finset.range xfer.ring.length, w.carries i := by
        by_contra hnone
        have hempty : ∑ i ∈ Finset.range xfer.ring.length, w.debitOf xfer i = 0 :=
          Finset.sum_eq_zero fun i hi ↦ if_neg fun hcarry ↦ hnone ⟨i, hi, hcarry⟩
        have horder := P.order_large
        rw [hempty] at hcast
        exact hzero (ProofSuite.natCast_inj debitValue_lt (by omega) hcast.symm)
      obtain ⟨i, hi, hcarry⟩ := hcarries
      have hsingle := Finset.single_le_sum (fun _ _ ↦ Nat.zero_le _) hi (f := w.debitOf xfer)
      rwa [debitOf, if_pos hcarry] at hsingle
  have hfee : xfer.fee.toNat ≤ ∑ i ∈ Finset.range xfer.ring.length, w.debitOf xfer i :=
    le_trans (Nat.le_add_left _ _) hle
  refine ⟨_, ⟨w.credit.mask, ?_⟩, (Nat.sub_add_cancel hfee).symm⟩
  have hvalue : ((∑ i ∈ Finset.range xfer.ring.length, w.debitOf xfer i - xfer.fee.toNat : ℕ) :
      P.Scalar) = w.credit.value := by
    rw [Nat.cast_sub hfee, hcast, debitValue, Nat.cast_add, add_sub_cancel_right, hagree.credit]
  rw [hvalue]
  exact hsat.credit.enc

/-- One member carries the debit, and it is the member of the fused disjunction. -/
theorem Agrees.carries_iff {balance : ℕ → ℕ} (hagrees : w.Agrees xfer balance)
    (hsat : w.Satisfies xfer) (hring : xfer.ring.length ≤ MAX_RING_SIZE)
    (hfee : 0 < xfer.fee.toNat) {i : ℕ} (hi : i < xfer.ring.length) :
    w.carries i ↔ i = w.index := by
  have hdebit := debit_fst_ne_zero (w := w) hfee
  have hindex : w.carries w.index := by
    by_contra hdecoy
    have hmember := hagrees.index
    rw [member_fst, if_neg hdecoy] at hmember
    exact hdebit hmember.symm
  have hcard : ((Finset.range xfer.ring.length).filter w.carries).card = 1 := by
    have hle := Finset.card_filter_le (Finset.range xfer.ring.length) w.carries
    rw [Finset.card_range] at hle
    have horder := P.order_large
    unfold MAX_RING_SIZE at hring
    apply ProofSuite.natCast_inj (P := P) (by omega) (by omega)
    have hsum := hagrees.sum
    simp only [member_fst] at hsum
    rw [← Finset.sum_filter, Finset.sum_const, nsmul_eq_mul] at hsum
    rw [Nat.cast_one]
    exact (mul_eq_right₀ hdebit).mp hsum
  obtain ⟨j, hj⟩ := Finset.card_eq_one.mp hcard
  have honly : ∀ k < xfer.ring.length, w.carries k ↔ k = j := by
    intro k hk
    rw [← Finset.mem_singleton, ← hj, Finset.mem_filter, Finset.mem_range, and_iff_right hk]
  rw [honly i hi, ← (honly _ hsat.index).mp hindex]

end AnonWitness

namespace AnonTransfer

variable {P : ProofSuite}

/-- What a transfer moves: it debits one member of the ring of the amount and the fee, whose key is
known to the prover, credits the amount, and leaves everybody else as they are. -/
structure Movement (xfer : P.Anon) (balance : ℕ → ℕ) (secret : SecretKey P.Scalar)
    (sender amount : ℕ) : Prop where
  inRing : sender < xfer.ring.length
  owner : ∀ i < xfer.ring.length, keyAt P xfer.ring i = P.publicKey secret ↔ i = sender
  nullifier : xfer.nullifierPoint = secret.scalar • epochBase P xfer.epoch
  debited : P.Encrypts (keyAt P xfer.ring sender) (ciphertextAt P xfer.enc sender)
    (amount + xfer.fee.toNat)
  decoys : ∀ i < xfer.ring.length, i ≠ sender →
    P.Encrypts (keyAt P xfer.ring i) (ciphertextAt P xfer.enc i) 0
  only : ∀ i < xfer.ring.length, (∃ debit, 0 < debit ∧ debit < P.order ∧
    P.Encrypts (keyAt P xfer.ring i) (ciphertextAt P xfer.enc i) debit) ↔ i = sender
  credited : P.Encrypts xfer.output.oneTime xfer.credit amount
  word : amount < 2 ^ 64
  solvent : amount + xfer.fee.toNat ≤ balance sender ∧
    balance sender - (amount + xfer.fee.toNat) < 2 ^ 64

/-- The balances after a transfer. -/
def balanceAfter (balance : ℕ → ℕ) (sender debit i : ℕ) : ℕ :=
  if i = sender then balance i - debit else balance i

theorem keyAt_inj {ring : List (PublicKey P.ground.Point)} (hdistinct : ring.Nodup) {i j : ℕ}
    (hi : i < ring.length) (hj : j < ring.length) (heq : keyAt P ring i = keyAt P ring j) : i = j := by
  rw [keyAt, keyAt, List.getD_eq_getElem _ _ hi, List.getD_eq_getElem _ _ hj] at heq
  exact hdistinct.getElem_inj_iff.mp heq

section Moves

variable {xfer : P.Anon} {w : AnonWitness P.Scalar} {balance : ℕ → ℕ}

/-- The ciphertext of a member encrypts what its link and its membership proof agree on. -/
theorem encrypts_of_agrees (hsat : w.Satisfies xfer) (hagrees : w.Agrees xfer balance)
    (hring : xfer.ring.length ≤ MAX_RING_SIZE) (hfee : 0 < xfer.fee.toNat) {i : ℕ}
    (hi : i < xfer.ring.length) :
    P.Encrypts (keyAt P xfer.ring i) (ciphertextAt P xfer.enc i)
      (if i = w.index then w.debitValue xfer else 0) := by
  have hvalue : (w.links i).value =
      ((if i = w.index then w.debitValue xfer else 0 : ℕ) : P.Scalar) := by
    rw [hagrees.link i hi, AnonWitness.member_fst, AnonWitness.debit_fst]
    by_cases hindex : i = w.index
    · rw [if_pos ((hagrees.carries_iff hsat hring hfee hi).mpr hindex), if_pos hindex]
    · rw [if_neg (mt (hagrees.carries_iff hsat hring hfee hi).mp hindex), if_neg hindex,
        Nat.cast_zero]
  refine ⟨(w.links i).mask, ?_⟩
  rw [← hvalue]
  exact (hsat.link i hi).enc

/-- What the balance of the sender is made of. -/
theorem balance_of_agrees (hagrees : w.Agrees xfer balance) (hword : balance w.index < 2 ^ 64) :
    balance w.index = w.remaining.1.toNat + w.debitValue xfer := by
  have horder := P.order_large
  have hremaining := w.remaining.1.toNat_lt
  have hamount := w.amount.1.toNat_lt
  have hfee := xfer.fee.toNat_lt
  have hbalance := hagrees.balance
  rw [AnonWitness.debit_fst, ← Nat.cast_add] at hbalance
  refine (ProofSuite.natCast_inj ?_ (by omega) hbalance).symm
  unfold AnonWitness.debitValue
  omega

/-- The witnesses of a verified transfer, once their values agree, describe its movement. -/
theorem movement_of_agrees (hsat : w.Satisfies xfer) (hagrees : w.Agrees xfer balance)
    (hring : xfer.ring.length ≤ MAX_RING_SIZE) (hdistinct : xfer.ring.Nodup)
    (hfee : 0 < xfer.fee.toNat) (hword : balance w.index < 2 ^ 64) :
    Movement xfer balance ⟨w.x⟩ w.index w.amount.1.toNat := by
  have hencrypts {i : ℕ} (hi : i < xfer.ring.length) :=
    encrypts_of_agrees hsat hagrees hring hfee hi
  have howner : keyAt P xfer.ring w.index = P.publicKey ⟨w.x⟩ :=
    congrArg PublicKey.mk hsat.owner.symm
  have hdebited := hencrypts hsat.index
  rw [if_pos rfl] at hdebited
  have hdecoys : ∀ i < xfer.ring.length, i ≠ w.index →
      P.Encrypts (keyAt P xfer.ring i) (ciphertextAt P xfer.enc i) 0 := by
    intro i hi hother
    have hzero := hencrypts hi
    rw [if_neg hother] at hzero
    exact hzero
  constructor
  · exact hsat.index
  · intro i hi
    constructor
    · exact fun hkey ↦ keyAt_inj hdistinct hi hsat.index (hkey.trans howner.symm)
    · rintro rfl
      exact howner
  · exact hsat.nullifier.symm
  · exact hdebited
  · exact hdecoys
  · intro i hi
    constructor
    · rintro ⟨debit, hpositive, hsmall, hdebit⟩
      by_contra hother
      have horder := P.order_large
      have hzero := ProofSuite.eq_of_encrypts hsmall (by omega) hdebit (hdecoys i hi hother)
      omega
    · rintro rfl
      refine ⟨w.debitValue xfer, ?_, AnonWitness.debitValue_lt, hdebited⟩
      unfold AnonWitness.debitValue
      omega
  · refine ⟨w.credit.mask, ?_⟩
    rw [← hagrees.credit]
    exact hsat.credit.enc
  · exact w.amount.1.toNat_lt
  · have hbalance := balance_of_agrees hagrees hword
    have hremaining := w.remaining.1.toNat_lt
    unfold AnonWitness.debitValue at hbalance
    omega

end Moves

/-- The total of the balances falls by the debit. -/
theorem sum_balanceAfter {n sender debit : ℕ} (balance : ℕ → ℕ) (hsender : sender < n)
    (hcovered : debit ≤ balance sender) :
    ∑ i ∈ Finset.range n, balanceAfter balance sender debit i + debit =
      ∑ i ∈ Finset.range n, balance i := by
  have hmem := Finset.mem_range.mpr hsender
  have hothers : ∑ i ∈ (Finset.range n).erase sender, balanceAfter balance sender debit i =
      ∑ i ∈ (Finset.range n).erase sender, balance i :=
    Finset.sum_congr rfl fun i hi ↦ if_neg (Finset.ne_of_mem_erase hi)
  rw [← Finset.add_sum_erase _ _ hmem, ← Finset.add_sum_erase _ balance hmem, hothers, balanceAfter,
    if_pos rfl]
  omega

/-- **Soundness.** A verified anonymous transfer with a fee moves one debit, from the member of the
ring whose key its prover knows. When every debit ciphertext is subtracted from the balance of its
member and the credit is added to what the receiver holds, the encrypted total falls by the fee. -/
theorem moves_one_debit {oracle : Bytes → P.Scalar} {token : UInt32} {xfer : P.Anon}
    {w : AnonWitness P.Scalar} {balance : ℕ → ℕ} (hring : xfer.ring.length ≤ MAX_RING_SIZE)
    (hdistinct : xfer.ring.Nodup) (hfee : 0 < xfer.fee)
    (hbalance : ∀ i < xfer.ring.length, balance i < 2 ^ 64 ∧
      P.Encrypts (keyAt P xfer.ring i) (ciphertextAt P xfer.balances i) (balance i))
    (hverified : verify P oracle xfer token = true) (hyields : w.Yields xfer oracle token)
    (hindependent : Independent P.G P.H (w.relations xfer balance)) :
    ∃ sender amount, Movement xfer balance ⟨w.x⟩ sender amount ∧
      (∀ i < xfer.ring.length, P.Encrypts (keyAt P xfer.ring i)
        (P.ground.sub (ciphertextAt P xfer.balances i) (ciphertextAt P xfer.enc i))
        (balanceAfter balance sender (amount + xfer.fee.toNat) i)) ∧
      (∀ pending held, P.Encrypts xfer.output.oneTime pending held →
        P.Encrypts xfer.output.oneTime (P.ground.add pending xfer.credit) (held + amount)) ∧
      ∑ i ∈ Finset.range xfer.ring.length,
          balanceAfter balance sender (amount + xfer.fee.toNat) i + amount + xfer.fee.toNat =
        ∑ i ∈ Finset.range xfer.ring.length, balance i := by
  have hsat := hyields.satisfies hverified
  have hagrees := hsat.agrees (hbalance _ hsat.index).2 hindependent
  have hmovement := movement_of_agrees hsat hagrees hring hdistinct (UInt64.lt_iff_toNat_lt.mp hfee)
    (hbalance _ hsat.index).1
  refine ⟨_, _, hmovement, ?_, fun pending held hheld ↦ hheld.add hmovement.credited, ?_⟩
  · intro i hi
    unfold balanceAfter
    by_cases hsender : i = w.index
    · subst hsender
      rw [if_pos rfl]
      exact (hbalance _ hi).2.sub hmovement.debited hmovement.solvent.1
    · rw [if_neg hsender]
      exact (hbalance i hi).2.sub (hmovement.decoys i hi hsender) (Nat.zero_le _)
  · rw [add_assoc]
    exact sum_balanceAfter balance hmovement.inRing hmovement.solvent.1

/-! ### The witness of an honest sender -/

/-- What the sender of a transfer knows of it. -/
def Spend.witness (s : Spend P) (rng : AnonRandomness P.Scalar P.RangeRandomness)
    (debit remaining : UInt64) : AnonWitness P.Scalar where
  remaining := (remaining, rng.gamma)
  amount := (s.amount, rng.sD)
  membership i := if i = s.senderIndex then .inr (rng.blind i - rng.sD) else .inl (rng.blind i)
  links i := ⟨((s.value debit i).toNat : P.Scalar), rng.blind i, rng.y i⟩
  credit := ⟨(s.amount.toNat : P.Scalar), rng.sD, rng.yC⟩
  sum := s.sigma rng
  index := s.senderIndex
  x := s.sender.scalar
  s := rng.blind s.senderIndex - rng.sD
  g := rng.gamma + rng.sD

section Honest

variable {s : Spend P} {rng : AnonRandomness P.Scalar P.RangeRandomness} {debit remaining : UInt64}
  {rp : P.RangeProof} {oracle : Bytes → P.Scalar}

namespace Covered

/-- The honest sender knows the witness of every sub-proof. -/
theorem yields (hcovered : Covered s debit remaining) :
    (s.witness rng debit remaining).Yields
      (prove P oracle s rng debit rp (P.ground.compress (P.commitDelta remaining rng.gamma))
        (P.commitDelta remaining rng.gamma)) oracle s.token := by
  constructor
  · exact fun _ ↦ ⟨rfl, hcovered.cAmt_eq⟩
  · intro v i hi _
    have hin : i < s.ring.length := hi
    rw [deltas_prove hin]
    show match (if i = s.senderIndex then .inr (rng.blind i - rng.sD) else .inl (rng.blind i) :
        P.Scalar ⊕ P.Scalar) with
      | .inl blind => s.delta rng debit i = blind • P.H
      | .inr blind => s.delta rng debit i - Spend.cDebit rng debit = blind • P.H
    by_cases hsender : i = s.senderIndex
    · rw [if_pos hsender, hsender]
      exact delta_sender
    · rw [if_neg hsender]
      exact delta_decoy hsender
  · intro v i hi _
    have hin : i < s.ring.length := hi
    rw [deltas_prove hin, enc_prove hin]
    exact ⟨rfl, rfl⟩
  · intro v _
    exact ⟨hcovered.cAmt_eq.symm, rfl⟩
  · intro v _
    exact hcovered.aggTarget_eq
  · intro v _ hv
    obtain rfl := Option.some.inj ((P.ground.decompress_compress _).symm.trans hv)
    refine ⟨hcovered.inRing, hcovered.owner, ?_, hcovered.solvencyTarget_eq, rfl⟩
    show (prove P oracle s rng debit rp _ _).proof.deltas.getD s.senderIndex 0 - _ = _
    rw [deltas_prove hcovered.inRing]
    exact delta_sender

/-- The honest sender opens the debit as it was made. -/
theorem debit_witness (hcovered : Covered s debit remaining) (vComp : Bytes32)
    (v : P.ground.Point) :
    (s.witness rng debit remaining).debit (prove P oracle s rng debit rp vComp v) =
      ((debit.toNat : P.Scalar), rng.sD) := by
  rw [hcovered.debit_eq, Nat.cast_add]
  exact Prod.ext rfl (add_zero _)

/-- The honest sender opens every delta as it was made. -/
theorem member_witness (hcovered : Covered s debit remaining) (vComp : Bytes32)
    (v : P.ground.Point) (i : ℕ) :
    (s.witness rng debit remaining).member (prove P oracle s rng debit rp vComp v) i =
      (((s.value debit i).toNat : P.Scalar), rng.blind i) := by
  unfold AnonWitness.member
  rw [hcovered.debit_witness]
  by_cases hsender : i = s.senderIndex
  · simp [Spend.witness, Spend.value, hsender]
  · simp [Spend.witness, Spend.value, hsender]

/-- The honest sender knows no relation between the bases. -/
theorem relations_eq_zero (hcovered : Covered s debit remaining) {balance : ℕ → ℕ}
    (hbalance : balance s.senderIndex = remaining.toNat + debit.toNat) (vComp : Bytes32)
    (v : P.ground.Point) :
    ∀ o ∈ (s.witness rng debit remaining).relations (prove P oracle s rng debit rp vComp v) balance,
      o = 0 := by
  intro o ho
  rcases List.mem_append.mp ho with hopening | hlink
  · rw [hcovered.debit_witness, hcovered.member_witness] at hopening
    simp only [hcovered.member_witness, List.mem_cons, List.not_mem_nil, or_false] at hopening
    rcases hopening with rfl | rfl | rfl | rfl
    · exact sub_self _
    · apply sub_eq_zero.mpr
      apply Prod.ext
      · show (debit.toNat : P.Scalar) + 0 = ((s.value debit s.senderIndex).toNat : P.Scalar)
        rw [add_zero, Spend.value, if_pos rfl]
      · exact add_sub_cancel _ _
    · apply sub_eq_zero.mpr
      apply Prod.ext
      · show (remaining.toNat : P.Scalar) + (debit.toNat : P.Scalar) =
          (balance s.senderIndex : P.Scalar)
        rw [hbalance, Nat.cast_add]
      · rfl
    · apply sub_eq_zero.mpr
      apply Prod.ext
      · rw [Prod.fst_sum]
        exact hcovered.sum_value.trans (add_zero _).symm
      · rw [Prod.snd_sum]
        exact (add_sub_cancel _ _).symm
  · obtain ⟨i, -, rfl⟩ := List.mem_map.mp hlink
    rw [hcovered.member_witness]
    exact sub_self _

end Covered

end Honest

/-- What the members of the ring of three hold. -/
def middleBalances (i : ℕ) : ℕ := [8, 1000, 70].getD i 0

theorem middleSpend_balances : ∀ i < middleSpend.ring.length, middleBalances i < 2 ^ 64 ∧
    primeSuite.Encrypts (keyAt primeSuite middleSpend.ring i)
      (ciphertextAt primeSuite middleSpend.balances i) (middleBalances i) := by
  intro i (hi : i < 3)
  interval_cases i
  · exact ⟨by decide, (6 : Residue), by decide⟩
  · exact ⟨by decide, (0 : Residue), by decide⟩
  · exact ⟨by decide, (0 : Residue), by decide⟩

/-- The spend from the middle of the ring is made, is verified, and has its witnesses. -/
theorem middleSpend_witnessed :
    ∃ (xfer : primeSuite.Anon) (w : AnonWitness primeSuite.Scalar),
      create primeSuite primeOracle middleSpend middleRandomness = some xfer ∧
      verify primeSuite primeOracle xfer 0 = true ∧ w.Yields xfer primeOracle 0 ∧
      Independent primeSuite.G primeSuite.H (w.relations xfer middleBalances) ∧
      w.x = (5 : Residue) ∧ xfer.ring = middleSpend.ring ∧ xfer.balances = middleSpend.balances ∧
      xfer.fee = middleSpend.fee := by
  have hcovered : Covered middleSpend 310 690 :=
    ⟨by decide, by decide, ⟨(0 : Residue), by decide⟩, by decide⟩
  have hlength : [((690 : UInt64), (22 : Residue)), (300, (21 : Residue))].length ≤ 2 := le_rfl
  have hproved := primeSuite_proveMultiple (ascii "Latebra.AnonTransfer.range.v3") hlength
  have hverified := @Covered.verify_prove primeSuite primeOracle middleSpend middleRandomness 310 690
    _ hcovered middleSpend_solvent.members middleSpend_solvent.balances
    (primeSuite_verifyMultiple _ hlength)
  have hbalance : middleBalances middleSpend.senderIndex =
      (690 : UInt64).toNat + (310 : UInt64).toNat := by decide
  exact ⟨_, _, middleSpend_solvent.create_eq rfl rfl hproved, hverified, hcovered.yields,
    fun o ho _ ↦ hcovered.relations_eq_zero hbalance _ _ o ho, rfl, rfl, rfl, rfl⟩

/-- The spend from the middle of the ring moves its debit from there. -/
theorem moves_one_debit_middle :
    ∃ xfer : primeSuite.Anon,
      create primeSuite primeOracle middleSpend middleRandomness = some xfer ∧
      verify primeSuite primeOracle xfer 0 = true ∧
      ∃ sender amount, Movement xfer middleBalances ⟨(5 : Residue)⟩ sender amount := by
  obtain ⟨xfer, w, hcreate, hverified, hyields, hindependent, hx, hring, hbalances, hfee⟩ :=
    middleSpend_witnessed
  have hsize : middleSpend.ring.length ≤ MAX_RING_SIZE := by decide
  have hdistinct : middleSpend.ring.Nodup := by decide
  have hpositive : 0 < middleSpend.fee := by decide
  have hheld := middleSpend_balances
  rw [← hring, ← hbalances] at hheld
  rw [← hring] at hsize hdistinct
  rw [← hfee] at hpositive
  refine ⟨xfer, hcreate, hverified, ?_⟩
  obtain ⟨sender, amount, hmovement, -⟩ := moves_one_debit hsize hdistinct hpositive
    hheld hverified hyields hindependent
  rw [hx] at hmovement
  exact ⟨sender, amount, hmovement⟩

end AnonTransfer

/-! ### The suite of a chain -/

namespace ProofSuite

variable (P : ProofSuite) (oracle : Bytes → P.Scalar)

/-- The transfers of a chain, verified by these proofs. -/
def transferSuite : TransferSuite :=
  { P.toTransferSuite with
    solventVerify := SolventTransfer.verify P oracle
    anonRelations := AnonTransfer.relations P oracle }

end ProofSuite

end Latebra.Crypto
