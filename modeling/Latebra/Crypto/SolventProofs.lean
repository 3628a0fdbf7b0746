import Latebra.Crypto.PrimeSuite
import Latebra.Foundation.MachineWord

/-!
# The solvent transfer proof

One integrated Σ-protocol proves seven relations with shared witnesses, next to two range proofs:

1. `Y_s = x·G`, the sender owns the account,
2. `c_sender = t·G + r·Y_s`, the amount debited,
3. `c_receiver = t·G + r·Y_r`, the same amount credited,
4. `d = r·G`,
5. `V_t = t·G + s_t·H`, the commitment to the amount,
6. `C_rem = b'·G + x·D_rem`, the balance that remains,
7. `V_b = b'·G + s_b·H`, the commitment to it.

`verify_create` is completeness. `SolventWitness.satisfies_extract` is special soundness: two
accepted proofs with one transcript and two challenges give a witness of all seven relations. What
such a witness says about the ciphertexts, once the range proofs are opened and no relation between
the bases comes out, is `SolventWitness.Satisfies.means`.
-/

set_option autoImplicit false
set_option relaxedAutoImplicit false

namespace Latebra.Crypto

open Foundation
open Foundation.SigmaProtocol

/-- What the sender draws for a solvent transfer. -/
structure SolventRandomness (Scalar RangeRandomness : Type) where
  r : Scalar
  sT : Scalar
  sB : Scalar
  rangeT : RangeRandomness
  rangeB : RangeRandomness
  kX : Scalar
  kT : Scalar
  kR : Scalar
  kB : Scalar
  kSt : Scalar
  kSb : Scalar

/-- The witness of the seven relations. -/
structure SolventWitness (Scalar : Type) where
  x : Scalar
  t : Scalar
  r : Scalar
  b : Scalar
  sT : Scalar
  sB : Scalar

namespace SolventTransfer

variable (P : ProofSuite)

/-- The challenge of a solvent transfer: the token is bound into it with the nonce and the fee. -/
def challenge (oracle : Bytes → P.Scalar) (token : UInt32) (nonce fee : UInt64)
    (points : List P.ground.Point) : P.Scalar :=
  oracle (ascii "Latebra.SolventTransfer.v2" ++ u32Le token ++ u64Le nonce ++ u64Le fee ++
    points.flatMap P.pointBytes)

/-- The transfer that a sender proves once its two range proofs are made. -/
def prove (oracle : Bytes → P.Scalar) (senderSk : SecretKey P.Scalar)
    (receiverPk : PublicKey P.ground.Point) (token : UInt32) (amount fee bVal : UInt64)
    (currentBalanceCt : Ciphertext P.ground.Point) (nonce : UInt64)
    (rng : SolventRandomness P.Scalar P.RangeRandomness) (rpT rpB : P.RangeProof) (vT vB : Bytes32)
    (bigVt bigVb : P.ground.Point) : P.Solvent :=
  let sender := P.publicKey senderSk
  let x := senderSk.scalar
  let t : P.Scalar := amount.toNat
  let b : P.Scalar := bVal.toNat
  let cSender := t • P.G + rng.r • sender.point
  let cReceiver := t • P.G + rng.r • receiverPk.point
  let d := rng.r • P.G
  -- The remaining balance also loses the public fee.
  let cRem := currentBalanceCt.c - cSender - (fee.toNat : P.Scalar) • P.G
  let dRem := currentBalanceCt.d - d
  let a1 := rng.kX • P.G
  let a2 := rng.kT • P.G + rng.kR • sender.point
  let a3 := rng.kT • P.G + rng.kR • receiverPk.point
  let a4 := rng.kR • P.G
  let a5 := rng.kT • P.G + rng.kSt • P.H
  let a6 := rng.kB • P.G + rng.kX • dRem
  let a7 := rng.kB • P.G + rng.kSb • P.H
  let e := challenge P oracle token nonce fee [sender.point, receiverPk.point, cSender, cReceiver, d,
    cRem, dRem, bigVt, bigVb, a1, a2, a3, a4, a5, a6, a7]
  ⟨sender, receiverPk, nonce, fee, cSender, cReceiver, d,
    ⟨vT, vB, rpT, rpB, a1, a2, a3, a4, a5, a6, a7, rng.kX + e * x, rng.kT + e * t,
      rng.kR + e * rng.r, rng.kB + e * b, rng.kSt + e * rng.sT, rng.kSb + e * rng.sB⟩⟩

/-- Build a solvent transfer. There is none of an amount that the sender cannot afford. -/
def create (oracle : Bytes → P.Scalar) (senderSk : SecretKey P.Scalar)
    (receiverPk : PublicKey P.ground.Point) (token : UInt32) (amount fee currentBalance : UInt64)
    (currentBalanceCt : Ciphertext P.ground.Point) (nonce : UInt64)
    (rng : SolventRandomness P.Scalar P.RangeRandomness) : Option P.Solvent := do
  let spent ← checkedAdd amount fee
  if currentBalance < spent then none else
  let bVal := currentBalance - spent
  let (rpT, vT) ← P.proveSingle (ascii "Latebra.Range.amount") amount rng.sT rng.rangeT
  let (rpB, vB) ← P.proveSingle (ascii "Latebra.Range.balance") bVal rng.sB rng.rangeB
  let bigVt ← P.ground.decompress vT
  let bigVb ← P.ground.decompress vB
  return prove P oracle senderSk receiverPk token amount fee bVal currentBalanceCt nonce rng rpT rpB
    vT vB bigVt bigVb

/-- What is left of the balance ciphertext after the debit and the fee. -/
def remainder (xfer : P.Solvent) (currentBalanceCt : Ciphertext P.ground.Point) :
    Ciphertext P.ground.Point :=
  ⟨currentBalanceCt.c - xfer.cSender - (xfer.fee.toNat : P.Scalar) • P.G,
    currentBalanceCt.d - xfer.d⟩

/-- The challenge that a transfer is verified under. -/
def challengeOf (oracle : Bytes → P.Scalar) (xfer : P.Solvent) (token : UInt32)
    (currentBalanceCt : Ciphertext P.ground.Point) (bigVt bigVb : P.ground.Point) : P.Scalar :=
  let rem := remainder P xfer currentBalanceCt
  let pf := xfer.proof
  challenge P oracle token xfer.nonce xfer.fee [xfer.sender.point, xfer.receiver.point,
    xfer.cSender, xfer.cReceiver, xfer.d, rem.c, rem.d, bigVt, bigVb, pf.a1, pf.a2, pf.a3, pf.a4,
    pf.a5, pf.a6, pf.a7]

/-- The seven Σ relations under a challenge. -/
def relations (xfer : P.Solvent) (rem : Ciphertext P.ground.Point) (e : P.Scalar)
    (bigVt bigVb : P.ground.Point) : Bool :=
  let pf := xfer.proof
  let c1 : Bool := pf.zX • P.G = pf.a1 + e • xfer.sender.point
  let c2 : Bool := pf.zT • P.G + pf.zR • xfer.sender.point = pf.a2 + e • xfer.cSender
  let c3 : Bool := pf.zT • P.G + pf.zR • xfer.receiver.point = pf.a3 + e • xfer.cReceiver
  let c4 : Bool := pf.zR • P.G = pf.a4 + e • xfer.d
  let c5 : Bool := pf.zT • P.G + pf.zSt • P.H = pf.a5 + e • bigVt
  let c6 : Bool := pf.zB • P.G + pf.zX • rem.d = pf.a6 + e • rem.c
  let c7 : Bool := pf.zB • P.G + pf.zSb • P.H = pf.a7 + e • bigVb
  c1 && c2 && c3 && c4 && c5 && c6 && c7

/-- Verify a transfer against the current balance of its sender. -/
def verify (oracle : Bytes → P.Scalar) (xfer : P.Solvent) (token : UInt32)
    (currentBalanceCt : Ciphertext P.ground.Point) : Bool :=
  if ¬ P.verifySingle xfer.proof.rpT (ascii "Latebra.Range.amount") xfer.proof.vT then false
  else if ¬ P.verifySingle xfer.proof.rpB (ascii "Latebra.Range.balance") xfer.proof.vB then false
  else match P.ground.decompress xfer.proof.vT, P.ground.decompress xfer.proof.vB with
    | some bigVt, some bigVb =>
      relations P xfer (remainder P xfer currentBalanceCt)
        (challengeOf P oracle xfer token currentBalanceCt bigVt bigVb) bigVt bigVb
    | _, _ => false

/-- The statement of a transfer and the announcements of its proof: everything but the responses
and the range proofs. -/
def announced (xfer : P.Solvent) :=
  (xfer.sender, xfer.receiver, xfer.nonce, xfer.fee, xfer.cSender, xfer.cReceiver, xfer.d,
    xfer.proof.vT, xfer.proof.vB, [xfer.proof.a1, xfer.proof.a2, xfer.proof.a3, xfer.proof.a4,
      xfer.proof.a5, xfer.proof.a6, xfer.proof.a7])

/-- The seven checks, each of one linear relation: the statement and the announcements of a
transfer against the responses of a proof. -/
structure Checked (xfer : P.Solvent)
    (pf : SolventProof P.ground.Point P.Scalar P.RangeProof) (rem : Ciphertext P.ground.Point)
    (e : P.Scalar) (bigVt bigVb : P.ground.Point) : Prop where
  owner : Accepts (LinearMap.toSpanSingleton P.Scalar _ P.G) xfer.sender.point xfer.proof.a1 e pf.zX
  debit : Accepts (commit P.G xfer.sender.point) xfer.cSender xfer.proof.a2 e (pf.zT, pf.zR)
  credit : Accepts (commit P.G xfer.receiver.point) xfer.cReceiver xfer.proof.a3 e (pf.zT, pf.zR)
  handle : Accepts (LinearMap.toSpanSingleton P.Scalar _ P.G) xfer.d xfer.proof.a4 e pf.zR
  amount : Accepts (commit P.G P.H) bigVt xfer.proof.a5 e (pf.zT, pf.zSt)
  balance : Accepts (commit P.G rem.d) rem.c xfer.proof.a6 e (pf.zB, pf.zX)
  remaining : Accepts (commit P.G P.H) bigVb xfer.proof.a7 e (pf.zB, pf.zSb)

variable {P}

theorem relations_eq_true {xfer : P.Solvent} {rem : Ciphertext P.ground.Point} {e : P.Scalar}
    {bigVt bigVb : P.ground.Point} :
    relations P xfer rem e bigVt bigVb = true ↔ Checked P xfer xfer.proof rem e bigVt bigVb := by
  simp only [relations, Bool.and_eq_true, decide_eq_true_eq, and_assoc]
  constructor
  · rintro ⟨howner, hdebit, hcredit, hhandle, hamount, hbalance, hremaining⟩
    exact ⟨howner, hdebit, hcredit, hhandle, hamount, hbalance, hremaining⟩
  · rintro ⟨howner, hdebit, hcredit, hhandle, hamount, hbalance, hremaining⟩
    exact ⟨howner, hdebit, hcredit, hhandle, hamount, hbalance, hremaining⟩

/-- What the verifier accepts. -/
theorem verify_eq_true {oracle : Bytes → P.Scalar} {xfer : P.Solvent} {token : UInt32}
    {ct : Ciphertext P.ground.Point} :
    verify P oracle xfer token ct = true ↔
      P.verifySingle xfer.proof.rpT (ascii "Latebra.Range.amount") xfer.proof.vT = true ∧
      P.verifySingle xfer.proof.rpB (ascii "Latebra.Range.balance") xfer.proof.vB = true ∧
      ∃ bigVt bigVb, P.ground.decompress xfer.proof.vT = some bigVt ∧
        P.ground.decompress xfer.proof.vB = some bigVb ∧
        Checked P xfer xfer.proof (remainder P xfer ct)
          (challengeOf P oracle xfer token ct bigVt bigVb) bigVt bigVb := by
  simp only [← relations_eq_true]
  unfold verify
  by_cases hamount : P.verifySingle xfer.proof.rpT (ascii "Latebra.Range.amount") xfer.proof.vT
  · by_cases hbalance : P.verifySingle xfer.proof.rpB (ascii "Latebra.Range.balance") xfer.proof.vB
    · rw [if_neg (not_not_intro hamount), if_neg (not_not_intro hbalance)]
      constructor
      · intro hverified
        refine ⟨hamount, hbalance, ?_⟩
        split at hverified
        · next bigVt bigVb hVt hVb => exact ⟨bigVt, bigVb, hVt, hVb, hverified⟩
        · cases hverified
      · rintro ⟨-, -, bigVt, bigVb, hVt, hVb, hrelations⟩
        rw [hVt, hVb]
        exact hrelations
    · simp [hbalance]
  · simp [hamount]

section Completeness

variable (oracle : Bytes → P.Scalar) (secret : SecretKey P.Scalar)
  (receiver : PublicKey P.ground.Point) (token : UInt32) {amount fee balance : UInt64}
  {ct : Ciphertext P.ground.Point} (nonce : UInt64)
  (rng : SolventRandomness P.Scalar P.RangeRandomness) {rpT rpB : P.RangeProof}

/-- What an affordable amount leaves of the balance. -/
theorem toNat_balance_eq (hsolvent : amount.toNat + fee.toNat ≤ balance.toNat) :
    checkedAdd amount fee = some (amount + fee) ∧ ¬ balance < amount + fee ∧
      balance.toNat = amount.toNat + fee.toNat + (balance - (amount + fee)).toNat := by
  have hspent : checkedAdd amount fee = some (amount + fee) :=
    if_pos (hsolvent.trans_lt balance.toNat_lt)
  have hsum := checkedAdd_eq_some.mp hspent
  have hcovered : ¬ balance < amount + fee := by
    rw [UInt64.lt_iff_toNat_lt]
    omega
  refine ⟨hspent, hcovered, ?_⟩
  rw [UInt64.toNat_sub_of_le _ _ (UInt64.not_lt.mp hcovered)]
  omega

/-- The transfer that is built of an affordable amount. -/
theorem create_eq (hsolvent : amount.toNat + fee.toNat ≤ balance.toNat)
    (hT : P.proveSingle (ascii "Latebra.Range.amount") amount rng.sT rng.rangeT =
      some (rpT, P.ground.compress (P.commitDelta amount rng.sT)))
    (hB : P.proveSingle (ascii "Latebra.Range.balance") (balance - (amount + fee)) rng.sB rng.rangeB =
      some (rpB, P.ground.compress (P.commitDelta (balance - (amount + fee)) rng.sB))) :
    create P oracle secret receiver token amount fee balance ct nonce rng =
      some (prove P oracle secret receiver token amount fee (balance - (amount + fee)) ct nonce rng
        rpT rpB (P.ground.compress (P.commitDelta amount rng.sT))
        (P.ground.compress (P.commitDelta (balance - (amount + fee)) rng.sB))
        (P.commitDelta amount rng.sT) (P.commitDelta (balance - (amount + fee)) rng.sB)) := by
  obtain ⟨hspent, hcovered, -⟩ := toNat_balance_eq hsolvent
  unfold create
  simp only [hspent, hT, hB, P.ground.decompress_compress, Option.bind_eq_bind, Option.bind_some,
    if_neg hcovered]
  rfl

/-- The seven relations of a proved transfer hold, under whatever challenge it draws. -/
theorem checked_prove {bVal : UInt64} {vT vB : Bytes32}
    (hct : P.Encrypts (P.publicKey secret) ct (amount.toNat + fee.toNat + bVal.toNat)) :
    let xfer := prove P oracle secret receiver token amount fee bVal ct nonce rng rpT rpB vT vB
      (P.commitDelta amount rng.sT) (P.commitDelta bVal rng.sB)
    Checked P xfer xfer.proof (remainder P xfer ct)
      (challengeOf P oracle xfer token ct (P.commitDelta amount rng.sT) (P.commitDelta bVal rng.sB))
      (P.commitDelta amount rng.sT) (P.commitDelta bVal rng.sB) := by
  obtain ⟨r, rfl⟩ := hct
  constructor
  · exact accepts_respond rfl
  · exact accepts_respond (k := (rng.kT, rng.kR)) (w := (_, _)) rfl
  · exact accepts_respond (k := (rng.kT, rng.kR)) (w := (_, _)) rfl
  · exact accepts_respond rfl
  · exact accepts_respond (k := (rng.kT, rng.kSt)) (w := (_, _)) rfl
  · refine accepts_respond (k := (rng.kB, rng.kX)) (w := (_, secret.scalar)) ?_
    show (bVal.toNat : P.Scalar) • P.G + secret.scalar • (r • P.G - rng.r • P.G) =
      ((amount.toNat + fee.toNat + bVal.toNat : ℕ) : P.Scalar) • P.G + r • secret.scalar • P.G -
          ((amount.toNat : P.Scalar) • P.G + rng.r • secret.scalar • P.G) -
        (fee.toNat : P.Scalar) • P.G
    push_cast
    module
  · exact accepts_respond (k := (rng.kB, rng.kSb)) (w := (_, _)) rfl

/-- **Completeness.** A sender who owns the balance that a ciphertext encrypts gets a transfer of
every amount that it covers with the fee, and the transfer is verified. -/
theorem verify_create (hrange : P.RangeComplete)
    (hsolvent : amount.toNat + fee.toNat ≤ balance.toNat)
    (hct : P.Encrypts (P.publicKey secret) ct balance.toNat) :
    ∃ xfer, create P oracle secret receiver token amount fee balance ct nonce rng = some xfer ∧
      verify P oracle xfer token ct = true := by
  obtain ⟨rpT, hprovedT, hverifiedT⟩ :=
    hrange.single (ascii "Latebra.Range.amount") amount rng.sT rng.rangeT
  obtain ⟨rpB, hprovedB, hverifiedB⟩ :=
    hrange.single (ascii "Latebra.Range.balance") (balance - (amount + fee)) rng.sB rng.rangeB
  obtain ⟨-, -, hbalance⟩ := toNat_balance_eq hsolvent
  rw [hbalance] at hct
  refine ⟨_, create_eq oracle secret receiver token nonce rng hsolvent hprovedT hprovedB, ?_⟩
  apply verify_eq_true.mpr
  exact ⟨hverifiedT, hverifiedB, _, _, P.ground.decompress_compress _,
    P.ground.decompress_compress _, checked_prove oracle secret receiver token nonce rng hct⟩

end Completeness

/-! ### Special soundness -/

/-- Responses to the announcements of one transfer are responses to those of another. -/
theorem Checked.of_announced {xfer xfer' : P.Solvent} (hsame : announced P xfer = announced P xfer')
    {pf : SolventProof P.ground.Point P.Scalar P.RangeProof} {rem : Ciphertext P.ground.Point}
    {e : P.Scalar} {bigVt bigVb : P.ground.Point}
    (hchecked : Checked P xfer' pf rem e bigVt bigVb) :
    Checked P xfer pf rem e bigVt bigVb := by
  simp only [announced, Prod.mk.injEq, List.cons.injEq] at hsame
  obtain ⟨hsender, hreceiver, -, -, hcSender, hcReceiver, hd, -, -, h1, h2, h3, h4, h5, h6, h7, -⟩ :=
    hsame
  constructor
  · rw [hsender, h1]
    exact hchecked.owner
  · rw [hsender, hcSender, h2]
    exact hchecked.debit
  · rw [hreceiver, hcReceiver, h3]
    exact hchecked.credit
  · rw [hd, h4]
    exact hchecked.handle
  · rw [h5]
    exact hchecked.amount
  · rw [h6]
    exact hchecked.balance
  · rw [h7]
    exact hchecked.remaining

theorem commitments_of_announced {xfer xfer' : P.Solvent}
    (hsame : announced P xfer = announced P xfer') :
    xfer.proof.vT = xfer'.proof.vT ∧ xfer.proof.vB = xfer'.proof.vB := by
  simp only [announced, Prod.mk.injEq] at hsame
  obtain ⟨-, -, -, -, -, -, -, hvT, hvB, -⟩ := hsame
  exact ⟨hvT, hvB⟩

theorem remainder_of_announced {xfer xfer' : P.Solvent}
    (hsame : announced P xfer = announced P xfer') (ct : Ciphertext P.ground.Point) :
    remainder P xfer ct = remainder P xfer' ct := by
  simp only [announced, Prod.mk.injEq] at hsame
  obtain ⟨-, -, -, hfee, hcSender, -, hd, -⟩ := hsame
  rw [remainder, remainder, hfee, hcSender, hd]

/-- The announcements of a proved transfer do not depend on what its challenge is drawn from. -/
theorem announced_prove (oracle oracle' : Bytes → P.Scalar) (secret : SecretKey P.Scalar)
    (receiver : PublicKey P.ground.Point) (token : UInt32) (amount fee bVal : UInt64)
    (ct : Ciphertext P.ground.Point) (nonce : UInt64)
    (rng : SolventRandomness P.Scalar P.RangeRandomness) (rpT rpB : P.RangeProof) (vT vB : Bytes32)
    (bigVt bigVb : P.ground.Point) :
    announced P (prove P oracle secret receiver token amount fee bVal ct nonce rng rpT rpB vT vB
        bigVt bigVb) =
      announced P (prove P oracle' secret receiver token amount fee bVal ct nonce rng rpT rpB vT vB
        bigVt bigVb) := rfl

/-- The witness in the responses to two challenges. -/
def extractWitness (e e' : P.Scalar)
    (pf pf' : SolventProof P.ground.Point P.Scalar P.RangeProof) : SolventWitness P.Scalar where
  x := extract e e' pf.zX pf'.zX
  t := extract e e' pf.zT pf'.zT
  r := extract e e' pf.zR pf'.zR
  b := extract e e' pf.zB pf'.zB
  sT := extract e e' pf.zSt pf'.zSt
  sB := extract e e' pf.zSb pf'.zSb

/-- What is extracted from the proofs of one sender under two fixed challenges. -/
theorem extractWitness_prove {e e' : P.Scalar} (hne : e ≠ e') (secret : SecretKey P.Scalar)
    (receiver : PublicKey P.ground.Point) (token : UInt32) (amount fee bVal : UInt64)
    (ct : Ciphertext P.ground.Point) (nonce : UInt64)
    (rng : SolventRandomness P.Scalar P.RangeRandomness) (rpT rpB : P.RangeProof) (vT vB : Bytes32)
    (bigVt bigVb : P.ground.Point) :
    extractWitness e e'
        (prove P (fun _ ↦ e) secret receiver token amount fee bVal ct nonce rng rpT rpB vT vB bigVt
          bigVb).proof
        (prove P (fun _ ↦ e') secret receiver token amount fee bVal ct nonce rng rpT rpB vT vB bigVt
          bigVb).proof =
      ⟨secret.scalar, (amount.toNat : P.Scalar), rng.r, (bVal.toNat : P.Scalar), rng.sT, rng.sB⟩ := by
  unfold extractWitness
  congr 1
  · exact extract_respond hne
  · exact extract_respond hne
  · exact extract_respond hne
  · exact extract_respond hne
  · exact extract_respond hne
  · exact extract_respond hne

end SolventTransfer

namespace SolventWitness

open SolventTransfer
open ProofSuite (smul_base_inj nsmul_base_inj eq_of_decrypt)

variable {P : ProofSuite}

/-- The seven relations of a witness. -/
structure Satisfies (w : SolventWitness P.Scalar) (xfer : P.Solvent)
    (rem : Ciphertext P.ground.Point) (bigVt bigVb : P.ground.Point) : Prop where
  owner : w.x • P.G = xfer.sender.point
  debit : w.t • P.G + w.r • xfer.sender.point = xfer.cSender
  credit : w.t • P.G + w.r • xfer.receiver.point = xfer.cReceiver
  handle : w.r • P.G = xfer.d
  amount : w.t • P.G + w.sT • P.H = bigVt
  balance : w.b • P.G + w.x • rem.d = rem.c
  remaining : w.b • P.G + w.sB • P.H = bigVb

/-- **Special soundness.** Responses to two challenges on one transcript give a witness. -/
theorem satisfies_extract {xfer xfer' : P.Solvent} (hsame : announced P xfer = announced P xfer')
    {rem : Ciphertext P.ground.Point} {e e' : P.Scalar} {bigVt bigVb : P.ground.Point}
    (hchecked : Checked P xfer xfer.proof rem e bigVt bigVb)
    (hchecked' : Checked P xfer' xfer'.proof rem e' bigVt bigVb) (hne : e ≠ e') :
    (extractWitness e e' xfer.proof xfer'.proof).Satisfies xfer rem bigVt bigVb := by
  have htransported := hchecked'.of_announced hsame
  constructor
  · exact extract_opens hchecked.owner htransported.owner hne
  · exact extract_opens hchecked.debit htransported.debit hne
  · exact extract_opens hchecked.credit htransported.credit hne
  · exact extract_opens hchecked.handle htransported.handle hne
  · exact extract_opens hchecked.amount htransported.amount hne
  · exact extract_opens hchecked.balance htransported.balance hne
  · exact extract_opens hchecked.remaining htransported.remaining hne

/-- What a witness says once its amount and its remaining balance are known to be words. -/
structure Means (w : SolventWitness P.Scalar) (xfer : P.Solvent) (ct : Ciphertext P.ground.Point)
    (amount remaining : UInt64) : Prop where
  amount_eq : w.t = (amount.toNat : P.Scalar)
  remaining_eq : w.b = (remaining.toNat : P.Scalar)
  /-- The witness holds the secret key of the sender. -/
  secret_eq : ∀ secret, P.publicKey secret = xfer.sender ↔ secret = ⟨w.x⟩
  /-- The balance of the sender is the amount, the fee and what remains. -/
  balance_eq : ∀ k < P.order, ct.c - w.x • ct.d = k • P.G ↔
    k = amount.toNat + xfer.fee.toNat + remaining.toNat
  decrypted : ∀ maxBits k, P.decrypt ⟨w.x⟩ ct maxBits = some k →
    k = amount.toNat + xfer.fee.toNat + remaining.toNat
  credited : P.Encrypts xfer.receiver xfer.receiverCiphertext amount.toNat
  /-- The amount that an unshield reveals is the amount. -/
  revealed : xfer.receiver = P.ground.unshieldViewKey →
    ∀ shown, P.ground.unshieldReveals xfer.receiverCiphertext shown = true → shown = amount

/-- What the key of the witness unmasks: the debit takes the amount and the fee off the balance, and
leaves what remains. -/
theorem Satisfies.unmasked {w : SolventWitness P.Scalar} {xfer : P.Solvent}
    {ct : Ciphertext P.ground.Point} {bigVt bigVb : P.ground.Point} {amount remaining : ℕ}
    (hsat : w.Satisfies xfer (remainder P xfer ct) bigVt bigVb) (hamount : w.t = (amount : P.Scalar))
    (hremaining : w.b = (remaining : P.Scalar)) :
    ct.c - w.x • ct.d = (amount + xfer.fee.toNat + remaining) • P.G := by
  have hbalance : w.b • P.G + w.x • (ct.d - w.r • P.G) =
      ct.c - (w.t • P.G + w.r • w.x • P.G) - (xfer.fee.toNat : P.Scalar) • P.G := by
    rw [hsat.handle, hsat.owner, hsat.debit]
    exact hsat.balance
  have hc : ct.c = w.b • P.G + w.x • (ct.d - w.r • P.G) + (w.t • P.G + w.r • w.x • P.G) +
      (xfer.fee.toNat : P.Scalar) • P.G := by
    rw [hbalance]
    abel
  rw [hc, hamount, hremaining, ← Nat.cast_smul_eq_nsmul P.Scalar]
  push_cast
  module

theorem Satisfies.debited {w : SolventWitness P.Scalar} {xfer : P.Solvent}
    {rem : Ciphertext P.ground.Point} {bigVt bigVb : P.ground.Point} {amount : ℕ}
    (hsat : w.Satisfies xfer rem bigVt bigVb) (hamount : w.t = (amount : P.Scalar)) :
    P.Encrypts xfer.sender xfer.senderCiphertext amount := by
  refine ⟨w.r, ?_⟩
  rw [← hamount, hsat.debit, hsat.handle]
  rfl

/-- A witness that relates the bases no further than the openings of the range proofs means what it
says in words. -/
theorem Satisfies.means {w : SolventWitness P.Scalar} {xfer : P.Solvent}
    {ct : Ciphertext P.ground.Point} {oT oB : UInt64 × P.Scalar}
    (hsat : w.Satisfies xfer (remainder P xfer ct) (P.commitDelta oT.1 oT.2)
      (P.commitDelta oB.1 oB.2))
    (hindependent : Independent P.G P.H
      [(w.t, w.sT) - P.opening oT, (w.b, w.sB) - P.opening oB]) :
    w.Means xfer ct oT.1 oB.1 := by
  have horder := P.order_large
  have hT := oT.1.toNat_lt
  have hB := oB.1.toNat_lt
  have hfee := xfer.fee.toNat_lt
  have hamount : w.t = (oT.1.toNat : P.Scalar) :=
    congrArg Prod.fst (hindependent.eq_of_commit_eq (List.mem_cons_self) hsat.amount)
  have hremaining : w.b = (oB.1.toNat : P.Scalar) :=
    congrArg Prod.fst (hindependent.eq_of_commit_eq
      (List.mem_cons_of_mem _ List.mem_cons_self) hsat.remaining)
  have hunmasked : ct.c - w.x • ct.d =
      (oT.1.toNat + xfer.fee.toNat + oB.1.toNat) • P.G :=
    hsat.unmasked hamount hremaining
  constructor
  · exact hamount
  · exact hremaining
  · intro secret
    constructor
    · intro hkey
      have hpoint : secret.scalar • P.G = w.x • P.G :=
        (congrArg PublicKey.point hkey).trans hsat.owner.symm
      rw [← smul_base_inj hpoint]
    · rintro rfl
      exact congrArg PublicKey.mk hsat.owner
  · intro k hk
    rw [hunmasked]
    constructor
    · exact fun heq ↦ (nsmul_base_inj (by omega) hk heq).symm
    · rintro rfl
      rfl
  · intro maxBits k hfound
    exact eq_of_decrypt (by omega) hunmasked hfound
  · refine ⟨w.r, ?_⟩
    rw [SolventTransfer.receiverCiphertext, ← hsat.credit, ← hsat.handle, hamount]
  · intro hview shown hreveals
    have hword := shown.toNat_lt
    have hpoint : xfer.receiver.point = P.ground.viewSecret • P.G := congrArg PublicKey.point hview
    have hshown : xfer.cReceiver - shown.toNat • P.G = P.ground.viewSecret • xfer.d :=
      of_decide_eq_true hreveals
    rw [← hsat.credit, ← hsat.handle, hpoint, hamount, Nat.cast_smul_eq_nsmul, smul_comm w.r,
      sub_eq_iff_eq_add', add_right_cancel_iff] at hshown
    exact (UInt64.toNat_inj.mp (nsmul_base_inj (by omega) (by omega) hshown)).symm

end SolventWitness

namespace SolventTransfer

open SolventWitness

variable {P : ProofSuite}

/-- Two verified proofs with one transcript: the range proofs are opened, and two challenges give a
witness of the seven relations. -/
theorem satisfies_of_verified (E : P.RangeExtractor) {oracle oracle' : Bytes → P.Scalar}
    {token : UInt32} {ct : Ciphertext P.ground.Point} {xfer xfer' : P.Solvent}
    (hsame : announced P xfer = announced P xfer') (hverified : verify P oracle xfer token ct = true)
    (hverified' : verify P oracle' xfer' token ct = true) :
    ∃ oT oB, P.ground.decompress xfer.proof.vT = some (P.commitDelta oT.1 oT.2) ∧
      P.ground.decompress xfer.proof.vB = some (P.commitDelta oB.1 oB.2) ∧
      E.openings xfer.proof.rpT (ascii "Latebra.Range.amount") [xfer.proof.vT] = [oT] ∧
      E.openings xfer.proof.rpB (ascii "Latebra.Range.balance") [xfer.proof.vB] = [oB] ∧
      let e := challengeOf P oracle xfer token ct (P.commitDelta oT.1 oT.2) (P.commitDelta oB.1 oB.2)
      let e' :=
        challengeOf P oracle' xfer' token ct (P.commitDelta oT.1 oT.2) (P.commitDelta oB.1 oB.2)
      e ≠ e' → (extractWitness e e' xfer.proof xfer'.proof).Satisfies xfer (remainder P xfer ct)
        (P.commitDelta oT.1 oT.2) (P.commitDelta oB.1 oB.2) := by
  obtain ⟨hrangeT, hrangeB, bigVt, bigVb, hVt, hVb, hchecked⟩ := verify_eq_true.mp hverified
  obtain ⟨-, -, bigVt', bigVb', hVt', hVb', hchecked'⟩ := verify_eq_true.mp hverified'
  obtain ⟨oT, hoT, hcommT⟩ := E.single hrangeT
  obtain ⟨oB, hoB, hcommB⟩ := E.single hrangeB
  have hopenT : P.ground.decompress xfer.proof.vT = some (P.commitDelta oT.1 oT.2) := by
    rw [hcommT, P.ground.decompress_compress]
  have hopenB : P.ground.decompress xfer.proof.vB = some (P.commitDelta oB.1 oB.2) := by
    rw [hcommB, P.ground.decompress_compress]
  refine ⟨oT, oB, hopenT, hopenB, hoT, hoB, ?_⟩
  obtain ⟨hvT, hvB⟩ := commitments_of_announced hsame
  obtain rfl := Option.some.inj (hVt.symm.trans hopenT)
  obtain rfl := Option.some.inj (hVb.symm.trans hopenB)
  rw [← hvT, hVt] at hVt'
  rw [← hvB, hVb] at hVb'
  obtain rfl := Option.some.inj hVt'
  obtain rfl := Option.some.inj hVb'
  intro e e' hne
  rw [← remainder_of_announced hsame] at hchecked'
  exact satisfies_extract hsame hchecked hchecked' hne

/-- Solvent transfers are complete and specially sound, whatever the challenges are drawn from: what
an owner can afford is proved and verified, and two verified proofs with one transcript and two
challenges give a witness of the seven relations, from which the integers of the transfer follow
once the range proofs are opened. -/
theorem complete_and_speciallySound (E : P.RangeExtractor) (hrange : P.RangeComplete) :
    (∀ oracle secret receiver token amount fee balance ct nonce rng,
      amount.toNat + fee.toNat ≤ balance.toNat →
      P.Encrypts (P.publicKey secret) ct balance.toNat →
      ∃ xfer, create P oracle secret receiver token amount fee balance ct nonce rng = some xfer ∧
        verify P oracle xfer token ct = true) ∧
    ∀ oracle oracle' token ct xfer xfer', announced P xfer = announced P xfer' →
      verify P oracle xfer token ct = true → verify P oracle' xfer' token ct = true →
      ∃ bigVt bigVb oT oB, P.ground.decompress xfer.proof.vT = some bigVt ∧
        P.ground.decompress xfer.proof.vB = some bigVb ∧
        E.openings xfer.proof.rpT (ascii "Latebra.Range.amount") [xfer.proof.vT] = [oT] ∧
        E.openings xfer.proof.rpB (ascii "Latebra.Range.balance") [xfer.proof.vB] = [oB] ∧
        let e := challengeOf P oracle xfer token ct bigVt bigVb
        let e' := challengeOf P oracle' xfer' token ct bigVt bigVb
        let w := extractWitness e e' xfer.proof xfer'.proof
        e ≠ e' → w.Satisfies xfer (remainder P xfer ct) bigVt bigVb ∧
          (Independent P.G P.H [(w.t, w.sT) - P.opening oT, (w.b, w.sB) - P.opening oB] →
            w.Means xfer ct oT.1 oB.1) := by
  constructor
  · intro oracle secret receiver token amount fee balance ct nonce rng hsolvent hct
    exact verify_create oracle secret receiver token nonce rng hrange hsolvent hct
  · intro oracle oracle' token ct xfer xfer' hsame hverified hverified'
    obtain ⟨oT, oB, hVt, hVb, hoT, hoB, hsat⟩ := satisfies_of_verified E hsame hverified hverified'
    exact ⟨_, _, oT, oB, hVt, hVb, hoT, hoB, fun hne ↦ ⟨hsat hne, (hsat hne).means⟩⟩

/-- An unshield of 300 with a fee of 10 out of 1000, proved under two challenges. -/
theorem complete_and_speciallySound_unshield :
    let rng : SolventRandomness primeSuite.Scalar primeSuite.RangeRandomness :=
      ⟨(3 : Residue), (4 : Residue), (5 : Residue), (), (), (6 : Residue), (7 : Residue),
        (8 : Residue), (9 : Residue), (10 : Residue), (11 : Residue)⟩
    let ct : Ciphertext primeSuite.ground.Point := ⟨(1000 : Residue), (0 : Residue)⟩
    let make (e : primeSuite.Scalar) := create primeSuite (fun _ ↦ e) ⟨(5 : Residue)⟩
      primeSuite.ground.unshieldViewKey 0 300 10 1000 ct 0 rng
    ∃ xfer xfer', make (1 : Residue) = some xfer ∧ make (2 : Residue) = some xfer' ∧
      verify primeSuite (fun _ ↦ (1 : Residue)) xfer 0 ct = true ∧
      verify primeSuite (fun _ ↦ (2 : Residue)) xfer' 0 ct = true ∧
      ∃ w : SolventWitness primeSuite.Scalar, w.Means xfer ct 300 690 := by
  intro rng ct make
  obtain ⟨hcomplete, hsound⟩ :=
    complete_and_speciallySound primeExtractor primeSuite_rangeComplete
  have hct : primeSuite.Encrypts (primeSuite.publicKey ⟨(5 : Residue)⟩) ct 1000 := by
    refine ⟨(0 : Residue), ?_⟩
    decide
  have hsolvent : (300 : UInt64).toNat + (10 : UInt64).toNat ≤ (1000 : UInt64).toNat := by decide
  have hmake : ∀ e, make e = some (prove primeSuite (fun _ ↦ e) ⟨(5 : Residue)⟩
      primeSuite.ground.unshieldViewKey 0 300 10 690 ct 0 rng
      (revealed [(300, (4 : Residue))] one_le_two) (revealed [(690, (5 : Residue))] one_le_two)
      (primeSuite.ground.compress (primeSuite.commitDelta 300 (4 : Residue)))
      (primeSuite.ground.compress (primeSuite.commitDelta 690 (5 : Residue)))
      (primeSuite.commitDelta 300 (4 : Residue)) (primeSuite.commitDelta 690 (5 : Residue))) := by
    intro e
    exact create_eq _ _ _ _ _ _ hsolvent (primeSuite_proveSingle _ _ _)
      (primeSuite_proveSingle _ _ _)
  have hverified : ∀ e xfer, make e = some xfer →
      verify primeSuite (fun _ ↦ e) xfer 0 ct = true := by
    intro e xfer hxfer
    obtain ⟨xfer', hxfer', hverify⟩ := hcomplete (fun _ ↦ e) ⟨(5 : Residue)⟩
      primeSuite.ground.unshieldViewKey 0 300 10 1000 ct 0 rng hsolvent hct
    obtain rfl := Option.some.inj (hxfer.symm.trans hxfer')
    exact hverify
  have hfirst := hverified (1 : Residue) _ (hmake _)
  have hsecond := hverified (2 : Residue) _ (hmake _)
  refine ⟨_, _, hmake _, hmake _, hfirst, hsecond, ?_⟩
  obtain ⟨bigVt, bigVb, oT, oB, -, -, hoT, hoB, hmeans⟩ := hsound _ _ 0 ct _ _
    (announced_prove _ _ _ _ _ _ _ _ _ _ _ _ _ _ _ _ _) hfirst hsecond
  have hopenT : oT = (300, (4 : Residue)) :=
    List.singleton_inj.mp (hoT.symm.trans (primeExtractor_revealed one_le_two _ _))
  have hopenB : oB = (690, (5 : Residue)) :=
    List.singleton_inj.mp (hoB.symm.trans (primeExtractor_revealed one_le_two _ _))
  subst hopenT hopenB
  have hne : (1 : Residue) ≠ 2 := by decide
  have hw := extractWitness_prove (P := primeSuite) hne ⟨(5 : Residue)⟩
    primeSuite.ground.unshieldViewKey 0 300 10 690 ct 0 rng
    (revealed [(300, (4 : Residue))] one_le_two) (revealed [(690, (5 : Residue))] one_le_two)
    (primeSuite.ground.compress (primeSuite.commitDelta 300 (4 : Residue)))
    (primeSuite.ground.compress (primeSuite.commitDelta 690 (5 : Residue)))
    (primeSuite.commitDelta 300 (4 : Residue)) (primeSuite.commitDelta 690 (5 : Residue))
  refine ⟨_, (hmeans hne).2 ?_⟩
  intro o ho _
  rcases List.mem_pair.mp ho with rfl | rfl
  · exact sub_eq_zero.mpr (congrArg (fun w ↦ (w.t, w.sT)) hw)
  · exact sub_eq_zero.mpr (congrArg (fun w ↦ (w.b, w.sB)) hw)

end SolventTransfer

end Latebra.Crypto
