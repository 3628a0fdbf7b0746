import Latebra.Crypto.AnonSoundness
import Latebra.Crypto.SolventProofs
import Latebra.State.ValueLaw

/-!
# Proven transfers are truthful

The law of value asks of a confidential transfer that its ciphertexts say one amount. This is what
its proof is for. Over a suite with proofs, a transfer whose proof is verified is truthful once its
prover can be asked again: a solvent transfer by a second answer on its transcript, an anonymous one
by the witnesses that its sub-proofs yield, and in both no relation between the two bases comes out
of the answers (`truthful_of_proved`). A ledger applies no transfer that is not verified against the
balances it holds, so every transaction that a run applies is such a one (`LedgerRun.proved`).
-/

set_option autoImplicit false
set_option relaxedAutoImplicit false

namespace Latebra.State

open Foundation Crypto Latebra.Types
open Foundation.SigmaProtocol (Independent)
open Crypto.AnonTransfer (keyAt ciphertextAt)

variable {P : ProofSuite} {oracle : Bytes → P.Scalar}

/-- The cryptography of a ledger whose transfers are verified by these proofs. -/
abbrev provenSuite (P : ProofSuite) (oracle : Bytes → P.Scalar) : CryptoSuite :=
  (P.transferSuite oracle).chainSuite.toCryptoSuite

/-! ### What the proofs encrypt -/

/-- A ciphertext masked by a scalar. -/
theorem encrypts_of_masked {key : PublicKey P.ground.Point} {ct : Ciphertext P.ground.Point}
    {amount : ℕ} (hct : P.Encrypts key ct amount) :
    Encrypts (C := provenSuite P oracle) key ct amount := by
  obtain ⟨mask, rfl⟩ := hct
  exact ⟨DistribSMul.toAddMonoidHom P.ground.Point mask,
    congrArg (· + mask • key.point) (Nat.cast_smul_eq_nsmul P.Scalar amount P.G), rfl⟩

/-- A second answer of the prover of a solvent transfer: a verified proof on the same transcript
under another challenge. The witness of the two relates the bases no further than the range proofs
do. -/
def Rewound (E : P.RangeExtractor) (oracle : Bytes → P.Scalar) (token : UInt32) (xfer : P.Solvent)
    (ct : Ciphertext P.ground.Point) : Prop :=
  ∃ oracle' xfer', SolventTransfer.announced P xfer = SolventTransfer.announced P xfer' ∧
    SolventTransfer.verify P oracle' xfer' token ct = true ∧
    ∀ oT oB, E.openings xfer.proof.rpT (ascii "Latebra.Range.amount") [xfer.proof.vT] = [oT] →
      E.openings xfer.proof.rpB (ascii "Latebra.Range.balance") [xfer.proof.vB] = [oB] →
      let bigVt := P.commitDelta oT.1 oT.2
      let bigVb := P.commitDelta oB.1 oB.2
      let e := SolventTransfer.challengeOf P oracle xfer token ct bigVt bigVb
      let e' := SolventTransfer.challengeOf P oracle' xfer' token ct bigVt bigVb
      let w := SolventTransfer.extractWitness e e' xfer.proof xfer'.proof
      e ≠ e' ∧ Independent P.G P.H [(w.t, w.sT) - P.opening oT, (w.b, w.sB) - P.opening oB]

/-- What is debited and what is credited is one amount. -/
theorem Rewound.exists_amount {E : P.RangeExtractor} {token : UInt32} {xfer : P.Solvent}
    {ct : Ciphertext P.ground.Point} (hrewound : Rewound E oracle token xfer ct)
    (hverified : SolventTransfer.verify P oracle xfer token ct = true) :
    ∃ amount, P.Encrypts xfer.sender xfer.senderCiphertext amount ∧
      P.Encrypts xfer.receiver xfer.receiverCiphertext amount := by
  obtain ⟨oracle', xfer', hsame, hverified', hanswers⟩ := hrewound
  obtain ⟨oT, oB, -, -, hoT, hoB, hsat⟩ :=
    SolventTransfer.satisfies_of_verified E hsame hverified hverified'
  obtain ⟨hne, hindependent⟩ := hanswers oT oB hoT hoB
  have hsatisfies := hsat hne
  have hmeans := hsatisfies.means hindependent
  exact ⟨oT.1.toNat, hsatisfies.debited hmeans.amount_eq, hmeans.credited⟩

/-- The witnesses of an anonymous transfer, which relate the bases no further. -/
def Witnessed (oracle : Bytes → P.Scalar) (token : UInt32) (xfer : P.Anon) : Prop :=
  ∃ w : AnonWitness P.Scalar, w.Yields xfer oracle token ∧
    Independent P.G P.H (w.valueRelations xfer)

/-- What the members of the ring are debited of is what is credited and the fee. -/
theorem Witnessed.exists_amount {token : UInt32} {xfer : P.Anon}
    (hwitnessed : Witnessed oracle token xfer)
    (hverified : AnonTransfer.verify P oracle xfer token = true) :
    ∃ (debit : ℕ → ℕ) (amount : ℕ),
      (∀ i < xfer.ring.length,
        P.Encrypts (keyAt P xfer.ring i) (ciphertextAt P xfer.enc i) (debit i)) ∧
      P.Encrypts xfer.output.oneTime xfer.credit amount ∧
      ∑ i ∈ Finset.range xfer.ring.length, debit i = amount + xfer.fee.toNat := by
  obtain ⟨w, hyields, hindependent⟩ := hwitnessed
  have hsat := hyields.satisfies hverified
  obtain ⟨hdebits, amount, hcredit, htotal⟩ :=
    (hsat.amountsAgree hindependent).exists_amount hsat
  exact ⟨w.debitOf xfer, amount, hdebits, hcredit, htotal⟩

/-! ### Proven transactions -/

/-- What stands behind the proof of a transaction. -/
def Proved (E : P.RangeExtractor) (oracle : Bytes → P.Scalar) :
    Transaction (provenSuite P oracle) → Prop
  | .solventTransfer token xfer | .unshield token _ _ xfer _ =>
    ∃ ct, (provenSuite P oracle).solventVerify xfer token ct = true ∧
      Rewound E oracle token xfer ct
  | .anonTransfer token xfer =>
    (provenSuite P oracle).anonVerify xfer token = true ∧ Witnessed oracle token xfer
  | _ => True

/-- The debits of a ring, one by one. -/
theorem forall₂_debits {ring : List (PublicKey P.ground.Point)}
    {enc : List (Ciphertext P.ground.Point)} {debit : ℕ → ℕ} (haligned : enc.length = ring.length)
    (hdebits : ∀ i < ring.length, P.Encrypts (keyAt P ring i) (ciphertextAt P enc i) (debit i)) :
    (ring.zip enc).Forall₂
      (fun pair value ↦ Encrypts (C := provenSuite P oracle) pair.1 pair.2 value)
      ((List.range ring.length).map debit) := by
  rw [List.forall₂_iff_get]
  refine ⟨by simp [haligned], fun i hi _ ↦ ?_⟩
  have hlt : i < ring.length := by
    rw [List.length_zip] at hi
    omega
  have henc : i < enc.length := haligned ▸ hlt
  have hdebit := hdebits i hlt
  rw [keyAt, ciphertextAt, List.getD_eq_getElem _ _ hlt, List.getD_eq_getElem _ _ henc] at hdebit
  have hmasked : Encrypts (C := provenSuite P oracle) ring[i] enc[i] (debit i) :=
    encrypts_of_masked hdebit
  simpa using hmasked

/-- **Soundness for the ledger.** A transaction whose transfer is verified, by a prover that can be
asked again, says one amount in its ciphertexts. -/
theorem truthful_of_proved {E : P.RangeExtractor} {tx : Transaction (provenSuite P oracle)}
    (hproved : Proved E oracle tx) : Truthful tx := by
  cases tx with
  | solventTransfer token xfer =>
    obtain ⟨ct, hverified, hrewound⟩ := hproved
    obtain ⟨amount, hdebit, hcredit⟩ := hrewound.exists_amount hverified
    exact ⟨amount, encrypts_of_masked hdebit, encrypts_of_masked hcredit⟩
  | unshield token toId shown xfer sig =>
    obtain ⟨ct, hverified, hrewound⟩ := hproved
    obtain ⟨amount, hdebit, hcredit⟩ := hrewound.exists_amount hverified
    exact ⟨amount, encrypts_of_masked hdebit, encrypts_of_masked hcredit⟩
  | anonTransfer token xfer =>
    obtain ⟨hverified, hwitnessed⟩ := hproved
    obtain ⟨debit, amount, hdebits, hcredit, htotal⟩ := hwitnessed.exists_amount hverified
    obtain ⟨-, -, haligned, -⟩ :=
      (P.transferSuite oracle).chainSuite.width_of_anonVerify xfer token hverified
    exact ⟨_, amount, forall₂_debits haligned hdebits, encrypts_of_masked hcredit, htotal⟩
  | _ => trivial

/-- The spend from the middle of the ring of three. -/
theorem truthful_of_proved_middle :
    ∃ xfer : primeSuite.Anon,
      AnonTransfer.create primeSuite primeOracle AnonTransfer.middleSpend
        AnonTransfer.middleRandomness = some xfer ∧
      Truthful (C := provenSuite primeSuite primeOracle) (.anonTransfer 0 xfer) := by
  obtain ⟨xfer, w, hcreate, hverified, hyields, hindependent, -⟩ :=
    AnonTransfer.middleSpend_witnessed
  refine ⟨xfer, hcreate, truthful_of_proved (E := primeExtractor) ⟨hverified, w, hyields, ?_⟩⟩
  exact fun o ho ↦ hindependent o (w.valueRelations_subset xfer _ ho)

/-! ### What a ledger applies -/

namespace LedgerState

variable {E : P.RangeExtractor} {s s' : LedgerState (provenSuite P oracle)}

/-- The evidence of a transaction against the balances of a ledger. -/
def Evidence (E : P.RangeExtractor) (oracle : Bytes → P.Scalar)
    (s : LedgerState (provenSuite P oracle)) : Transaction (provenSuite P oracle) → Prop
  | .solventTransfer token xfer | .unshield token _ _ xfer _ =>
    Rewound E oracle token xfer
      ((s.accountOr ((provenSuite P oracle).keyToBytes xfer.sender)).balance token)
  | .anonTransfer token xfer => Witnessed oracle token xfer
  | _ => True

/-- A ledger applies no transfer that is not verified. -/
theorem proved_of_runs {tx : Transaction (provenSuite P oracle)} {height : UInt64}
    (hevidence : s.Evidence E oracle tx) (hrun : Runs (applyInner tx height none) s () s') :
    Proved E oracle tx := by
  cases tx with
  | solventTransfer token xfer =>
    obtain ⟨sender, _, _, hsender, -, hverified, -⟩ := applySolventTransfer_outcome hrun
    refine ⟨_, hverified.resolve_left Bool.false_ne_true, ?_⟩
    rwa [← accountOr_of_some hsender]
  | unshield token toId shown xfer sig =>
    obtain ⟨sender, _, -, -, hsender, -, hverified, -⟩ := applyUnshield_outcome hrun
    refine ⟨_, hverified.resolve_left Bool.false_ne_true, ?_⟩
    rwa [← accountOr_of_some hsender]
  | anonTransfer token xfer =>
    obtain ⟨_, -, -, -, -, -, -, hverified, -⟩ := applyAnonTransfer_outcome hrun
    exact ⟨hverified.resolve_left Bool.false_ne_true, hevidence⟩
  | _ => trivial

end LedgerState

/-- Every transaction that a run applies is proved, so it is truthful. -/
theorem LedgerRun.proved {E : P.RangeExtractor} {n : ℕ} (run : LedgerRun (provenSuite P oracle) n)
    (hevidence : ∀ j < n, ∀ tx height, run.op j = .applyAt tx height →
      (run.state j).Evidence E oracle tx) {j : ℕ} (hj : j < n)
    {tx : Transaction (provenSuite P oracle)} {height : UInt64}
    (hop : run.op j = .applyAt tx height) (hok : (run.ledger j).Succeeds (run.op j)) :
    Proved E oracle tx := by
  have hperforms := ((run.reachable hj.le).performs_cases (run.step j hj)).1 hok
  rw [hop] at hperforms
  obtain ⟨_, hrun, -⟩ := hperforms
  exact LedgerState.proved_of_runs (hevidence j hj tx height hop) hrun

end Latebra.State
