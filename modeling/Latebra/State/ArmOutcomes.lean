import Latebra.State.LedgerState

/-!
# What each transaction can do

One inversion lemma for each transaction variant: a successful run has passed these checks and has
moved the ledger to exactly this state. Every property of successful runs is derived from these
lemmas, so that no later proof runs through a transition program again.

The checks are stated as the facts that the later results use. The final states are written with
the updates of `LedgerState`, where `credited` and `debited` are the two movements of public
balance that most transactions are made of.
-/

set_option autoImplicit false
set_option relaxedAutoImplicit false

namespace Latebra.State

open Foundation Crypto Latebra.Types Contracts

variable {C : CryptoSuite}

/-- The signature check of a transparent transaction passes. -/
def SigOK (C : CryptoSuite) (id : Bytes32) (tx : Transaction C) (sig : Bytes64) : Prop :=
  ∃ pk s, C.keyFromBytes id = some pk ∧ C.signatureFromBytes sig = some s ∧
    C.verifySignature pk tx.signingBytes s = true

/-- One vote of an equivocation proof is signed by the accused key. -/
def VoteOK (C : CryptoSuite) (id block : Bytes32) (height : UInt64) (sig : Bytes64) : Prop :=
  ∃ pk s, C.keyFromBytes id = some pk ∧ C.signatureFromBytes sig = some s ∧
    C.verifySignature pk (finalityVoteSigningBytes block height) s = true

namespace LedgerState

variable (s s' : LedgerState C)

/-- The account of an id, or a fresh one. -/
def accountOr (id : Bytes32) : Account C := (s.account id).getD Account.default

/-- The staking state of an id, or the one of an account that never staked. -/
def validatorOr (id : Bytes32) : Validator := (s.validator id).getD Validator.default

/-- The state after a credit of a public balance. -/
def credited (id : Bytes32) (token : UInt32) (amount : UInt64) : LedgerState C :=
  if amount = 0 then s
  else
    (s.setAccount id ((s.accountOr id).setPublic token
      (saturatingAdd ((s.accountOr id).pub token) amount))).setDirty (.account id)

/-- The state after a credit of a spendable confidential balance. -/
def rewarded (miner : Bytes32) (token : UInt32) (amount : UInt64) : LedgerState C :=
  if amount = 0 then s
  else
    (s.setAccount miner ((s.accountOr miner).set token
      (C.add ((s.accountOr miner).balance token) (C.mint amount)))).setDirty (.account miner)

/-- The state after a debit of a public balance by the spend with the nonce before `next`. -/
def debited (id : Bytes32) (acct : Account C) (token : UInt32) (total next : UInt64) :
    LedgerState C :=
  s.setAccount id ((acct.setPublic token (acct.pub token - total)).withNonce next)

/-- The state after a debit of a confidential balance. -/
def debitedConfidential (xfer : SolventTransfer C.Point C.SolventProof) (acct : Account C)
    (token : UInt32) (next : UInt64) : LedgerState C :=
  s.setAccount (C.keyToBytes xfer.sender) ((acct.set token
    (if xfer.fee > 0 then
      C.sub (C.sub (acct.balance token) xfer.senderCiphertext) (C.mint xfer.fee)
    else C.sub (acct.balance token) xfer.senderCiphertext)).withNonce next)

/-- The state after a credit of a pending balance. -/
def pendingCredited (acct : Account C) (id : Bytes32) (token : UInt32)
    (credit : Ciphertext C.Point) : LedgerState C :=
  s.setAccount id (acct.setPending token (C.add (acct.pending token) credit))

/-- The state after one ring member is debited. -/
def ringDebited (token : UInt32) (debit : PublicKey C.Point × Ciphertext C.Point) :
    LedgerState C :=
  match s.account (C.keyToBytes debit.1) with
  | some a =>
    s.setAccount (C.keyToBytes debit.1) (a.set token (C.sub (a.balance token) debit.2))
  | none => s

/-- The state after a slashing reward, which only a registered submitter is paid. -/
def slashPaid (beneficiary : Bytes32) (reward : UInt64) : LedgerState C :=
  if 0 < reward then
    match s.account beneficiary with
    | some acct =>
      s.setAccount beneficiary
        (acct.setPublic LAT_TOKEN (saturatingAdd (acct.pub LAT_TOKEN) reward))
    | none => s
  else s

end LedgerState

open LedgerState

variable {s s' : LedgerState C} {r : Unit}

@[simp]
theorem runs_checkSig (id : Bytes32) (tx : Transaction C) (sig : Bytes64) :
    Runs (checkSig id tx sig) s r s' ↔ SigOK C id tx sig ∧ s' = s := by
  simp only [checkSig, SigOK, Program.returns_bind, Program.returns_okOr,
    Program.returns_rejectIf]
  constructor
  · rintro ⟨pk, _, ⟨hpk, rfl⟩, sg, _, ⟨hsig, rfl⟩, hverify, rfl⟩
    exact ⟨⟨pk, sg, hpk, hsig, by simpa using hverify⟩, rfl⟩
  · rintro ⟨⟨pk, sg, hpk, hsig, hverify⟩, rfl⟩
    exact ⟨pk, _, ⟨hpk, rfl⟩, sg, _, ⟨hsig, rfl⟩, by simpa using hverify, rfl⟩

/-! ### Transitions that are not transactions -/

theorem register_outcome {id : Bytes32} (h : Runs (LedgerM.register id) s r s') :
    s.account id = none ∧ s' = (s.setAccount id Account.default).setDirty (.account id) := by
  simp [LedgerM.register] at h
  exact ⟨h.1, h.2.2⟩

theorem creditPublic_outcome {id : Bytes32} {token : UInt32} {amount : UInt64}
    (h : Runs (LedgerM.creditPublic id token amount) s r s') :
    s' = s.credited id token amount := by
  unfold credited
  simp [LedgerM.creditPublic] at h
  rcases h with ⟨hzero, rfl⟩ | ⟨hpos, -, rfl⟩
  · rw [if_pos hzero]
  · rw [if_neg hpos]
    rfl

theorem rewardMiner_outcome {miner : Bytes32} {token : UInt32} {amount : UInt64}
    (h : Runs (LedgerM.rewardMiner miner token amount) s r s') :
    s' = s.rewarded miner token amount := by
  unfold rewarded
  simp [LedgerM.rewardMiner] at h
  rcases h with ⟨hzero, rfl⟩ | ⟨hpos, -, rfl⟩
  · rw [if_pos hzero]
  · rw [if_neg hpos]
    rfl

theorem creditGenesis_outcome {id : Bytes32} {amount : UInt64}
    (h : Runs (LedgerM.creditGenesis id amount) s r s') :
    ∃ acct, s.account id = some acct ∧
      s' = (s.setAccount id (acct.set LAT_TOKEN
        (C.add (acct.balance LAT_TOKEN) (C.mint amount)))).setDirty (.account id) := by
  simp [LedgerM.creditGenesis] at h
  obtain ⟨acct, hacct, -, rfl⟩ := h
  exact ⟨acct, hacct, rfl⟩

theorem debitPublic_outcome {id : Bytes32} {token : UInt32} {total : UInt64} {acct : Account C}
    (hacct : s.account id = some acct) (h : Runs (debitPublic id token total) s r s') :
    ∃ next, checkedAdd acct.nonce 1 = some next ∧ s' = s.debited id acct token total next := by
  simp [debitPublic, hacct] at h
  obtain ⟨next, hnext, -, rfl⟩ := h
  exact ⟨next, hnext, rfl⟩

theorem debitConfidential_outcome {token : UInt32}
    {xfer : SolventTransfer C.Point C.SolventProof} {acct : Account C}
    (hacct : s.account (C.keyToBytes xfer.sender) = some acct)
    (h : Runs (debitConfidential (C.keyToBytes xfer.sender) token xfer) s r s') :
    ∃ next, checkedAdd acct.nonce 1 = some next ∧
      s' = s.debitedConfidential xfer acct token next := by
  simp [debitConfidential, hacct] at h
  obtain ⟨next, hnext, -, rfl⟩ := h
  exact ⟨next, hnext, rfl⟩

theorem creditPendingOf_outcome {acct : Account C} {id : Bytes32} {token : UInt32}
    {credit : Ciphertext C.Point} (h : Runs (creditPendingOf acct id token credit) s r s') :
    s' = s.pendingCredited acct id token credit := by
  simp [creditPendingOf] at h
  exact h.2

/-- A write of an account leaves every registered account registered. -/
theorem account_setAccount_ne_none {id other : Bytes32} {acct : Account C}
    (h : (s.account id).isSome = true) : (s.setAccount other acct).account id ≠ none := by
  rw [setAccount_account, Function.update_apply]
  split
  · simp
  · exact Option.isSome_iff_ne_none.mp h

/-! ### Tokens and contracts -/

theorem applyCreateToken_outcome {tx : Transaction C} {ticker : Text} {creator : Bytes32}
    {supply : UInt64} {sig : Bytes64}
    (h : Runs (applyCreateToken tx ticker creator supply sig) s r s') :
    ∃ norm acct next, SigOK C creator tx sig ∧ normalizeTicker ticker = some norm ∧
      s.ticker norm = none ∧ s.account creator = some acct ∧ FLAT_TX_FEE ≤ acct.pub LAT_TOKEN ∧
      s.nextTokenId.toNat + 1 < 2 ^ 32 ∧ next = s.nextTokenId + 1 ∧
      s' = ((s.setNextTokenId next).setToken ⟨s.nextTokenId, norm, creator, supply⟩).setAccount
        creator ((acct.setPublic LAT_TOKEN (acct.pub LAT_TOKEN - FLAT_TX_FEE)).set s.nextTokenId
          (C.add (acct.balance s.nextTokenId) (C.mint supply))) := by
  simp [applyCreateToken] at h
  obtain ⟨hsig, norm, hnorm, hfree, acct, hacct, hfee, hbound, -, -, rfl⟩ := h
  exact ⟨norm, acct, _, hsig, hnorm, hfree, hacct, hfee, hbound, rfl, rfl⟩

theorem applyDeployContract_outcome {tx : Transaction C} {deployer : Bytes32} {code : Bytes}
    {sig : Bytes64} (h : Runs (applyDeployContract tx deployer code sig) s r s') :
    ∃ acct, SigOK C deployer tx sig ∧ s.account deployer = some acct ∧
      FLAT_TX_FEE ≤ acct.pub LAT_TOKEN ∧
      s.contract (Vm.contractId C.blake3 deployer code) = none ∧
      s' = (s.setAccount deployer
        (acct.setPublic LAT_TOKEN (acct.pub LAT_TOKEN - FLAT_TX_FEE))).setContract
          (Vm.contractId C.blake3 deployer code) ⟨code, ∅⟩ := by
  simp [applyDeployContract] at h
  obtain ⟨hsig, acct, hacct, hfee, hfree, -, -, rfl⟩ := h
  exact ⟨acct, hsig, hacct, hfee, hfree, rfl⟩

theorem applyCallContract_outcome {tx : Transaction C} {addr caller : Bytes32}
    {input nonce : UInt64} {sig : Bytes64}
    (h : Runs (applyCallContract tx addr caller input nonce sig) s r s') :
    ∃ acct c storage next, SigOK C caller tx sig ∧ s.account caller = some acct ∧
      nonce = acct.nonce ∧ s.contract addr = some c ∧ FLAT_TX_FEE ≤ acct.pub LAT_TOKEN ∧
      checkedAdd acct.nonce 1 = some next ∧
      s' = (s.setContract addr { c with storage := storage }).debited caller acct LAT_TOKEN
        FLAT_TX_FEE next := by
  simp [applyCallContract] at h
  obtain ⟨hsig, acct, hacct, hnonce, c, hc, hfee, storage, -, -, hlast⟩ := h
  rw [hacct] at hlast
  simp at hlast
  obtain ⟨next, hnext, -, rfl⟩ := hlast
  exact ⟨acct, c, storage, next, hsig, hacct, hnonce, hc, hfee, hnext, rfl⟩

/-! ### Transfers -/

theorem applySolventTransfer_outcome {pre : Option (ProofPass C)} {token : UInt32}
    {xfer : SolventTransfer C.Point C.SolventProof}
    (h : Runs (applySolventTransfer pre token xfer) s r s') :
    ∃ sender receiver next, s.account (C.keyToBytes xfer.sender) = some sender ∧
      xfer.nonce = sender.nonce ∧
      (preverifiedAgainst pre (sender.balance token) = true ∨
        C.solventVerify xfer token (sender.balance token) = true) ∧
      checkedAdd sender.nonce 1 = some next ∧
      (s.debitedConfidential xfer sender token next).account (C.keyToBytes xfer.receiver) =
        some receiver ∧
      s' = (s.debitedConfidential xfer sender token next).pendingCredited receiver
        (C.keyToBytes xfer.receiver) token xfer.receiverCiphertext := by
  simp [applySolventTransfer] at h
  obtain ⟨sender, hsender, hnonce, hproof, hreceiver, _, s₁, hdebit, hcredit⟩ := h
  obtain ⟨next, hnext, rfl⟩ := debitConfidential_outcome hsender hdebit
  rcases hcredit with ⟨receiver, hfound, hcredit⟩ | ⟨hgone, -⟩
  · refine ⟨sender, receiver, next, hsender, hnonce, ?_, hnext, hfound,
      creditPendingOf_outcome hcredit⟩
    rwa [or_iff_not_imp_left, Bool.not_eq_true]
  · exact absurd hgone (account_setAccount_ne_none hreceiver)

theorem applyRollover_outcome {tx : Transaction C} {id : Bytes32} {nonce : UInt64} {sig : Bytes64}
    (h : Runs (applyRollover tx id nonce sig) s r s') :
    ∃ acct next, SigOK C id tx sig ∧ s.account id = some acct ∧ nonce = acct.nonce ∧
      s' = s.setAccount id ((acct.pendings.keys.foldl mergePending acct).withNonce next) := by
  simp [applyRollover] at h
  obtain ⟨hsig, acct, hacct, hnonce, next, -, -, rfl⟩ := h
  exact ⟨acct, next, hsig, hacct, hnonce, rfl⟩

theorem applyPublicTransfer_outcome {tx : Transaction C} {token : UInt32}
    {fromId toId : Bytes32} {amount fee nonce : UInt64} {sig : Bytes64}
    (h : Runs (applyPublicTransfer tx token fromId toId amount fee nonce sig) s r s') :
    ∃ sender receiver total next, SigOK C fromId tx sig ∧ s.account fromId = some sender ∧
      nonce = sender.nonce ∧ checkedAdd amount fee = some total ∧ total ≤ sender.pub token ∧
      checkedAdd sender.nonce 1 = some next ∧
      (s.debited fromId sender token total next).account toId = some receiver ∧
      s' = (s.debited fromId sender token total next).setAccount toId
        (receiver.setPublic token (saturatingAdd (receiver.pub token) amount)) := by
  simp [applyPublicTransfer] at h
  obtain ⟨hsig, sender, hsender, hnonce, hreceiver, total, htotal, hcovered, _, s₁, hdebit,
    hcredit⟩ := h
  obtain ⟨next, hnext, rfl⟩ := debitPublic_outcome hsender hdebit
  rcases hcredit with ⟨receiver, hfound, -, rfl⟩ | ⟨hgone, -⟩
  · exact ⟨sender, receiver, total, next, hsig, hsender, hnonce, htotal, hcovered, hnext, hfound,
      rfl⟩
  · exact absurd hgone (account_setAccount_ne_none hreceiver)

theorem applyShield_outcome {tx : Transaction C} {token : UInt32} {fromId toId : Bytes32}
    {amount fee nonce : UInt64} {sig : Bytes64}
    (h : Runs (applyShield tx token fromId toId amount fee nonce sig) s r s') :
    ∃ sender receiver total next, SigOK C fromId tx sig ∧ s.account fromId = some sender ∧
      nonce = sender.nonce ∧ checkedAdd amount fee = some total ∧ total ≤ sender.pub token ∧
      checkedAdd sender.nonce 1 = some next ∧
      (s.debited fromId sender token total next).account toId = some receiver ∧
      s' = (s.debited fromId sender token total next).pendingCredited receiver toId token
        (C.mint amount) := by
  simp [applyShield] at h
  obtain ⟨hsig, sender, hsender, hnonce, hreceiver, total, htotal, hcovered, _, s₁, hdebit,
    hcredit⟩ := h
  obtain ⟨next, hnext, rfl⟩ := debitPublic_outcome hsender hdebit
  rcases hcredit with ⟨receiver, hfound, hcredit⟩ | ⟨hgone, -⟩
  · exact ⟨sender, receiver, total, next, hsig, hsender, hnonce, htotal, hcovered, hnext, hfound,
      creditPendingOf_outcome hcredit⟩
  · exact absurd hgone (account_setAccount_ne_none hreceiver)

theorem applyUnshield_outcome {tx : Transaction C} {pre : Option (ProofPass C)} {token : UInt32}
    {toId : Bytes32} {amount : UInt64} {xfer : SolventTransfer C.Point C.SolventProof}
    {sig : Bytes64} (h : Runs (applyUnshield tx pre token toId amount xfer sig) s r s') :
    ∃ sender next, SigOK C (C.keyToBytes xfer.sender) tx sig ∧
      xfer.receiver = C.unshieldViewKey ∧ s.account (C.keyToBytes xfer.sender) = some sender ∧
      xfer.nonce = sender.nonce ∧
      (preverifiedAgainst pre (sender.balance token) = true ∨
        C.solventVerify xfer token (sender.balance token) = true) ∧
      C.unshieldReveals xfer.receiverCiphertext amount = true ∧
      checkedAdd sender.nonce 1 = some next ∧
      s' = (s.debitedConfidential xfer sender token next).credited toId token amount := by
  simp [applyUnshield] at h
  obtain ⟨hsig, hview, sender, hsender, hnonce, hproof, hreveals, -, _, s₁, hdebit, hcredit⟩ := h
  obtain ⟨next, hnext, rfl⟩ := debitConfidential_outcome hsender hdebit
  refine ⟨sender, next, hsig, hview, hsender, hnonce, ?_, hreveals, hnext,
    creditPublic_outcome hcredit⟩
  rwa [or_iff_not_imp_left, Bool.not_eq_true]

theorem applyShieldStealth_outcome {tx : Transaction C} {token : UInt32}
    {fromId oneTime : Bytes32} {amount fee nonce : UInt64} {sig : Bytes64}
    (h : Runs (applyShieldStealth tx token fromId oneTime amount fee nonce sig) s r s') :
    ∃ sender total next, SigOK C fromId tx sig ∧ s.account fromId = some sender ∧
      nonce = sender.nonce ∧ checkedAdd amount fee = some total ∧ total ≤ sender.pub token ∧
      checkedAdd sender.nonce 1 = some next ∧
      s' = (s.debited fromId sender token total next).pendingCredited
        ((s.debited fromId sender token total next).accountOr oneTime) oneTime token
        (C.mint amount) := by
  simp [applyShieldStealth] at h
  obtain ⟨hsig, sender, hsender, hnonce, total, htotal, hcovered, _, s₁, hdebit, hcredit⟩ := h
  obtain ⟨next, hnext, rfl⟩ := debitPublic_outcome hsender hdebit
  exact ⟨sender, total, next, hsig, hsender, hnonce, htotal, hcovered, hnext,
    creditPendingOf_outcome hcredit⟩

/-- The ring check changes nothing, and passes only for distinct registered members with their
claimed balances. -/
theorem checkRing_outcome {token : UInt32} {seen : List Bytes32}
    {ring : List (PublicKey C.Point × Ciphertext C.Point)}
    (h : Runs (checkRing token seen ring) s r s') :
    s' = s ∧ (ring.map fun entry ↦ C.keyToBytes entry.1).Nodup ∧
      (∀ entry ∈ ring, C.keyToBytes entry.1 ∉ seen) ∧
      ∀ entry ∈ ring, ∃ acct, s.account (C.keyToBytes entry.1) = some acct ∧
        acct.balance token = entry.2 := by
  induction ring generalizing seen with
  | nil =>
    simp [checkRing] at h
    simp [h]
  | cons entry rest ih =>
    simp [checkRing] at h
    obtain ⟨hfresh, acct, hacct, hbalance, hrest⟩ := h
    obtain ⟨hstate, hnodup, hunseen, hmembers⟩ := ih hrest
    refine ⟨hstate, ?_, ?_, ?_⟩
    · rw [List.map_cons, List.nodup_cons]
      refine ⟨fun hmem ↦ ?_, hnodup⟩
      obtain ⟨later, hlater, heq⟩ := List.mem_map.mp hmem
      exact hunseen later hlater (heq ▸ List.mem_cons_self)
    · intro other hother
      rcases List.mem_cons.mp hother with rfl | hlater
      · exact hfresh
      · exact fun hseen ↦ hunseen other hlater (List.mem_cons_of_mem _ hseen)
    · intro other hother
      rcases List.mem_cons.mp hother with rfl | hlater
      · exact ⟨acct, hacct, hbalance⟩
      · exact hmembers other hlater

theorem debitRing_outcome {token : UInt32}
    {debits : List (PublicKey C.Point × Ciphertext C.Point)}
    (h : Runs (debitRing token debits) s r s') :
    s' = debits.foldl (fun t debit ↦ t.ringDebited token debit) s := by
  induction debits generalizing s with
  | nil => simpa [debitRing] using h
  | cons debit rest ih =>
    rw [debitRing, Program.forEach_cons] at h
    obtain ⟨_, s₁, hfirst, hrest⟩ := (Program.returns_bind handler _ _ _ _ _).mp h
    have hstep : s₁ = s.ringDebited token debit := by
      simp at hfirst
      unfold ringDebited
      rcases hfirst with ⟨acct, hacct, -, rfl⟩ | ⟨hgone, rfl⟩
      · simp [hacct]
      · simp [hgone]
    rw [List.foldl_cons, ← hstep]
    exact ih hrest

theorem applyAnonTransfer_outcome {pre : Option (ProofPass C)} {height : UInt64} {token : UInt32}
    {xfer : AnonTransfer C.Point C.AnonProof}
    (h : Runs (applyAnonTransfer pre height token xfer) s r s') :
    ∃ s₁, xfer.epoch = epochOf height ∧ s.nullifier (C.nullifier xfer) = false ∧
      xfer.balances.length = xfer.ring.length ∧ xfer.enc.length = xfer.ring.length ∧
      (xfer.ring.map C.keyToBytes).Nodup ∧
      (∀ entry ∈ xfer.ring.zip xfer.balances, ∃ acct,
        s.account (C.keyToBytes entry.1) = some acct ∧ acct.balance token = entry.2) ∧
      (preverifiedAnon pre = true ∨ C.anonVerify xfer token = true) ∧
      s₁ = (xfer.ring.zip xfer.enc).foldl (fun t debit ↦ t.ringDebited token debit) s ∧
      s' = (s₁.pendingCredited (s₁.accountOr (C.keyToBytes xfer.output.oneTime))
        (C.keyToBytes xfer.output.oneTime) token xfer.credit).setNullifier (C.nullifier xfer) := by
  simp [applyAnonTransfer] at h
  obtain ⟨hepoch, hfresh, ⟨hbalances, henc⟩, _, _, hring, hproof, _, s₁, hdebit, _, _, hcredit,
    rfl⟩ := h
  obtain ⟨rfl, hnodup, -, hmembers⟩ := checkRing_outcome hring
  have hids : (xfer.ring.zip xfer.balances).map (fun entry ↦ C.keyToBytes entry.1) =
      xfer.ring.map C.keyToBytes := by
    have hzip : (xfer.ring.zip xfer.balances).map Prod.fst = xfer.ring :=
      List.map_fst_zip hbalances.ge
    conv_rhs => rw [← hzip]
    rw [List.map_map]
    rfl
  rw [hids] at hnodup
  refine ⟨s₁, hepoch, hfresh, hbalances, henc, hnodup, hmembers, ?_, debitRing_outcome hdebit, ?_⟩
  · rwa [or_iff_not_imp_left, Bool.not_eq_true]
  · rw [creditPendingOf_outcome hcredit]
    rfl

/-! ### Staking -/

theorem applyStake_outcome {tx : Transaction C} {height : UInt64} {id : Bytes32}
    {amount nonce : UInt64} {sig : Bytes64}
    (h : Runs (applyStake tx height id amount nonce sig) s r s') :
    ∃ acct released val next, SigOK C id tx sig ∧ s.account id = some acct ∧
      nonce = acct.nonce ∧ releaseMatured (s.validatorOr id) height = some (released, val) ∧
      amount ≤ saturatingAdd (acct.pub LAT_TOKEN) released ∧
      checkedAdd acct.nonce 1 = some next ∧
      s' = (s.setAccount id ((acct.setPublic LAT_TOKEN
        (saturatingAdd (acct.pub LAT_TOKEN) released - amount)).withNonce next)).setValidator id
          { val with staked := saturatingAdd val.staked amount } := by
  simp [applyStake] at h
  obtain ⟨hsig, acct, hacct, hnonce, released, val, hmatured, hcovered, next, hnext, -, -, rfl⟩ := h
  exact ⟨acct, released, val, next, hsig, hacct, hnonce, hmatured, hcovered, hnext, rfl⟩

theorem applyUnstake_outcome {tx : Transaction C} {height : UInt64} {id : Bytes32}
    {amount nonce : UInt64} {sig : Bytes64}
    (h : Runs (applyUnstake tx height id amount nonce sig) s r s') :
    ∃ acct released val release next, SigOK C id tx sig ∧ s.account id = some acct ∧
      nonce = acct.nonce ∧ releaseMatured (s.validatorOr id) height = some (released, val) ∧
      amount ≤ val.staked ∧
      (0 < amount → checkedAdd height UNBONDING_BLOCKS = some release) ∧
      checkedAdd acct.nonce 1 = some next ∧
      s' = (s.setAccount id ((acct.setPublic LAT_TOKEN
        (saturatingAdd (acct.pub LAT_TOKEN) released)).withNonce next)).setValidator id
          ⟨val.staked - amount, val.unbonding ++ if 0 < amount then [(amount, release)] else [],
            val.tombstoned⟩ := by
  simp [applyUnstake] at h
  obtain ⟨hsig, acct, hacct, hnonce, released, val, hmatured, hcovered, release, hrelease, next,
    hnext, -, -, rfl⟩ := h
  exact ⟨acct, released, val, release, next, hsig, hacct, hnonce, hmatured, hcovered,
    fun hpos ↦ by rwa [if_pos hpos] at hrelease, hnext, rfl⟩

theorem applySlashEvidence_outcome {id beneficiary : Bytes32} {height : UInt64}
    {blockA blockB : Bytes32} {sigA sigB : Bytes64}
    (h : Runs (applySlashEvidence (C := C) id beneficiary height blockA sigA blockB sigB) s r s') :
    ∃ unbonding total, blockA ≠ blockB ∧ VoteOK C id blockA height sigA ∧
      VoteOK C id blockB height sigB ∧ (s.validatorOr id).tombstoned = false ∧
      checkedSum ((s.validatorOr id).unbonding.map Prod.fst) = some unbonding ∧
      total = saturatingAdd (s.validatorOr id).staked unbonding ∧ total ≠ 0 ∧
      s' = (s.setValidator id (slashValidator (s.validatorOr id) (slashAmount total))).slashPaid
        beneficiary (slashReward (slashAmount total)) := by
  simp [applySlashEvidence] at h
  obtain ⟨hdistinct, pk, hpk, sgA, hsigA, hvoteA, sgB, hsigB, hvoteB, halive, unbonding, hsum,
    htotal, -, hpaid⟩ := h
  refine ⟨unbonding, _, hdistinct, ⟨pk, sgA, hpk, hsigA, hvoteA⟩, ⟨pk, sgB, hpk, hsigB, hvoteB⟩,
    halive, hsum, rfl, htotal, ?_⟩
  unfold slashPaid validatorOr
  rcases hpaid with ⟨hpos, ⟨acct, hacct, -, rfl⟩ | ⟨hgone, rfl⟩⟩ | ⟨hzero, rfl⟩
  · simp [hpos, hacct]
  · simp [hpos, hgone]
  · simp [hzero]

/-! ### Pools -/

/-- What a deposit plan makes of the pool: it opens the pool, or grows it in proportion. -/
def DepositPlanned (pool : Option Pool) (token : UInt32) (latAmount tokAmount : UInt64)
    (after : Pool) (tokUsed minted : UInt64) : Prop :=
  match pool with
  | none =>
    MIN_POOL_LIQUIDITY < isqrt (latAmount.toNat * tokAmount.toNat) ∧
      after = ⟨token, latAmount, tokAmount, isqrt (latAmount.toNat * tokAmount.toNat)⟩ ∧
      tokUsed = tokAmount ∧ minted = after.lpSupply - MIN_POOL_LIQUIDITY
  | some p =>
    after.token = p.token ∧ checkedAdd p.lat latAmount = some after.lat ∧
      checkedAdd p.tok tokUsed = some after.tok ∧
      checkedAdd p.lpSupply minted = some after.lpSupply

theorem planDeposit_outcome {pool : Option Pool} {token : UInt32} {latAmount tokAmount : UInt64}
    {after : Pool} {tokUsed minted : UInt64}
    (h : Runs (planDeposit pool token latAmount tokAmount) s (after, tokUsed, minted) s') :
    s' = s ∧ DepositPlanned pool token latAmount tokAmount after tokUsed minted := by
  cases pool with
  | none =>
    simp [planDeposit] at h
    obtain ⟨⟨hminimum, rfl⟩, rfl, rfl, rfl⟩ := h
    exact ⟨rfl, hminimum, rfl, rfl, rfl⟩
  | some p =>
    simp [planDeposit] at h
    obtain ⟨_, -, -, -, _, -, -, lat, hlat, tok, htok, supply, ⟨hsupply, hstate⟩, rfl, rfl⟩ := h
    exact ⟨hstate, rfl, hlat, htok, hsupply⟩

theorem applyAddLiquidity_outcome {tx : Transaction C} {token : UInt32} {provider : Bytes32}
    {latAmount tokAmount fee nonce : UInt64} {sig : Bytes64}
    (h : Runs (applyAddLiquidity tx token provider latAmount tokAmount fee nonce sig) s r s') :
    ∃ acct paid pool tokUsed minted latTotal shares next, SigOK C provider tx sig ∧
      token ≠ LAT_TOKEN ∧ s.account provider = some acct ∧ nonce = acct.nonce ∧
      DepositPlanned (s.pool token) token latAmount tokAmount pool tokUsed minted ∧
      checkedAdd latAmount fee = some latTotal ∧ latTotal ≤ acct.pub LAT_TOKEN ∧
      tokUsed ≤ acct.pub token ∧
      paid = acct.setPublic LAT_TOKEN (acct.pub LAT_TOKEN - latTotal) ∧
      checkedAdd (s.lp token provider) minted = some shares ∧
      s' = ((s.debited provider paid token tokUsed next).setLp token provider shares).setPool
        pool := by
  simp [applyAddLiquidity, -Account.pub_setPublic] at h
  obtain ⟨hsig, ⟨htoken, -⟩, -, acct, hacct, hnonce, pool, tokUsed, minted, _, hplan, latTotal,
    htotal, ⟨hlat, htok⟩, next, -, -, shares, hshares, rfl⟩ := h
  obtain ⟨rfl, hplanned⟩ := planDeposit_outcome hplan
  exact ⟨acct, _, pool, tokUsed, minted, latTotal, shares, next, hsig, htoken, hacct, hnonce,
    hplanned, htotal, hlat, htok, rfl, hshares, rfl⟩

theorem applyRemoveLiquidity_outcome {tx : Transaction C} {token : UInt32} {provider : Bytes32}
    {lpAmount fee nonce : UInt64} {sig : Bytes64}
    (h : Runs (applyRemoveLiquidity tx token provider lpAmount fee nonce sig) s r s') :
    ∃ acct paid returned p after latOut tokOut next, SigOK C provider tx sig ∧
      s.account provider = some acct ∧ nonce = acct.nonce ∧ s.pool token = some p ∧
      lpAmount ≤ s.lp token provider ∧ fee ≤ acct.pub LAT_TOKEN ∧
      paid = acct.setPublic LAT_TOKEN (acct.pub LAT_TOKEN - fee) ∧ after.token = p.token ∧
      checkedSub p.lat latOut = some after.lat ∧ checkedSub p.tok tokOut = some after.tok ∧
      checkedSub p.lpSupply lpAmount = some after.lpSupply ∧
      returned = paid.setPublic LAT_TOKEN (saturatingAdd (paid.pub LAT_TOKEN) latOut) ∧
      s' = ((s.setAccount provider ((returned.setPublic token
        (saturatingAdd (returned.pub token) tokOut)).withNonce next)).setLp token provider
          (s.lp token provider - lpAmount)).setPool after := by
  simp [applyRemoveLiquidity, -Account.pub_setPublic] at h
  obtain ⟨hsig, -, acct, hacct, hnonce, p, hpool, hshares, latShare, -, tokShare, -, -, hfee, next,
    -, lat, hlat, tok, htok, supply, hsupply, -, rfl⟩ := h
  exact ⟨acct, _, _, p, ⟨p.token, lat, tok, supply⟩, _, _, next, hsig, hacct, hnonce, hpool,
    hshares, hfee, rfl, rfl, hlat, htok, hsupply, rfl, rfl⟩

/-- A swap with LAT in. -/
theorem applySwap_outcome_latIn {tx : Transaction C} {token : UInt32} {trader : Bytes32}
    {amountIn minOut fee nonce : UInt64} {sig : Bytes64}
    (h : Runs (applySwap tx token trader true amountIn minOut fee nonce sig) s r s') :
    ∃ acct paid p latIn tokOut lat tok next, SigOK C trader tx sig ∧
      s.account trader = some acct ∧ nonce = acct.nonce ∧ s.pool token = some p ∧
      checkedAdd p.lat amountIn = some lat ∧ checkedSub p.tok tokOut = some tok ∧
      checkedAdd amountIn fee = some latIn ∧ latIn ≤ acct.pub LAT_TOKEN ∧
      paid = acct.setPublic LAT_TOKEN (acct.pub LAT_TOKEN - latIn) ∧
      s' = (s.setAccount trader ((paid.setPublic token
        (saturatingAdd (paid.pub token) tokOut)).withNonce next)).setPool
          { p with lat := lat, tok := tok } := by
  simp [applySwap, -Account.pub_setPublic] at h
  obtain ⟨hsig, -, acct, hacct, hnonce, p, hpool, _, -, -, lat, hlat, latIn, hlatIn, hcovered, next,
    -, tok, htok, -, rfl⟩ := h
  exact ⟨acct, _, p, latIn, _, lat, tok, next, hsig, hacct, hnonce, hpool, hlat, htok, hlatIn,
    hcovered, rfl, rfl⟩

/-- A swap with the token in. -/
theorem applySwap_outcome_tokIn {tx : Transaction C} {token : UInt32} {trader : Bytes32}
    {amountIn minOut fee nonce : UInt64} {sig : Bytes64}
    (h : Runs (applySwap tx token trader false amountIn minOut fee nonce sig) s r s') :
    ∃ acct paid spent p latOut tokLeft lat tok next, SigOK C trader tx sig ∧
      s.account trader = some acct ∧ nonce = acct.nonce ∧ s.pool token = some p ∧
      checkedAdd p.tok amountIn = some tok ∧ checkedSub p.lat latOut = some lat ∧
      fee ≤ acct.pub LAT_TOKEN ∧
      paid = acct.setPublic LAT_TOKEN (acct.pub LAT_TOKEN - fee) ∧
      checkedSub (paid.pub token) amountIn = some tokLeft ∧
      spent = paid.setPublic token tokLeft ∧
      s' = (s.setAccount trader ((spent.setPublic LAT_TOKEN
        (saturatingAdd (spent.pub LAT_TOKEN) latOut)).withNonce next)).setPool
          { p with tok := tok, lat := lat } := by
  simp [applySwap, -Account.pub_setPublic] at h
  obtain ⟨hsig, -, acct, hacct, hnonce, p, hpool, _, -, -, tok, htok, ⟨hfee, -⟩, tokLeft, hleft,
    next, -, lat, hlat, -, rfl⟩ := h
  exact ⟨acct, _, _, p, _, tokLeft, lat, tok, next, hsig, hacct, hnonce, hpool, htok, hlat, hfee,
    rfl, hleft, rfl, rfl⟩

/-! ### Curves -/

theorem loadCurve_outcome {existing : Option CurvePool} {token : UInt32} {isBuy : Bool}
    {c : CurvePool} (h : Runs (loadCurve existing token isBuy) s c s') :
    s' = s ∧ (existing = some c ∨ existing = none ∧ isBuy = true ∧ c = CurvePool.genesis token) := by
  cases existing with
  | none =>
    simp [loadCurve] at h
    exact ⟨h.2.2, .inr ⟨rfl, h.1, h.2.1⟩⟩
  | some opened =>
    simp [loadCurve] at h
    exact ⟨h.2, .inl (by rw [h.1])⟩

theorem curveBuy_outcome {token : UInt32} {trader creator : Bytes32} {acct : Account C}
    {math : Curve} {amount minOut fee : UInt64}
    (h : Runs (curveBuy token trader creator acct math amount minOut fee) s r s') :
    ∃ fill after latDebit paid next, math.applyBuy amount = some (some (fill, after)) ∧
      checkedAdd amount fee = some latDebit ∧ latDebit ≤ acct.pub LAT_TOKEN ∧
      paid = acct.setPublic LAT_TOKEN (acct.pub LAT_TOKEN - latDebit) ∧
      s' = ((s.setAccount trader ((paid.setPublic token
        (saturatingAdd (paid.pub token) fill.out)).withNonce next)).credited creator LAT_TOKEN
          fill.fee).setCurve (CurvePool.fromMath token after) := by
  simp [curveBuy, -Account.pub_setPublic] at h
  obtain ⟨fill, after, hbuy, -, latDebit, hdebit, hcovered, next, -, -, _, s₁, hcredit, rfl⟩ := h
  exact ⟨fill, after, latDebit, _, next, hbuy, hdebit, hcovered, rfl,
    by rw [creditPublic_outcome hcredit]⟩

theorem curveSell_outcome {token : UInt32} {trader creator : Bytes32} {acct : Account C}
    {math : Curve} {amount minOut fee : UInt64}
    (h : Runs (curveSell token trader creator acct math amount minOut fee) s r s') :
    ∃ fill after gross paid sold next,
      math.applySell amount (acct.pub token) = some (some (fill, after)) ∧
      checkedAdd fill.out fill.fee = some gross ∧ gross ≤ math.realLat ∧
      amount ≤ acct.pub token ∧ fee ≤ acct.pub LAT_TOKEN ∧
      paid = acct.setPublic LAT_TOKEN (acct.pub LAT_TOKEN - fee) ∧
      sold = paid.setPublic token (acct.pub token - amount) ∧
      s' = ((s.setAccount trader ((sold.setPublic LAT_TOKEN
        (saturatingAdd (sold.pub LAT_TOKEN) fill.out)).withNonce next)).credited creator LAT_TOKEN
          fill.fee).setCurve (CurvePool.fromMath token after) := by
  simp [curveSell, -Account.pub_setPublic] at h
  obtain ⟨hheld, fill, after, hsell, gross, hgross, hsolvent, -, hfee, next, -, -, _, s₁, hcredit,
    rfl⟩ := h
  exact ⟨fill, after, gross, _, _, next, hsell, hgross, hsolvent, hheld, hfee, rfl, rfl,
    by rw [creditPublic_outcome hcredit]⟩

theorem applyCurveTrade_outcome {tx : Transaction C} {token : UInt32} {trader : Bytes32}
    {isBuy : Bool} {amount minOut fee nonce : UInt64} {sig : Bytes64}
    (h : Runs (applyCurveTrade tx token trader isBuy amount minOut fee nonce sig) s r s') :
    ∃ tokenMeta acct c, SigOK C trader tx sig ∧ token ≠ LAT_TOKEN ∧
      s.token token = some tokenMeta ∧ s.account trader = some acct ∧ nonce = acct.nonce ∧
      (s.curve token = some c ∨
        s.curve token = none ∧ isBuy = true ∧ c = CurvePool.genesis token) ∧
      c.graduated = false ∧
      ((isBuy = true ∧
          Runs (curveBuy token trader tokenMeta.creator acct c.math amount minOut fee) s r s') ∨
        (isBuy = false ∧
          Runs (curveSell token trader tokenMeta.creator acct c.math amount minOut fee) s r s')) := by
  simp [applyCurveTrade] at h
  obtain ⟨hsig, -, htoken, tokenMeta, hmeta, acct, hacct, hnonce, c, _, hload, hopen, hlast⟩ := h
  obtain ⟨rfl, hcurve⟩ := loadCurve_outcome hload
  exact ⟨tokenMeta, acct, c, hsig, htoken, hmeta, hacct, hnonce, hcurve, hopen, hlast⟩

/-! ### Escrows -/

theorem applyHtlcLock_outcome {tx : Transaction C} {height : UInt64} {token : UInt32}
    {fromId toId : Bytes32} {amount : UInt64} {hashlock : Bytes32} {expiry fee nonce : UInt64}
    {sig : Bytes64}
    (h : Runs (applyHtlcLock tx height token fromId toId amount hashlock expiry fee nonce sig)
      s r s') :
    ∃ acct latDebit paid next, SigOK C fromId tx sig ∧ s.account fromId = some acct ∧
      nonce = acct.nonce ∧
      s.htlc (htlcId C token fromId toId amount hashlock expiry nonce) = none ∧
      (if token = LAT_TOKEN then checkedAdd amount fee else some fee) = some latDebit ∧
      latDebit ≤ acct.pub LAT_TOKEN ∧
      (token ≠ LAT_TOKEN → amount ≤ acct.pub token) ∧
      paid = acct.setPublic LAT_TOKEN (acct.pub LAT_TOKEN - latDebit) ∧
      s' = (s.setAccount fromId ((if token = LAT_TOKEN then paid
        else paid.setPublic token (paid.pub token - amount)).withNonce next)).setHtlc
          (htlcId C token fromId toId amount hashlock expiry nonce)
          (some ⟨token, fromId, toId, amount, hashlock, expiry⟩) := by
  simp [applyHtlcLock, -Account.pub_setPublic] at h
  obtain ⟨hsig, -, -, acct, hacct, hnonce, hfree, latDebit, hdebit, ⟨hlat, htok⟩, next, -, -,
    rfl⟩ := h
  refine ⟨acct, latDebit, _, next, hsig, hacct, hnonce, hfree, hdebit, hlat, ?_, rfl, ?_⟩
  · intro htoken
    rwa [if_neg htoken] at htok
  · by_cases htoken : token = LAT_TOKEN <;> simp [htoken]

theorem applyHtlcClaim_outcome {height : UInt64} {id preimage : Bytes32}
    (h : Runs (applyHtlcClaim (C := C) height id preimage) s r s') :
    ∃ lock, s.htlc id = some lock ∧ height < lock.expiry ∧
      C.sha256 (bytesOf32 preimage) = lock.hashlock ∧
      s' = (s.setHtlc id none).credited lock.toId lock.token lock.amount := by
  simp [applyHtlcClaim] at h
  obtain ⟨lock, hlock, hopen, hpreimage, hcredit⟩ := h
  exact ⟨lock, hlock, hopen, hpreimage, creditPublic_outcome hcredit⟩

theorem applyHtlcRefund_outcome {height : UInt64} {id : Bytes32}
    (h : Runs (applyHtlcRefund (C := C) height id) s r s') :
    ∃ lock, s.htlc id = some lock ∧ lock.expiry ≤ height ∧
      s' = (s.setHtlc id none).credited lock.fromId lock.token lock.amount := by
  simp [applyHtlcRefund] at h
  obtain ⟨lock, hlock, hexpired, hcredit⟩ := h
  exact ⟨lock, hlock, hexpired, creditPublic_outcome hcredit⟩

end Latebra.State
