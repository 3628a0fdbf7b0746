import Latebra.State.Commands

/-!
# Applying a transaction

`applyInner` is the ledger's transition function, one program for each transaction variant. The
programs follow the code step by step: the order of the checks, which record is read when, and
which record is written before which other check.

Arithmetic that may leave its type is checked, and leaving it is a panic. A subtraction that a
check of the same arm covers is written plainly.
-/

set_option autoImplicit false
set_option relaxedAutoImplicit false

namespace Latebra.State

open Foundation Crypto Latebra.Types Contracts
open Program (okOr orPanic rejectIf whenSome forEach)
open LedgerM

/-- Flat fee for the transaction types without a fee field. -/
def FLAT_TX_FEE : UInt64 := 1000

/-- Blocks per anonymity epoch. -/
def EPOCH_BLOCKS : UInt64 := 20

/-- The anonymity epoch of a block height. -/
def epochOf (height : UInt64) : UInt64 := height / EPOCH_BLOCKS

/-- Minimum bonded stake to be in the validator set. -/
def MIN_VALIDATOR_STAKE : UInt64 := 1000 * 100000

/-- Blocks between an unstake and its release. -/
def UNBONDING_BLOCKS : UInt64 := 240

/-- Slashed share of an offender's stake, in basis points. -/
def SLASH_FRACTION_BPS : ℕ := 1000

/-- Share of the slashed amount paid to the submitter, in basis points. -/
def SLASH_REWARD_BPS : ℕ := 500

/-- AMM swap fee, in basis points. -/
def SWAP_FEE_BPS : ℕ := 30

/-- LP shares burned on pool creation. -/
def MIN_POOL_LIQUIDITY : UInt64 := 1000

/-- Evidence from the parallel pre-pass that a proof was already verified. -/
inductive ProofPass (C : CryptoSuite) where
  | anon
  | againstBalance (balance : Ciphertext C.Point)

/-- Newton's iteration for the integer square root. -/
def isqrtLoop (n x y : ℕ) : ℕ :=
  if y < x then isqrtLoop n y ((y + n / y) / 2) else x
termination_by x

/-- Integer square root, rounded down. -/
def isqrt (n : ℕ) : UInt64 := if n = 0 then 0 else UInt64.ofNat (isqrtLoop n n ((n + 1) / 2))

/-- Drain every unbonding entry whose release height has passed, with the total released. -/
def releaseMatured (v : Validator) (height : UInt64) : Option (UInt64 × Validator) := do
  let matured := v.unbonding.filter fun entry ↦ entry.2 ≤ height
  let released ← checkedSum (matured.map Prod.fst)
  return (released, { v with unbonding := v.unbonding.filter fun entry ↦ ¬ entry.2 ≤ height })

/-- Take an amount out of the unbonding entries, oldest first. -/
def slashUnbonding : UInt64 → List (UInt64 × UInt64) → List (UInt64 × UInt64)
  | _, [] => []
  | remaining, (amount, release) :: rest =>
    if remaining = 0 then (amount, release) :: rest
    else
      let take := if remaining ≤ amount then remaining else amount
      (amount - take, release) :: slashUnbonding (remaining - take) rest

section Arms

variable {C : CryptoSuite}

/-- Verify the signature of a transparent transaction by an account key. -/
def checkSig (id : Bytes32) (tx : Transaction C) (sig : Bytes64) : LedgerM C Unit := do
  let pk ← okOr (C.keyFromBytes id) .badSignature
  let sig ← okOr (C.signatureFromBytes sig) .badSignature
  rejectIf (¬ C.verifySignature pk tx.signingBytes sig) .badSignature

/-- The proof was verified before against exactly this balance. -/
def preverifiedAgainst (pre : Option (ProofPass C)) (balance : Ciphertext C.Point) : Bool :=
  match pre with
  | some (.againstBalance checked) => checked = balance
  | _ => false

/-- The ring proof was verified before. -/
def preverifiedAnon (pre : Option (ProofPass C)) : Bool :=
  match pre with
  | some .anon => true
  | _ => false

def applyCreateToken (tx : Transaction C) (ticker : Text) (creator : Bytes32) (supply : UInt64)
    (sig : Bytes64) : LedgerM C Unit := do
  checkSig creator tx sig
  let norm ← okOr (normalizeTicker ticker) .invalidTicker
  rejectIf (← tickerTaken norm) .tickerTaken
  let acct ← okOr (← account creator) .creatorNotRegistered
  rejectIf (acct.pub LAT_TOKEN < FLAT_TX_FEE) .insufficientPublicBalance
  let acct := acct.setPublic LAT_TOKEN (acct.pub LAT_TOKEN - FLAT_TX_FEE)
  let id ← nextTokenId
  let next ← orPanic (if id.toNat + 1 < 2 ^ 32 then some (id + 1) else none)
  setNextTokenId next
  putToken ⟨id, norm, creator, supply⟩
  putAccount creator (acct.set id (C.add (acct.balance id) (C.mint supply)))

/-- Debit a sender's confidential balance by a hidden amount and the public fee, and advance the
spend nonce. -/
def debitConfidential (senderId : Bytes32) (token : UInt32)
    (xfer : SolventTransfer C.Point C.SolventProof) : LedgerM C Unit := do
  whenSome (← account senderId) fun s ↦ do
    let debited := C.sub (s.balance token) xfer.senderCiphertext
    let debited := if xfer.fee > 0 then C.sub debited (C.mint xfer.fee) else debited
    let nonce ← orPanic (checkedAdd s.nonce 1)
    putAccount senderId ((s.set token debited).withNonce nonce)

/-- Credit a pending confidential balance, registering the account if needed. -/
def creditPendingOf (acct : Account C) (id : Bytes32) (token : UInt32)
    (credit : Ciphertext C.Point) : LedgerM C Unit :=
  putAccount id (acct.setPending token (C.add (acct.pending token) credit))

def applySolventTransfer (pre : Option (ProofPass C)) (token : UInt32)
    (xfer : SolventTransfer C.Point C.SolventProof) : LedgerM C Unit := do
  let senderId := C.keyToBytes xfer.sender
  let receiverId := C.keyToBytes xfer.receiver
  let sender ← okOr (← account senderId) .senderNotRegistered
  rejectIf (xfer.nonce ≠ sender.nonce) .badNonce
  rejectIf (¬ preverifiedAgainst pre (sender.balance token) ∧
    ¬ C.solventVerify xfer token (sender.balance token)) .invalidProof
  rejectIf (¬ (← isRegistered receiverId)) .receiverNotRegistered
  debitConfidential senderId token xfer
  whenSome (← account receiverId) fun r ↦
    creditPendingOf r receiverId token xfer.receiverCiphertext

/-- Merge a pending balance into the spendable one. -/
def mergePending (acct : Account C) (token : UInt32) : Account C :=
  (acct.set token (C.add (acct.balance token) (acct.pending token))).setPending token C.zero

def applyRollover (tx : Transaction C) (accountId : Bytes32) (nonce : UInt64) (sig : Bytes64) :
    LedgerM C Unit := do
  checkSig accountId tx sig
  let acct ← okOr (← account accountId) .senderNotRegistered
  rejectIf (nonce ≠ acct.nonce) .badNonce
  let merged := acct.pendings.keys.foldl mergePending acct
  let next ← orPanic (checkedAdd merged.nonce 1)
  putAccount accountId (merged.withNonce next)

def applyDeployContract (tx : Transaction C) (deployer : Bytes32) (code : Bytes) (sig : Bytes64) :
    LedgerM C Unit := do
  checkSig deployer tx sig
  let acct ← okOr (← account deployer) .senderNotRegistered
  rejectIf (acct.pub LAT_TOKEN < FLAT_TX_FEE) .insufficientPublicBalance
  let id := Vm.contractId C.blake3 deployer code
  rejectIf (← hasContract id) .contractExists
  putAccount deployer (acct.setPublic LAT_TOKEN (acct.pub LAT_TOKEN - FLAT_TX_FEE))
  putContract id ⟨code, ∅⟩

def applyCallContract (tx : Transaction C) (contractAddr caller : Bytes32) (input nonce : UInt64)
    (sig : Bytes64) : LedgerM C Unit := do
  checkSig caller tx sig
  let callerAcct ← okOr (← account caller) .senderNotRegistered
  rejectIf (nonce ≠ callerAcct.nonce) .badNonce
  let c ← okOr (← contract contractAddr) .noSuchContract
  rejectIf (callerAcct.pub LAT_TOKEN < FLAT_TX_FEE) .insufficientPublicBalance
  let storage ← okOr (Vm.execute c.code c.storage caller input Vm.defaultGas).toOption
    .contractFailed
  putContract contractAddr { c with storage := storage }
  whenSome (← account caller) fun a ↦ do
    let next ← orPanic (checkedAdd a.nonce 1)
    putAccount caller
      ((a.setPublic LAT_TOKEN (a.pub LAT_TOKEN - FLAT_TX_FEE)).withNonce next)

/-- Debit a public balance by a total that it covers, and advance the spend nonce. -/
def debitPublic (fromId : Bytes32) (token : UInt32) (total : UInt64) : LedgerM C Unit := do
  whenSome (← account fromId) fun s ↦ do
    let next ← orPanic (checkedAdd s.nonce 1)
    putAccount fromId ((s.setPublic token (s.pub token - total)).withNonce next)

def applyPublicTransfer (tx : Transaction C) (token : UInt32) (fromId toId : Bytes32)
    (amount fee nonce : UInt64) (sig : Bytes64) : LedgerM C Unit := do
  checkSig fromId tx sig
  let sender ← okOr (← account fromId) .senderNotRegistered
  rejectIf (nonce ≠ sender.nonce) .badNonce
  rejectIf (¬ (← isRegistered toId)) .receiverNotRegistered
  let total ← okOr (checkedAdd amount fee) .insufficientPublicBalance
  rejectIf (sender.pub token < total) .insufficientPublicBalance
  debitPublic fromId token total
  whenSome (← account toId) fun r ↦
    putAccount toId (r.setPublic token (saturatingAdd (r.pub token) amount))

def applyShield (tx : Transaction C) (token : UInt32) (fromId toId : Bytes32)
    (amount fee nonce : UInt64) (sig : Bytes64) : LedgerM C Unit := do
  checkSig fromId tx sig
  let sender ← okOr (← account fromId) .senderNotRegistered
  rejectIf (nonce ≠ sender.nonce) .badNonce
  rejectIf (¬ (← isRegistered toId)) .receiverNotRegistered
  let total ← okOr (checkedAdd amount fee) .insufficientPublicBalance
  rejectIf (sender.pub token < total) .insufficientPublicBalance
  debitPublic fromId token total
  whenSome (← account toId) fun r ↦ creditPendingOf r toId token (C.mint amount)

def applyUnshield (tx : Transaction C) (pre : Option (ProofPass C)) (token : UInt32)
    (toId : Bytes32) (amount : UInt64) (xfer : SolventTransfer C.Point C.SolventProof)
    (sig : Bytes64) : LedgerM C Unit := do
  let senderId := C.keyToBytes xfer.sender
  checkSig senderId tx sig
  rejectIf (xfer.receiver ≠ C.unshieldViewKey) .wrongUnshieldReceiver
  let sender ← okOr (← account senderId) .senderNotRegistered
  rejectIf (xfer.nonce ≠ sender.nonce) .badNonce
  rejectIf (¬ preverifiedAgainst pre (sender.balance token) ∧
    ¬ C.solventVerify xfer token (sender.balance token)) .invalidProof
  rejectIf (¬ C.unshieldReveals xfer.receiverCiphertext amount) .unshieldAmountMismatch
  rejectIf (¬ (← isRegistered toId)) .receiverNotRegistered
  debitConfidential senderId token xfer
  creditPublic toId token amount

def applyShieldStealth (tx : Transaction C) (token : UInt32) (fromId oneTime : Bytes32)
    (amount fee nonce : UInt64) (sig : Bytes64) : LedgerM C Unit := do
  checkSig fromId tx sig
  let sender ← okOr (← account fromId) .senderNotRegistered
  rejectIf (nonce ≠ sender.nonce) .badNonce
  let total ← okOr (checkedAdd amount fee) .insufficientPublicBalance
  rejectIf (sender.pub token < total) .insufficientPublicBalance
  debitPublic fromId token total
  let r := (← account oneTime).getD Account.default
  creditPendingOf r oneTime token (C.mint amount)

/-- Every ring member is a registered account, named once, whose balance is the claimed one. -/
def checkRing (token : UInt32) (seen : List Bytes32) :
    List (PublicKey C.Point × Ciphertext C.Point) → LedgerM C Unit
  | [] => pure ()
  | (member, claimed) :: rest => do
    let id := C.keyToBytes member
    rejectIf (id ∈ seen) .badRing
    let acct ← okOr (← account id) .badRing
    rejectIf (acct.balance token ≠ claimed) .staleRingBalance
    checkRing token (id :: seen) rest

/-- Subtract each debit from the balance of its ring member. -/
def debitRing (token : UInt32) (debits : List (PublicKey C.Point × Ciphertext C.Point)) :
    LedgerM C Unit :=
  forEach debits fun debit ↦ do
    let memberId := C.keyToBytes debit.1
    whenSome (← account memberId) fun a ↦
      putAccount memberId (a.set token (C.sub (a.balance token) debit.2))

def applyAnonTransfer (pre : Option (ProofPass C)) (height : UInt64) (token : UInt32)
    (xfer : AnonTransfer C.Point C.AnonProof) : LedgerM C Unit := do
  rejectIf (xfer.epoch ≠ epochOf height) .wrongEpoch
  rejectIf (← nullifierSeen (C.nullifier xfer)) .nullifierSeen
  rejectIf (xfer.balances.length ≠ xfer.ring.length ∨
    xfer.enc.length ≠ xfer.ring.length) .badRing
  checkRing token [] (xfer.ring.zip xfer.balances)
  rejectIf (¬ preverifiedAnon pre ∧ ¬ C.anonVerify xfer token) .invalidProof
  debitRing token (xfer.ring.zip xfer.enc)
  let oneTime := C.keyToBytes xfer.output.oneTime
  let r := (← account oneTime).getD Account.default
  creditPendingOf r oneTime token xfer.credit
  insertNullifier (C.nullifier xfer)

def applyStake (tx : Transaction C) (height : UInt64) (validatorId : Bytes32)
    (amount nonce : UInt64) (sig : Bytes64) : LedgerM C Unit := do
  checkSig validatorId tx sig
  let acct ← okOr (← account validatorId) .senderNotRegistered
  rejectIf (nonce ≠ acct.nonce) .badNonce
  let val := (← validator validatorId).getD Validator.default
  let (released, val) ← orPanic (releaseMatured val height)
  let available := saturatingAdd (acct.pub LAT_TOKEN) released
  rejectIf (available < amount) .insufficientPublicBalance
  let next ← orPanic (checkedAdd acct.nonce 1)
  putAccount validatorId ((acct.setPublic LAT_TOKEN (available - amount)).withNonce next)
  putValidator validatorId { val with staked := saturatingAdd val.staked amount }

def applyUnstake (tx : Transaction C) (height : UInt64) (validatorId : Bytes32)
    (amount nonce : UInt64) (sig : Bytes64) : LedgerM C Unit := do
  checkSig validatorId tx sig
  let acct ← okOr (← account validatorId) .senderNotRegistered
  rejectIf (nonce ≠ acct.nonce) .badNonce
  let val := (← validator validatorId).getD Validator.default
  let (released, val) ← orPanic (releaseMatured val height)
  rejectIf (val.staked < amount) .insufficientStake
  let release ← orPanic (if amount > 0 then checkedAdd height UNBONDING_BLOCKS else some 0)
  let entries := if amount > 0 then [(amount, release)] else []
  let next ← orPanic (checkedAdd acct.nonce 1)
  putAccount validatorId
    ((acct.setPublic LAT_TOKEN (saturatingAdd (acct.pub LAT_TOKEN) released)).withNonce next)
  putValidator validatorId
    { val with staked := val.staked - amount, unbonding := val.unbonding ++ entries }

/-- The penalty on an offender: a share of the whole stake, at least one unit, taken from the
bonded stake first and then from the unbonding entries. -/
def slashAmount (total : UInt64) : UInt64 :=
  let share := UInt64.ofNat (total.toNat * SLASH_FRACTION_BPS / 10000)
  if share ≤ 1 then 1 else share

/-- The submitter's share of a penalty. -/
def slashReward (slashed : UInt64) : UInt64 :=
  UInt64.ofNat (slashed.toNat * SLASH_REWARD_BPS / 10000)

/-- The staking state after a penalty. -/
def slashValidator (val : Validator) (slashed : UInt64) : Validator :=
  let fromBonded := if slashed ≤ val.staked then slashed else val.staked
  ⟨val.staked - fromBonded,
    (slashUnbonding (slashed - fromBonded) val.unbonding).filter fun entry ↦ entry.1 > 0, true⟩

def applySlashEvidence (validatorId beneficiary : Bytes32) (voteHeight : UInt64)
    (blockA : Bytes32) (sigA : Bytes64) (blockB : Bytes32) (sigB : Bytes64) :
    LedgerM C Unit := do
  rejectIf (blockA = blockB) .badEvidence
  let pk ← okOr (C.keyFromBytes validatorId) .badEvidence
  forEach [(blockA, sigA), (blockB, sigB)] fun vote ↦ do
    let sig ← okOr (C.signatureFromBytes vote.2) .badEvidence
    rejectIf (¬ C.verifySignature pk (finalityVoteSigningBytes vote.1 voteHeight) sig) .badEvidence
  let val := (← validator validatorId).getD Validator.default
  rejectIf (val.tombstoned = true) .nothingToSlash
  let unbonding ← orPanic (checkedSum (val.unbonding.map Prod.fst))
  let total := saturatingAdd val.staked unbonding
  rejectIf (total = 0) .nothingToSlash
  let slashed := slashAmount total
  putValidator validatorId (slashValidator val slashed)
  let reward := slashReward slashed
  if reward > 0 then
    whenSome (← account beneficiary) fun acct ↦
      putAccount beneficiary
        (acct.setPublic LAT_TOKEN (saturatingAdd (acct.pub LAT_TOKEN) reward))
  else pure ()

/-- What a deposit makes of the pool: the pool afterwards, the token leg that is debited, and the
shares that are minted. -/
def planDeposit (pool : Option Pool) (token : UInt32) (latAmount tokAmount : UInt64) :
    LedgerM C (Pool × UInt64 × UInt64) :=
  match pool with
  | none => do
    let lp0 := isqrt (latAmount.toNat * tokAmount.toNat)
    rejectIf (lp0 ≤ MIN_POOL_LIQUIDITY) .insufficientLiquidity
    return (⟨token, latAmount, tokAmount, lp0⟩, tokAmount, lp0 - MIN_POOL_LIQUIDITY)
  | some p => do
    let quotient ← orPanic (checkedDiv (latAmount.toNat * p.tok.toNat + (p.lat.toNat - 1))
      p.lat.toNat)
    let tokNeeded ← okOr (narrow64 quotient) .insufficientLiquidity
    rejectIf (tokNeeded > tokAmount) .slippageExceeded
    let share ← orPanic (checkedDiv (latAmount.toNat * p.lpSupply.toNat) p.lat.toNat)
    let minted := UInt64.ofNat share
    rejectIf (minted = 0 ∨ tokNeeded = 0) .insufficientLiquidity
    let lat ← okOr (checkedAdd p.lat latAmount) .insufficientLiquidity
    let tok ← okOr (checkedAdd p.tok tokNeeded) .insufficientLiquidity
    let lpSupply ← okOr (checkedAdd p.lpSupply minted) .insufficientLiquidity
    return (⟨p.token, lat, tok, lpSupply⟩, tokNeeded, minted)

def applyAddLiquidity (tx : Transaction C) (token : UInt32) (provider : Bytes32)
    (latAmount tokAmount fee nonce : UInt64) (sig : Bytes64) : LedgerM C Unit := do
  checkSig provider tx sig
  rejectIf (token = LAT_TOKEN ∨ (← tokenById token).isNone) .badPoolToken
  rejectIf (latAmount = 0 ∨ tokAmount = 0) .zeroAmount
  let acct ← okOr (← account provider) .senderNotRegistered
  rejectIf (nonce ≠ acct.nonce) .badNonce
  let (pool, tokUsed, minted) ← planDeposit (← pool token) token latAmount tokAmount
  let latTotal ← okOr (checkedAdd latAmount fee) .insufficientPublicBalance
  rejectIf (acct.pub LAT_TOKEN < latTotal ∨ acct.pub token < tokUsed) .insufficientPublicBalance
  let acct := acct.setPublic LAT_TOKEN (acct.pub LAT_TOKEN - latTotal)
  let acct := acct.setPublic token (acct.pub token - tokUsed)
  let next ← orPanic (checkedAdd acct.nonce 1)
  putAccount provider (acct.withNonce next)
  let shares ← okOr (checkedAdd (← lpShares token provider) minted) .insufficientLiquidity
  putLp token provider shares
  putPool pool

def applyRemoveLiquidity (tx : Transaction C) (token : UInt32) (provider : Bytes32)
    (lpAmount fee nonce : UInt64) (sig : Bytes64) : LedgerM C Unit := do
  checkSig provider tx sig
  rejectIf (lpAmount = 0) .zeroAmount
  let acct ← okOr (← account provider) .senderNotRegistered
  rejectIf (nonce ≠ acct.nonce) .badNonce
  let p ← okOr (← pool token) .poolNotFound
  let shares ← lpShares token provider
  rejectIf (shares < lpAmount) .insufficientLiquidity
  let latShare ← orPanic (checkedDiv (lpAmount.toNat * p.lat.toNat) p.lpSupply.toNat)
  let tokShare ← orPanic (checkedDiv (lpAmount.toNat * p.tok.toNat) p.lpSupply.toNat)
  let latOut := UInt64.ofNat latShare
  let tokOut := UInt64.ofNat tokShare
  rejectIf (latOut = 0 ∧ tokOut = 0) .insufficientLiquidity
  rejectIf (acct.pub LAT_TOKEN < fee) .insufficientPublicBalance
  let acct := acct.setPublic LAT_TOKEN (acct.pub LAT_TOKEN - fee)
  let next ← orPanic (checkedAdd acct.nonce 1)
  let lat ← orPanic (checkedSub p.lat latOut)
  let tok ← orPanic (checkedSub p.tok tokOut)
  let lpSupply ← orPanic (checkedSub p.lpSupply lpAmount)
  let acct := acct.setPublic LAT_TOKEN (saturatingAdd (acct.pub LAT_TOKEN) latOut)
  let acct := acct.setPublic token (saturatingAdd (acct.pub token) tokOut)
  putAccount provider (acct.withNonce next)
  putLp token provider (shares - lpAmount)
  putPool ⟨p.token, lat, tok, lpSupply⟩

def applySwap (tx : Transaction C) (token : UInt32) (trader : Bytes32) (latIn : Bool)
    (amountIn minOut fee nonce : UInt64) (sig : Bytes64) : LedgerM C Unit := do
  checkSig trader tx sig
  rejectIf (amountIn = 0) .zeroAmount
  let acct ← okOr (← account trader) .senderNotRegistered
  rejectIf (nonce ≠ acct.nonce) .badNonce
  let p ← okOr (← pool token) .poolNotFound
  let rIn := if latIn then p.lat else p.tok
  let rOut := if latIn then p.tok else p.lat
  let inAfterFee := amountIn.toNat * (10000 - SWAP_FEE_BPS)
  let product ← orPanic (fits128 (inAfterFee * rOut.toNat))
  let out := UInt64.ofNat (product / (rIn.toNat * 10000 + inAfterFee))
  rejectIf (out = 0 ∨ out < minOut) .slippageExceeded
  let newRIn ← okOr (checkedAdd rIn amountIn) .insufficientLiquidity
  let outToken := if latIn then token else LAT_TOKEN
  let latDebit ← okOr (if latIn then checkedAdd amountIn fee else some fee)
    .insufficientPublicBalance
  let tokDebit := if latIn then 0 else amountIn
  rejectIf (acct.pub LAT_TOKEN < latDebit ∨ acct.pub token < tokDebit) .insufficientPublicBalance
  let acct := acct.setPublic LAT_TOKEN (acct.pub LAT_TOKEN - latDebit)
  let tokLeft ← orPanic (if latIn then some 0 else checkedSub (acct.pub token) tokDebit)
  let acct := if latIn then acct else acct.setPublic token tokLeft
  let acct := acct.setPublic outToken (saturatingAdd (acct.pub outToken) out)
  let next ← orPanic (checkedAdd acct.nonce 1)
  let newROut ← orPanic (checkedSub rOut out)
  putAccount trader (acct.withNonce next)
  putPool (if latIn then { p with lat := newRIn, tok := newROut }
    else { p with tok := newRIn, lat := newROut })

/-- The curve of a token, opened on its first buy. -/
def loadCurve (existing : Option CurvePool) (token : UInt32) (isBuy : Bool) :
    LedgerM C CurvePool :=
  match existing with
  | some c => pure c
  | none => if isBuy then pure (CurvePool.genesis token) else Program.reject .curveNotFound

/-- Buy on the curve: LAT in, minted tokens out, the fee to the creator. -/
def curveBuy (token : UInt32) (trader creator : Bytes32) (acct : Account C) (math : Curve)
    (amount minOut fee : UInt64) : LedgerM C Unit := do
  let (fill, math) ← okOr (← orPanic (math.applyBuy amount)) .slippageExceeded
  rejectIf (fill.out = 0 ∨ fill.out < minOut) .slippageExceeded
  let latDebit ← okOr (checkedAdd amount fee) .insufficientPublicBalance
  rejectIf (acct.pub LAT_TOKEN < latDebit) .insufficientPublicBalance
  let acct := acct.setPublic LAT_TOKEN (acct.pub LAT_TOKEN - latDebit)
  let acct := acct.setPublic token (saturatingAdd (acct.pub token) fill.out)
  let next ← orPanic (checkedAdd acct.nonce 1)
  putAccount trader (acct.withNonce next)
  creditPublic creator LAT_TOKEN fill.fee
  putCurve (CurvePool.fromMath token math)

/-- Sell on the curve: burned tokens in, LAT out, the fee to the creator. -/
def curveSell (token : UInt32) (trader creator : Bytes32) (acct : Account C) (math : Curve)
    (amount minOut fee : UInt64) : LedgerM C Unit := do
  let held := acct.pub token
  rejectIf (held < amount) .insufficientPublicBalance
  let reserve := math.realLat
  let (fill, math) ← okOr (← orPanic (math.applySell amount held)) .slippageExceeded
  let gross ← okOr (checkedAdd fill.out fill.fee) .curveInsolvent
  rejectIf (gross > reserve) .curveInsolvent
  rejectIf (fill.out < minOut) .slippageExceeded
  rejectIf (acct.pub LAT_TOKEN < fee) .insufficientPublicBalance
  let acct := acct.setPublic LAT_TOKEN (acct.pub LAT_TOKEN - fee)
  let acct := acct.setPublic token (held - amount)
  let acct := acct.setPublic LAT_TOKEN (saturatingAdd (acct.pub LAT_TOKEN) fill.out)
  let next ← orPanic (checkedAdd acct.nonce 1)
  putAccount trader (acct.withNonce next)
  creditPublic creator LAT_TOKEN fill.fee
  putCurve (CurvePool.fromMath token math)

def applyCurveTrade (tx : Transaction C) (token : UInt32) (trader : Bytes32) (isBuy : Bool)
    (amount minOut fee nonce : UInt64) (sig : Bytes64) : LedgerM C Unit := do
  checkSig trader tx sig
  rejectIf (amount = 0) .zeroAmount
  rejectIf (token = LAT_TOKEN) .badPoolToken
  let tokenMeta ← okOr (← tokenById token) .badPoolToken
  let acct ← okOr (← account trader) .senderNotRegistered
  rejectIf (nonce ≠ acct.nonce) .badNonce
  let cp ← loadCurve (← curve token) token isBuy
  rejectIf (cp.graduated = true) .curveGraduated
  if isBuy then curveBuy token trader tokenMeta.creator acct cp.math amount minOut fee
  else curveSell token trader tokenMeta.creator acct cp.math amount minOut fee

def applyHtlcLock (tx : Transaction C) (height : UInt64) (token : UInt32) (fromId toId : Bytes32)
    (amount : UInt64) (hashlock : Bytes32) (expiry fee nonce : UInt64) (sig : Bytes64) :
    LedgerM C Unit := do
  checkSig fromId tx sig
  rejectIf (amount = 0) .zeroAmount
  rejectIf (expiry ≤ height) .htlcExpired
  let acct ← okOr (← account fromId) .senderNotRegistered
  rejectIf (nonce ≠ acct.nonce) .badNonce
  let id := htlcId C token fromId toId amount hashlock expiry nonce
  rejectIf ((← htlc id).isSome) .htlcExists
  let latDebit ← okOr (if token = LAT_TOKEN then checkedAdd amount fee else some fee)
    .insufficientPublicBalance
  let tokDebit := if token = LAT_TOKEN then 0 else amount
  rejectIf (acct.pub LAT_TOKEN < latDebit ∨ acct.pub token < tokDebit) .insufficientPublicBalance
  let acct := acct.setPublic LAT_TOKEN (acct.pub LAT_TOKEN - latDebit)
  let acct := if token = LAT_TOKEN then acct else acct.setPublic token (acct.pub token - tokDebit)
  let next ← orPanic (checkedAdd acct.nonce 1)
  putAccount fromId (acct.withNonce next)
  putHtlc id ⟨token, fromId, toId, amount, hashlock, expiry⟩

def applyHtlcClaim (height : UInt64) (id preimage : Bytes32) : LedgerM C Unit := do
  let h ← okOr (← htlc id) .htlcNotFound
  rejectIf (height ≥ h.expiry) .htlcExpired
  rejectIf (C.sha256 (bytesOf32 preimage) ≠ h.hashlock) .badPreimage
  deleteHtlc id
  creditPublic h.toId h.token h.amount

def applyHtlcRefund (height : UInt64) (id : Bytes32) : LedgerM C Unit := do
  let h ← okOr (← htlc id) .htlcNotFound
  rejectIf (height < h.expiry) .htlcNotExpired
  deleteHtlc id
  creditPublic h.fromId h.token h.amount

/-- Apply one transaction in the block at `height`, with optional evidence of the parallel
pre-pass. -/
def applyInner (tx : Transaction C) (height : UInt64) (pre : Option (ProofPass C)) :
    LedgerM C Unit :=
  match tx with
  | .register pubkey _ => register pubkey
  | .createToken ticker creator supply sig => applyCreateToken tx ticker creator supply sig
  | .solventTransfer token xfer => applySolventTransfer pre token xfer
  | .rollover accountId nonce sig => applyRollover tx accountId nonce sig
  | .deployContract deployer code sig => applyDeployContract tx deployer code sig
  | .callContract contractAddr caller input nonce sig =>
    applyCallContract tx contractAddr caller input nonce sig
  | .publicTransfer token fromId toId amount fee nonce sig =>
    applyPublicTransfer tx token fromId toId amount fee nonce sig
  | .shield token fromId toId amount fee nonce sig =>
    applyShield tx token fromId toId amount fee nonce sig
  | .unshield token toId amount xfer sig => applyUnshield tx pre token toId amount xfer sig
  | .shieldStealth token fromId _ oneTime amount fee nonce sig =>
    applyShieldStealth tx token fromId oneTime amount fee nonce sig
  | .anonTransfer token xfer => applyAnonTransfer pre height token xfer
  | .stake validatorId amount nonce sig => applyStake tx height validatorId amount nonce sig
  | .unstake validatorId amount nonce sig => applyUnstake tx height validatorId amount nonce sig
  | .slashEvidence validatorId beneficiary voteHeight blockA sigA blockB sigB =>
    applySlashEvidence validatorId beneficiary voteHeight blockA sigA blockB sigB
  | .addLiquidity token provider latAmount tokAmount fee nonce sig =>
    applyAddLiquidity tx token provider latAmount tokAmount fee nonce sig
  | .removeLiquidity token provider lpAmount fee nonce sig =>
    applyRemoveLiquidity tx token provider lpAmount fee nonce sig
  | .swap token trader latIn amountIn minOut fee nonce sig =>
    applySwap tx token trader latIn amountIn minOut fee nonce sig
  | .curveTrade token trader isBuy amount minOut fee nonce sig =>
    applyCurveTrade tx token trader isBuy amount minOut fee nonce sig
  | .htlcLock token fromId toId amount hashlock expiry fee nonce sig =>
    applyHtlcLock tx height token fromId toId amount hashlock expiry fee nonce sig
  | .htlcClaim id preimage => applyHtlcClaim height id preimage
  | .htlcRefund id => applyHtlcRefund height id

end Arms

end Latebra.State
