import Latebra.Crypto.PrimeSuite
import Latebra.Foundation.MachineWord

/-!
# The anonymous transfer proof

An anonymous transfer debits one hidden member of a ring. Its proofs are bundled:

* a disjunction for each member that its delta commitment opens to zero or to the hidden debit,
* a link for each member from its delta commitment to the ciphertext that the ledger subtracts,
* a link from the hidden amount to the ciphertext of the receiver,
* a sum proof that the deltas add up to the debit,
* one disjunction over the members, that some member is owned by the prover, debited, solvent, and
  the source of the nullifier,
* two range proofs, of the amount and of the balance that remains.

`verified_and_received` is completeness: the transfer of a solvent member is verified, at whatever place of
whatever ring.
-/

set_option autoImplicit false
set_option relaxedAutoImplicit false

namespace Latebra.Crypto

open Foundation
open Foundation.SigmaProtocol

/-- What is drawn for the disjunction of one member. -/
structure ZodRandomness (Scalar : Type) where
  k : Scalar
  e : Scalar
  z : Scalar

/-- What is drawn for one link. -/
structure LinkRandomness (Scalar : Type) where
  kD : Scalar
  kS : Scalar
  kY : Scalar

/-- What the sender draws for an anonymous transfer: per-member draws are functions of the place in
the ring. -/
structure AnonRandomness (Scalar RangeRandomness : Type) where
  sD : Scalar
  blind : ℕ → Scalar
  y : ℕ → Scalar
  gamma : Scalar
  range : RangeRandomness
  ephemeral : Scalar
  yC : Scalar
  e : ℕ → Scalar
  zX : ℕ → Scalar
  zS : ℕ → Scalar
  zG : ℕ → Scalar
  kX : Scalar
  kS : Scalar
  kG : Scalar
  zod : ℕ → ZodRandomness Scalar
  link : ℕ → LinkRandomness Scalar
  creditLink : LinkRandomness Scalar
  kSum : Scalar

section Bricks

variable (P : ProofSuite) (oracle : Bytes → P.Scalar)

/-- The per-epoch base of nullifiers. -/
def epochBase (epoch : UInt64) : P.ground.Point :=
  P.hashToPoint (ascii "Latebra.Epoch.v1" ++ u64Le epoch)

namespace ZeroOrDebit

/-- The challenge of one disjunction, bound to the statement of the transfer. -/
def zodChallenge (stmt : P.Scalar) (c cDebit a0 a1 : P.ground.Point) : P.Scalar :=
  oracle (ascii "Latebra.AnonTransfer.zod.v2" ++ P.scalarBytes stmt ++
    [c, cDebit, a0, a1].flatMap P.pointBytes)

/-- Prove that a commitment opens to zero, or to the debit. The other branch is simulated. -/
def prove (stmt : P.Scalar) (c cDebit : P.ground.Point) (debitBranch : Bool) (witness : P.Scalar)
    (rng : ZodRandomness P.Scalar) : ZeroOrDebit P.ground.Point P.Scalar :=
  let diff := c - cDebit
  if debitBranch then
    let a0 := rng.z • P.H - rng.e • c
    let a1 := rng.k • P.H
    let e := zodChallenge P oracle stmt c cDebit a0 a1
    let e1 := e - rng.e
    ⟨a0, a1, rng.e, rng.z, rng.k + e1 * witness⟩
  else
    let a1 := rng.z • P.H - rng.e • diff
    let a0 := rng.k • P.H
    let e := zodChallenge P oracle stmt c cDebit a0 a1
    let e0 := e - rng.e
    ⟨a0, a1, e0, rng.k + e0 * witness, rng.z⟩

def verify (m : ZeroOrDebit P.ground.Point P.Scalar) (stmt : P.Scalar) (c cDebit : P.ground.Point) :
    Bool :=
  let e := zodChallenge P oracle stmt c cDebit m.a0 m.a1
  let e1 := e - m.e0
  m.z0 • P.H = m.a0 + m.e0 • c && m.z1 • P.H = m.a1 + e1 • (c - cDebit)

end ZeroOrDebit

namespace DeltaLink

/-- The challenge of one link. -/
def linkChallenge (stmt : P.Scalar) (y : PublicKey P.ground.Point) (cDelta : P.ground.Point)
    (enc : Ciphertext P.ground.Point) (a1 a2 a3 : P.ground.Point) : P.Scalar :=
  oracle (ascii "Latebra.AnonTransfer.link.v2" ++ P.scalarBytes stmt ++
    [y.point, cDelta, enc.c, enc.d, a1, a2, a3].flatMap P.pointBytes)

/-- Prove that a ciphertext encrypts the value of a commitment. -/
def prove (stmt : P.Scalar) (y : PublicKey P.ground.Point) (cDelta : P.ground.Point)
    (enc : Ciphertext P.ground.Point) (value : UInt64) (blind encRand : P.Scalar)
    (rng : LinkRandomness P.Scalar) : DeltaLink P.ground.Point P.Scalar :=
  let a1 := rng.kD • P.G + rng.kS • P.H
  let a2 := rng.kD • P.G + rng.kY • y.point
  let a3 := rng.kY • P.G
  let e := linkChallenge P oracle stmt y cDelta enc a1 a2 a3
  ⟨a1, a2, a3, rng.kD + e * (value.toNat : P.Scalar), rng.kS + e * blind, rng.kY + e * encRand⟩

def verify (lk : DeltaLink P.ground.Point P.Scalar) (stmt : P.Scalar)
    (y : PublicKey P.ground.Point) (cDelta : P.ground.Point) (enc : Ciphertext P.ground.Point) :
    Bool :=
  let e := linkChallenge P oracle stmt y cDelta enc lk.a1 lk.a2 lk.a3
  let c1 : Bool := lk.zD • P.G + lk.zS • P.H = lk.a1 + e • cDelta
  let c2 : Bool := lk.zD • P.G + lk.zY • y.point = lk.a2 + e • enc.c
  let c3 : Bool := lk.zY • P.G = lk.a3 + e • enc.d
  c1 && c2 && c3

end DeltaLink

end Bricks

namespace AnonTransfer

/-- What the fused disjunction announces for one member, one point for each of its four
relations. -/
structure Branch (Point : Type) where
  a1 : Point
  a2 : Point
  a3 : Point
  a4 : Point

variable (P : ProofSuite) (oracle : Bytes → P.Scalar)

def keyAt (ring : List (PublicKey P.ground.Point)) (i : ℕ) : PublicKey P.ground.Point :=
  ring.getD i ⟨0⟩

def ciphertextAt (cts : List (Ciphertext P.ground.Point)) (i : ℕ) : Ciphertext P.ground.Point :=
  cts.getD i ⟨0, 0⟩

/-- The two points of a ciphertext. -/
def ciphertextPoints (ct : Ciphertext P.ground.Point) : Bytes :=
  P.pointBytes ct.c ++ P.pointBytes ct.d

/-- The challenge of the fused disjunction, over the entire public statement. -/
def fusedChallenge (token : UInt32) (ring : List (PublicKey P.ground.Point))
    (balances : List (Ciphertext P.ground.Point)) (deltas : List P.ground.Point)
    (enc : List (Ciphertext P.ground.Point)) (cDebit : P.ground.Point)
    (credit : Ciphertext P.ground.Point) (fee epoch : UInt64) (nullifier v : P.ground.Point)
    (output : StealthOutput P.ground.Point) (branches : List (Branch P.ground.Point)) : P.Scalar :=
  oracle (ascii "Latebra.AnonTransfer.v3.1" ++ u32Le token ++ leBytes 8 ring.length ++
    ring.flatMap (fun pk ↦ P.pointBytes pk.point) ++ balances.flatMap (ciphertextPoints P) ++
    deltas.flatMap P.pointBytes ++ enc.flatMap (ciphertextPoints P) ++ P.pointBytes cDebit ++
    ciphertextPoints P credit ++ u64Le fee ++ u64Le epoch ++ P.pointBytes nullifier ++
    P.pointBytes v ++ P.pointBytes output.ephemeral.point ++ P.pointBytes output.oneTime.point ++
    [branches.map Branch.a1, branches.map Branch.a2, branches.map Branch.a3,
      branches.map Branch.a4].flatMap fun group ↦ group.flatMap P.pointBytes)

/-- The challenge of the sum proof. -/
def sumChallenge (stmt : P.Scalar) (deltas : List P.ground.Point)
    (cDebit aggTarget a : P.ground.Point) : P.Scalar :=
  oracle (ascii "Latebra.AnonTransfer.sum.v3.1" ++ P.scalarBytes stmt ++
    deltas.flatMap P.pointBytes ++ P.pointBytes cDebit ++ P.pointBytes aggTarget ++ P.pointBytes a)

/-- The target of the solvency relation of one member. -/
def solvencyTarget (v : P.ground.Point) (bal : Ciphertext P.ground.Point)
    (cDebit : P.ground.Point) : P.ground.Point := v - bal.c + cDebit

/-- The announcements of one member that a challenge and its responses belong to. -/
def reconstruct (v cDebit gEpoch nullifier : P.ground.Point) (key : PublicKey P.ground.Point)
    (bal : Ciphertext P.ground.Point) (delta : P.ground.Point) (e zX zS zG : P.Scalar) :
    Branch P.ground.Point where
  a1 := zX • P.G - e • key.point
  a2 := zS • P.H - e • (delta - cDebit)
  a3 := zG • P.H - zX • bal.d - e • solvencyTarget P v bal cDebit
  a4 := zX • gEpoch - e • nullifier

/-- What is asked of the prover. -/
structure Spend where
  ring : List (PublicKey P.ground.Point)
  balances : List (Ciphertext P.ground.Point)
  sender : SecretKey P.Scalar
  senderIndex : ℕ
  senderBalance : UInt64
  receiver : PublicKey P.ground.Point
  token : UInt32
  amount : UInt64
  fee : UInt64
  epoch : UInt64

namespace Spend

variable {P} (s : Spend P) (rng : AnonRandomness P.Scalar P.RangeRandomness) (debit : UInt64)
  (v : P.ground.Point)

/-- The sender carries the debit and the decoys carry zero. -/
def value (i : ℕ) : UInt64 := if i = s.senderIndex then debit else 0

def cDebit : P.ground.Point := P.commitDelta debit rng.sD

def delta (i : ℕ) : P.ground.Point := P.commitDelta (s.value debit i) (rng.blind i)

def deltas : List P.ground.Point := (List.range s.ring.length).map (s.delta rng debit)

def encAt (i : ℕ) : Ciphertext P.ground.Point :=
  P.encryptWithRandomness (keyAt P s.ring i) (s.value debit i) (rng.y i)

def enc : List (Ciphertext P.ground.Point) :=
  (List.range s.ring.length).map (s.encAt rng debit)

def nullifier : P.ground.Point := s.sender.scalar • epochBase P s.epoch

def output : StealthOutput P.ground.Point := P.stealthSend oracle s.receiver rng.ephemeral

def credit : Ciphertext P.ground.Point :=
  P.encryptWithRandomness (s.output oracle rng).oneTime s.amount rng.yC

/-- The announcements of one member: those of the sender are honest, and those of a decoy are made
for responses chosen before. -/
def branch (i : ℕ) : Branch P.ground.Point :=
  if i = s.senderIndex then
    ⟨rng.kX • P.G, rng.kS • P.H, rng.kG • P.H - rng.kX • (ciphertextAt P s.balances i).d,
      rng.kX • epochBase P s.epoch⟩
  else
    reconstruct P v (cDebit rng debit) (epochBase P s.epoch) s.nullifier (keyAt P s.ring i)
      (ciphertextAt P s.balances i) (s.delta rng debit i) (rng.e i) (rng.zX i) (rng.zS i) (rng.zG i)

def challenge : P.Scalar :=
  fusedChallenge P oracle s.token s.ring s.balances (s.deltas rng debit) (s.enc rng debit)
    (cDebit rng debit) (s.credit oracle rng) s.fee s.epoch s.nullifier v (s.output oracle rng)
    ((List.range s.ring.length).map (s.branch rng debit v))

/-- The challenge that the decoys leave to the sender. -/
def senderChallenge : P.Scalar :=
  s.challenge oracle rng debit v -
    ∑ i ∈ (Finset.range s.ring.length).erase s.senderIndex, rng.e i

def eAt (i : ℕ) : P.Scalar :=
  if i = s.senderIndex then s.senderChallenge oracle rng debit v else rng.e i

def zXAt (i : ℕ) : P.Scalar :=
  if i = s.senderIndex then rng.kX + s.senderChallenge oracle rng debit v * s.sender.scalar
  else rng.zX i

def zSAt (i : ℕ) : P.Scalar :=
  if i = s.senderIndex then
    rng.kS + s.senderChallenge oracle rng debit v * (rng.blind i - rng.sD)
  else rng.zS i

def zGAt (i : ℕ) : P.Scalar :=
  if i = s.senderIndex then
    rng.kG + s.senderChallenge oracle rng debit v * (rng.gamma + rng.sD)
  else rng.zG i

def membershipAt (i : ℕ) : ZeroOrDebit P.ground.Point P.Scalar :=
  let c := s.challenge oracle rng debit v
  if i = s.senderIndex then
    ZeroOrDebit.prove P oracle c (s.delta rng debit i) (cDebit rng debit) true
      (rng.blind i - rng.sD) (rng.zod i)
  else
    ZeroOrDebit.prove P oracle c (s.delta rng debit i) (cDebit rng debit) false (rng.blind i)
      (rng.zod i)

def linkAt (i : ℕ) : DeltaLink P.ground.Point P.Scalar :=
  DeltaLink.prove P oracle (s.challenge oracle rng debit v) (keyAt P s.ring i)
    (s.delta rng debit i) (s.encAt rng debit i) (s.value debit i) (rng.blind i) (rng.y i)
    (rng.link i)

/-- The commitment to the amount: the debit less the fee. -/
def cAmt : P.ground.Point := cDebit rng debit - (s.fee.toNat : P.Scalar) • P.G

def creditLink : DeltaLink P.ground.Point P.Scalar :=
  DeltaLink.prove P oracle (s.challenge oracle rng debit v) (s.output oracle rng).oneTime
    (s.cAmt rng debit) (s.credit oracle rng) s.amount rng.sD rng.yC rng.creditLink

/-- The blinding factor of the sum of the deltas less the debit. -/
def sigma : P.Scalar := ∑ i ∈ Finset.range s.ring.length, rng.blind i - rng.sD

def aggTarget : P.ground.Point := (s.deltas rng debit).sum - cDebit rng debit

end Spend

/-- The transfer that is proved of a debit, once the range proof is made. -/
def prove (s : Spend P) (rng : AnonRandomness P.Scalar P.RangeRandomness) (debit : UInt64)
    (rp : P.RangeProof) (vComp : Bytes32) (v : P.ground.Point) : P.Anon :=
  let n := s.ring.length
  let sumA := rng.kSum • P.H
  let eSum := sumChallenge P oracle (s.challenge oracle rng debit v) (s.deltas rng debit)
    (Spend.cDebit rng debit) (s.aggTarget rng debit) sumA
  ⟨s.ring, s.balances, s.enc rng debit, s.credit oracle rng, s.fee, s.epoch, s.output oracle rng,
    s.nullifier,
    { deltas := s.deltas rng debit
      cDebit := Spend.cDebit rng debit
      v := vComp
      rp := rp
      e := (List.range n).map (s.eAt oracle rng debit v)
      zX := (List.range n).map (s.zXAt oracle rng debit v)
      zS := (List.range n).map (s.zSAt oracle rng debit v)
      zG := (List.range n).map (s.zGAt oracle rng debit v)
      membership := (List.range n).map (s.membershipAt oracle rng debit v)
      links := (List.range n).map (s.linkAt oracle rng debit v)
      creditLink := s.creditLink oracle rng debit v
      sumA := sumA
      sumZ := rng.kSum + eSum * s.sigma rng }⟩

/-- Build an anonymous transfer. There is none of a debit that the sender cannot afford, nor where
the caller has put the sender elsewhere. -/
def create (s : Spend P) (rng : AnonRandomness P.Scalar P.RangeRandomness) : Option P.Anon := do
  if s.ring.length < 2 ∨ s.balances.length ≠ s.ring.length ∨
      s.ring[s.senderIndex]? ≠ some (P.publicKey s.sender) then none else
  let debit ← checkedAdd s.amount s.fee
  let remaining ← checkedSub s.senderBalance debit
  let (rp, comms) ← P.proveMultiple (ascii "Latebra.AnonTransfer.range.v3")
    [(remaining, rng.gamma), (s.amount, rng.sD)] rng.range
  let vComp ← comms[0]?
  let v ← P.ground.decompress vComp
  return prove P oracle s rng debit rp vComp v

/-- Whether every per-member list has one length, of at least two. -/
def aligned (xfer : P.Anon) : Bool :=
  2 ≤ xfer.ring.length ∧ xfer.balances.length = xfer.ring.length ∧
    xfer.enc.length = xfer.ring.length ∧ TransferSuite.proofWidth xfer.proof xfer.ring.length

/-- The challenge of the fused disjunction that the responses of a transfer belong to. -/
def fusedChallengeOf (xfer : P.Anon) (token : UInt32) (v : P.ground.Point) : P.Scalar :=
  let pf := xfer.proof
  let branches := (List.range xfer.ring.length).map fun i ↦
    reconstruct P v pf.cDebit (epochBase P xfer.epoch) xfer.nullifierPoint (keyAt P xfer.ring i)
      (ciphertextAt P xfer.balances i) (pf.deltas.getD i 0) (pf.e.getD i 0) (pf.zX.getD i 0)
      (pf.zS.getD i 0) (pf.zG.getD i 0)
  fusedChallenge P oracle token xfer.ring xfer.balances pf.deltas xfer.enc pf.cDebit xfer.credit
    xfer.fee xfer.epoch xfer.nullifierPoint v xfer.output branches

/-- The sum proof of a transfer. -/
def sumVerify (xfer : P.Anon) (c : P.Scalar) : Bool :=
  let aggTarget := xfer.proof.deltas.sum - xfer.proof.cDebit
  let eSum := sumChallenge P oracle c xfer.proof.deltas xfer.proof.cDebit aggTarget xfer.proof.sumA
  xfer.proof.sumZ • P.H = xfer.proof.sumA + eSum • aggTarget

/-- The commitment to the amount of a transfer. -/
def cAmtOf (xfer : P.Anon) : P.ground.Point :=
  xfer.proof.cDebit - (xfer.fee.toNat : P.Scalar) • P.G

/-- Whether the delta of a member is proved to open to zero or to the debit. -/
def membershipVerify (xfer : P.Anon) (c : P.Scalar) (i : ℕ) : Bool :=
  (xfer.proof.membership.getD i ⟨0, 0, 0, 0, 0⟩).verify P oracle c (xfer.proof.deltas.getD i 0)
    xfer.proof.cDebit

/-- Whether the debit ciphertext of a member is linked to its delta. -/
def linkVerify (xfer : P.Anon) (c : P.Scalar) (i : ℕ) : Bool :=
  (xfer.proof.links.getD i ⟨0, 0, 0, 0, 0, 0⟩).verify P oracle c (keyAt P xfer.ring i)
    (xfer.proof.deltas.getD i 0) (ciphertextAt P xfer.enc i)

/-- The relations of a transfer, once its lists have one length. -/
def relations (xfer : P.Anon) (token : UInt32) : Bool :=
  let n := xfer.ring.length
  if ¬ P.verifyMultiple xfer.proof.rp (ascii "Latebra.AnonTransfer.range.v3")
      [xfer.proof.v, P.ground.compress (cAmtOf P xfer)] then false
  else match P.ground.decompress xfer.proof.v with
    | none => false
    | some v =>
      let c := fusedChallengeOf P oracle xfer token v
      if c ≠ xfer.proof.e.sum then false
      else if ¬ (List.range n).all (membershipVerify P oracle xfer c) then false
      else if ¬ (List.range n).all (linkVerify P oracle xfer c) then false
      else if ¬ xfer.proof.creditLink.verify P oracle c xfer.output.oneTime (cAmtOf P xfer)
          xfer.credit then false
      else sumVerify P oracle xfer c

/-- Verify an anonymous transfer of a token. -/
def verify (xfer : P.Anon) (token : UInt32) : Bool :=
  aligned P xfer && relations P oracle xfer token

end AnonTransfer

/-! ### What the verifiers accept -/

section Accepted

variable {P : ProofSuite} {oracle : Bytes → P.Scalar} {stmt : P.Scalar}

theorem ZeroOrDebit.verify_eq_true {m : ZeroOrDebit P.ground.Point P.Scalar}
    {c cDebit : P.ground.Point} :
    m.verify P oracle stmt c cDebit = true ↔
      Accepts (LinearMap.toSpanSingleton P.Scalar _ P.H) c m.a0 m.e0 m.z0 ∧
      Accepts (LinearMap.toSpanSingleton P.Scalar _ P.H) (c - cDebit) m.a1
        (zodChallenge P oracle stmt c cDebit m.a0 m.a1 - m.e0) m.z1 := by
  simp only [verify, Bool.and_eq_true, decide_eq_true_eq]
  rfl

theorem DeltaLink.verify_eq_true {lk : DeltaLink P.ground.Point P.Scalar}
    {y : PublicKey P.ground.Point} {cDelta : P.ground.Point} {enc : Ciphertext P.ground.Point} :
    lk.verify P oracle stmt y cDelta enc = true ↔
      Accepts (commit P.G P.H) cDelta lk.a1
        (linkChallenge P oracle stmt y cDelta enc lk.a1 lk.a2 lk.a3) (lk.zD, lk.zS) ∧
      Accepts (commit P.G y.point) enc.c lk.a2
        (linkChallenge P oracle stmt y cDelta enc lk.a1 lk.a2 lk.a3) (lk.zD, lk.zY) ∧
      Accepts (LinearMap.toSpanSingleton P.Scalar _ P.G) enc.d lk.a3
        (linkChallenge P oracle stmt y cDelta enc lk.a1 lk.a2 lk.a3) lk.zY := by
  simp only [verify, Bool.and_eq_true, decide_eq_true_eq, and_assoc]
  rfl

/-- A disjunction is accepted when the branch that is not simulated has its witness. -/
theorem ZeroOrDebit.verify_prove {c cDebit : P.ground.Point} {branch : Bool} {witness : P.Scalar}
    (rng : ZodRandomness P.Scalar)
    (hwitness : witness • P.H = if branch then c - cDebit else c) :
    (prove P oracle stmt c cDebit branch witness rng).verify P oracle stmt c cDebit = true := by
  rw [verify_eq_true]
  cases branch with
  | true => exact ⟨accepts_announcement, accepts_respond hwitness⟩
  | false =>
    refine ⟨accepts_respond hwitness, ?_⟩
    have hsimulated : zodChallenge P oracle stmt c cDebit
        (prove P oracle stmt c cDebit false witness rng).a0
        (prove P oracle stmt c cDebit false witness rng).a1 -
        (prove P oracle stmt c cDebit false witness rng).e0 = rng.e := sub_sub_cancel _ _
    rw [hsimulated]
    exact accepts_announcement

/-- A link is accepted when the commitment and the ciphertext are of one value. -/
theorem DeltaLink.verify_prove (y : PublicKey P.ground.Point) (value : UInt64)
    (blind encRand : P.Scalar) (rng : LinkRandomness P.Scalar) :
    (prove P oracle stmt y (P.commitDelta value blind) (P.encryptWithRandomness y value encRand) value
      blind encRand rng).verify P oracle stmt y (P.commitDelta value blind)
        (P.encryptWithRandomness y value encRand) = true := by
  rw [verify_eq_true]
  refine ⟨?_, ?_, ?_⟩
  · exact accepts_respond (k := (rng.kD, rng.kS)) (w := (_, _)) rfl
  · exact accepts_respond (k := (rng.kD, rng.kY)) (w := (_, _)) rfl
  · exact accepts_respond rfl

end Accepted

namespace AnonTransfer

section Completeness

variable {P : ProofSuite} {oracle : Bytes → P.Scalar}

/-- The relations that a verified transfer meets. -/
theorem relations_eq_true {xfer : P.Anon} {token : UInt32} :
    relations P oracle xfer token = true ↔
      P.verifyMultiple xfer.proof.rp (ascii "Latebra.AnonTransfer.range.v3")
        [xfer.proof.v, P.ground.compress (cAmtOf P xfer)] = true ∧
      ∃ v, P.ground.decompress xfer.proof.v = some v ∧
        fusedChallengeOf P oracle xfer token v = xfer.proof.e.sum ∧
        (∀ i < xfer.ring.length,
          membershipVerify P oracle xfer (fusedChallengeOf P oracle xfer token v) i = true) ∧
        (∀ i < xfer.ring.length,
          linkVerify P oracle xfer (fusedChallengeOf P oracle xfer token v) i = true) ∧
        xfer.proof.creditLink.verify P oracle (fusedChallengeOf P oracle xfer token v)
          xfer.output.oneTime (cAmtOf P xfer) xfer.credit = true ∧
        sumVerify P oracle xfer (fusedChallengeOf P oracle xfer token v) = true := by
  unfold relations
  by_cases hrange : P.verifyMultiple xfer.proof.rp (ascii "Latebra.AnonTransfer.range.v3")
      [xfer.proof.v, P.ground.compress (cAmtOf P xfer)] = true
  · cases hv : P.ground.decompress xfer.proof.v with
    | none => simp
    | some v =>
      by_cases hsum : fusedChallengeOf P oracle xfer token v = xfer.proof.e.sum
      · simp [hrange, hsum]
      · simp [hrange, hsum]
  · simp [hrange]

/-- An entry of a list with one entry a member. -/
theorem getD_map_range {α : Type} {n i : ℕ} (hi : i < n) (f : ℕ → α) (default : α) :
    ((List.range n).map f).getD i default = f i := by
  rw [List.getD_eq_getElem _ _ (by rw [List.length_map, List.length_range]; exact hi),
    List.getElem_map, List.getElem_range]

theorem sum_map_range {M : Type} [AddCommMonoid M] (n : ℕ) (f : ℕ → M) :
    ((List.range n).map f).sum = ∑ i ∈ Finset.range n, f i := rfl

variable {s : Spend P} {rng : AnonRandomness P.Scalar P.RangeRandomness} {debit remaining : UInt64}
  {rp : P.RangeProof}

section Entries

variable {i : ℕ} (hi : i < s.ring.length) {vComp : Bytes32} {v : P.ground.Point}

include hi

theorem deltas_prove : (prove P oracle s rng debit rp vComp v).proof.deltas.getD i 0 =
    s.delta rng debit i := getD_map_range hi _ _

theorem e_prove : (prove P oracle s rng debit rp vComp v).proof.e.getD i 0 =
    s.eAt oracle rng debit v i := getD_map_range hi _ _

theorem zX_prove : (prove P oracle s rng debit rp vComp v).proof.zX.getD i 0 =
    s.zXAt oracle rng debit v i := getD_map_range hi _ _

theorem zS_prove : (prove P oracle s rng debit rp vComp v).proof.zS.getD i 0 =
    s.zSAt oracle rng debit v i := getD_map_range hi _ _

theorem zG_prove : (prove P oracle s rng debit rp vComp v).proof.zG.getD i 0 =
    s.zGAt oracle rng debit v i := getD_map_range hi _ _

theorem membership_prove (default : ZeroOrDebit P.ground.Point P.Scalar) :
    (prove P oracle s rng debit rp vComp v).proof.membership.getD i default =
      s.membershipAt oracle rng debit v i := getD_map_range hi _ _

theorem links_prove (default : DeltaLink P.ground.Point P.Scalar) :
    (prove P oracle s rng debit rp vComp v).proof.links.getD i default =
      s.linkAt oracle rng debit v i := getD_map_range hi _ _

theorem enc_prove : ciphertextAt P (prove P oracle s rng debit rp vComp v).enc i =
    s.encAt rng debit i := getD_map_range hi _ _

end Entries

/-- What makes a spend possible: the sender is in the ring, and the balance there covers the
debit. -/
structure Covered (s : Spend P) (debit remaining : UInt64) : Prop where
  inRing : s.senderIndex < s.ring.length
  key : keyAt P s.ring s.senderIndex = P.publicKey s.sender
  balance : P.Encrypts (P.publicKey s.sender) (ciphertextAt P s.balances s.senderIndex)
    (remaining.toNat + debit.toNat)
  debit_eq : debit.toNat = s.amount.toNat + s.fee.toNat

/-- The delta of the sender differs from the debit in its blinding factor. -/
theorem delta_sender : s.delta rng debit s.senderIndex - Spend.cDebit rng debit =
    (rng.blind s.senderIndex - rng.sD) • P.H := by
  rw [Spend.delta, Spend.value, if_pos rfl, Spend.cDebit, ProofSuite.commitDelta,
    ProofSuite.commitDelta, add_sub_add_left_eq_sub, sub_smul]

/-- The delta of a decoy is its blinding factor. -/
theorem delta_decoy {i : ℕ} (hi : i ≠ s.senderIndex) :
    s.delta rng debit i = rng.blind i • P.H := by
  rw [Spend.delta, Spend.value, if_neg hi, ProofSuite.commitDelta, UInt64.toNat_zero, Nat.cast_zero,
    zero_smul, zero_add]

/-- The delta of every member is proved to open to zero or to the debit. -/
theorem membership_verify (i : ℕ) (v : P.ground.Point) :
    (s.membershipAt oracle rng debit v i).verify P oracle (s.challenge oracle rng debit v)
      (s.delta rng debit i) (Spend.cDebit rng debit) = true := by
  unfold Spend.membershipAt
  dsimp only
  split_ifs with hi
  · subst hi
    exact ZeroOrDebit.verify_prove _ delta_sender.symm
  · exact ZeroOrDebit.verify_prove _ (delta_decoy hi).symm

namespace Covered

theorem owner (hcovered : Covered s debit remaining) :
    s.sender.scalar • P.G = (keyAt P s.ring s.senderIndex).point := by
  rw [hcovered.key]
  rfl

/-- What the solvency relation of the sender opens to. -/
theorem solvencyTarget_eq (hcovered : Covered s debit remaining) :
    solvencyTarget P (P.commitDelta remaining rng.gamma) (ciphertextAt P s.balances s.senderIndex)
        (Spend.cDebit rng debit) =
      (rng.gamma + rng.sD) • P.H -
        s.sender.scalar • (ciphertextAt P s.balances s.senderIndex).d := by
  obtain ⟨r, hct⟩ := hcovered.balance
  rw [hct]
  show (remaining.toNat : P.Scalar) • P.G + rng.gamma • P.H -
          (((remaining.toNat + debit.toNat : ℕ) : P.Scalar) • P.G + r • s.sender.scalar • P.G) +
        ((debit.toNat : P.Scalar) • P.G + rng.sD • P.H) =
      (rng.gamma + rng.sD) • P.H - s.sender.scalar • r • P.G
  push_cast
  module

/-- The challenges of the members add up to the challenge of the statement. -/
theorem sum_eAt (hcovered : Covered s debit remaining) (v : P.ground.Point) :
    ∑ i ∈ Finset.range s.ring.length, s.eAt oracle rng debit v i =
      s.challenge oracle rng debit v := by
  have hmem : s.senderIndex ∈ Finset.range s.ring.length := Finset.mem_range.mpr hcovered.inRing
  have hdecoys : ∑ i ∈ (Finset.range s.ring.length).erase s.senderIndex,
      s.eAt oracle rng debit v i =
      ∑ i ∈ (Finset.range s.ring.length).erase s.senderIndex, rng.e i :=
    Finset.sum_congr rfl fun i hi ↦ if_neg (Finset.ne_of_mem_erase hi)
  rw [← Finset.add_sum_erase _ _ hmem, hdecoys, Spend.eAt, if_pos rfl, Spend.senderChallenge,
    sub_add_cancel]

/-- The responses of every member belong to the announcements. -/
theorem reconstruct_eq (hcovered : Covered s debit remaining) (i : ℕ) :
    let v := P.commitDelta remaining rng.gamma
    reconstruct P v (Spend.cDebit rng debit) (epochBase P s.epoch) s.nullifier (keyAt P s.ring i)
        (ciphertextAt P s.balances i) (s.delta rng debit i) (s.eAt oracle rng debit v i)
        (s.zXAt oracle rng debit v i) (s.zSAt oracle rng debit v i)
        (s.zGAt oracle rng debit v i) =
      s.branch rng debit v i := by
  intro v
  by_cases hi : i = s.senderIndex
  · subst hi
    rw [Spend.branch, if_pos rfl, Spend.eAt, if_pos rfl, Spend.zXAt, if_pos rfl, Spend.zSAt,
      if_pos rfl, Spend.zGAt, if_pos rfl]
    unfold reconstruct
    congr 1
    · exact announcement_respond_single hcovered.owner
    · exact announcement_respond_single delta_sender.symm
    · rw [hcovered.solvencyTarget_eq]
      module
    · exact announcement_respond_single rfl
  · rw [Spend.branch, if_neg hi, Spend.eAt, if_neg hi, Spend.zXAt, if_neg hi, Spend.zSAt,
      if_neg hi, Spend.zGAt, if_neg hi]

/-- The verifier draws the challenge of the prover. -/
theorem fusedChallengeOf_prove (hcovered : Covered s debit remaining) (vComp : Bytes32) :
    let v := P.commitDelta remaining rng.gamma
    fusedChallengeOf P oracle (prove P oracle s rng debit rp vComp v) s.token v =
      s.challenge oracle rng debit v := by
  intro v
  show fusedChallenge P oracle s.token s.ring s.balances (s.deltas rng debit) (s.enc rng debit)
      (Spend.cDebit rng debit) (s.credit oracle rng) s.fee s.epoch s.nullifier v
      (s.output oracle rng) _ =
    fusedChallenge P oracle s.token s.ring s.balances (s.deltas rng debit) (s.enc rng debit)
      (Spend.cDebit rng debit) (s.credit oracle rng) s.fee s.epoch s.nullifier v
      (s.output oracle rng) ((List.range s.ring.length).map (s.branch rng debit v))
  congr 1
  apply List.map_congr_left
  intro i hi
  have hin : i < s.ring.length := List.mem_range.mp hi
  rw [← hcovered.reconstruct_eq, deltas_prove hin, e_prove hin, zX_prove hin,
    zS_prove hin, zG_prove hin]
  rfl

/-- The amount is what the debit leaves after the fee. -/
theorem cAmt_eq (hcovered : Covered s debit remaining) :
    s.cAmt rng debit = P.commitDelta s.amount rng.sD := by
  rw [Spend.cAmt, Spend.cDebit, ProofSuite.commitDelta, ProofSuite.commitDelta, hcovered.debit_eq]
  push_cast
  module

/-- The values of the members add up to the debit. -/
theorem sum_value (hcovered : Covered s debit remaining) :
    ∑ i ∈ Finset.range s.ring.length, ((s.value debit i).toNat : P.Scalar) =
      (debit.toNat : P.Scalar) := by
  have hmem : s.senderIndex ∈ Finset.range s.ring.length := Finset.mem_range.mpr hcovered.inRing
  rw [Finset.sum_eq_single_of_mem _ hmem, Spend.value, if_pos rfl]
  intro i _ hi
  rw [Spend.value, if_neg hi, UInt64.toNat_zero, Nat.cast_zero]

/-- The deltas add up to the debit. -/
theorem aggTarget_eq (hcovered : Covered s debit remaining) :
    s.aggTarget rng debit = s.sigma rng • P.H := by
  have hsum : (s.deltas rng debit).sum =
      (debit.toNat : P.Scalar) • P.G + (∑ i ∈ Finset.range s.ring.length, rng.blind i) • P.H := by
    rw [Spend.deltas, sum_map_range, ← hcovered.sum_value, Finset.sum_smul, Finset.sum_smul,
      ← Finset.sum_add_distrib]
    rfl
  rw [Spend.aggTarget, hsum, Spend.sigma, Spend.cDebit, ProofSuite.commitDelta]
  module

/-- Every proof of the bundle is accepted. -/
theorem relations_prove (hcovered : Covered s debit remaining)
    (hrange : P.verifyMultiple rp (ascii "Latebra.AnonTransfer.range.v3")
      (P.commitments [(remaining, rng.gamma), (s.amount, rng.sD)]) = true) :
    relations P oracle (prove P oracle s rng debit rp
      (P.ground.compress (P.commitDelta remaining rng.gamma)) (P.commitDelta remaining rng.gamma))
      s.token = true := by
  rw [relations_eq_true]
  refine ⟨?_, P.commitDelta remaining rng.gamma, P.ground.decompress_compress _, ?_⟩
  · show P.verifyMultiple rp _ [_, P.ground.compress (s.cAmt rng debit)] = true
    rw [hcovered.cAmt_eq]
    exact hrange
  rw [hcovered.fusedChallengeOf_prove]
  refine ⟨?_, ?_, ?_, ?_, ?_⟩
  · show _ = ((List.range s.ring.length).map _).sum
    rw [sum_map_range, hcovered.sum_eAt]
  · intro i (hi : i < s.ring.length)
    rw [membershipVerify, membership_prove hi, deltas_prove hi]
    exact membership_verify i _
  · intro i (hi : i < s.ring.length)
    rw [linkVerify, links_prove hi, deltas_prove hi, enc_prove hi]
    exact DeltaLink.verify_prove _ _ _ _ _
  · show (s.creditLink oracle rng debit _).verify P oracle _ _ (s.cAmt rng debit) _ = true
    rw [Spend.creditLink, hcovered.cAmt_eq]
    exact DeltaLink.verify_prove _ _ _ _ _
  · apply decide_eq_true
    rw [← sub_eq_iff_eq_add]
    exact announcement_respond_single hcovered.aggTarget_eq.symm

/-- The transfer that is proved of a covered debit is verified. -/
theorem verify_prove (hcovered : Covered s debit remaining) (hmembers : 2 ≤ s.ring.length)
    (hbalances : s.balances.length = s.ring.length)
    (hrange : P.verifyMultiple rp (ascii "Latebra.AnonTransfer.range.v3")
      (P.commitments [(remaining, rng.gamma), (s.amount, rng.sD)]) = true) :
    verify P oracle (prove P oracle s rng debit rp
      (P.ground.compress (P.commitDelta remaining rng.gamma)) (P.commitDelta remaining rng.gamma))
      s.token = true := by
  rw [verify, Bool.and_eq_true]
  refine ⟨?_, hcovered.relations_prove hrange⟩
  have hlength : ∀ {α : Type} (f : ℕ → α),
      ((List.range s.ring.length).map f).length = s.ring.length := fun f ↦ by
    rw [List.length_map, List.length_range]
  apply decide_eq_true
  refine ⟨hmembers, hbalances, hlength _, decide_eq_true ?_⟩
  exact ⟨hlength _, hlength _, hlength _, hlength _, hlength _, hlength _, hlength _⟩

end Covered

/-- What the caller of `create` has seen to: the sender is at the given place of the ring, and the
balance there encrypts what it is said to, which covers the amount and the fee. -/
structure Solvent (s : Spend P) : Prop where
  members : 2 ≤ s.ring.length
  balances : s.balances.length = s.ring.length
  sender : s.ring[s.senderIndex]? = some (P.publicKey s.sender)
  balance : ∀ ct, s.balances[s.senderIndex]? = some ct →
    P.Encrypts (P.publicKey s.sender) ct s.senderBalance.toNat
  covered : s.amount.toNat + s.fee.toNat ≤ s.senderBalance.toNat

/-- A solvent spend is covered by what it leaves. -/
theorem Solvent.exists_covered (hsolvent : Solvent s) :
    ∃ debit remaining, checkedAdd s.amount s.fee = some debit ∧
      checkedSub s.senderBalance debit = some remaining ∧ Covered s debit remaining := by
  have hword := s.senderBalance.toNat_lt
  have hcovered := hsolvent.covered
  have hdebit : checkedAdd s.amount s.fee = some (s.amount + s.fee) := if_pos (by omega)
  have hsum := checkedAdd_eq_some.mp hdebit
  have hremaining : checkedSub s.senderBalance (s.amount + s.fee) =
      some (s.senderBalance - (s.amount + s.fee)) := if_pos (by omega)
  refine ⟨_, _, hdebit, hremaining, ?_⟩
  obtain ⟨hin, hkey⟩ := List.getElem?_eq_some_iff.mp hsolvent.sender
  have hin' : s.senderIndex < s.balances.length := by
    rw [hsolvent.balances]
    exact hin
  constructor
  · exact hin
  · rw [keyAt, List.getD_eq_getElem _ _ hin, hkey]
  · have hleft : (s.senderBalance - (s.amount + s.fee)).toNat + (s.amount + s.fee).toNat =
        s.senderBalance.toNat := by
      rw [UInt64.toNat_sub_of_le _ _ (UInt64.le_iff_toNat_le.mpr (by omega))]
      omega
    rw [hleft, ciphertextAt, List.getD_eq_getElem _ _ hin']
    exact hsolvent.balance _ (List.getElem?_eq_getElem hin')
  · exact hsum

/-- The transfer that is built of a solvent spend, from the range proof of what it leaves and of
its amount. -/
theorem Solvent.create_eq (hsolvent : Solvent s) (hdebit : checkedAdd s.amount s.fee = some debit)
    (hremaining : checkedSub s.senderBalance debit = some remaining)
    (hproved : P.proveMultiple (ascii "Latebra.AnonTransfer.range.v3")
      [(remaining, rng.gamma), (s.amount, rng.sD)] rng.range =
        some (rp, P.commitments [(remaining, rng.gamma), (s.amount, rng.sD)])) :
    create P oracle s rng = some (prove P oracle s rng debit rp
      (P.ground.compress (P.commitDelta remaining rng.gamma))
      (P.commitDelta remaining rng.gamma)) := by
  have hassert : ¬ (s.ring.length < 2 ∨ s.balances.length ≠ s.ring.length ∨
      s.ring[s.senderIndex]? ≠ some (P.publicKey s.sender)) := by
    rintro (hfew | hmany | hother)
    · exact absurd hsolvent.members (not_le.mpr hfew)
    · exact hmany hsolvent.balances
    · exact hother hsolvent.sender
  have hfirst : (P.commitments [(remaining, rng.gamma), (s.amount, rng.sD)])[0]? =
      some (P.ground.compress (P.commitDelta remaining rng.gamma)) := rfl
  unfold create
  simp only [hdebit, hremaining, hproved, hfirst, P.ground.decompress_compress,
    Option.bind_eq_bind, Option.bind_some, if_neg hassert]
  rfl

/-- **Completeness.** The transfer that a solvent member of a ring makes, at whatever place and with
whatever randomness, is verified for its token, and the receiver gets the key of the one-time
account, which decrypts the credit to the amount. -/
theorem verified_and_received (hrange : P.RangeComplete) (oracle : Bytes → P.Scalar)
    (rng : AnonRandomness P.Scalar P.RangeRandomness) (receiver : SecretKey P.Scalar)
    (hsolvent : Solvent s) (hreceiver : s.receiver = P.publicKey receiver) :
    ∃ xfer, create P oracle s rng = some xfer ∧ verify P oracle xfer s.token = true ∧
      ∃ key, P.stealthReceive oracle receiver xfer.output.ephemeral xfer.output.oneTime = some key ∧
        P.publicKey key = xfer.output.oneTime ∧
        ∀ maxBits, s.amount.toNat < 2 ^ maxBits →
          P.decrypt key xfer.credit maxBits = some s.amount.toNat := by
  obtain ⟨debit, remaining, hdebit, hremaining, hcovered⟩ := hsolvent.exists_covered
  obtain ⟨rp, hproved, hverified⟩ := hrange (ascii "Latebra.AnonTransfer.range.v3")
    [(remaining, rng.gamma), (s.amount, rng.sD)] rng.range (.inr rfl)
  refine ⟨_, hsolvent.create_eq hdebit hremaining hproved,
    hcovered.verify_prove hsolvent.members hsolvent.balances hverified, ?_⟩
  obtain ⟨key, hkey, howner⟩ := ProofSuite.stealthReceive_send oracle receiver rng.ephemeral
  rw [← hreceiver] at hkey howner
  refine ⟨key, hkey, howner, ?_⟩
  intro maxBits hbits
  apply ProofSuite.decrypt_of_encrypts _ s.amount.toNat_lt hbits
  refine ⟨rng.yC, ?_⟩
  rw [howner]
  rfl

end Completeness

/-- A spend from the middle of a ring of three. -/
def middleSpend : Spend primeSuite where
  ring := [⟨((2 : ℕ) : Residue)⟩, ⟨(5 : Residue)⟩, ⟨(9 : Residue)⟩]
  balances := [⟨(20 : Residue), (6 : Residue)⟩, ⟨(1000 : Residue), (0 : Residue)⟩,
    ⟨(70 : Residue), (0 : Residue)⟩]
  sender := ⟨(5 : Residue)⟩
  senderIndex := 1
  senderBalance := 1000
  receiver := primeSuite.publicKey ⟨(11 : Residue)⟩
  token := 0
  amount := 300
  fee := 10
  epoch := 4

/-- Draws that are all different. -/
def middleRandomness : AnonRandomness primeSuite.Scalar primeSuite.RangeRandomness where
  sD := (21 : Residue)
  blind i := ((30 + i : ℕ) : Residue)
  y i := ((40 + i : ℕ) : Residue)
  gamma := (22 : Residue)
  range := ()
  ephemeral := (23 : Residue)
  yC := (24 : Residue)
  e i := ((50 + i : ℕ) : Residue)
  zX i := ((60 + i : ℕ) : Residue)
  zS i := ((70 + i : ℕ) : Residue)
  zG i := ((80 + i : ℕ) : Residue)
  kX := (25 : Residue)
  kS := (26 : Residue)
  kG := (27 : Residue)
  zod i := ⟨((90 + i : ℕ) : Residue), ((100 + i : ℕ) : Residue), ((110 + i : ℕ) : Residue)⟩
  link i := ⟨((120 + i : ℕ) : Residue), ((130 + i : ℕ) : Residue), ((140 + i : ℕ) : Residue)⟩
  creditLink := ⟨(28 : Residue), (29 : Residue), (150 : Residue)⟩
  kSum := (151 : Residue)

theorem middleSpend_solvent : Solvent middleSpend where
  members := by decide
  balances := rfl
  sender := by decide
  balance := by
    intro ct hct
    obtain rfl := Option.some.inj hct
    exact ⟨(0 : Residue), by decide⟩
  covered := by decide

/-- The spend from the middle of the ring is verified, and its receiver reads the amount. -/
theorem verified_and_received_middle :
    ∃ xfer, create primeSuite primeOracle middleSpend middleRandomness = some xfer ∧
      verify primeSuite primeOracle xfer 0 = true ∧
      ∃ key, primeSuite.stealthReceive primeOracle ⟨(11 : Residue)⟩ xfer.output.ephemeral
          xfer.output.oneTime = some key ∧ primeSuite.decrypt key xfer.credit 20 = some 300 := by
  obtain ⟨xfer, hcreate, hverify, key, hkey, -, hdecrypt⟩ :=
    verified_and_received primeSuite_rangeComplete primeOracle middleRandomness ⟨(11 : Residue)⟩
      middleSpend_solvent rfl
  exact ⟨xfer, hcreate, hverify, key, hkey, hdecrypt 20 (by decide)⟩

end AnonTransfer

end Latebra.Crypto
