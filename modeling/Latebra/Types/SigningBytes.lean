import Latebra.Crypto.TransferCodec
import Latebra.Types.Wire

/-!
# What a signature covers

The signing bytes of a transaction are its encoding without the signature at its end. Two
transactions with the same signing bytes differ at most in their signatures
(`unsigned_of_signingBytes`), because the signing bytes followed by a blank signature are the
encoding of the transaction with the signature blanked, and an encoding reads back. The first byte
is the tag of the variant, which no finality vote starts with.
-/

set_option autoImplicit false
set_option relaxedAutoImplicit false

namespace Latebra.Types

open Foundation Crypto

namespace Transaction

section Suite

variable {C : CryptoSuite} (tx : Transaction C)

/-- The leading byte that distinguishes the variant. -/
def tag : Transaction C → UInt8
  | register .. => 0x00
  | createToken .. => 0x02
  | solventTransfer .. => 0x03
  | rollover .. => 0x04
  | deployContract .. => 0x05
  | callContract .. => 0x06
  | publicTransfer .. => 0x07
  | shield .. => 0x08
  | unshield .. => 0x09
  | shieldStealth .. => 0x0A
  | anonTransfer .. => 0x0B
  | stake .. => 0x0C
  | unstake .. => 0x0D
  | slashEvidence .. => 0x0E
  | addLiquidity .. => 0x0F
  | removeLiquidity .. => 0x10
  | swap .. => 0x11
  | htlcLock .. => 0x12
  | htlcClaim .. => 0x13
  | htlcRefund .. => 0x14
  | curveTrade .. => 0x15

/-- The transaction with its signature blanked. -/
def unsigned : Transaction C → Transaction C
  | createToken ticker creator supply _ => createToken ticker creator supply 0
  | rollover account nonce _ => rollover account nonce 0
  | deployContract deployer code _ => deployContract deployer code 0
  | callContract contract caller input nonce _ => callContract contract caller input nonce 0
  | publicTransfer token fromId toId amount fee nonce _ =>
    publicTransfer token fromId toId amount fee nonce 0
  | shield token fromId toId amount fee nonce _ => shield token fromId toId amount fee nonce 0
  | unshield token toId amount xfer _ => unshield token toId amount xfer 0
  | shieldStealth token fromId ephemeral oneTime amount fee nonce _ =>
    shieldStealth token fromId ephemeral oneTime amount fee nonce 0
  | stake validator amount nonce _ => stake validator amount nonce 0
  | unstake validator amount nonce _ => unstake validator amount nonce 0
  | addLiquidity token provider latAmount tokAmount fee nonce _ =>
    addLiquidity token provider latAmount tokAmount fee nonce 0
  | removeLiquidity token provider lpAmount fee nonce _ =>
    removeLiquidity token provider lpAmount fee nonce 0
  | swap token trader latIn amountIn minOut fee nonce _ =>
    swap token trader latIn amountIn minOut fee nonce 0
  | curveTrade token trader isBuy amount minOut fee nonce _ =>
    curveTrade token trader isBuy amount minOut fee nonce 0
  | htlcLock token fromId toId amount hashlock expiry fee nonce _ =>
    htlcLock token fromId toId amount hashlock expiry fee nonce 0
  | tx => tx

/-- Signed variants end with the signature, and blanking it changes nothing else. -/
theorem encode_of_carriesSignature (hsigned : tx.carriesSignature = true) :
    ∃ rest sig, tx.encode = tx.tag :: rest ++ bytesOf64 sig ∧
      tx.unsigned.encode = tx.tag :: rest ++ bytesOf64 0 := by
  cases tx with
  | createToken | rollover | deployContract | callContract | publicTransfer | shield | unshield
  | shieldStealth | stake | unstake | addLiquidity | removeLiquidity | swap | curveTrade
  | htlcLock => exact ⟨_, _, rfl, rfl⟩
  | register | solventTransfer | anonTransfer | slashEvidence | htlcClaim | htlcRefund =>
    cases hsigned

theorem encode_of_not_carriesSignature (hsigned : tx.carriesSignature = false) :
    tx.unsigned = tx ∧ ∃ rest, tx.encode = tx.tag :: rest := by
  cases tx with
  | register | solventTransfer | anonTransfer | slashEvidence | htlcClaim | htlcRefund =>
    exact ⟨rfl, _, rfl⟩
  | createToken | rollover | deployContract | callContract | publicTransfer | shield | unshield
  | shieldStealth | stake | unstake | addLiquidity | removeLiquidity | swap | curveTrade
  | htlcLock => cases hsigned

/-- The blank signature behind the signing bytes. -/
def blank : Bytes := if tx.carriesSignature then bytesOf64 0 else []

/-- The signing bytes start with the tag, and the blank completes them. -/
theorem signingBytes_spec :
    (∃ rest, tx.signingBytes = tx.tag :: rest) ∧ tx.signingBytes ++ tx.blank = tx.unsigned.encode := by
  unfold signingBytes blank
  dsimp only
  by_cases hsigned : tx.carriesSignature = true
  · obtain ⟨rest, sig, hencode, hblank⟩ := tx.encode_of_carriesSignature hsigned
    have hlength : tx.encode.length - 64 = (tx.tag :: rest).length := by
      rw [hencode, List.length_append, length_bytesOf64, Nat.add_sub_cancel]
    have htake : tx.encode.take (tx.encode.length - 64) = tx.tag :: rest := by
      rw [hlength, hencode, List.take_left]
    rw [if_pos hsigned, if_pos hsigned, htake, hblank]
    exact ⟨⟨rest, rfl⟩, rfl⟩
  · obtain ⟨hsame, hencode⟩ := tx.encode_of_not_carriesSignature (Bool.not_eq_true _ ▸ hsigned)
    rw [if_neg hsigned, if_neg hsigned, hsame, List.append_nil]
    exact ⟨hencode, rfl⟩

/-- The tag decides whether a variant is signed. -/
theorem carriesSignature_eq :
    tx.carriesSignature = decide (tx.tag ∉ [0x00, 0x03, 0x0B, 0x0E, 0x13, 0x14]) := by
  cases tx <;> rfl

theorem tag_lt : tx.tag < 0x16 := by
  cases tx <;> simp [tag]

end Suite

variable {S : ChainSuite} {tx tx' : Transaction S.toCryptoSuite}

theorem Transmissible.unsigned (hfits : tx.Transmissible S) : tx.unsigned.Transmissible S := by
  cases tx <;> exact hfits

/-- Two transactions that have a wire form and the same signing bytes differ at most in their
signatures. -/
theorem unsigned_of_signingBytes (hfits : tx.Transmissible S) (hfits' : tx'.Transmissible S)
    (heq : tx.signingBytes = tx'.signingBytes) : tx.unsigned = tx'.unsigned := by
  obtain ⟨⟨rest, htag⟩, hblank⟩ := tx.signingBytes_spec
  obtain ⟨⟨rest', htag'⟩, hblank'⟩ := tx'.signingBytes_spec
  have hvariant : tx.tag = tx'.tag := by
    rw [htag, htag'] at heq
    exact (List.cons.inj heq).1
  have hsigned : tx.blank = tx'.blank := by
    rw [blank, blank, carriesSignature_eq, carriesSignature_eq, hvariant]
  have hencode : tx.unsigned.encode = tx'.unsigned.encode := by
    rw [← hblank, ← hblank', heq, hsigned]
  have hread := decode_encode hfits.unsigned
  rw [hencode, decode_encode hfits'.unsigned] at hread
  exact (Option.some.inj hread).symm

/-- No transaction is signed over the bytes of a finality vote. -/
theorem signingBytes_ne_vote (tx : Transaction S.toCryptoSuite) (block : Bytes32)
    (height : UInt64) : tx.signingBytes ≠ finalityVoteSigningBytes block height := by
  intro heq
  obtain ⟨⟨rest, htag⟩, -⟩ := tx.signingBytes_spec
  have hvote : ∃ rest', finalityVoteSigningBytes block height = 0x4C :: rest' := ⟨_, rfl⟩
  obtain ⟨rest', hvote⟩ := hvote
  rw [htag, hvote] at heq
  have hlt := tx.tag_lt
  rw [(List.cons.inj heq).1] at hlt
  exact absurd hlt (by decide)

/-- Equal signing bytes come from the same variant with the same fields, signatures apart, and no
transaction is signed over the bytes of a finality vote. -/
theorem signatures_bind (T : TransferSuite) :
    (∀ tx tx' : Transaction T.chainSuite.toCryptoSuite, tx.Transmissible T.chainSuite →
      tx'.Transmissible T.chainSuite → tx.signingBytes = tx'.signingBytes →
        tx.unsigned = tx'.unsigned) ∧
    ∀ (tx : Transaction T.chainSuite.toCryptoSuite) (block : Bytes32) (height : UInt64),
      tx.signingBytes ≠ finalityVoteSigningBytes block height := by
  constructor
  · intro tx tx' hfits hfits' heq
    exact unsigned_of_signingBytes hfits hfits' heq
  · exact signingBytes_ne_vote

/-- Two rollovers that differ in their signatures only. -/
theorem signatures_bind_rollover :
    (rollover 5 0 1 : Transaction freeTransfers.chainSuite.toCryptoSuite).unsigned =
      (rollover 5 0 2).unsigned :=
  (signatures_bind freeTransfers).1 (rollover 5 0 1) (rollover 5 0 2) trivial trivial (by decide)

end Transaction

end Latebra.Types
