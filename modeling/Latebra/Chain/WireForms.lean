import Latebra.Chain.Block
import Latebra.Crypto.TransferCodec

/-!
# Exact wire forms

Over the wire forms of the transfers, transactions and blocks have exactly one wire form each. A
transaction reads back when its lengths fit their counts and its ring is within the cap; a block
reads back exactly when its transactions do and no transaction outgrows the four bytes of its
length. What is read writes the bytes that it was read from.

A contract of just under `2 ^ 32` bytes has a wire form of its own and none within a block
(`block_of_long_contract`).
-/

set_option autoImplicit false
set_option relaxedAutoImplicit false

namespace Latebra.Chain

open Foundation Crypto Latebra.Types

/-- Transactions and blocks read back, and have no second wire form. -/
theorem wire_forms_exact (T : TransferSuite) :
    (∀ tx : Transaction T.chainSuite.toCryptoSuite,
      Transaction.decode T.chainSuite tx.encode = some tx ↔ tx.Transmissible T.chainSuite) ∧
    (∀ bytes (tx : Transaction T.chainSuite.toCryptoSuite),
      Transaction.decode T.chainSuite bytes = some tx → tx.encode = bytes) ∧
    (∀ block : Block T.chainSuite, Block.decode block.encode = some block ↔
      block.txs.length < 2 ^ 32 ∧
        ∀ tx ∈ block.txs, tx.Transmissible T.chainSuite ∧ tx.encode.length < 2 ^ 32) ∧
    ∀ bytes (block : Block T.chainSuite), Block.decode bytes = some block →
      block.encode = bytes := by
  refine ⟨fun tx ↦ ?_, fun bytes tx hread ↦ ?_, fun block ↦ ?_, fun bytes block hread ↦ ?_⟩
  · rw [Transaction.decode_eq_some]
    exact and_iff_left rfl
  · exact (Transaction.decode_eq_some.mp hread).2
  · rw [Block.decode_eq_some]
    constructor
    · rintro ⟨hfits, -⟩
      exact ⟨hfits.count, hfits.txs⟩
    · rintro ⟨hcount, htxs⟩
      exact ⟨⟨hcount, htxs⟩, rfl⟩
  · exact (Block.decode_eq_some.mp hread).2

/-! ### A block that does not read back -/

/-- The deployment of a contract of `2 ^ 32 - 1` zero bytes. -/
def longContract : Transaction freeTransfers.chainSuite.toCryptoSuite :=
  .deployContract 5 (List.replicate 4294967295 0) 5

/-- A block of this deployment. -/
def longBlock : Block freeTransfers.chainSuite := ⟨⟨0, 0, 0, 0, 0, 0, 0⟩, [longContract]⟩

/-- The deployment has a wire form, and the block of it has none. -/
theorem block_of_long_contract :
    (∀ tx ∈ longBlock.txs, tx.Transmissible freeTransfers.chainSuite) ∧
      Block.decode longBlock.encode ≠ some longBlock := by
  constructor
  · intro tx htx
    obtain rfl := List.mem_singleton.mp htx
    change (List.replicate 4294967295 (0 : UInt8)).length < 2 ^ 32
    rw [List.length_replicate]
    norm_num
  · intro hread
    obtain ⟨hfits, -⟩ := Block.decode_eq_some.mp hread
    obtain ⟨-, hlength⟩ := hfits.txs longContract List.mem_cons_self
    simp only [longContract, Transaction.encode, List.length_append, List.length_replicate,
      length_bytesOf32, length_bytesOf64, length_leBytes, List.length_singleton] at hlength
    omega

end Latebra.Chain
