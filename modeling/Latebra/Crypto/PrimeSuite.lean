import Latebra.Crypto.ProofSuite
import Mathlib.NumberTheory.LucasLehmer

/-!
# A group to prove with

`primeSuite` is a suite in which the proofs of transfers can be made and checked: the scalars and
the points are the integers modulo the prime `2 ^ 127 - 1`, which is large enough for 64-bit
amounts. Its range proofs hide nothing: they are the openings themselves, written down, so they are
complete (`primeSuite_rangeComplete`) and are read back (`readOpenings_writeOpenings`).
-/

set_option autoImplicit false
set_option relaxedAutoImplicit false

namespace Latebra.Crypto

open Foundation

/-- The prime of the suite. -/
def mersennePrime : ℕ := 2 ^ 127 - 1

instance : Fact mersennePrime.Prime := ⟨lucas_lehmer_sufficiency 127 (by norm_num) (by norm_num)⟩

/-- The residues modulo the prime. -/
abbrev Residue : Type := ZMod mersennePrime

namespace Residue

def toBytes (residue : Residue) : Bytes32 := BitVec.ofNat 256 residue.val

def ofBytes (bytes : Bytes32) : Option Residue :=
  if bytes.toNat < mersennePrime then some (bytes.toNat : Residue) else none

theorem toNat_toBytes (residue : Residue) : residue.toBytes.toNat = residue.val := by
  have hbound : residue.val < mersennePrime := ZMod.val_lt residue
  rw [toBytes, BitVec.toNat_ofNat, Nat.mod_eq_of_lt]
  exact hbound.trans (by norm_num [mersennePrime])

theorem ofBytes_eq_some (bytes : Bytes32) (residue : Residue) :
    ofBytes bytes = some residue ↔ residue.toBytes = bytes := by
  unfold ofBytes
  constructor
  · intro hread
    split_ifs at hread with hbound
    obtain rfl := Option.some.inj hread
    apply BitVec.eq_of_toNat_eq
    rw [toNat_toBytes, ZMod.val_natCast, Nat.mod_eq_of_lt hbound]
  · rintro rfl
    rw [toNat_toBytes, if_pos (ZMod.val_lt residue), ZMod.natCast_zmod_val]

end Residue

/-- A written opening. -/
def readOpening : Reader (UInt64 × Bytes32) := do
  return (← Reader.u64, ← Reader.arr32)

def openingBytes (o : UInt64 × Bytes32) : Bytes := u64Le o.1 ++ bytesOf32 o.2

theorem readOpening_eq_some {input rest : Bytes} {o : UInt64 × Bytes32} :
    readOpening input = some (o, rest) ↔ input = openingBytes o ++ rest := by
  unfold readOpening openingBytes
  simp only [Reader.bind_eq_some, Reader.pure_eq_some, Reader.u64_eq_some, Reader.arr32_eq_some,
    List.append_assoc]
  constructor
  · rintro ⟨value, -, rfl, blind, -, rfl, rfl, rfl⟩
    rfl
  · rintro rfl
    exact ⟨_, _, rfl, _, _, rfl, rfl, rfl⟩

/-- Write openings down. -/
def writeOpenings (openings : List (UInt64 × Residue)) : Bytes :=
  (openings.map fun o ↦ (o.1, o.2.toBytes)).flatMap openingBytes

/-- Read openings back, each of 40 bytes. -/
def readOpenings (bytes : Bytes) : List (UInt64 × Residue) :=
  (((Reader.many (bytes.length / 40) readOpening).complete bytes).getD []).map fun o ↦
    (o.1, (o.2.toNat : Residue))

theorem length_writeOpenings (openings : List (UInt64 × Residue)) :
    (writeOpenings openings).length = openings.length * 40 := by
  have hwidth : ∀ o, (openingBytes o).length = 40 := fun o ↦ by simp [openingBytes]
  rw [writeOpenings, TransferSuite.length_flatMap_const _ hwidth, List.length_map]

theorem readOpenings_writeOpenings (openings : List (UInt64 × Residue)) :
    readOpenings (writeOpenings openings) = openings := by
  have hread : (Reader.many ((writeOpenings openings).length / 40) readOpening).complete
      (writeOpenings openings) = some (openings.map fun o ↦ (o.1, o.2.toBytes)) := by
    rw [Reader.complete_eq_some, Reader.many_eq_some readOpening_eq_some, List.length_map,
      length_writeOpenings, Nat.mul_div_cancel _ (by norm_num), List.append_nil]
    exact ⟨rfl, rfl⟩
  rw [readOpenings, hread, Option.getD_some, List.map_map]
  apply List.map_id''
  intro o
  show (o.1, (o.2.toBytes.toNat : Residue)) = o
  rw [Residue.toNat_toBytes, ZMod.natCast_zmod_val]

/-- The range proof that at most two openings are. -/
def revealed (openings : List (UInt64 × Residue)) (hlength : openings.length ≤ 2) :
    { bytes : Bytes // bytes.length < 2 ^ 16 } :=
  ⟨writeOpenings openings, by rw [length_writeOpenings]; omega⟩

/-- Commit under the bases 1 and 2. -/
def residueCommitments (openings : List (UInt64 × Residue)) : List Bytes32 :=
  openings.map fun o ↦ Residue.toBytes ((o.1.toNat : Residue) • 1 + o.2 • 2)

/-- A suite whose proofs can be made and checked. -/
def primeSuite : ProofSuite where
  ground :=
    { freeSuite with
      Point := Residue
      pointGroup := inferInstanceAs (AddCommGroup Residue)
      pointDecidableEq := inferInstanceAs (DecidableEq Residue)
      basePoint := 1
      compress := Residue.toBytes
      decompress := Residue.ofBytes
      decompress_compress := fun residue ↦ (Residue.ofBytes_eq_some _ residue).mpr rfl
      verifySignature := fun _ _ _ ↦ false
      SolventProof := Empty
      solventVerify := fun _ _ _ ↦ false
      solventToBytes := fun _ ↦ []
      AnonProof := Empty
      anonVerify := fun _ _ ↦ false
      anonToBytes := fun _ ↦ [] }
  compress_of_decompress bytes residue := (Residue.ofBytes_eq_some bytes residue).mp
  Scalar := Residue
  scalarToBytes := Residue.toBytes
  scalarFromCanonicalBytes := Residue.ofBytes
  scalarFromCanonicalBytes_eq_some := Residue.ofBytes_eq_some
  RangeProof := freeTransfers.RangeProof
  rangeToBytes := freeTransfers.rangeToBytes
  rangeFromBytes := freeTransfers.rangeFromBytes
  rangeFromBytes_eq_some := freeTransfers.rangeFromBytes_eq_some
  length_rangeToBytes := freeTransfers.length_rangeToBytes
  solventVerify _ _ _ := false
  anonRelations _ _ := false
  powHash := polynomialHash
  digestBytes := FreeDigest.hash
  scalarField := inferInstanceAs (Field Residue)
  scalarDecidableEq := inferInstanceAs (DecidableEq Residue)
  pointModule := inferInstanceAs (Module Residue Residue)
  scalarCharP := inferInstanceAs (CharP Residue mersennePrime)
  order := mersennePrime
  order_large := by norm_num [mersennePrime]
  basePoint_ne_zero := one_ne_zero
  blindingBase := (2 : Residue)
  hashToPoint bytes := ((polynomialHash bytes).toNat : Residue)
  RangeRandomness := Unit
  proveMultiple _ openings _ :=
    if hlength : openings.length ≤ 2 then
      some (revealed openings hlength, residueCommitments openings)
    else none
  verifyMultiple rp _ comms := residueCommitments (readOpenings rp.1) = comms

theorem primeSuite_proveMultiple (label : Bytes) {openings : List (UInt64 × Residue)}
    (hlength : openings.length ≤ 2) :
    primeSuite.proveMultiple label openings () =
      some (revealed openings hlength, primeSuite.commitments openings) := dif_pos hlength

theorem primeSuite_verifyMultiple (label : Bytes) {openings : List (UInt64 × Residue)}
    (hlength : openings.length ≤ 2) :
    primeSuite.verifyMultiple (revealed openings hlength) label (primeSuite.commitments openings) =
      true :=
  decide_eq_true (congrArg residueCommitments (readOpenings_writeOpenings openings))

theorem primeSuite_rangeComplete : primeSuite.RangeComplete := by
  intro label openings rng hlength
  have hshort : openings.length ≤ 2 := by omega
  exact ⟨revealed openings hshort, primeSuite_proveMultiple label hshort,
    primeSuite_verifyMultiple label hshort⟩

theorem primeSuite_proveSingle (label : Bytes) (value : UInt64) (blind : Residue) :
    primeSuite.proveSingle label value blind () = some (revealed [(value, blind)] one_le_two,
      primeSuite.ground.compress (primeSuite.commitDelta value blind)) :=
  ProofSuite.proveSingle_eq (primeSuite_proveMultiple label one_le_two)

/-- The openings in a range proof. -/
def primeExtractor : primeSuite.RangeExtractor where
  openings rp _ _ := readOpenings rp.1
  opens _ _ _ hverified := (of_decide_eq_true hverified).symm

theorem primeExtractor_revealed {openings : List (UInt64 × Residue)} (hlength : openings.length ≤ 2)
    (label : Bytes) (comms : List Bytes32) :
    primeExtractor.openings (revealed openings hlength) label comms = openings :=
  readOpenings_writeOpenings openings

/-- Challenges that depend on everything that is hashed into them. -/
def primeOracle (bytes : Bytes) : primeSuite.Scalar := ((polynomialHash bytes).toNat : Residue)

end Latebra.Crypto
