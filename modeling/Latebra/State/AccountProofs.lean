import Latebra.Store.Smt
import Latebra.State.DirtyEntries

/-!
# Account proofs

A light client that holds a state root checks one account against it: `accountProof` is what a node
hands out, the leaf of the account with the path of the trie, and `verifyAccountProof` is what the
client runs. The client reads the id of the account from the leaf itself.

`UpToDate.accountProof` and `account_of_verify` say that the two agree with the accounts of the
ledger, as long as the trie is up to date. `proofs_show_state` says it for whole runs, with the
proofs of the trie itself, and `unproved_beneficiary` is a registered account whose proof is turned
away: its leaf is stale.
-/

set_option autoImplicit false
set_option relaxedAutoImplicit false

namespace Latebra.State

open Foundation Crypto Latebra.Types Store

variable {C : CryptoSuite}

/-- An inclusion proof for one account: the bytes that its leaf commits and the path to the root. -/
structure AccountProof (C : CryptoSuite) where
  preimage : Bytes
  proof : TrieScheme.MerkleProof Bytes32 Bytes C.Digest

/-- The account that a proof is about, by the 32 bytes after the tag of 14. -/
def AccountProof.accountId (p : AccountProof C) : Option Bytes32 :=
  bytes32Of ((p.preimage.drop 14).take 32)

/-- Check a proof against a claimed state root. -/
def verifyAccountProof (C : CryptoSuite) (root : C.Digest) (p : AccountProof C) : Bool :=
  match p.accountId with
  | none => false
  | some id => verifyProof C root (Ledger.trieKey C (.account id)) (some p.preimage) p.proof

namespace Ledger

variable {L L' : Ledger C}

/-- Build a proof that the current state root commits an account; none when it is not registered. -/
def accountProof (L : Ledger C) (id : Bytes32) : Option (Option (AccountProof C) × Ledger C) := do
  let (acct, L₁) ← L.account id
  match acct with
  | none => return (none, L₁)
  | some acct =>
    let (root, L₂) ← L₁.stateRoot
    let proof ← (Smt.fromRoot L₂.nodes.get root).prove (trieKey C (.account id))
    return (some ⟨accountLeafPreimage id acct, proof⟩, L₂)

end Ledger

/-! ### The id in a leaf -/

theorem accountId_accountLeafPreimage (id : Bytes32) (acct : Account C)
    (proof : TrieScheme.MerkleProof Bytes32 Bytes C.Digest) :
    (⟨Ledger.accountLeafPreimage id acct, proof⟩ : AccountProof C).accountId = some id := by
  have htag : (ascii "LAT-state-acct").length = 14 := by decide
  have hid : ((Ledger.accountLeafPreimage id acct).drop 14).take 32 = bytesOf32 id := by
    simp only [Ledger.accountLeafPreimage, List.append_assoc]
    rw [List.drop_append_of_le_length (by rw [htag]), ← htag, List.drop_length, List.nil_append,
      List.take_append_of_le_length (by simp), List.take_of_length_le (by simp)]
  show bytes32Of (((Ledger.accountLeafPreimage id acct).drop 14).take 32) = some id
  rw [hid, bytes32Of_bytesOf32]

theorem verifyAccountProof_leaf (root : C.Digest) (id : Bytes32) (acct : Account C)
    (proof : TrieScheme.MerkleProof Bytes32 Bytes C.Digest) :
    verifyAccountProof C root ⟨Ledger.accountLeafPreimage id acct, proof⟩ =
      verifyProof C root (Ledger.trieKey C (.account id))
        (some (Ledger.accountLeafPreimage id acct)) proof := by
  unfold verifyAccountProof
  rw [accountId_accountLeafPreimage]

theorem verifyAccountProof_eq_true {root : C.Digest} {p : AccountProof C} {id : Bytes32}
    (hid : p.accountId = some id) :
    verifyAccountProof C root p = true ↔
      verifyProof C root (Ledger.trieKey C (.account id)) (some p.preimage) p.proof = true := by
  unfold verifyAccountProof
  rw [hid]

/-- No entry that exists or is flagged shares the trie path of an account, unless it is the
account. -/
def LedgerState.OwnPath (s : LedgerState C) (id : Bytes32) : Prop :=
  Set.InjOn (Ledger.trieKey C) (insert (.account id) { key | s.leaf key ≠ none ∨ key ∈ s.dirty })

namespace Ledger

variable {L L' : Ledger C} {id : Bytes32}

theorem tree_account {acct : Option (Account C)} (hread : L.account id = some (acct, L')) :
    L'.tree = L.tree := by
  unfold account at hread
  split at hread
  · obtain ⟨-, rfl⟩ := Prod.mk.inj (Option.some.inj hread)
    rfl
  · split at hread
    · obtain ⟨-, rfl⟩ := Prod.mk.inj (Option.some.inj hread)
      rfl
    · obtain ⟨a, -, hcached⟩ := Option.map_eq_some_iff.mp hread
      obtain ⟨-, rfl⟩ := Prod.mk.inj hcached
      rfl

/-- What the calls of `accountProof` make of a registered account, whether or not the trie is up to
date. -/
theorem accountProof_eq {acct : Account C} {L₁ L₂ : Ledger C} {root : C.Digest}
    {proof : TrieScheme.MerkleProof Bytes32 Bytes C.Digest}
    (hread : L.account id = some (some acct, L₁)) (hroot : L₁.stateRoot = some (root, L₂))
    (hprove : (Smt.fromRoot L₂.nodes.get root).prove (trieKey C (.account id)) = some proof) :
    L.accountProof id = some (some ⟨accountLeafPreimage id acct, proof⟩, L₂) := by
  simp only [accountProof, hread, Option.bind_eq_bind, Option.bind_some, hroot, hprove]
  rfl

/-- A ledger whose trie is up to date proves each of its accounts. -/
theorem UpToDate.accountProof (hdate : L.UpToDate) (hL : L.WellFormed)
    (hfree : C.trie.CollisionFree) (hpaths : L.view.PathsDistinct) {acct : Account C}
    (hacct : L.view.account id = some acct) :
    ∃ p L', L.accountProof id = some (some p, L') ∧ p.preimage = accountLeafPreimage id acct ∧
      verifyAccountProof C L.view.commitment p = true := by
  obtain ⟨L₁, hread, hformed₁, hview₁⟩ := hL.account_eq id
  rw [hacct] at hread
  have hdate₁ : L₁.UpToDate := hdate.of_flags (tree_account hread) (hview₁ ▸ .refl)
  obtain ⟨L₂, hroot, htree⟩ := hdate₁.stateRoot hformed₁ hfree (hview₁ ▸ hpaths)
  rw [hview₁] at hroot htree
  have hholds : (Smt.fromRoot L₂.nodes.get L.view.commitment).Holds L.view.content := by
    rw [show L.view.commitment = L₂.root from htree.root_eq.symm]
    exact htree
  obtain ⟨⟨proof, hprove, hexact⟩, -⟩ := hholds.proofs_exact hfree (trieKey C (.account id))
  have hleaf : L.view.content (trieKey C (.account id)) = some (accountLeafPreimage id acct) := by
    refine hpaths.content_eq_some.mpr ⟨.account id, rfl, ?_⟩
    rw [LedgerState.leaf, hacct, Option.map_some]
  refine ⟨_, L₂, accountProof_eq hread hroot hprove, rfl, ?_⟩
  rw [verifyAccountProof_leaf]
  exact (hexact _).mpr hleaf

/-- A proof that is accepted against the commitment shows the leaf of an account. -/
theorem account_of_verify (hfree : C.trie.CollisionFree) {p : AccountProof C}
    (hid : p.accountId = some id) (hpath : L.view.OwnPath id)
    (haccept : verifyAccountProof C L.view.commitment p = true) :
    ∃ acct, L.view.account id = some acct ∧ p.preimage = accountLeafPreimage id acct := by
  rw [verifyAccountProof_eq_true hid] at haccept
  have hshown : L.view.content (trieKey C (.account id)) = some p.preimage :=
    TrieScheme.verify_sound hfree haccept
  have hpaths : L.view.PathsDistinct := hpath.mono (Set.subset_insert _ _)
  obtain ⟨key, hkey, hleaf⟩ := hpaths.content_eq_some.mp hshown
  have hsame : key = .account id := hpath
    (Set.mem_insert_of_mem _ (.inl (by simp [hleaf]))) (Set.mem_insert _ _) hkey
  rw [hsame, LedgerState.leaf] at hleaf
  obtain ⟨acct, hacct, hpreimage⟩ := Option.map_eq_some_iff.mp hleaf
  exact ⟨acct, hacct, hpreimage.symm⟩

end Ledger

/-! ### Proofs in a run -/

/-- Proofs are complete and sound. A tree that updates and removes built proves every key for exactly
what it reads as, and whatever is accepted against its root is the last value written and not since
removed. In every run of a ledger that pays no slashing reward into an unflagged account, every
registered account has a proof that the state root accepts, and whatever it accepts is the leaf of
the account that it names. -/
theorem proofs_show_state (hfree : C.trie.CollisionFree) :
    (∀ (nodes : TrieScheme.Nodes Bytes32 Bytes C.Digest) (roots : Set C.Digest),
      StoreHistory nodes roots → ∀ calls, ∃ t, (Smt.new nodes).run calls = some t ∧ ∀ key,
        (∃ value proof, t.get key = some value ∧ t.prove key = some proof ∧
          ∀ expected, verifyProof C t.root key expected proof = true ↔ value = expected) ∧
        ∀ expected proof, verifyProof C t.root key expected proof = true →
          written TrieScheme.noContent calls key = expected) ∧
    ∀ L : Ledger C,
      Ledger.ReachableBy (fun L op ↦ L.PathsSeparate op ∧ L.PaysFlagged op) L →
      L.view.PathsDistinct → ∃ root L', L.stateRoot = some (root, L') ∧
        (∀ id acct, L.view.account id = some acct →
          ∃ p L'', L.accountProof id = some (some p, L'') ∧
            p.preimage = Ledger.accountLeafPreimage id acct ∧ verifyAccountProof C root p = true) ∧
        ∀ p id, p.accountId = some id → L.view.OwnPath id →
          verifyAccountProof C root p = true →
          ∃ acct, L.view.account id = some acct ∧
            p.preimage = Ledger.accountLeafPreimage id acct := by
  constructor
  · intro nodes roots hstore calls
    obtain ⟨t, hrun, hholds⟩ := (hstore.sound hfree).holds_new.run hfree calls
    refine ⟨t, hrun, fun key ↦ ?_⟩
    obtain ⟨⟨proof, hprove, hexact⟩, hsound⟩ := hholds.proofs_exact hfree key
    exact ⟨⟨_, proof, hholds.get hfree key, hprove, hexact⟩, hsound⟩
  · intro L hrun hpaths
    have hdate := hrun.upToDate hfree
    obtain ⟨hformed, -⟩ := hrun.reachable.view
    obtain ⟨L', hroot, -⟩ := hdate.stateRoot hformed hfree hpaths
    refine ⟨_, L', hroot, fun id acct hacct ↦ ?_, fun p id hid hpath haccept ↦ ?_⟩
    · exact hdate.accountProof hformed hfree hpaths hacct
    · exact Ledger.account_of_verify hfree hid hpath haccept

theorem proofs_show_state_staked :
    (∃ t : Smt freeSuite, (Smt.new fun _ ↦ none).run [.update 5 [1], .remove 5] = some t ∧
      ∃ proof, t.prove 5 = some proof ∧ verifyProof freeSuite t.root 5 none proof = true) ∧
    ∃ root L', Ledger.staked.stateRoot = some (root, L') ∧
      (∀ id acct, Ledger.staked.view.account id = some acct →
        ∃ p L'', Ledger.staked.accountProof id = some (some p, L'') ∧
          verifyAccountProof freeSuite root p = true) ∧
      ∀ p, p.accountId = some 5 → verifyAccountProof freeSuite root p = true →
        ∃ acct, Ledger.staked.view.account 5 = some acct := by
  obtain ⟨htree, hledger⟩ := proofs_show_state freeSuite_collisionFree
  obtain ⟨t, hrun, hkeys⟩ := htree _ _ .empty [.update 5 [1], .remove 5]
  obtain ⟨⟨value, proof, -, hprove, hexact⟩, hsound⟩ := hkeys 5
  obtain ⟨root, L', hroot, hproofs, haccepted⟩ :=
    hledger Ledger.staked Ledger.reachable_staked Ledger.pathsDistinct_staked
  refine ⟨⟨t, hrun, proof, hprove, ?_⟩, root, L', hroot, fun id acct hacct ↦ ?_,
    fun p hid haccept ↦ ?_⟩
  · have hvalue := hsound value proof ((hexact value).mpr rfl)
    have habsent : written TrieScheme.noContent [.update 5 [1], .remove 5] 5 = none := by
      simp [written, Smt.Call.onMap]
    exact (hexact none).mpr (hvalue.symm.trans habsent)
  · obtain ⟨p, L'', hproof, -, haccept⟩ := hproofs id acct hacct
    exact ⟨p, L'', hproof, haccept⟩
  · have hown : Ledger.staked.view.OwnPath 5 := by
      refine Ledger.injOn_stakedEntries.mono (Set.insert_subset ?_ fun key hkey ↦ ?_)
      · show DirtyKey.account 5 ∈ Ledger.stakedEntries
        decide
      · obtain ⟨-, -, -, -, -, hdirty⟩ := Ledger.staked_facts
        exact hkey.elim Ledger.mem_stakedEntries (hdirty key)
    obtain ⟨acct, hacct, -⟩ := haccepted p 5 hid hown haccept
    exact ⟨acct, hacct⟩

/-- A registered account whose own proof is turned away: it was paid a slashing reward since its leaf
was written. -/
theorem unproved_beneficiary :
    ∃ (L L' L'' : Ledger freeSuite) (root : FreeDigest) (p : AccountProof freeSuite),
      L.Reachable ∧ L.view.PathsDistinct ∧ L.view.account 6 ≠ none ∧
      L.accountProof 6 = some (some p, L') ∧ L.stateRoot = some (root, L'') ∧
      verifyAccountProof freeSuite root p = false := by
  obtain ⟨L, hreach, hformed, hview, htree⟩ := Ledger.reachable_slashed
  obtain ⟨L'', hroot, hstale⟩ := Ledger.stateRoot_slashed hformed hview htree
  obtain ⟨acct, hregistered, hnew⟩ := Ledger.submitter_registered
  have hacct : L.view.account 6 = some acct := by
    rw [hview, LedgerState.account_marked, hregistered]
  obtain ⟨L₁, hread, hformed₁, hview₁⟩ := hformed.account_eq 6
  rw [hacct] at hread
  -- Reading the account leaves the trie, so the proof is made over the same stale leaf.
  obtain ⟨L', hroot', hstale'⟩ := Ledger.stateRoot_slashed hformed₁ (hview₁.trans hview)
    ((Ledger.tree_account hread).symm ▸ htree)
  have hholds : (Smt.fromRoot L'.nodes.get L'.root).Holds
    (TrieScheme.contentOf (Ledger.trieKey freeSuite) Ledger.staleLeaf) := hstale'
  obtain ⟨⟨proof, hprove, -⟩, hsound⟩ := hholds.proofs_exact freeSuite_collisionFree
    (Ledger.trieKey freeSuite (.account 6))
  have hfound : L.view.account 6 ≠ none := by
    rw [hacct]
    exact Option.some_ne_none _
  refine ⟨L, L', L'', L''.root, _, hreach, hview ▸ Ledger.pathsDistinct_slashed, hfound,
    Ledger.accountProof_eq hread hroot' hprove, hroot, ?_⟩
  rw [verifyAccountProof_leaf, Bool.eq_false_iff]
  intro haccept
  have hsame : L''.root = L'.root := hstale.root_eq.trans hstale'.root_eq.symm
  rw [hsame] at haccept
  obtain ⟨key, hkey, hleaf⟩ := TrieScheme.exists_of_contentOf_eq_some (hsound _ _ haccept)
  have hsubmitter : key = .account 6 := Ledger.injOn_stakedEntries
    (Ledger.mem_stakedEntries_of_stale (by simp [hleaf]))
    (show DirtyKey.account 6 ∈ Ledger.stakedEntries by decide) hkey
  rw [hsubmitter] at hleaf
  exact Ledger.staleLeaf_ne (hleaf.trans hnew.symm)

end Latebra.State
