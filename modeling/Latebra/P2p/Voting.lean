import Latebra.Chain.ForkChoice

/-!
# The finality votes of a node

A node pools the finality votes that it is given, by block. A vote is pooled when it is for a block
of the active chain above the watermark, and is signed by a member of the validator set that the
block commits. Once the pooled votes of a block carry more than two thirds of the stake of its set,
the node makes a certificate of them and adopts it, and forgets the votes up to its height.

The pool of a node is sound (`Sound`): what is pooled for a block that can still be certified are
votes of members of its set, and of two thirds of the stake at most. So a certificate that the node
makes is one that it adopts (`addsVote`), and over any list of votes the watermark becomes the
greatest height that has the votes (`feed_watermark`), in whatever order they come.
-/

set_option autoImplicit false
set_option relaxedAutoImplicit false

namespace Latebra.P2p

open Foundation Crypto Latebra.Types State Chain

/-! ### Votes and certificates on the wire -/

/-- Fixed 136-byte wire encoding. -/
def encodeVote (vote : Vote) : Bytes :=
  bytesOf32 vote.blockId ++ u64Le vote.height ++ bytesOf32 vote.validator ++ bytesOf64 vote.sig

def readVote : Reader Vote := do
  let blockId ← Reader.arr32
  let height ← Reader.u64
  let validator ← Reader.arr32
  let sig ← Reader.arr64
  return ⟨blockId, height, validator, sig⟩

/-- Read a vote from a string of exactly 136 bytes. -/
def decodeVote (bytes : Bytes) : Option Vote :=
  if bytes.length ≠ 136 then none else readVote.complete bytes

def readSignature : Reader (Bytes32 × Bytes64) := do
  let validator ← Reader.arr32
  let sig ← Reader.arr64
  return (validator, sig)

def readCertificate : Reader Certificate := do
  let blockId ← Reader.arr32
  let height ← Reader.u64
  let count ← Reader.u32
  let votes ← Reader.many count.toNat readSignature
  return ⟨blockId, height, votes⟩

/-- Read a certificate from a string that holds nothing else. -/
def decodeCertificate (bytes : Bytes) : Option Certificate := readCertificate.complete bytes

theorem reads_vote (vote : Vote) : Reader.Reads readVote vote
    (bytesOf32 vote.blockId ++ (u64Le vote.height ++ (bytesOf32 vote.validator ++
      (bytesOf64 vote.sig ++ [])))) :=
  (Reader.Reads.arr32 _).bind ((Reader.Reads.u64 _).bind ((Reader.Reads.arr32 _).bind
    ((Reader.Reads.arr64 _).bind (Reader.Reads.pure _))))

theorem decodeVote_encodeVote (vote : Vote) : decodeVote (encodeVote vote) = some vote := by
  have hlength : ¬ (encodeVote vote).length ≠ 136 := by simp [encodeVote]
  have hreads := reads_vote vote
  rw [List.append_nil, ← List.append_assoc, ← List.append_assoc] at hreads
  rw [decodeVote, if_neg hlength]
  exact Reader.complete_of_reads hreads

theorem reads_signature (entry : Bytes32 × Bytes64) :
    Reader.Reads readSignature entry (bytesOf32 entry.1 ++ bytesOf64 entry.2) := by
  have hreads : Reader.Reads readSignature entry
      (bytesOf32 entry.1 ++ (bytesOf64 entry.2 ++ [])) :=
    (Reader.Reads.arr32 _).bind ((Reader.Reads.arr64 _).bind (Reader.Reads.pure _))
  rwa [List.append_nil] at hreads

/-- A certificate reads back as long as its signatures can be counted. -/
theorem decodeCertificate_encode {cert : Certificate} (hcount : cert.votes.length < 2 ^ 32) :
    decodeCertificate cert.encode = some cert := by
  have hword : (UInt32.ofNat cert.votes.length).toNat = cert.votes.length :=
    UInt32.toNat_ofNat_of_lt' hcount
  have hvotes : Reader.Reads
      (Reader.many (UInt32.ofNat cert.votes.length).toNat readSignature) cert.votes
      (cert.votes.flatMap fun entry ↦ bytesOf32 entry.1 ++ bytesOf64 entry.2) := by
    rw [hword]
    exact Reader.Reads.many fun entry _ ↦ reads_signature entry
  have hreads : Reader.Reads readCertificate cert
      (bytesOf32 cert.blockId ++ (u64Le cert.height ++
        (u32Le (UInt32.ofNat cert.votes.length) ++
          ((cert.votes.flatMap fun entry ↦ bytesOf32 entry.1 ++ bytesOf64 entry.2) ++ [])))) :=
    (Reader.Reads.arr32 _).bind ((Reader.Reads.u64 _).bind ((Reader.Reads.u32 _).bind
      (hvotes.bind (Reader.Reads.pure _))))
  rw [List.append_nil, ← List.append_assoc, ← List.append_assoc, u32Le, hword] at hreads
  exact Reader.complete_of_reads hreads

/-! ### The sets that judge votes -/

section Judges

variable {S : ChainSuite}

/-- A validator set judges the votes for the active block of a height. -/
structure Judges (chain : Blockchain S) (height : UInt64) (id : Bytes32) (set : ValidatorSet) :
    Prop where
  active : chain.activeChain[height.toNat]? = some id
  recent : chain.validatorSetAt height = some set

variable {chain chain' : Blockchain S} {height : UInt64} {id : Bytes32} {set : ValidatorSet}

theorem Judges.unique {id' : Bytes32} {set' : ValidatorSet} (h : Judges chain height id set)
    (h' : Judges chain height id' set') : id = id' ∧ set = set' :=
  ⟨Option.some.inj (h.active.symm.trans h'.active), Option.some.inj (h.recent.symm.trans h'.recent)⟩

/-- The sets are those of the active branch and of the recorded heights. -/
theorem judges_congr (hactive : chain'.activeChain = chain.activeChain)
    (hsets : chain'.recentSets = chain.recentSets) :
    Judges chain' height id set ↔ Judges chain height id set := by
  have hset : chain'.validatorSetAt height = chain.validatorSetAt height := by
    rw [Blockchain.validatorSetAt, hsets, Blockchain.validatorSetAt]
  constructor
  · intro h
    exact ⟨hactive ▸ h.active, hset ▸ h.recent⟩
  · intro h
    exact ⟨hactive.symm ▸ h.active, hset.symm ▸ h.recent⟩

/-- Recording the set of a height leaves those of other heights as they are, or forgets them. -/
theorem validatorSetAt_of_recorded {sets : List (UInt64 × ValidatorSet)} {tip : UInt64}
    {tipSet : ValidatorSet} {n : ℕ} (hsets : chain'.recentSets = (sets ++ [(tip, tipSet)]).drop n)
    (hother : height ≠ tip) (hset : chain'.validatorSetAt height = some set) :
    (sets.reverse.find? fun entry ↦ entry.1 = height).map Prod.snd = some set := by
  obtain ⟨entry, hfound, rfl⟩ := Option.map_eq_some_iff.mp hset
  rw [hsets] at hfound
  have hall : (sets ++ [(tip, tipSet)]).reverse.find? (fun entry ↦ entry.1 = height) =
      some entry := by
    rw [← List.take_append_drop n (sets ++ [(tip, tipSet)]), List.reverse_append,
      List.find?_append, hfound, Option.some_or]
  rw [List.reverse_append, List.reverse_singleton, List.singleton_append,
    List.find?_cons_of_neg (by simpa using hother.symm)] at hall
  rw [hall, Option.map_some]

/-- The tip of a chain is at the active height. -/
theorem getElem?_activeHeight {genesis : TreeNode} {v : (blockRules S genesis).View}
    (h : Tracks chain v) :
    chain.activeChain[chain.activeHeight.toNat]? = some chain.activeTip := by
  rw [h.active, h.tip, h.height, TreeRules.path_getElem?_eq_some]
  exact ⟨v.active, List.suffix_rfl, rfl, rfl⟩

/-- The active branch reaches up to the active height. -/
theorem length_activeChain {genesis : TreeNode} {v : (blockRules S genesis).View}
    (h : Tracks chain v) : chain.activeChain.length = chain.activeHeight.toNat + 1 := by
  rw [h.active, h.height, TreeRules.length_path]

/-- What judges votes after a block was accepted judged them before, but for a new block. -/
theorem judges_of_accepts {genesis : TreeNode} (hzero : genesis.height = 0)
    {v : (blockRules S genesis).View} (htracks : Tracks chain v) {block : Block S}
    (haccepts : chain.Accepts block chain') (h : Judges chain' height id set) :
    Judges chain height id set ∨ chain.tree[id]? = none := by
  obtain ⟨v', -, htracks', -⟩ := htracks.accepts hzero haccepts
  have htip := getElem?_activeHeight htracks'
  cases haccepts with
  | known => exact .inl h
  | @extend node next hadmitted hprev hrun =>
    by_cases hheight : height = block.header.height
    · right
      have hsame : some id = some block.id := by
        rw [← h.active, hheight]
        exact htip
      rw [Option.some.inj hsame]
      exact hadmitted.new
    · left
      have hlength := length_activeChain htracks'
      change (chain.activeChain ++ [block.id]).length = block.header.height.toNat + 1 at hlength
      have hactive := h.active
      change (chain.activeChain ++ [block.id])[height.toNat]? = some id at hactive
      have hbelow : height.toNat < chain.activeChain.length := by
        have hlt := (List.getElem?_eq_some_iff.mp hactive).1
        have hne : height.toNat ≠ block.header.height.toNat := fun heq ↦
          hheight (UInt64.toNat_inj.mp heq)
        rw [hlength] at hlt
        rw [List.length_append, List.length_singleton] at hlength
        omega
      rw [List.getElem?_append_left hbelow] at hactive
      exact ⟨hactive, validatorSetAt_of_recorded
        (Blockchain.recentSets_extended chain block node next) hheight h.recent⟩
  | switch hadmitted _ _ _ _ _ hmoved =>
    right
    obtain ⟨state, disk, rfl⟩ := rehomeState_eq hmoved
    have hheight : height = block.header.height := by
      by_contra hother
      have hnone : (List.find? (fun entry ↦ entry.1 = height)
          ([] : List (UInt64 × ValidatorSet)).reverse).map Prod.snd = some set :=
        validatorSetAt_of_recorded (Blockchain.recentSets_noteValidatorSet _) hother h.recent
      exact nomatch hnone
    have hsame : some id = some block.id := by
      rw [← h.active, hheight]
      exact htip
    rw [Option.some.inj hsame]
    exact hadmitted.new
  | aside => exact .inl ⟨h.active, h.recent⟩

/-- Every recorded set has one entry an id. -/
def SetsDistinct (chain : Blockchain S) : Prop :=
  ∀ entry ∈ chain.recentSets, (entry.2.map Prod.fst).Nodup

theorem setsDistinct_noteValidatorSet (h : SetsDistinct chain) :
    SetsDistinct chain.noteValidatorSet := by
  intro entry hentry
  rw [Blockchain.recentSets_noteValidatorSet] at hentry
  rcases List.mem_append.mp (List.mem_of_mem_drop hentry) with hbefore | hnew
  · exact h entry hbefore
  · rw [List.mem_singleton.mp hnew]
    exact nodup_validatorSet chain.activeState

theorem SetsDistinct.accepts (h : SetsDistinct chain) {block : Block S}
    (haccepts : chain.Accepts block chain') : SetsDistinct chain' := by
  cases haccepts with
  | known => exact h
  | @extend node next _ _ _ =>
    intro entry hentry
    rw [Blockchain.recentSets_extended] at hentry
    rcases List.mem_append.mp (List.mem_of_mem_drop hentry) with hbefore | hnew
    · exact h entry hbefore
    · rw [List.mem_singleton.mp hnew]
      exact nodup_validatorSet next
  | switch _ _ _ _ _ _ hmoved =>
    obtain ⟨state, disk, rfl⟩ := rehomeState_eq hmoved
    intro entry hentry
    have hnew := List.mem_of_mem_drop hentry
    rw [List.nil_append, List.mem_singleton] at hnew
    rw [hnew]
    exact nodup_validatorSet _
  | aside => exact h

theorem SetsDistinct.nodup (h : SetsDistinct chain) (hjudges : Judges chain height id set) :
    (set.map Prod.fst).Nodup := by
  obtain ⟨entry, hfound, rfl⟩ := Option.map_eq_some_iff.mp hjudges.recent
  exact h entry (List.mem_reverse.mp (List.mem_of_find?_eq_some hfound))

end Judges

/-! ### The node -/

/-- The votes for one block: the signature of each validator. -/
abbrev VoteBucket := FMap Bytes32 Bytes64

/-- The key of a validator: its id, and what it signs a message with. -/
structure ValidatorKey where
  publicKey : Bytes32
  sign : Bytes → Bytes64

/-- Sign a vote for a block. -/
def ValidatorKey.signVote (key : ValidatorKey) (blockId : Bytes32) (height : UInt64) : Vote :=
  ⟨blockId, height, key.publicKey, key.sign (finalityVoteSigningBytes blockId height)⟩

/-- What a node has for finality: its chain, the votes that it has pooled for each height and block,
and the key of the validator that it is. A bucket that is absent is an empty one. -/
structure NodeState (S : ChainSuite) where
  chain : Blockchain S
  votes : UInt64 × Bytes32 → VoteBucket
  validatorKey : Option ValidatorKey

namespace NodeState

variable {S : ChainSuite}

/-- A node over a chain. -/
def new (chain : Blockchain S) : NodeState S := ⟨chain, fun _ ↦ ∅, none⟩

/-- Forget the votes up to a height. -/
def retainAbove (node : NodeState S) (height : UInt64) : NodeState S :=
  { node with votes := fun place ↦ if height < place.1 then node.votes place else ∅ }

/-- Pool a finality vote. Says whether it is new in the pool, and gives the certificate that it
completes. -/
def addVote (bytes : Bytes) (node : NodeState S) : (Bool × Option Bytes) × NodeState S :=
  match decodeVote bytes with
  | none => ((false, none), node)
  | some vote =>
    if node.chain.finalized.any fun watermark ↦ vote.height ≤ watermark.1 then
      ((false, none), node)
    else if node.chain.activeChain[vote.height.toNat]? ≠ some vote.blockId then
      ((false, none), node)
    else
      match node.chain.validatorSetAt vote.height with
      | none => ((false, none), node)
      | some set =>
        if ¬ (set.any fun member ↦ member.1 = vote.validator) ∨
            ¬ vote.verify S.toCryptoSuite then ((false, none), node)
        else if (node.votes (vote.height, vote.blockId)).contains vote.validator then
          ((false, none), node)
        else
          let bucket := (node.votes (vote.height, vote.blockId)).insert vote.validator vote.sig
          let node :=
            { node with votes := Function.update node.votes (vote.height, vote.blockId) bucket }
          if 2 * totalStake set <
              3 * totalStake (set.filter fun member ↦ bucket.contains member.1) then
            -- The entries of a bucket are in the order of the validators.
            let cert : Certificate := ⟨vote.blockId, vote.height, bucket.toList⟩
            match node.chain.tryFinalize cert with
            | (true, chain) =>
              ((true, some cert.encode), { node with chain := chain }.retainAbove vote.height)
            | (false, chain) => ((true, none), { node with chain := chain })
          else ((true, none), node)

/-- Adopt a certificate of a peer. Says whether it advanced the watermark. -/
def acceptCert (bytes : Bytes) (node : NodeState S) : Bool × NodeState S :=
  match decodeCertificate bytes with
  | none => (false, node)
  | some cert =>
    match node.chain.tryFinalize cert with
    | (true, chain) => (true, { node with chain := chain }.retainAbove cert.height)
    | (false, chain) => (false, { node with chain := chain })

/-- Sign a vote for the tip and pool it. -/
def castVote (node : NodeState S) : Option (Bytes × Option Bytes) × NodeState S :=
  match node.validatorKey with
  | none => (none, node)
  | some key =>
    let bytes := encodeVote (key.signVote node.chain.activeTip node.chain.activeHeight)
    match node.addVote bytes with
    | ((true, cert), node) => (some (bytes, cert), node)
    | ((false, _), node) => (none, node)

/-- What happens to a node. -/
inductive Step (node : NodeState S) : NodeState S → Prop where
  | addVote (bytes : Bytes) : Step node (node.addVote bytes).2
  | acceptCert (bytes : Bytes) : Step node (node.acceptCert bytes).2
  | castVote : Step node node.castVote.2
  | setValidatorKey (key : Option ValidatorKey) : Step node { node with validatorKey := key }
  | chain {chain' : Blockchain S} :
    Blockchain.Step node.chain chain' → Step node { node with chain := chain' }

/-- The nodes over a chain from its genesis parameters on. -/
inductive Reachable (workers : ℕ) (premine publicPremine : List (Bytes32 × UInt64))
    (difficulty : UInt64) : NodeState S → Prop where
  | new {chain : Blockchain S} :
    Blockchain.Reachable workers premine publicPremine difficulty chain →
      Reachable workers premine publicPremine difficulty (new chain)
  | step {node node' : NodeState S} :
    Reachable workers premine publicPremine difficulty node → Step node node' →
      Reachable workers premine publicPremine difficulty node'

/-! ### What a vote does -/

/-- The members of a set that have voted hold strictly more than two thirds of its stake. -/
def HasQuorum (set : ValidatorSet) (voted : Bytes32 → Bool) : Prop :=
  2 * totalStake set < 3 * totalStake (set.filter fun member ↦ voted member.1)

/-- A height is above the watermark. -/
def Open (node : NodeState S) (height : UInt64) : Prop :=
  ∀ watermark, node.chain.finalized = some watermark → watermark.1 < height

/-- A vote that may be pooled: one for an active block above the watermark, signed by a member of
the set that judges it. -/
structure Eligible (node : NodeState S) (vote : Vote) (set : ValidatorSet) : Prop where
  above : node.Open vote.height
  judges : Judges node.chain vote.height vote.blockId set
  member : vote.validator ∈ set.map Prod.fst
  signed : vote.verify S.toCryptoSuite = true

/-- The node with one more vote in its pool. -/
def pool (node : NodeState S) (vote : Vote) : NodeState S :=
  { node with
    votes := Function.update node.votes (vote.height, vote.blockId)
      ((node.votes (vote.height, vote.blockId)).insert vote.validator vote.sig) }

/-- What is pooled for a block that can still be certified are votes of members of its set, and not
enough of them. -/
structure Sound (node : NodeState S) : Prop where
  tracks : ∃ genesis : TreeNode, genesis.height = 0 ∧
    ∃ v : (blockRules S genesis).View, Tracks node.chain v
  sets : SetsDistinct node.chain
  known : ∀ height id validator, (node.votes (height, id)).contains validator = true →
    node.chain.tree[id]? ≠ none
  valid : ∀ height id set, Judges node.chain height id set → ∀ validator sig,
    (node.votes (height, id))[validator]? = some sig → validator ∈ set.map Prod.fst ∧
      (⟨id, height, validator, sig⟩ : Vote).verify S.toCryptoSuite = true
  short : ∀ height id set, Judges node.chain height id set → node.Open height →
    ¬ HasQuorum set (node.votes (height, id)).contains

/-- The ways to deal with a vote. -/
inductive AddsVote (node : NodeState S) (bytes : Bytes) :
    (Bool × Option Bytes) × NodeState S → Prop where
  | ignored : (∀ vote set, decodeVote bytes = some vote → node.Eligible vote set →
      (node.votes (vote.height, vote.blockId)).contains vote.validator = true) →
    AddsVote node bytes ((false, none), node)
  | pooled {vote : Vote} {set : ValidatorSet} :
    decodeVote bytes = some vote → node.Eligible vote set →
      (node.votes (vote.height, vote.blockId)).contains vote.validator = false →
      ¬ HasQuorum set ((node.pool vote).votes (vote.height, vote.blockId)).contains →
      AddsVote node bytes ((true, none), node.pool vote)
  | certified {vote : Vote} {set : ValidatorSet} {cert : Certificate} {chain' : Blockchain S} :
    decodeVote bytes = some vote → node.Eligible vote set →
      HasQuorum set ((node.pool vote).votes (vote.height, vote.blockId)).contains →
      cert = ⟨vote.blockId, vote.height,
        ((node.pool vote).votes (vote.height, vote.blockId)).toList⟩ →
      cert.verify S.toCryptoSuite set = true →
      node.chain.tryFinalize cert = (true, chain') →
      AddsVote node bytes ((true, some cert.encode),
        { node.pool vote with chain := chain' }.retainAbove vote.height)

section AddVote

variable {node : NodeState S} {bytes : Bytes} {vote : Vote} {set : ValidatorSet}

theorem votes_pool_self :
    (node.pool vote).votes (vote.height, vote.blockId) =
      (node.votes (vote.height, vote.blockId)).insert vote.validator vote.sig :=
  Function.update_self ..

theorem votes_pool_of_ne {place : UInt64 × Bytes32} (hother : place ≠ (vote.height, vote.blockId)) :
    (node.pool vote).votes place = node.votes place :=
  Function.update_of_ne hother ..

/-- The stakes of distinct members sum to what they hold of the set. -/
theorem sum_stakeOf_of_subset (hdistinct : (set.map Prod.fst).Nodup) {ids : List Bytes32}
    (hnodup : ids.Nodup) (hinside : ∀ id ∈ ids, id ∈ set.map Prod.fst) {voted : Bytes32 → Bool}
    (hvoted : ∀ id, voted id = true ↔ id ∈ ids) :
    (ids.map (stakeOf set)).sum = totalStake (set.filter fun member ↦ voted member.1) := by
  have hsublist : (set.filter fun member ↦ voted member.1).Sublist set := List.filter_sublist
  have hperm : ids.Perm ((set.filter fun member ↦ voted member.1).map Prod.fst) := by
    apply (List.perm_ext_iff_of_nodup hnodup (hdistinct.sublist (hsublist.map Prod.fst))).mpr
    intro id
    constructor
    · intro hid
      obtain ⟨member, hmember, rfl⟩ := List.mem_map.mp (hinside id hid)
      exact List.mem_map_of_mem (List.mem_filter.mpr ⟨hmember, (hvoted _).mpr hid⟩)
    · intro hid
      obtain ⟨member, hmember, rfl⟩ := List.mem_map.mp hid
      exact (hvoted _).mp (List.mem_filter.mp hmember).2
  calc (ids.map (stakeOf set)).sum
      = (((set.filter fun member ↦ voted member.1).map Prod.fst).map (stakeOf set)).sum :=
        (hperm.map _).sum_eq
    _ = totalStake (set.filter fun member ↦ voted member.1) := by
        rw [List.map_map, totalStake]
        exact congrArg List.sum (List.map_congr_left fun member hmember ↦
          stakeOf_of_mem hdistinct (hsublist.subset hmember))

/-- A bucket of votes of members that carry a quorum makes a certificate. -/
theorem verify_of_hasQuorum (hdistinct : (set.map Prod.fst).Nodup) {id : Bytes32} {height : UInt64}
    {bucket : VoteBucket}
    (hvalid : ∀ validator sig, bucket[validator]? = some sig → validator ∈ set.map Prod.fst ∧
      (⟨id, height, validator, sig⟩ : Vote).verify S.toCryptoSuite = true)
    (hquorum : HasQuorum set bucket.contains) :
    (⟨id, height, bucket.toList⟩ : Certificate).verify S.toCryptoSuite set = true := by
  have hentry : ∀ entry ∈ bucket.toList, entry.1 ∈ set.map Prod.fst ∧
      (⟨id, height, entry.1, entry.2⟩ : Vote).verify S.toCryptoSuite = true := by
    intro entry hentry
    exact hvalid entry.1 entry.2 ((FMap.mem_toList bucket entry.1 entry.2).mp hentry)
  have hinside : ∀ validator ∈ bucket.toList.map Prod.fst, validator ∈ set.map Prod.fst := by
    intro validator hvalidator
    obtain ⟨entry, hmem, rfl⟩ := List.mem_map.mp hvalidator
    exact (hentry entry hmem).1
  have hkeys : ∀ validator, bucket.contains validator = true ↔
      validator ∈ bucket.toList.map Prod.fst := by
    intro validator
    rw [Std.ExtTreeMap.contains_eq_isSome_getElem?, Option.isSome_iff_exists, List.mem_map]
    constructor
    · rintro ⟨sig, hsig⟩
      exact ⟨(validator, sig), (FMap.mem_toList bucket validator sig).mpr hsig, rfl⟩
    · rintro ⟨⟨validator', sig⟩, hmem, rfl⟩
      exact ⟨sig, (FMap.mem_toList bucket validator' sig).mp hmem⟩
  apply Certificate.verify_eq_true.mpr
  refine ⟨FMap.nodup_keys bucket, hinside, fun entry hmem ↦ (hentry entry hmem).2, ?_⟩
  rw [Certificate.signers, sum_stakeOf_of_subset hdistinct (FMap.nodup_keys bucket) hinside hkeys]
  exact hquorum

/-- What stands in the bucket of a vote after it is pooled are votes of members. -/
theorem Sound.valid_pool (h : node.Sound) (heligible : node.Eligible vote set) :
    ∀ validator sig, ((node.pool vote).votes (vote.height, vote.blockId))[validator]? = some sig →
      validator ∈ set.map Prod.fst ∧
        (⟨vote.blockId, vote.height, validator, sig⟩ : Vote).verify S.toCryptoSuite = true := by
  intro validator sig hsig
  rw [votes_pool_self, FMap.lookup_insert] at hsig
  split at hsig
  · next hsame =>
    rw [hsame, ← Option.some.inj hsig]
    exact ⟨heligible.member, heligible.signed⟩
  · exact h.valid _ _ _ heligible.judges validator sig hsig

theorem open_iff (node : NodeState S) (height : UInt64) :
    node.Open height ↔
      ¬ (node.chain.finalized.any fun watermark ↦ height ≤ watermark.1) = true := by
  rw [Open]
  cases node.chain.finalized with
  | none => simp
  | some watermark => simp [UInt64.not_le]

/-- A vote that is not eligible is ignored. -/
theorem addVote_ineligible (hvote : decodeVote bytes = some vote)
    (hineligible : ∀ set, ¬ node.Eligible vote set) :
    node.addVote bytes = ((false, none), node) := by
  rw [addVote, hvote]
  dsimp only
  split
  · rfl
  next hopen =>
  split
  · rfl
  next hactive =>
  split
  · rfl
  next set hset =>
  split
  · rfl
  next hsigned =>
  rw [not_or, not_not, not_not] at hsigned
  refine absurd ?_ (hineligible set)
  constructor
  · exact (open_iff node vote.height).mpr hopen
  · exact ⟨not_not.mp hactive, hset⟩
  · obtain ⟨member, hmember, hsame⟩ := List.any_eq_true.mp hsigned.1
    rw [← of_decide_eq_true hsame]
    exact List.mem_map_of_mem hmember
  · exact hsigned.2

/-- An eligible vote that is not in the pool is pooled, and may complete a certificate. -/
theorem addVote_eligible (hvote : decodeVote bytes = some vote)
    (heligible : node.Eligible vote set) :
    node.addVote bytes =
      if (node.votes (vote.height, vote.blockId)).contains vote.validator then
        ((false, none), node)
      else if 2 * totalStake set < 3 * totalStake (set.filter fun member ↦
          ((node.pool vote).votes (vote.height, vote.blockId)).contains member.1) then
        match node.chain.tryFinalize ⟨vote.blockId, vote.height,
            ((node.pool vote).votes (vote.height, vote.blockId)).toList⟩ with
        | (true, chain) =>
          ((true, some (Certificate.encode ⟨vote.blockId, vote.height,
              ((node.pool vote).votes (vote.height, vote.blockId)).toList⟩)),
            { node.pool vote with chain := chain }.retainAbove vote.height)
        | (false, chain) => ((true, none), { node.pool vote with chain := chain })
      else ((true, none), node.pool vote) := by
  have hmember : (set.any fun member ↦ member.1 = vote.validator) = true := by
    obtain ⟨member, hmember, hsame⟩ := List.mem_map.mp heligible.member
    exact List.any_eq_true.mpr ⟨member, hmember, decide_eq_true hsame⟩
  have hsigned : ¬ (¬ (set.any fun member ↦ member.1 = vote.validator) = true ∨
      ¬ vote.verify S.toCryptoSuite = true) := by
    rw [not_or, not_not, not_not]
    exact ⟨hmember, heligible.signed⟩
  rw [addVote, hvote]
  dsimp only
  rw [if_neg ((open_iff node vote.height).mp heligible.above),
    if_neg (not_not.mpr heligible.judges.active), heligible.judges.recent]
  dsimp only
  rw [if_neg hsigned, votes_pool_self]
  rfl

/-- What a sound node does with a vote. -/
theorem addsVote (h : node.Sound) (bytes : Bytes) : node.AddsVote bytes (node.addVote bytes) := by
  cases hvote : decodeVote bytes with
  | none =>
    have hignored : node.addVote bytes = ((false, none), node) := by rw [addVote, hvote]
    rw [hignored]
    refine .ignored fun vote set hsome ↦ ?_
    exact nomatch hvote.symm.trans hsome
  | some vote =>
    by_cases heligible : ∃ set, node.Eligible vote set
    swap
    · rw [addVote_ineligible hvote (not_exists.mp heligible)]
      refine .ignored fun other set hother hset ↦ ?_
      obtain rfl := Option.some.inj (hvote.symm.trans hother)
      exact absurd ⟨set, hset⟩ heligible
    obtain ⟨set, heligible⟩ := heligible
    rw [addVote_eligible hvote heligible]
    split
    · next hpooled =>
      refine .ignored fun other set hother hset ↦ ?_
      obtain rfl := Option.some.inj (hvote.symm.trans hother)
      exact hpooled
    next hnew =>
    split
    swap
    · next hshort => exact .pooled hvote heligible (Bool.eq_false_iff.mpr hnew) hshort
    next hquorum =>
    have hverify := verify_of_hasQuorum (h.sets.nodup heligible.judges)
      (h.valid_pool heligible) hquorum
    have hcertifies : node.chain.Certifies ⟨vote.blockId, vote.height,
        ((node.pool vote).votes (vote.height, vote.blockId)).toList⟩ :=
      ⟨fun height id hwatermark ↦ heligible.above (height, id) hwatermark,
        heligible.judges.active, set, heligible.judges.recent, hverify⟩
    obtain ⟨chain', hadopted⟩ := hcertifies.tryFinalize
    rw [hadopted]
    exact .certified hvote heligible hquorum rfl hverify hadopted

/-! ### The pool stays sound -/

theorem not_hasQuorum_empty (set : ValidatorSet) :
    ¬ HasQuorum set (∅ : VoteBucket).contains := by
  have hnone : (set.filter fun member ↦ (∅ : VoteBucket).contains member.1) = [] := by
    apply List.filter_eq_nil_iff.mpr
    intro member _
    simp
  rw [HasQuorum, hnone]
  exact Nat.not_lt_zero _

/-- A node is sound when its pool holds, of each block that is judged, what a sound node pooled for
it or nothing. -/
theorem Sound.carry {node' : NodeState S} (h : node.Sound)
    (htracks : ∃ genesis : TreeNode, genesis.height = 0 ∧
      ∃ v : (blockRules S genesis).View, Tracks node'.chain v)
    (hsets : SetsDistinct node'.chain)
    (hknown : ∀ height id validator, (node'.votes (height, id)).contains validator = true →
      node'.chain.tree[id]? ≠ none)
    (hopen : ∀ height, node'.Open height → node.Open height)
    (hvotes : ∀ height id set, Judges node'.chain height id set →
      Judges node.chain height id set ∧ node'.votes (height, id) = node.votes (height, id) ∨
        node'.votes (height, id) = ∅) : node'.Sound := by
  constructor
  · exact htracks
  · exact hsets
  · exact hknown
  · intro height id set hjudges validator sig hsig
    rcases hvotes height id set hjudges with ⟨hjudged, hsame⟩ | hempty
    · rw [hsame] at hsig
      exact h.valid height id set hjudged validator sig hsig
    · rw [hempty] at hsig
      simp at hsig
  · intro height id set hjudges habove
    rcases hvotes height id set hjudges with ⟨hjudged, hsame⟩ | hempty
    · rw [hsame]
      exact h.short height id set hjudged (hopen height habove)
    · rw [hempty]
      exact not_hasQuorum_empty set

/-- An active block is known. -/
theorem Sound.known_of_judges (h : node.Sound) {height : UInt64} {id : Bytes32}
    (hjudges : Judges node.chain height id set) : node.chain.tree[id]? ≠ none := by
  obtain ⟨genesis, -, v, htracks⟩ := h.tracks
  have hmem := List.mem_of_getElem? hjudges.active
  rw [htracks.active] at hmem
  exact htracks.isSome_of_mem_path htracks.formed.active hmem

/-- A bucket of a block that is not known is empty. -/
theorem Sound.votes_unknown (h : node.Sound) {id : Bytes32} (hnew : node.chain.tree[id]? = none)
    (height : UInt64) : node.votes (height, id) = ∅ := by
  apply FMap.ext
  intro validator
  by_contra hsome
  refine h.known height id validator ?_ hnew
  rw [Std.ExtTreeMap.contains_eq_isSome_getElem?, Option.isSome_iff_ne_none]
  simpa using hsome

/-- A pooled vote keeps a node sound as long as its block is short of a quorum. -/
theorem Sound.pool (h : node.Sound) (heligible : node.Eligible vote set)
    (hshort : ¬ HasQuorum set ((node.pool vote).votes (vote.height, vote.blockId)).contains) :
    (node.pool vote).Sound := by
  constructor
  · exact h.tracks
  · exact h.sets
  · intro height id validator hpooled
    by_cases hplace : (height, id) = (vote.height, vote.blockId)
    · rw [(Prod.mk.inj hplace).2]
      exact h.known_of_judges heligible.judges
    · rw [votes_pool_of_ne hplace] at hpooled
      exact h.known height id validator hpooled
  · intro height id set' hjudges validator sig hsig
    by_cases hplace : (height, id) = (vote.height, vote.blockId)
    · obtain ⟨rfl, rfl⟩ := Prod.mk.inj hplace
      obtain ⟨-, rfl⟩ := hjudges.unique heligible.judges
      exact h.valid_pool heligible validator sig hsig
    · rw [votes_pool_of_ne hplace] at hsig
      exact h.valid height id set' hjudges validator sig hsig
  · intro height id set' hjudges habove
    by_cases hplace : (height, id) = (vote.height, vote.blockId)
    · obtain ⟨rfl, rfl⟩ := Prod.mk.inj hplace
      obtain ⟨-, rfl⟩ := hjudges.unique heligible.judges
      exact hshort
    · rw [votes_pool_of_ne hplace]
      exact h.short height id set' hjudges habove

/-- A node is sound after its chain finalizes a block, whether or not it forgets the votes up to its
height. -/
theorem Sound.tryFinalize (h : node.Sound) (cert : Certificate)
    {votes : UInt64 × Bytes32 → VoteBucket}
    (hvotes : ∀ place, votes place = node.votes place ∨ votes place = ∅)
    (key : Option ValidatorKey) :
    Sound ⟨(node.chain.tryFinalize cert).2, votes, key⟩ := by
  have hsame : (node.chain.tryFinalize cert).2.tree = node.chain.tree ∧
      (node.chain.tryFinalize cert).2.activeChain = node.chain.activeChain ∧
      (node.chain.tryFinalize cert).2.recentSets = node.chain.recentSets ∧
      ∀ height, Open ⟨(node.chain.tryFinalize cert).2, votes, key⟩ height → node.Open height := by
    rcases node.chain.tryFinalize_cases cert with hrefused | ⟨hcertifies, disk, hadopted⟩
    · rw [hrefused]
      exact ⟨rfl, rfl, rfl, fun height habove ↦ habove⟩
    · rw [hadopted]
      refine ⟨rfl, rfl, rfl, fun height habove watermark hwatermark ↦ ?_⟩
      exact UInt64.lt_trans (hcertifies.later _ _ hwatermark) (habove _ rfl)
  obtain ⟨htree, hactive, hrecent, hopen⟩ := hsame
  apply h.carry
  · obtain ⟨genesis, hzero, v, htracks⟩ := h.tracks
    obtain ⟨v', -, htracks'⟩ := htracks.tryFinalize cert
    exact ⟨genesis, hzero, v', htracks'⟩
  · show SetsDistinct (node.chain.tryFinalize cert).2
    rw [SetsDistinct, hrecent]
    exact h.sets
  · intro height id validator hpooled
    show (node.chain.tryFinalize cert).2.tree[id]? ≠ none
    rw [htree]
    change (votes (height, id)).contains validator = true at hpooled
    rcases hvotes (height, id) with hsame | hempty
    · rw [hsame] at hpooled
      exact h.known height id validator hpooled
    · rw [hempty] at hpooled
      simp at hpooled
  · exact hopen
  · intro height id set hjudges
    have hjudged := (judges_congr hactive hrecent).mp hjudges
    rcases hvotes (height, id) with hsame | hempty
    · exact .inl ⟨hjudged, hsame⟩
    · exact .inr hempty

/-- A node is sound after its chain accepts a block. -/
theorem Sound.accepts (h : node.Sound) {block : Block S} {chain' : Blockchain S}
    (haccepts : node.chain.Accepts block chain') : Sound { node with chain := chain' } := by
  obtain ⟨genesis, hzero, v, htracks⟩ := h.tracks
  obtain ⟨v', hmove, htracks', -⟩ := htracks.accepts hzero haccepts
  have hfinalized : chain'.finalized = node.chain.finalized := by
    cases haccepts with
    | known => rfl
    | extend => rfl
    | switch _ _ _ _ _ _ hmoved =>
      obtain ⟨state, disk, rfl⟩ := rehomeState_eq hmoved
      rfl
    | aside => rfl
  apply h.carry
  · exact ⟨genesis, hzero, v', htracks'⟩
  · exact h.sets.accepts haccepts
  · intro height id validator hpooled hgone
    have hbefore := h.known height id validator hpooled
    rw [ne_eq, htracks.isSome_tree htracks.formed.toClosed] at hbefore
    obtain ⟨branch, hknown⟩ := Option.ne_none_iff_exists'.mp hbefore
    have hlater := (htracks'.isSome_tree htracks'.formed.toClosed id).mp hgone
    exact nomatch (hmove.known hknown).symm.trans hlater
  · intro height habove watermark hwatermark
    refine habove watermark ?_
    show chain'.finalized = some watermark
    rw [hfinalized, hwatermark]
  · intro height id set hjudges
    rcases judges_of_accepts hzero htracks haccepts hjudges with hjudged | hnew
    · exact .inl ⟨hjudged, rfl⟩
    · exact .inr (h.votes_unknown hnew height)

/-- A vote keeps a node sound. -/
theorem Sound.addVote (h : node.Sound) (bytes : Bytes) : (node.addVote bytes).2.Sound := by
  have hadds := addsVote h bytes
  generalize node.addVote bytes = result at hadds ⊢
  cases hadds with
  | ignored _ => exact h
  | pooled _ heligible _ hshort => exact h.pool heligible hshort
  | @certified vote set cert chain' _ _ _ _ _ hadopted =>
    have hchain : chain' = (node.chain.tryFinalize cert).2 := by rw [hadopted]
    rw [hchain]
    refine h.tryFinalize cert (fun place ↦ ?_) node.validatorKey
    by_cases habove : vote.height < place.1
    · left
      rw [if_pos habove]
      refine votes_pool_of_ne fun hplace ↦ ?_
      rw [hplace] at habove
      exact UInt64.lt_irrefl _ habove
    · right
      exact if_neg habove

/-- A certificate of a peer keeps a node sound. -/
theorem Sound.acceptCert (h : node.Sound) (bytes : Bytes) : (node.acceptCert bytes).2.Sound := by
  unfold NodeState.acceptCert
  split
  · exact h
  next cert hcert =>
  have hkept : ∀ place, node.votes place = node.votes place ∨ node.votes place = ∅ :=
    fun place ↦ .inl rfl
  have hforgotten : ∀ place, (if cert.height < place.1 then node.votes place else ∅) =
      node.votes place ∨ (if cert.height < place.1 then node.votes place else ∅) = ∅ := by
    intro place
    by_cases habove : cert.height < place.1
    · exact .inl (if_pos habove)
    · exact .inr (if_neg habove)
  split
  · next chain' hadopted =>
    have hchain : chain' = (node.chain.tryFinalize cert).2 := by rw [hadopted]
    rw [hchain]
    exact h.tryFinalize cert hforgotten node.validatorKey
  · next chain' hrefused =>
    have hchain : chain' = (node.chain.tryFinalize cert).2 := by rw [hrefused]
    rw [hchain]
    exact h.tryFinalize cert hkept node.validatorKey

/-- Whatever happens to a node keeps it sound. -/
theorem Sound.step {node' : NodeState S} (h : node.Sound) (hstep : node.Step node') :
    node'.Sound := by
  cases hstep with
  | addVote bytes => exact h.addVote bytes
  | acceptCert bytes => exact h.acceptCert bytes
  | castVote =>
    unfold NodeState.castVote
    split
    · exact h
    next key hkey =>
    have hcast := h.addVote
      (encodeVote (key.signVote node.chain.activeTip node.chain.activeHeight))
    dsimp only
    split
    · next hresult =>
      rw [hresult] at hcast
      exact hcast
    · next hresult =>
      rw [hresult] at hcast
      exact hcast
  | setValidatorKey key => exact ⟨h.tracks, h.sets, h.known, h.valid, h.short⟩
  | chain hchain =>
    cases hchain with
    | applyOk block hrun => exact h.accepts (Blockchain.accepts_of_ok hrun)
    | applyErr block e hrun =>
      rw [Blockchain.eq_of_applyBlock_err hrun]
      exact h
    | tryFinalize cert => exact h.tryFinalize cert (fun place ↦ .inl rfl) node.validatorKey

end AddVote

section Runs

variable {workers : ℕ} {premine publicPremine : List (Bytes32 × UInt64)} {difficulty : UInt64}
  {chain chain' : Blockchain S} {node : NodeState S}

/-- The recorded sets of a chain that a node can have. -/
theorem setsDistinct_of_reachable
    (hreach : Blockchain.Reachable workers premine publicPremine difficulty chain) :
    SetsDistinct chain := by
  induction hreach with
  | genesis hchain =>
    obtain ⟨state, -, hroot⟩ := Option.bind_eq_some_iff.mp hchain
    obtain ⟨answer, -, rfl⟩ := Option.map_eq_some_iff.mp hroot
    exact setsDistinct_noteValidatorSet fun entry hentry ↦ absurd hentry List.not_mem_nil
  | openNew hchain =>
    obtain ⟨start, -, hrest⟩ := Option.bind_eq_some_iff.mp hchain
    obtain ⟨moved, -, rfl⟩ := Option.map_eq_some_iff.mp hrest
    exact setsDistinct_noteValidatorSet fun entry hentry ↦ absurd hentry List.not_mem_nil
  | step _ hstep ih =>
    cases hstep with
    | applyOk block hrun => exact ih.accepts (Blockchain.accepts_of_ok hrun)
    | applyErr block e hrun =>
      rw [Blockchain.eq_of_applyBlock_err hrun]
      exact ih
    | tryFinalize cert =>
      rcases Blockchain.tryFinalize_cases _ cert with hrefused | ⟨-, disk, hadopted⟩
      · rw [hrefused]
        exact ih
      · rw [hadopted]
        exact ih

/-- Every node that runs on a chain from its genesis parameters on is sound. -/
theorem Reachable.sound (hreach : Reachable workers premine publicPremine difficulty node) :
    node.Sound := by
  induction hreach with
  | @new chain hchain =>
    obtain ⟨genesis, hgenesis, v, htracks⟩ := tracks_of_reachable hchain
    constructor
    · exact ⟨genesis, genesisOf_height hgenesis, v, htracks⟩
    · exact setsDistinct_of_reachable hchain
    · intro height id validator hpooled
      exact absurd hpooled (by simp [NodeState.new])
    · intro height id set _ validator sig hsig
      exact absurd hsig (by simp [NodeState.new])
    · intro height id set _ _
      exact not_hasQuorum_empty set
  | step _ hstep ih => exact ih.step hstep

end Runs

/-! ### Lists of votes -/

/-- Give a node strings as votes, one after another. -/
def feed (node : NodeState S) (ballots : List Bytes) : NodeState S :=
  ballots.foldl (fun node bytes ↦ (node.addVote bytes).2) node

/-- Whether a string is a valid vote of a validator for a block. -/
def votesFor (C : CryptoSuite) (height : UInt64) (id validator : Bytes32) (bytes : Bytes) : Bool :=
  match decodeVote bytes with
  | none => false
  | some vote =>
    vote.height = height ∧ vote.blockId = id ∧ vote.validator = validator ∧ vote.verify C

/-- Whether a validator has voted for a block: in the pool of the node, or in a list of strings. -/
def supports (node : NodeState S) (ballots : List Bytes) (height : UInt64)
    (id validator : Bytes32) : Bool :=
  (node.votes (height, id)).contains validator ||
    ballots.any (votesFor S.toCryptoSuite height id validator)

/-- The votes for the active block of a height inside the recent window carry a quorum of its
set. -/
def Carried (node : NodeState S) (ballots : List Bytes) (height : UInt64) : Prop :=
  ∃ id set, Judges node.chain height id set ∧ HasQuorum set (node.supports ballots height id)

/-- A height is the watermark of the node, or the votes carry it. -/
def FinalAt (node : NodeState S) (ballots : List Bytes) (height : UInt64) : Prop :=
  (∃ id, node.chain.finalized = some (height, id)) ∨ node.Carried ballots height

/-- The greatest of these heights, with its active block. -/
structure IsWatermark (node : NodeState S) (ballots : List Bytes)
    (final : Option (UInt64 × Bytes32)) : Prop where
  bound : ∀ height, node.FinalAt ballots height → ∃ top, final = some top ∧ height ≤ top.1
  reached : ∀ top, final = some top →
    node.FinalAt ballots top.1 ∧ node.chain.activeChain[top.1.toNat]? = some top.2

/-- What a node has after a list of votes: the same active branch, a watermark that the votes carry,
and above it a pool of all votes of members. -/
structure Tallied (node : NodeState S) (ballots : List Bytes) (current : NodeState S) : Prop where
  sound : current.Sound
  active : current.chain.activeChain = node.chain.activeChain
  recent : current.chain.recentSets = node.chain.recentSets
  grown : ∀ height, current.Open height → node.Open height
  carried : ∀ top, current.chain.finalized = some top → node.FinalAt ballots top.1
  counted : ∀ height id set, Judges node.chain height id set → current.Open height →
    ∀ validator ∈ set.map Prod.fst,
      (current.votes (height, id)).contains validator = node.supports ballots height id validator

section Feed

variable {node current : NodeState S} {ballots : List Bytes} {bytes : Bytes} {vote : Vote}
  {set : ValidatorSet} {height : UInt64} {id validator : Bytes32}

theorem hasQuorum_congr {voted voted' : Bytes32 → Bool}
    (hsame : ∀ validator ∈ set.map Prod.fst, voted validator = voted' validator) :
    HasQuorum set voted ↔ HasQuorum set voted' := by
  have hfilter : (set.filter fun member ↦ voted member.1) =
      set.filter fun member ↦ voted' member.1 :=
    List.filter_congr fun member hmember ↦ hsame member.1 (List.mem_map_of_mem hmember)
  rw [HasQuorum, hfilter, HasQuorum]

theorem HasQuorum.mono {voted voted' : Bytes32 → Bool} (h : HasQuorum set voted)
    (hmore : ∀ validator, voted validator = true → voted' validator = true) :
    HasQuorum set voted' := by
  have hsublist : (set.filter fun member ↦ voted member.1).Sublist
      (set.filter fun member ↦ voted' member.1) :=
    List.monotone_filter_right set fun member hvoted ↦ hmore member.1 hvoted
  have hle : totalStake (set.filter fun member ↦ voted member.1) ≤
      totalStake (set.filter fun member ↦ voted' member.1) :=
    (hsublist.map fun member : Bytes32 × UInt64 ↦ member.2.toNat).sum_le_sum
      fun _ _ ↦ Nat.zero_le _
  exact lt_of_lt_of_le h (Nat.mul_le_mul_left 3 hle)

theorem supports_append :
    node.supports (ballots ++ [bytes]) height id validator =
      (node.supports ballots height id validator ||
        votesFor S.toCryptoSuite height id validator bytes) := by
  rw [supports, supports, List.any_append, Bool.or_assoc]
  simp

theorem votesFor_eq_true (hvote : decodeVote bytes = some vote) :
    votesFor S.toCryptoSuite height id validator bytes = true ↔
      vote.height = height ∧ vote.blockId = id ∧ vote.validator = validator ∧
        vote.verify S.toCryptoSuite = true := by
  rw [votesFor, hvote]
  exact decide_eq_true_iff

theorem FinalAt.append (h : node.FinalAt ballots height) (bytes : Bytes) :
    node.FinalAt (ballots ++ [bytes]) height := by
  rcases h with hinitial | ⟨id, set, hjudges, hquorum⟩
  · exact .inl hinitial
  · refine .inr ⟨id, set, hjudges, hquorum.mono fun validator hsupports ↦ ?_⟩
    rw [supports_append, hsupports, Bool.true_or]

theorem tallied_start (h : node.Sound) : Tallied node [] node := by
  constructor
  · exact h
  · rfl
  · rfl
  · exact fun _ habove ↦ habove
  · exact fun top htop ↦ .inl ⟨top.2, htop⟩
  · intro height id set _ _ validator _
    rw [supports, List.any_nil, Bool.or_false]

theorem Tallied.judges_iff (h : Tallied node ballots current) :
    Judges current.chain height id set ↔ Judges node.chain height id set :=
  judges_congr h.active h.recent

/-- The bucket of a vote after it is pooled has the members that have voted for its block. -/
theorem Tallied.counted_pool (h : Tallied node ballots current)
    (hvote : decodeVote bytes = some vote) (heligible : current.Eligible vote set) :
    ∀ validator ∈ set.map Prod.fst,
      ((current.pool vote).votes (vote.height, vote.blockId)).contains validator =
        node.supports (ballots ++ [bytes]) vote.height vote.blockId validator := by
  intro validator hvalidator
  have hbefore := h.counted vote.height vote.blockId set (h.judges_iff.mp heligible.judges)
    heligible.above validator hvalidator
  have hthis : votesFor S.toCryptoSuite vote.height vote.blockId validator bytes =
      decide (vote.validator = validator) := by
    rw [Bool.eq_iff_iff, votesFor_eq_true hvote, decide_eq_true_iff]
    simp [heligible.signed]
  have hinsert : ((current.votes (vote.height, vote.blockId)).insert vote.validator
      vote.sig).contains validator =
        ((current.votes (vote.height, vote.blockId)).contains validator ||
          decide (vote.validator = validator)) := by
    rw [Std.ExtTreeMap.contains_eq_isSome_getElem?, Std.ExtTreeMap.contains_eq_isSome_getElem?,
      FMap.lookup_insert]
    by_cases hsame : vote.validator = validator
    · simp [hsame]
    · simp [hsame, Ne.symm hsame]
  rw [votes_pool_self, hinsert, supports_append, hbefore, hthis]

/-- What is above the watermark and not the block of a vote keeps its votes. -/
theorem supports_append_of_ne (hvote : decodeVote bytes = some vote)
    (hother : (height, id) ≠ (vote.height, vote.blockId)) :
    node.supports (ballots ++ [bytes]) height id validator =
      node.supports ballots height id validator := by
  have hthis : votesFor S.toCryptoSuite height id validator bytes = false := by
    apply Bool.eq_false_iff.mpr
    intro hfor
    obtain ⟨hheight, hid, -⟩ := (votesFor_eq_true hvote).mp hfor
    exact hother (by rw [hheight, hid])
  rw [supports_append, hthis, Bool.or_false]

/-- One more vote is tallied. -/
theorem Tallied.addVote (h : Tallied node ballots current) (bytes : Bytes) :
    Tallied node (ballots ++ [bytes]) (current.addVote bytes).2 := by
  have hsound := h.sound.addVote bytes
  have hadds := addsVote h.sound bytes
  generalize current.addVote bytes = result at hsound hadds ⊢
  cases hadds with
  | ignored hignored =>
    refine ⟨hsound, h.active, h.recent, h.grown, fun top htop ↦ (h.carried top htop).append bytes,
      fun height id set hjudges habove validator hvalidator ↦ ?_⟩
    rw [h.counted height id set hjudges habove validator hvalidator, supports_append]
    by_cases hfor : votesFor S.toCryptoSuite height id validator bytes = true
    swap
    · rw [Bool.eq_false_iff.mpr hfor, Bool.or_false]
    -- A vote that would count is in the bucket already.
    cases hvote : decodeVote bytes with
    | none =>
      rw [votesFor, hvote] at hfor
      exact nomatch hfor
    | some vote =>
      obtain ⟨rfl, rfl, rfl, hsigned⟩ := (votesFor_eq_true hvote).mp hfor
      have hpooled := hignored vote set hvote
        ⟨habove, h.judges_iff.mpr hjudges, hvalidator, hsigned⟩
      rw [h.counted _ _ set hjudges habove _ hvalidator] at hpooled
      rw [hpooled, Bool.true_or]
  | @pooled vote set hvote heligible _ _ =>
    refine ⟨hsound, h.active, h.recent, h.grown, fun top htop ↦ (h.carried top htop).append bytes,
      fun height id set' hjudges habove validator hvalidator ↦ ?_⟩
    by_cases hplace : (height, id) = (vote.height, vote.blockId)
    · obtain ⟨rfl, rfl⟩ := Prod.mk.inj hplace
      obtain ⟨-, rfl⟩ := hjudges.unique (h.judges_iff.mp heligible.judges)
      exact h.counted_pool hvote heligible validator hvalidator
    · rw [supports_append_of_ne hvote hplace]
      show ((current.pool vote).votes (height, id)).contains validator = _
      rw [votes_pool_of_ne hplace]
      exact h.counted height id set' hjudges habove validator hvalidator
  | @certified vote set cert chain' hvote heligible hquorum hcert _ hadopted =>
    have hchain : chain'.activeChain = current.chain.activeChain ∧
        chain'.recentSets = current.chain.recentSets ∧
        chain'.finalized = some (vote.height, vote.blockId) := by
      rcases current.chain.tryFinalize_cases cert with hrefused | ⟨-, disk, hform⟩
      · exact nomatch (Prod.mk.inj (hadopted.symm.trans hrefused)).1
      · obtain ⟨-, rfl⟩ := Prod.mk.inj (hadopted.symm.trans hform)
        rw [hcert]
        exact ⟨rfl, rfl, rfl⟩
    obtain ⟨hactive, hrecent, hfinal⟩ := hchain
    constructor
    · exact hsound
    · exact hactive.trans h.active
    · exact hrecent.trans h.recent
    · intro height habove
      apply h.grown height
      intro watermark hwatermark
      exact UInt64.lt_trans (heligible.above watermark hwatermark) (habove _ hfinal)
    · intro top htop
      obtain rfl := Option.some.inj (hfinal.symm.trans htop)
      refine .inr ⟨vote.blockId, set, h.judges_iff.mp heligible.judges, ?_⟩
      exact (hasQuorum_congr (h.counted_pool hvote heligible)).mp hquorum
    · intro height id set' hjudges habove validator hvalidator
      have hbeyond : vote.height < height := habove _ hfinal
      have hplace : (height, id) ≠ (vote.height, vote.blockId) := by
        intro hsame
        rw [(Prod.mk.inj hsame).1] at hbeyond
        exact UInt64.lt_irrefl _ hbeyond
      have hopen : current.Open height := fun watermark hwatermark ↦
        UInt64.lt_trans (heligible.above watermark hwatermark) hbeyond
      rw [supports_append_of_ne hvote hplace]
      show (if vote.height < height then (current.pool vote).votes (height, id) else ∅).contains
        validator = _
      rw [if_pos hbeyond, votes_pool_of_ne hplace]
      exact h.counted height id set' hjudges hopen validator hvalidator

/-- A list of votes is tallied. -/
theorem tallied_feed (h : node.Sound) (ballots : List Bytes) :
    Tallied node ballots (node.feed ballots) := by
  induction ballots using List.reverseRecOn with
  | nil => exact tallied_start h
  | append_singleton ballots bytes ih =>
    rw [feed, List.foldl_append]
    exact ih.addVote bytes

/-- A finalized block is on the active branch. -/
theorem getElem?_finalized {chain : Blockchain S} {genesis : TreeNode}
    {v : (blockRules S genesis).View} (htracks : Tracks chain v)
    (hfinal : chain.finalized = some (height, id)) :
    chain.activeChain[height.toNat]? = some id := by
  have hfinalized := htracks.finalized
  rw [hfinal] at hfinalized
  rw [htracks.active, TreeRules.path_getElem?_eq_some]
  exact ⟨v.finalized, htracks.formed.finalized, hfinalized.1.symm, hfinalized.2.symm⟩

/-- The watermark after a list of votes. -/
theorem Tallied.isWatermark (h : Tallied node ballots current) :
    node.IsWatermark ballots current.chain.finalized := by
  constructor
  · intro height hfinal
    by_contra hbeyond
    have habove : current.Open height := by
      intro watermark hwatermark
      by_contra hlow
      exact hbeyond ⟨watermark, hwatermark, UInt64.not_lt.mp hlow⟩
    rcases hfinal with ⟨id, hinitial⟩ | ⟨id, set, hjudges, hquorum⟩
    · exact UInt64.lt_irrefl _ (h.grown height habove _ hinitial)
    · refine h.sound.short height id set (h.judges_iff.mpr hjudges) habove ?_
      exact (hasQuorum_congr (h.counted height id set hjudges habove)).mpr hquorum
  · intro top htop
    obtain ⟨genesis, -, v, htracks⟩ := h.sound.tracks
    refine ⟨h.carried top htop, ?_⟩
    rw [← h.active]
    exact getElem?_finalized htracks htop

/-- There is one watermark. -/
theorem IsWatermark.unique {final final' : Option (UInt64 × Bytes32)}
    (h : node.IsWatermark ballots final) (h' : node.IsWatermark ballots final') :
    final = final' := by
  cases final with
  | none =>
    cases final' with
    | none => rfl
    | some top =>
      obtain ⟨other, hother, -⟩ := h.bound top.1 (h'.reached top rfl).1
      exact nomatch hother
  | some top =>
    obtain ⟨hfinal, hactive⟩ := h.reached top rfl
    obtain ⟨other, rfl, hle⟩ := h'.bound top.1 hfinal
    obtain ⟨hfinal', hactive'⟩ := h'.reached other rfl
    obtain ⟨again, hagain, hle'⟩ := h.bound other.1 hfinal'
    obtain rfl := Option.some.inj hagain
    have hheight : top.1 = other.1 := UInt64.le_antisymm hle hle'
    rw [hheight, hactive'] at hactive
    rw [Prod.ext hheight (Option.some.inj hactive).symm]

/-- Votes count in any order. -/
theorem isWatermark_perm {ballots' : List Bytes} (hperm : ballots.Perm ballots')
    {final : Option (UInt64 × Bytes32)} (h : node.IsWatermark ballots final) :
    node.IsWatermark ballots' final := by
  have hsupports : node.supports ballots = node.supports ballots' := by
    funext height id validator
    rw [supports, supports, hperm.any_eq]
  have hfinal : node.FinalAt ballots = node.FinalAt ballots' := by
    funext height
    rw [FinalAt, FinalAt, Carried, Carried, hsupports]
  constructor
  · rw [← hfinal]
    exact h.bound
  · rw [← hfinal]
    exact h.reached

/-- A certificate that a vote completes is accepted by the set that judges its block. -/
theorem Tallied.certificate (h : Tallied node ballots current) {pooled : Bool} {certBytes : Bytes}
    (hreturned : (current.addVote bytes).1 = (pooled, some certBytes)) :
    ∃ (cert : Certificate) (set : ValidatorSet), certBytes = cert.encode ∧
      Judges node.chain cert.height cert.blockId set ∧
      cert.verify S.toCryptoSuite set = true ∧
      (set.length < 2 ^ 32 → decodeCertificate certBytes = some cert) := by
  have hadds := addsVote h.sound bytes
  generalize current.addVote bytes = result at hreturned hadds
  cases hadds with
  | ignored _ => exact nomatch (Prod.mk.inj hreturned).2
  | pooled _ _ _ _ => exact nomatch (Prod.mk.inj hreturned).2
  | @certified vote set cert chain' _ heligible _ hcert hverify _ =>
    obtain rfl := Option.some.inj (Prod.mk.inj hreturned).2
    refine ⟨cert, set, rfl, ?_, hverify, fun hlength ↦ decodeCertificate_encode ?_⟩
    · rw [hcert]
      exact h.judges_iff.mp heligible.judges
    · obtain ⟨hnodup, hinside, -, -⟩ := Certificate.verify_eq_true.mp hverify
      have hle : cert.signers.length ≤ (set.map Prod.fst).length :=
        (List.subperm_of_subset hnodup hinside).length_le
      rw [Certificate.signers, List.length_map, List.length_map] at hle
      omega

/-- Over any list of strings that a node is given as votes, its watermark becomes the greatest of
what it was and the heights inside the recent window at which the valid votes of members, together
with those pooled before, carry strictly more than two thirds of the stake of the set; it is the
same in any order; and every certificate that is returned on the way is accepted by that set. -/
theorem feed_watermark {workers : ℕ} {premine publicPremine : List (Bytes32 × UInt64)}
    {difficulty : UInt64}
    (hreach : Reachable workers premine publicPremine difficulty node) (ballots : List Bytes) :
    node.IsWatermark ballots (node.feed ballots).chain.finalized ∧
      (∀ ballots' : List Bytes, ballots'.Perm ballots →
        (node.feed ballots').chain.finalized = (node.feed ballots).chain.finalized) ∧
      ∀ (front back : List Bytes) (bytes : Bytes), ballots = front ++ bytes :: back →
        ∀ (pooled : Bool) (certBytes : Bytes),
          ((node.feed front).addVote bytes).1 = (pooled, some certBytes) →
            ∃ (cert : Certificate) (set : ValidatorSet), certBytes = cert.encode ∧
              Judges node.chain cert.height cert.blockId set ∧
              cert.verify S.toCryptoSuite set = true ∧
              (set.length < 2 ^ 32 → decodeCertificate certBytes = some cert) := by
  have hwatermark : ∀ list : List Bytes,
      node.IsWatermark list (node.feed list).chain.finalized := fun list ↦
    (tallied_feed hreach.sound list).isWatermark
  refine ⟨hwatermark ballots, ?_, ?_⟩
  · intro ballots' hperm
    exact (isWatermark_perm hperm (hwatermark ballots')).unique (hwatermark ballots)
  · intro front back bytes _ pooled certBytes hreturned
    exact (tallied_feed hreach.sound front).certificate hreturned

end Feed

end NodeState

/-! ### One validator's vote -/

/-- The vote of the only validator for the block that bonds its stake. -/
def stakerVote : Vote := ⟨stakeBlock.id, 1, 5, 5⟩

/-- Who has voted for a block at a node without pooled votes that is given the vote. -/
theorem supports_stakerVote (chain : Blockchain rootlessSuite) (height : UInt64)
    (id validator : Bytes32) :
    (NodeState.new chain).supports [[], encodeVote stakerVote] height id validator = true ↔
      1 = height ∧ stakeBlock.id = id ∧ 5 = validator := by
  have hsigned : stakerVote.verify rootlessSuite.toCryptoSuite = true := by decide +kernel
  have hblank : NodeState.votesFor rootlessSuite.toCryptoSuite height id validator [] = false := rfl
  have hpool : ((NodeState.new chain).votes (height, id)).contains validator = false := by
    simp [NodeState.new]
  rw [NodeState.supports, hpool, List.any_cons, hblank, List.any_cons, List.any_nil,
    Bool.false_or, Bool.false_or, Bool.or_false,
    NodeState.votesFor_eq_true (decodeVote_encodeVote stakerVote)]
  constructor
  · rintro ⟨hheight, hid, hvalidator, -⟩
    exact ⟨hheight, hid, hvalidator⟩
  · rintro ⟨hheight, hid, hvalidator⟩
    exact ⟨hheight, hid, hvalidator, hsigned⟩

theorem feed_watermark_staked : ∃ node : NodeState rootlessSuite,
    node.chain.finalized = none ∧
      (node.feed [[], encodeVote stakerVote]).chain.finalized = some (1, stakeBlock.id) ∧
      (node.feed [encodeVote stakerVote, []]).chain.finalized = some (1, stakeBlock.id) := by
  obtain ⟨chain, hreach, hactive, hset, hfinal⟩ := exists_staked
  obtain ⟨hwatermark, horder, -⟩ := NodeState.feed_watermark (.new hreach)
    [[], encodeVote stakerVote]
  have hcarried : (NodeState.new chain).Carried [[], encodeVote stakerVote] 1 := by
    refine ⟨stakeBlock.id, [(5, 100000000)], ⟨hactive, hset⟩, ?_⟩
    have hvoted := (supports_stakerVote chain 1 stakeBlock.id 5).mpr ⟨rfl, rfl, rfl⟩
    have hall : ([(5, 100000000)] : ValidatorSet).filter (fun member ↦
        (NodeState.new chain).supports [[], encodeVote stakerVote] 1 stakeBlock.id member.1) =
          [(5, 100000000)] :=
      List.filter_cons_of_pos hvoted
    rw [NodeState.HasQuorum, hall]
    decide
  obtain ⟨top, htop, hle⟩ := hwatermark.bound 1 (.inr hcarried)
  obtain ⟨hreached, hbranch⟩ := hwatermark.reached top htop
  have hheight : top.1 = 1 := by
    rcases hreached with ⟨id, hinitial⟩ | ⟨id, set, -, hquorum⟩
    · exact nomatch hfinal.symm.trans hinitial
    · by_contra hother
      have hnone : ∀ validator, ¬ (NodeState.new chain).supports
          [[], encodeVote stakerVote] top.1 id validator = true := fun validator hvoted ↦
        hother ((supports_stakerVote chain top.1 id validator).mp hvoted).1.symm
      have hempty : (set.filter fun member ↦ (NodeState.new chain).supports
          [[], encodeVote stakerVote] top.1 id member.1) = [] :=
        List.filter_eq_nil_iff.mpr fun member _ ↦ hnone member.1
      rw [NodeState.HasQuorum, hempty] at hquorum
      exact Nat.not_lt_zero _ hquorum
  have hfinalized : ((NodeState.new chain).feed
      [[], encodeVote stakerVote]).chain.finalized = some (1, stakeBlock.id) := by
    have hid : some top.2 = some stakeBlock.id := by
      rw [← hbranch, hheight]
      exact hactive
    rw [htop, ← hheight, ← Option.some.inj hid]
  refine ⟨NodeState.new chain, hfinal, hfinalized, ?_⟩
  rw [horder _ (List.Perm.swap ..), hfinalized]

end Latebra.P2p
