import Latebra.Chain.Growth

/-!
# The difficulty retarget

The difficulty of the next block is the current one times the target interval over the actual one,
kept within a factor of two and above zero. The product is computed on 128 bits and narrowed to 64
before it is clamped: when the narrowing drops bits, a fast block can lower the difficulty, and a
slower block can ask for more than a faster one. `retarget_lawful_iff` says that this happens
exactly from a third of the range of a word on. The clamp holds in any case, on every branch of
every chain that the node reaches.
-/

set_option autoImplicit false
set_option relaxedAutoImplicit false

namespace Latebra.Chain

open Foundation Crypto Latebra.Types State

/-! ### On numbers -/

theorem toNat_max (a b : UInt64) : (max a b).toNat = max a.toNat b.toNat := by
  rw [UInt64.max_def, Nat.max_def]
  simp only [UInt64.le_iff_toNat_le]
  split <;> rfl

theorem toNat_clamp (value lo hi : UInt64) :
    (clamp value lo hi).toNat =
      if value.toNat < lo.toNat then lo.toNat
      else if hi.toNat < value.toNat then hi.toNat else value.toNat := by
  unfold clamp
  simp only [UInt64.lt_iff_toNat_lt]
  split
  · rfl
  · split <;> rfl

/-- The upper end of the clamp is the product that saturates. -/
theorem toNat_saturating_clamp (current : UInt64) :
    (if current.toNat * RETARGET_CLAMP.toNat < 2 ^ 64 then current * RETARGET_CLAMP
      else maxU64).toNat = min (current.toNat * 2) (2 ^ 64 - 1) := by
  have hlt := current.toNat_lt
  have hclamp : RETARGET_CLAMP.toNat = 2 := rfl
  split
  · next hfits =>
    rw [UInt64.toNat_mul, Nat.mod_eq_of_lt hfits]
    rw [hclamp] at hfits ⊢
    omega
  · next hlarge =>
    rw [hclamp] at hlarge
    have hmax : maxU64.toNat = 2 ^ 64 - 1 := rfl
    omega

/-- The new difficulty as a number. The quotient is narrowed to a word. -/
theorem toNat_retarget (current actual : UInt64) :
    (retarget current actual).toNat =
      max (max (current.toNat / 2)
        (min (current.toNat * 3 / max actual.toNat 1 % 2 ^ 64)
          (min (current.toNat * 2) (2 ^ 64 - 1)))) 1 := by
  have hlt := current.toNat_lt
  have htarget : TARGET_BLOCK_TIME_SECS.toNat = 3 := rfl
  have hclamp : RETARGET_CLAMP.toNat = 2 := rfl
  unfold retarget
  simp only [toNat_max, toNat_clamp, toNat_saturating_clamp, UInt64.toNat_ofNat',
    UInt64.toNat_div, UInt64.toNat_one]
  rw [htarget, hclamp]
  split
  · omega
  · split <;> omega

/-! ### When the retarget does what it should -/

/-- Over every actual interval, the new difficulty stays within the clamp, falls as the interval
grows, and moves the way the interval says. -/
structure RetargetLawful (current : UInt64) : Prop where
  pos : ∀ actual, 1 ≤ (retarget current actual).toNat
  lower : ∀ actual,
    max 1 (current.toNat / RETARGET_CLAMP.toNat) ≤ (retarget current actual).toNat
  upper : ∀ actual,
    (retarget current actual).toNat ≤ min (current.toNat * RETARGET_CLAMP.toNat) (2 ^ 64 - 1)
  antitone : ∀ actual later, actual ≤ later → retarget current later ≤ retarget current actual
  fast : ∀ actual, actual < TARGET_BLOCK_TIME_SECS → current ≤ retarget current actual
  slow : ∀ actual, TARGET_BLOCK_TIME_SECS < actual → retarget current actual ≤ current

section Bounds

variable {current : UInt64} (hpos : 1 ≤ current.toNat) (actual : UInt64)

/-- The clamp and the floor hold whether or not bits are dropped. -/
theorem max_le_retarget :
    max 1 (current.toNat / RETARGET_CLAMP.toNat) ≤ (retarget current actual).toNat := by
  have hclamp : RETARGET_CLAMP.toNat = 2 := rfl
  rw [toNat_retarget, hclamp]
  omega

include hpos in
theorem retarget_le_min :
    (retarget current actual).toNat ≤ min (current.toNat * RETARGET_CLAMP.toNat) (2 ^ 64 - 1) := by
  have hlt := current.toNat_lt
  have hclamp : RETARGET_CLAMP.toNat = 2 := rfl
  rw [toNat_retarget, hclamp]
  omega

end Bounds

/-- Nothing is dropped when three times the difficulty fits in a word. -/
theorem lawful_of_fits {current : UInt64} (hpos : 1 ≤ current.toNat)
    (hfits : current.toNat * TARGET_BLOCK_TIME_SECS.toNat < 2 ^ 64) : RetargetLawful current := by
  have htarget : TARGET_BLOCK_TIME_SECS.toNat = 3 := rfl
  rw [htarget] at hfits
  have hkept : ∀ actual : UInt64,
      current.toNat * 3 / max actual.toNat 1 % 2 ^ 64 = current.toNat * 3 / max actual.toNat 1 :=
    fun actual ↦ Nat.mod_eq_of_lt ((Nat.div_le_self _ _).trans_lt hfits)
  constructor
  · exact fun actual ↦ retarget_pos current actual
  · exact max_le_retarget
  · exact retarget_le_min hpos
  · intro actual later hle
    have hmax : max actual.toNat 1 ≤ max later.toNat 1 :=
      max_le_max_right 1 (UInt64.le_iff_toNat_le.mp hle)
    have hquotient := Nat.div_le_div_left (a := current.toNat * 3) hmax (by omega)
    rw [UInt64.le_iff_toNat_le, toNat_retarget, toNat_retarget, hkept, hkept]
    omega
  · intro actual hfast
    have hshort : max actual.toNat 1 ≤ 3 := by
      have hlt := UInt64.lt_iff_toNat_lt.mp hfast
      omega
    have hquotient := Nat.div_le_div_left (a := current.toNat * 3) hshort (by omega)
    rw [Nat.mul_div_cancel _ (by norm_num)] at hquotient
    rw [UInt64.le_iff_toNat_le, toNat_retarget, hkept]
    omega
  · intro actual hslow
    have hlong : 3 ≤ max actual.toNat 1 := by
      have hlt := UInt64.lt_iff_toNat_lt.mp hslow
      omega
    have hquotient := Nat.div_le_div_left (a := current.toNat * 3) hlong (by norm_num)
    rw [Nat.mul_div_cancel _ (by norm_num)] at hquotient
    rw [UInt64.le_iff_toNat_le, toNat_retarget, hkept]
    omega

/-- Three times a number of a third of the range or more, narrowed to a word, is less than the
number, or less than half of three times the number. -/
theorem narrowed_lt {d : ℕ} (hlarge : 2 ^ 64 ≤ d * 3) (hlt : d < 2 ^ 64) :
    d * 3 % 2 ^ 64 < d ∨ d * 3 % 2 ^ 64 < d * 3 / 2 % 2 ^ 64 ∧ 2 ^ 63 ≤ d := by
  by_cases htwice : d * 3 < 2 * 2 ^ 64
  · have honce : d * 3 % 2 ^ 64 = d * 3 - 2 ^ 64 := by omega
    have hhalf : d * 3 / 2 % 2 ^ 64 = d * 3 / 2 := by omega
    rw [honce, hhalf]
    omega
  · have hagain : d * 3 % 2 ^ 64 = d * 3 - 2 * 2 ^ 64 := by omega
    rw [hagain]
    omega

/-- When three times the difficulty does not fit, an interval of one second asks for less than the
current difficulty, or for less than an interval of two seconds. -/
theorem not_lawful_of_drops {current : UInt64}
    (hlarge : 2 ^ 64 ≤ current.toNat * TARGET_BLOCK_TIME_SECS.toNat) :
    ¬ RetargetLawful current := by
  intro hlawful
  have hlt := current.toNat_lt
  have hfast := UInt64.le_iff_toNat_le.mp (hlawful.fast 1 (by decide))
  have hantitone := UInt64.le_iff_toNat_le.mp (hlawful.antitone 1 2 (by decide))
  have hone : max (1 : UInt64).toNat 1 = 1 := rfl
  have htwo : max (2 : UInt64).toNat 1 = 2 := rfl
  rw [toNat_retarget, hone, Nat.div_one] at hfast
  rw [toNat_retarget, toNat_retarget, hone, htwo, Nat.div_one] at hantitone
  rcases narrowed_lt hlarge hlt with hlower | ⟨hless, hhigh⟩
  · omega
  · omega

/-! ### Along a branch -/

/-- The seconds between two headers, zero when the clock ran back. -/
def interval (parent node : TreeNode) : UInt64 :=
  node.header.timestamp - min node.header.timestamp parent.header.timestamp

/-- How the difficulty of a block follows from that of its parent. -/
structure Retargets (parent node : TreeNode) : Prop where
  lower : max 1 (parent.childDifficulty.toNat / RETARGET_CLAMP.toNat) ≤ node.childDifficulty.toNat
  upper : node.childDifficulty.toNat ≤
    min (parent.childDifficulty.toNat * RETARGET_CLAMP.toNat) (2 ^ 64 - 1)
  direction : parent.childDifficulty.toNat * TARGET_BLOCK_TIME_SECS.toNat < 2 ^ 64 →
    (interval parent node < TARGET_BLOCK_TIME_SECS →
      parent.childDifficulty ≤ node.childDifficulty) ∧
    (TARGET_BLOCK_TIME_SECS < interval parent node →
      node.childDifficulty ≤ parent.childDifficulty)

theorem retargets_of_eq {parent node : TreeNode}
    (hretarget : node.childDifficulty = retarget parent.childDifficulty (interval parent node)) :
    Retargets parent node := by
  have hpos := parent.childDifficulty_pos
  constructor
  · rw [hretarget]
    exact max_le_retarget _
  · rw [hretarget]
    exact retarget_le_min hpos _
  · intro hfits
    rw [hretarget]
    have hlawful := lawful_of_fits hpos hfits
    exact ⟨hlawful.fast _, hlawful.slow _⟩

section Branches

variable {S : ChainSuite} {chain : Blockchain S} {workers : ℕ}
  {premine publicPremine : List (Bytes32 × UInt64)} {difficulty : UInt64}

/-- A block that passes the rules has the difficulty that its parent asks for. -/
theorem retarget_of_validate {parent node : TreeNode} {block : Block S}
    (hvalid : Blockchain.validate parent block = .ok node) :
    node.childDifficulty = retarget parent.childDifficulty (interval parent node) := by
  unfold Blockchain.validate at hvalid
  split at hvalid
  · cases hvalid
  split at hvalid
  · cases hvalid
  split at hvalid
  · cases hvalid
  split at hvalid
  · cases hvalid
  split at hvalid
  · cases hvalid
  obtain rfl := Outcome.ok.inj hvalid
  rfl

/-- Every block of a chain but the first has its parent in the chain, and the difficulty that the
parent asks for. -/
theorem Blockchain.Reachable.retargets
    (hreach : Blockchain.Reachable workers premine publicPremine difficulty chain)
    {id : Bytes32} {node : TreeNode} (hnode : chain.tree[id]? = some node)
    (hchild : id ≠ chain.genesisId) :
    ∃ parent, chain.tree[node.header.prevHash]? = some parent ∧ Retargets parent node := by
  obtain ⟨genesis, -, v, htracks⟩ := tracks_of_reachable hreach
  obtain ⟨branch, hknown, hmark⟩ := htracks.node hnode
  cases branch with
  | nil =>
    have hroot := htracks.formed.rooted hknown
    exact absurd (hroot.trans htracks.genesisId.symm) hchild
  | cons block rest =>
    obtain ⟨parent, hparent, hadmit⟩ := Option.bind_eq_some_iff.mp hmark
    have hvalid := (childNode_eq_some.mp hadmit).2
    have hbelow := (htracks.formed.closed hknown).2
    have hprev : node.header.prevHash = (blockRules S genesis).parent block := by
      rw [(admits_of_validate hvalid).header]
      rfl
    refine ⟨parent, ?_, retargets_of_eq (retarget_of_validate hvalid)⟩
    rw [hprev, htracks.tree, hbelow]
    exact hparent

/-- The retarget of a difficulty is bounded, monotone and moves the right way over every interval
exactly when three times the difficulty fits in a word. So on every branch of every chain that the
node reaches, no block changes the difficulty by more than the clamp, and where the difficulty is
below that bound, none changes it in the wrong direction. -/
theorem retarget_lawful_iff {S : ChainSuite} {chain : Blockchain S} {workers : ℕ}
    {premine publicPremine : List (Bytes32 × UInt64)} {difficulty : UInt64}
    (hreach : Blockchain.Reachable workers premine publicPremine difficulty chain)
    (current : UInt64) (hpos : 1 ≤ current.toNat) :
    (RetargetLawful current ↔ current.toNat * TARGET_BLOCK_TIME_SECS.toNat < 2 ^ 64) ∧
      ∀ id node, chain.tree[id]? = some node → id ≠ chain.genesisId →
        ∃ parent, chain.tree[node.header.prevHash]? = some parent ∧ Retargets parent node := by
  refine ⟨⟨fun hlawful ↦ ?_, lawful_of_fits hpos⟩, fun id node hnode hchild ↦ ?_⟩
  · by_contra hlarge
    exact not_lawful_of_drops (not_lt.mp hlarge) hlawful
  · exact hreach.retargets hnode hchild

end Branches

/-- The retarget at the lowest difficulty, and on the block of a running chain. -/
theorem retarget_lawful_staked :
    RetargetLawful 1 ∧ ∃ (chain : Blockchain rootlessSuite) (parent node : TreeNode),
      chain.tree[stakeBlock.id]? = some node ∧
        chain.tree[node.header.prevHash]? = some parent ∧ Retargets parent node := by
  obtain ⟨chain, hreach, hactive, -⟩ := exists_staked
  obtain ⟨hlawful, hbranches⟩ := retarget_lawful_iff hreach 1 (by decide)
  refine ⟨hlawful.mpr (by decide), ?_⟩
  obtain ⟨genesis, -, v, htracks⟩ := tracks_of_reachable hreach
  rw [htracks.active] at hactive
  obtain ⟨below, hbelow, hlength, htip⟩ := TreeRules.path_getElem?_eq_some.mp hactive
  have hknown := htracks.formed.suffix htracks.formed.active hbelow
  have hchild : stakeBlock.id ≠ chain.genesisId := by
    intro heq
    have hroot : v.known chain.genesisId = some [] := by
      rw [htracks.genesisId]
      exact htracks.formed.root
    rw [htip, heq, hroot] at hknown
    rw [← Option.some.inj hknown] at hlength
    exact absurd hlength (by decide)
  have hstored : chain.tree[stakeBlock.id]? ≠ none := by
    rw [← htip, ne_eq, htracks.isSome_tree htracks.formed.toClosed, hknown]
    exact Option.some_ne_none below
  obtain ⟨node, hnode⟩ := Option.ne_none_iff_exists'.mp hstored
  obtain ⟨parent, hparent, hretargets⟩ := hbranches stakeBlock.id node hnode hchild
  exact ⟨chain, parent, node, hnode, hparent, hretargets⟩

/-- At a third of the range, a block that took one second halves the difficulty. -/
theorem fast_block_lowers :
    ¬ RetargetLawful 6148914691236517206 ∧ (1 : UInt64) < TARGET_BLOCK_TIME_SECS ∧
      retarget 6148914691236517206 1 = 3074457345618258603 := by
  have hvalue : retarget 6148914691236517206 1 = 3074457345618258603 := by decide
  refine ⟨fun hlawful ↦ ?_, by decide, hvalue⟩
  have hfast := hlawful.fast 1 (by decide)
  rw [hvalue] at hfast
  exact absurd hfast (by decide)

end Latebra.Chain
