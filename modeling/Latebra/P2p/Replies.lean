import Latebra.Chain.Growth
import Latebra.P2p.Serving

/-!
# Answers that the other side can read

A message reads back exactly when it keeps within the bounds of the decoder. Of the answers of a
node only those about the unbonding entries of an account, about all open escrows and about a chunk
of the state can exceed them, and `Answerable` says when they do not (`fits_iff_of_answer`).

The state machine does not bound the unbonding entries of an account: an account may unstake one
unit at a time, with no fee, as often as blocks have room for it before the first entry matures. The
example piles up more of them than an answer may hold (`Piled`).
-/

set_option autoImplicit false
set_option relaxedAutoImplicit false

namespace Latebra.P2p

open Foundation Crypto Latebra.Types State Chain

/-! ### The bounds of an answer -/

section Answers

variable {S : ChainSuite} {chain : Blockchain S} {chunks chunks' : StateSync} {request reply : Msg}
  {book book' : AddressBook} {token : UInt32} {id : Bytes32}

/-- The states of a node that have a readable answer to a message. -/
def Answerable (chain : Blockchain S) (chunks : StateSync) : Msg → Prop
  | .getStake id => ((chain.activeState.view.validator id).getD .default).unbonding.length ≤
      MAX_UNBONDING_ENTRIES
  | .getHtlcs => chain.activeState.htlcs.length < 2 ^ 32
  | .getStateChunk n => ∀ chunk, (chunks.bind fun chunks ↦ chunks[n.toNat]?) = some chunk →
      chunk.length < 2 ^ 32 ∧ ∀ entry ∈ chunk, entry.1.length < 2 ^ 32 ∧ entry.2.length < 2 ^ 32
  | _ => True

theorem length_strided (all : List (Bytes32 × Ciphertext S.Point)) (max : UInt32) :
    (strided all max).length ≤ MAX_RING_CANDIDATES := by
  rw [strided]
  refine (List.length_filterMap_le _ _).trans ?_
  rw [List.length_range]
  exact (min_le_left _ _).trans (min_le_right _ _)

section Queries

variable {s s' : LedgerState S.toCryptoSuite} {program : LedgerM S.toCryptoSuite Msg}

/-- The answer about a stake is what the ledger holds of the account. -/
theorem reply_of_getStake (hquery : query (.getStake id) = some program)
    (hruns : LedgerState.Runs program s reply s') :
    reply = .stakeReply ((s.validator id).getD .default).staked
      ((s.validator id).getD .default).unbonding := by
  obtain rfl := Option.some.inj hquery
  simp only [Program.returns_bind, Program.returns_pure] at hruns
  obtain ⟨validator, s₁, hread, rfl, -⟩ := hruns
  obtain ⟨rfl, -⟩ := (LedgerState.runs_validator ..).mp hread
  rfl

/-- What is read from the ledger fits, except for the unbonding entries of an account. -/
theorem fits_iff_of_query (hquery : query request = some program)
    (hruns : LedgerState.Runs program chain.activeState.view reply s') :
    reply.Fits ↔ Answerable chain chunks request := by
  cases request
  case getStake id =>
    rw [reply_of_getStake hquery hruns]
    rfl
  all_goals simp only [query, reduceCtorEq, Option.some.injEq] at hquery
  all_goals
    subst hquery
    simp only [Program.returns_bind, Program.returns_pure] at hruns
    obtain ⟨-, -, -, rfl, -⟩ := hruns
    exact iff_of_true trivial trivial

/-- The answer to a message that reads the ledger. -/
theorem answer_of_query (hquery : query request = some program) :
    answer chain chunks request = match program.run Ledger.handler chain.activeState with
      | (.ok reply, _) => some (reply, chunks)
      | _ => none := by
  cases request <;> cases hquery <;> rfl

/-- An answer that is read from the ledger is one that is read from its objects. -/
theorem runs_of_answer (hL : chain.activeState.WellFormed) (hquery : query request = some program)
    (hanswer : answer chain chunks request = some (reply, chunks')) :
    ∃ s', LedgerState.Runs program chain.activeState.view reply s' := by
  obtain ⟨houtcome, -, -⟩ := Ledger.run_view hL program
  refine ⟨_, LedgerState.runs_of_ok (houtcome.symm.trans ?_)⟩
  rw [answer_of_query hquery] at hanswer
  split at hanswer
  · next value L hrun =>
    obtain ⟨rfl, -⟩ := Prod.mk.inj (Option.some.inj hanswer)
    rw [hrun]
  · cases hanswer

end Queries

/-- An answer fits exactly when the state of the node has a readable one. -/
theorem fits_iff_of_answer (hL : chain.activeState.WellFormed)
    (hanswer : answer chain chunks request = some (reply, chunks')) :
    reply.Fits ↔ Answerable chain chunks request := by
  by_cases hquery : ∃ program, query (S := S) request = some program
  · obtain ⟨program, hquery⟩ := hquery
    obtain ⟨s', hruns⟩ := runs_of_answer hL hquery hanswer
    exact fits_iff_of_query hquery hruns
  cases request with
  | getHtlcs =>
    obtain ⟨rfl, -⟩ := Prod.mk.inj (Option.some.inj hanswer)
    rfl
  | getStateChunk n =>
    obtain ⟨rfl, -⟩ := Prod.mk.inj (Option.some.inj hanswer)
    show _ ↔ ∀ chunk, (chunks.bind fun chunks ↦ chunks[n.toNat]?) = some chunk → _
    cases chunks.bind fun chunks ↦ chunks[n.toNat]? with
    | none => simp [Msg.Fits]
    | some chunk => simp [Msg.Fits]
  | getRingCandidates token max =>
    obtain ⟨all, -, hreply⟩ := Option.map_eq_some_iff.mp hanswer
    obtain ⟨rfl, -⟩ := Prod.mk.inj hreply
    exact iff_of_true (length_strided all max) trivial
  | getStateManifest =>
    refine iff_of_true ?_ trivial
    rw [answer] at hanswer
    split at hanswer <;>
      · obtain ⟨rfl, -⟩ := Prod.mk.inj (Option.some.inj hanswer)
        trivial
  | getTip | getBlock | findCommon | blockAnnounce | getFinalized =>
    obtain ⟨rfl, -⟩ := Prod.mk.inj (Option.some.inj hanswer)
    exact iff_of_true trivial trivial
  | getStake | getBalance | getPending | getNonce | getPublicBalance | getPool | getLpShares
  | getHtlc | getCurve | getContractStorage | hasContract => exact absurd ⟨_, rfl⟩ hquery
  | _ => cases hanswer

/-- The address book of a node has a readable answer always, so it makes no difference. -/
theorem fits_iff_of_serve (hL : chain.activeState.WellFormed)
    (hserve : serve chain book chunks request = some (reply, book', chunks')) :
    reply.Fits ↔ Answerable chain chunks request := by
  unfold serve at hserve
  split at hserve
  · obtain ⟨rfl, -⟩ := Prod.mk.inj (Option.some.inj hserve)
    exact iff_of_true trivial trivial
  · obtain ⟨rfl, -⟩ := Prod.mk.inj (Option.some.inj hserve)
    exact iff_of_true book.fits_peers trivial
  · obtain ⟨rfl, -⟩ := Prod.mk.inj (Option.some.inj hserve)
    exact iff_of_true trivial trivial
  · obtain ⟨⟨reply', chunks''⟩, hanswer, hreply⟩ := Option.map_eq_some_iff.mp hserve
    obtain ⟨rfl, -⟩ := Prod.mk.inj hreply
    exact fits_iff_of_answer hL hanswer

/-- A message reads back exactly when it fits, and an answer of a node, whatever addresses it knows,
exactly when the state of the node has a readable one. -/
theorem message_round_trip :
    (∀ m : Msg, Msg.decode m.encode = some m ↔ m.Fits) ∧
      ∀ {workers : ℕ} {premine publicPremine : List (Bytes32 × UInt64)} {difficulty : UInt64}
        {chain : Blockchain S} {book book' : AddressBook} {chunks chunks' : StateSync}
        {request reply : Msg},
        Blockchain.Reachable workers premine publicPremine difficulty chain →
        serve chain book chunks request = some (reply, book', chunks') →
        (Msg.decode reply.encode = some reply ↔ Answerable chain chunks request) := by
  refine ⟨fun m ↦ Msg.decode_encode_iff, fun hreach hserve ↦ ?_⟩
  rw [Msg.decode_encode_iff]
  exact fits_iff_of_serve (grounded_of_reachable hreach).formed hserve

/-- The answer about a stake. -/
theorem answer_getStake (hL : chain.activeState.WellFormed) (chunks : StateSync) (id : Bytes32) :
    answer chain chunks (.getStake id) =
      some (.stakeReply ((chain.activeState.view.validator id).getD .default).staked
        ((chain.activeState.view.validator id).getD .default).unbonding, chunks) := by
  obtain ⟨program, hquery⟩ : ∃ program, query (S := S) (.getStake id) = some program := ⟨_, rfl⟩
  obtain ⟨houtcome, -, -⟩ := Ledger.run_view hL program
  have hread : (program.run LedgerState.handler chain.activeState.view).1 =
      .ok (.stakeReply ((chain.activeState.view.validator id).getD .default).staked
        ((chain.activeState.view.validator id).getD .default).unbonding) := by
    rw [← Option.some.inj hquery]
    rfl
  rw [hread] at houtcome
  rw [answer_of_query hquery]
  split
  · next reply L hrun =>
    rw [hrun] at houtcome
    rw [Outcome.ok.inj houtcome]
  · next hother => exact (hother _ _ (Prod.ext houtcome rfl)).elim

end Answers

/-! ### An account with many unbonding entries -/

/-- A suite in which the proof-of-work hash of a header is its height. -/
def heightSuite : ChainSuite :=
  { rootlessSuite with
    powHash := fun header ↦ BitVec.ofNat 256 (leValue ((header.drop 32).take 8)) }

/-- The state of an account that bonded a stake and unstaked one unit of it so many times. -/
structure Piled (s : LedgerState heightSuite.toCryptoSuite) (count : ℕ) : Prop where
  account : ∃ a, s.account 5 = some a ∧ a.nonce = UInt64.ofNat (count + 1) ∧
    a.balances.size ≤ 1 ∧ a.pendings.size ≤ 1 ∧ a.publics.size ≤ count + 1
  validator : ∃ entries, s.validator 5 = some ⟨UInt64.ofNat (100000000 - count), entries, false⟩ ∧
    entries.length = count ∧ ∀ entry ∈ entries, 240 < entry.2.toNat

/-- Unstaking one unit with the nonce of the account. -/
def unstakeOne (count : ℕ) : Transaction heightSuite.toCryptoSuite :=
  .unstake 5 1 (UInt64.ofNat (count + 1)) 5

/-- Unstaking before anything matures. -/
theorem runs_unstake {C : CryptoSuite} {s : LedgerState C} {tx : Transaction C} {id : Bytes32}
    {height amount release next : UInt64} {sig : Bytes64} {a : Account C} {v : Validator}
    (hsig : SigOK C id tx sig) (ha : s.account id = some a) (hv : s.validator id = some v)
    (hmatured : releaseMatured v height = some (0, v)) (hpos : 0 < amount)
    (hcovered : ¬ v.staked < amount) (hrelease : checkedAdd height UNBONDING_BLOCKS = some release)
    (hnext : checkedAdd a.nonce 1 = some next)
    (hfits : ((a.setPublic LAT_TOKEN (saturatingAdd (a.pub LAT_TOKEN) 0)).withNonce next).Fits)
    (hlength : (v.unbonding ++ [(amount, release)]).length < 2 ^ 32) :
    LedgerState.Runs (applyUnstake tx height id amount a.nonce sig) s ()
      ((s.setAccount id ((a.setPublic LAT_TOKEN (saturatingAdd (a.pub LAT_TOKEN) 0)).withNonce
        next)).setValidator id
          { v with staked := v.staked - amount, unbonding := v.unbonding ++ [(amount, release)] }) := by
  simp only [applyUnstake, Program.returns_bind, runs_checkSig, LedgerState.runs_account,
    LedgerState.runs_validator, LedgerState.runs_putAccount, LedgerState.runs_putValidator,
    Program.returns_okOr, Program.returns_orPanic, Program.returns_rejectIf]
  refine ⟨(), s, ⟨hsig, rfl⟩, some a, s, ⟨ha.symm, rfl⟩, a, s, ⟨rfl, rfl⟩, (), s,
    ⟨not_not.mpr rfl, rfl⟩, some v, s, ⟨hv.symm, rfl⟩, (0, v), s, ⟨hmatured, rfl⟩, (), s,
    ⟨hcovered, rfl⟩, release, s, ⟨?_, rfl⟩, next, s, ⟨hnext, rfl⟩, (), _, ⟨hfits, rfl⟩, ?_⟩
  · rw [if_pos hpos, hrelease]
  · rw [if_pos hpos]
    exact ⟨.inr hlength, rfl⟩

section Piling

variable {s : LedgerState heightSuite.toCryptoSuite} {count : ℕ} {height : UInt64}

/-- Nothing is released while no entry has matured. -/
theorem releaseMatured_of_late {v : Validator} (hlate : ∀ entry ∈ v.unbonding, height < entry.2) :
    releaseMatured v height = some (0, v) := by
  have hnone : v.unbonding.filter (fun entry ↦ entry.2 ≤ height) = [] :=
    List.filter_eq_nil_iff.mpr fun entry hmem ↦ by simpa using hlate entry hmem
  have hall : v.unbonding.filter (fun entry ↦ ¬ entry.2 ≤ height) = v.unbonding :=
    List.filter_eq_self.mpr fun entry hmem ↦ by simpa using hlate entry hmem
  rw [releaseMatured, hnone, hall]
  rfl

/-- A signature by its own key. -/
theorem sigOK_of_key {id : Bytes32} {sig : Bytes64} (tx : Transaction heightSuite.toCryptoSuite)
    (hkey : id = sig.extractLsb' 0 256) : SigOK heightSuite.toCryptoSuite id tx sig :=
  ⟨⟨id⟩, sig.extractLsb' 0 256, rfl, rfl, decide_eq_true hkey⟩

/-- Before the first entry matures, another unit can be unstaked. -/
theorem Piled.unstake (h : Piled s count) (hlow : 0 < height.toNat) (hhigh : height.toNat ≤ 240)
    (hcount : count < 99999999) :
    ∃ s', LedgerState.Runs (LedgerM.applyTx height (unstakeOne count)) s () s' ∧
      Piled s' (count + 1) := by
  obtain ⟨a, ha, hnonce, hbalances, hpendings, hpublics⟩ := h.account
  obtain ⟨entries, hv, hlength, hlate⟩ := h.validator
  have hwindow : UNBONDING_BLOCKS.toNat = 240 := rfl
  obtain ⟨release, hrelease⟩ : ∃ release, checkedAdd height UNBONDING_BLOCKS = some release := by
    refine Option.ne_none_iff_exists'.mp fun hnone ↦ ?_
    have hover := checkedAdd_eq_none.mp hnone
    omega
  have hsum := checkedAdd_eq_some.mp hrelease
  have hnext : checkedAdd a.nonce 1 = some (UInt64.ofNat (count + 1 + 1)) := by
    have hnow : count + 1 < 2 ^ 64 := by omega
    have hthen : count + 1 + 1 < 2 ^ 64 := by omega
    rw [checkedAdd_eq_some, hnonce, UInt64.toNat_ofNat_of_lt' hnow, UInt64.toNat_ofNat_of_lt' hthen]
    rfl
  have hword (n : ℕ) : (UInt64.ofNat (100000000 - n)).toNat = 100000000 - n := by
    have hbound : 100000000 - n < 2 ^ 64 := by omega
    exact UInt64.toNat_ofNat_of_lt' hbound
  have hmatured := releaseMatured_of_late
    (v := ⟨UInt64.ofNat (100000000 - count), entries, false⟩) fun entry hmem ↦
      UInt64.lt_iff_toNat_lt.mpr (hhigh.trans_lt (hlate entry hmem))
  have hcovered : ¬ UInt64.ofNat (100000000 - count) < 1 := by
    rw [UInt64.lt_iff_toNat_lt, hword, UInt64.toNat_one]
    omega
  have hsize : (a.publics.insert LAT_TOKEN (saturatingAdd (a.pub LAT_TOKEN) 0)).size ≤ count + 1 + 1 :=
    Std.ExtTreeMap.size_insert_le.trans (Nat.succ_le_succ hpublics)
  have hfits : ((a.setPublic LAT_TOKEN (saturatingAdd (a.pub LAT_TOKEN) 0)).withNonce
      (UInt64.ofNat (count + 1 + 1))).Fits := by
    refine ⟨?_, ?_, ?_⟩ <;> rw [Std.ExtTreeMap.length_toList]
    · exact hbalances.trans_lt (by decide)
    · exact hpendings.trans_lt (by decide)
    · exact hsize.trans_lt (by omega)
  have hshort : (entries ++ [((1 : UInt64), release)]).length < 2 ^ 32 := by
    rw [List.length_append, List.length_singleton]
    omega
  have hkey : (5 : Bytes32) = (5 : Bytes64).extractLsb' 0 256 := by decide +kernel
  have hruns := runs_unstake (sigOK_of_key (unstakeOne count) hkey) ha hv hmatured (by decide)
    hcovered hrelease hnext hfits hshort
  rw [hnonce] at hruns
  refine ⟨_, LedgerState.runs_applyTx.mpr ⟨_, hruns, rfl⟩, ?_, ?_⟩
  · refine ⟨(a.setPublic LAT_TOKEN (saturatingAdd (a.pub LAT_TOKEN) 0)).withNonce
      (UInt64.ofNat (count + 1 + 1)), ?_, rfl, hbalances, hpendings, hsize⟩
    simp only [LedgerState.marked, LedgerState.setValidator_account,
      LedgerState.setAccount_account, Function.update_self]
  · refine ⟨entries ++ [(1, release)], ?_, ?_, ?_⟩
    · have hrest : UInt64.ofNat (100000000 - count) - 1 = UInt64.ofNat (100000000 - (count + 1)) := by
        have hle : (1 : UInt64).toNat ≤ (UInt64.ofNat (100000000 - count)).toNat := by
          rw [hword, UInt64.toNat_one]
          omega
        apply UInt64.toNat_inj.mp
        rw [toNat_sub_of_toNat_le hle, hword, hword, UInt64.toNat_one]
        omega
      rw [← hrest]
      have hkept : ¬ (⟨UInt64.ofNat (100000000 - count) - 1, entries ++ [(1, release)], false⟩ :
          Validator).Drained := fun hdrained ↦ absurd hdrained.2 (by simp)
      simp only [LedgerState.marked, LedgerState.setValidator_validator, Function.update_self,
        if_neg hkept]
    · rw [List.length_append, hlength, List.length_singleton]
    · intro entry hmem
      rcases List.mem_append.mp hmem with hold | hnew
      · exact hlate entry hold
      · rw [List.mem_singleton.mp hnew]
        show 240 < release.toNat
        omega

/-- Unstake one unit so many times. -/
def unstakeRun : ℕ → ℕ → List (Transaction heightSuite.toCryptoSuite)
  | _, 0 => []
  | count, n + 1 => unstakeOne count :: unstakeRun (count + 1) n

theorem length_unstakeRun (count n : ℕ) : (unstakeRun count n).length = n := by
  induction n generalizing count with
  | zero => rfl
  | succ n ih => exact congrArg Nat.succ (ih (count + 1))

theorem checked_unstakeRun (count n : ℕ) :
    (unstakeRun count n).forM (checkTx heightSuite) = .ok () := by
  induction n generalizing count with
  | zero => rfl
  | succ n ih => exact ih (count + 1)

/-- The entries pile up within the unbonding window. -/
theorem Piled.unstakeRun (h : Piled s count) (hlow : 0 < height.toNat) (hhigh : height.toNat ≤ 240)
    {n : ℕ} (hcount : count + n < 99999999) :
    ∃ s', LedgerState.Runs (Program.forEach (unstakeRun count n) (LedgerM.applyTx height)) s () s' ∧
      Piled s' (count + n) := by
  induction n generalizing s count with
  | zero => exact ⟨s, (Program.returns_pure ..).mpr ⟨rfl, rfl⟩, h⟩
  | succ n ih =>
    obtain ⟨s₁, hfirst, h₁⟩ := h.unstake hlow hhigh (by omega)
    obtain ⟨s', hrest, h'⟩ := ih h₁ (by omega)
    refine ⟨s', (Program.returns_bind ..).mpr ⟨(), s₁, hfirst, hrest⟩, ?_⟩
    rwa [Nat.add_assoc, Nat.add_comm 1] at h'

/-- The flags of a ledger do not matter here. -/
theorem Piled.clean (h : Piled s count) : Piled { s with dirty := ∅ } count :=
  ⟨h.account, h.validator⟩

end Piling

/-- Bond the stake. -/
def stakeAll : Transaction heightSuite.toCryptoSuite := .stake 5 100000000 0 5

theorem checked_stakeAll {rest : List (Transaction heightSuite.toCryptoSuite)}
    (hrest : rest.forM (checkTx heightSuite) = .ok ()) :
    (stakeAll :: rest).forM (checkTx heightSuite) = .ok () := hrest

/-- A block of these transactions that pays nobody. -/
def pileBlock (height timestamp : UInt64) (txs : List (Transaction heightSuite.toCryptoSuite)) :
    Block heightSuite :=
  ⟨⟨BitVec.ofNat 256 (height.toNat - 1), height, timestamp, txRoot heightSuite txs, 0, 0, 0⟩, txs⟩

/-- The first block bonds the stake and unstakes as often as it has room for. -/
def pileOne : Block heightSuite := pileBlock 1 (GENESIS_TIMESTAMP + 3) (stakeAll :: unstakeRun 0 999)

/-- The second block unstakes some more. -/
def pileTwo : Block heightSuite := pileBlock 2 (GENESIS_TIMESTAMP + 6) (unstakeRun 999 26)

theorem header_id (header : BlockHeader) :
    header.id heightSuite = BitVec.ofNat 256 header.height.toNat := by
  have hbytes : (header.encode.drop 32).take 8 = u64Le header.height := by
    rw [BlockHeader.encode, List.drop_left' (length_bytesOf32 _), List.take_left' (length_u64Le _)]
  change BitVec.ofNat 256 (leValue ((header.encode.drop 32).take 8)) = _
  rw [hbytes, u64Le, leValue_leBytes header.height.toNat_lt]

/-- The genesis objects once the root has been computed. -/
def pileObjects : LedgerState heightSuite.toCryptoSuite := { stakerGenesis.view with dirty := ∅ }

/-- The stake is bonded on them. -/
def bonded : Outcome LedgerError Unit × LedgerState heightSuite.toCryptoSuite :=
  (LedgerM.applyTx 1 stakeAll).run LedgerState.handler pileObjects

theorem bonded_facts :
    bonded.1 = .ok () ∧
    (bonded.2.account 5).map
      (fun a ↦ (a.nonce, a.balances.size, a.pendings.size, a.publics.size)) = some (1, 0, 0, 1) ∧
    bonded.2.validator 5 = some ⟨100000000, [], false⟩ := by
  decide +kernel

theorem heightSuite_collisionFree : heightSuite.trie.CollisionFree := rootlessSuite_collisionFree

theorem runs_bonded : LedgerState.Runs (LedgerM.applyTx 1 stakeAll) pileObjects () bonded.2 :=
  LedgerState.runs_of_ok bonded_facts.1

theorem piled_bonded : Piled bonded.2 0 := by
  obtain ⟨-, haccount, hvalidator⟩ := bonded_facts
  constructor
  · obtain ⟨a, ha, hfields⟩ := Option.map_eq_some_iff.mp haccount
    simp only [Prod.mk.injEq] at hfields
    obtain ⟨hnonce, hbalances, hpendings, hpublics⟩ := hfields
    exact ⟨a, ha, hnonce, hbalances.le.trans (Nat.zero_le 1), hpendings.le.trans (Nat.zero_le 1),
      hpublics.le⟩
  · exact ⟨[], hvalidator, rfl, fun _ hmem ↦ absurd hmem List.not_mem_nil⟩

/-- A block of these passes the structural rules on a block of the least difficulty. -/
theorem childNode_pileBlock {parent : TreeNode} {height timestamp : UInt64}
    {txs : List (Transaction heightSuite.toCryptoSuite)} (hshort : txs.length ≤ MAX_TXS_PER_BLOCK)
    (hheight : checkedAdd parent.height 1 = some height) (hleast : parent.childDifficulty = 1)
    (hchecked : txs.forM (checkTx heightSuite) = .ok ()) :
    childNode parent (pileBlock height timestamp txs) =
      some (nodeOver parent (pileBlock height timestamp txs)) := by
  refine childNode_eq hshort hheight rfl ?_ hchecked
  rw [hleast]
  rfl

theorem runs_cons {height : UInt64} {tx : Transaction heightSuite.toCryptoSuite}
    {rest : List (Transaction heightSuite.toCryptoSuite)}
    {s s₁ s' : LedgerState heightSuite.toCryptoSuite}
    (hfirst : LedgerState.Runs (LedgerM.applyTx height tx) s () s₁)
    (hrest : LedgerState.Runs (Program.forEach rest (LedgerM.applyTx height)) s₁ () s') :
    LedgerState.Runs (Program.forEach (tx :: rest) (LedgerM.applyTx height)) s () s' :=
  (Program.returns_bind ..).mpr ⟨(), s₁, hfirst, hrest⟩

/-- A block that pays nobody does what its transactions do. -/
theorem runs_pileBlock {height timestamp : UInt64} {s s' : LedgerState heightSuite.toCryptoSuite}
    {txs : List (Transaction heightSuite.toCryptoSuite)}
    (hruns : LedgerState.Runs (Program.forEach txs (LedgerM.applyTx height)) s () s') :
    LedgerState.Runs (blockProgram (pileBlock height timestamp txs).txs
      (pileBlock height timestamp txs).header.miner (pileBlock height timestamp txs).header.height)
      s () s' :=
  (Program.returns_bind ..).mpr ⟨(), s', hruns, rfl⟩

/-- A node one block before and one block after its ledger holds more unbonding entries of one
account than an answer may. -/
theorem exists_piled : ∃ chain₁ chain₂ : Blockchain heightSuite,
    (Blockchain.Reachable 1 [] stakerPremine 1 chain₁ ∧ Piled chain₁.activeState.view 999) ∧
      Blockchain.Reachable 1 [] stakerPremine 1 chain₂ ∧ Piled chain₂.activeState.view 1025 := by
  have hgenesis : Blockchain.genesisState (S := heightSuite) [] stakerPremine = some stakerGenesis :=
    genesisState_staker
  have hroots : ∀ root, heightSuite.digestBytes root = 0 := fun _ ↦ rfl
  have hzero : (Blockchain.genesisHeader 0).id heightSuite = 0 := header_id _
  have hone : pileOne.id = 1 := header_id _
  have htwo : pileTwo.id = 2 := header_id _
  obtain ⟨chain₀, hstart, htree₀, htip₀, -, -, hview₀⟩ :=
    @exists_genesis _ 1 _ _ 1 hroots heightSuite_collisionFree _ hgenesis
  have h₀ := Blockchain.Reachable.genesis hstart
  have hobjects : chain₀.activeState.view = pileObjects := hview₀
  rw [hzero] at htree₀ htip₀
  -- The first block bonds the stake before it unstakes.
  have hunstaked₁ : ∃ s', LedgerState.Runs (Program.forEach (unstakeRun 0 999) (LedgerM.applyTx 1))
      bonded.2 () s' ∧ Piled s' (0 + 999) :=
    piled_bonded.unstakeRun (by decide) (by decide) (by decide)
  obtain ⟨s₁, hrun₁, hpiled₁⟩ := hunstaked₁
  have hfirst := runs_cons runs_bonded hrun₁
  rw [← hobjects] at hfirst
  have hlength₁ : (stakeAll :: unstakeRun 0 999).length ≤ MAX_TXS_PER_BLOCK := by
    rw [List.length_cons, length_unstakeRun]
    decide
  have hchild₁ : childNode (Blockchain.genesisNode heightSuite 0 1) pileOne =
      some (nodeOver (Blockchain.genesisNode heightSuite 0 1) pileOne) :=
    childNode_pileBlock hlength₁ rfl rfl (checked_stakeAll (checked_unstakeRun 0 999))
  have hparent₀ : chain₀.tree[chain₀.activeTip]? = some (Blockchain.genesisNode heightSuite 0 1) := by
    rw [htree₀, htip₀, FMap.lookup_insert_self]
  have hnew₁ : chain₀.tree[pileOne.id]? = none := by
    rw [htree₀, hone, FMap.lookup_insert]
    rfl
  obtain ⟨chain₁, h₁, htree₁, htip₁, -, hview₁⟩ := h₀.grow hroots heightSuite_collisionFree hparent₀
    htip₀.symm hchild₁ hnew₁ rfl (runs_pileBlock hfirst)
  -- The second block.
  have hunstaked₂ : ∃ s', LedgerState.Runs (Program.forEach (unstakeRun 999 26) (LedgerM.applyTx 2))
      { s₁ with dirty := ∅ } () s' ∧ Piled s' (999 + 26) :=
    hpiled₁.clean.unstakeRun (by decide) (by decide) (by decide)
  obtain ⟨s₂, hrun₂, hpiled₂⟩ := hunstaked₂
  rw [← hview₁] at hrun₂
  have hlength₂ : (unstakeRun 999 26).length ≤ MAX_TXS_PER_BLOCK := by
    rw [length_unstakeRun]
    decide
  have hchild₂ : childNode (nodeOver (Blockchain.genesisNode heightSuite 0 1) pileOne) pileTwo =
      some (nodeOver (nodeOver (Blockchain.genesisNode heightSuite 0 1) pileOne) pileTwo) :=
    childNode_pileBlock hlength₂ rfl (by decide) (checked_unstakeRun 999 26)
  have hparent₁ : chain₁.tree[chain₁.activeTip]? =
      some (nodeOver (Blockchain.genesisNode heightSuite 0 1) pileOne) := by
    rw [htree₁, htip₁, FMap.lookup_insert_self]
  have hnew₂ : chain₁.tree[pileTwo.id]? = none := by
    rw [htree₁, htree₀, hone, htwo, FMap.lookup_insert, FMap.lookup_insert]
    rfl
  obtain ⟨chain₂, h₂, -, -, -, hview₂⟩ := h₁.grow hroots heightSuite_collisionFree hparent₁
    (htip₁.trans hone).symm hchild₂ hnew₂ rfl (runs_pileBlock hrun₂)
  refine ⟨chain₁, chain₂, ⟨h₁, ?_⟩, h₂, ?_⟩
  · rw [hview₁]
    exact hpiled₁.clean
  · rw [hview₂]
    exact hpiled₂.clean

/-- The answer of such a node about the stake. -/
theorem Piled.serve_getStake {chain : Blockchain heightSuite} {count : ℕ}
    (hreach : Blockchain.Reachable 1 [] stakerPremine 1 chain)
    (h : Piled chain.activeState.view count) :
    ∃ (staked : UInt64) (unbonding : List (UInt64 × UInt64)), unbonding.length = count ∧
      serve chain .new none (.getStake 5) = some (.stakeReply staked unbonding, .new, none) := by
  obtain ⟨entries, hv, hlength, -⟩ := h.validator
  refine ⟨UInt64.ofNat (100000000 - count), entries, hlength, ?_⟩
  show (answer chain none (.getStake 5)).map _ = _
  rw [answer_getStake (grounded_of_reachable hreach).formed, hv]
  rfl

/-- A node whose answer about a stake cannot be read. -/
theorem unreadable_stake :
    ∃ (chain : Blockchain heightSuite) (staked : UInt64) (unbonding : List (UInt64 × UInt64)),
      Blockchain.Reachable 1 [] stakerPremine 1 chain ∧ unbonding.length = 1025 ∧
      serve chain .new none (.getStake 5) = some (.stakeReply staked unbonding, .new, none) ∧
      Msg.decode (Msg.stakeReply staked unbonding).encode ≠ some (.stakeReply staked unbonding) := by
  obtain ⟨-, chain, -, hreach, hpiled⟩ := exists_piled
  obtain ⟨staked, unbonding, hlength, hserve⟩ := hpiled.serve_getStake hreach
  refine ⟨chain, staked, unbonding, hreach, hlength, hserve, fun hread ↦ ?_⟩
  have hfits : unbonding.length ≤ MAX_UNBONDING_ENTRIES := Msg.fits_of_decode hread
  rw [hlength] at hfits
  exact absurd hfits (by decide)

/-- The block before, its answer can be read. -/
theorem readable_stake :
    ∃ (chain : Blockchain heightSuite) (staked : UInt64) (unbonding : List (UInt64 × UInt64)),
      Blockchain.Reachable 1 [] stakerPremine 1 chain ∧ unbonding.length = 999 ∧
      serve chain .new none (.getStake 5) = some (.stakeReply staked unbonding, .new, none) ∧
      Msg.decode (Msg.stakeReply staked unbonding).encode = some (.stakeReply staked unbonding) := by
  obtain ⟨chain, -, ⟨hreach, hpiled⟩, -⟩ := exists_piled
  obtain ⟨staked, unbonding, hlength, hserve⟩ := hpiled.serve_getStake hreach
  refine ⟨chain, staked, unbonding, hreach, hlength, hserve,
    (message_round_trip.2 hreach hserve).mpr ?_⟩
  obtain ⟨entries, hv, hcount, -⟩ := hpiled.validator
  show ((chain.activeState.view.validator 5).getD .default).unbonding.length ≤ MAX_UNBONDING_ENTRIES
  rw [hv, Option.getD_some, hcount]
  decide

end Latebra.P2p
