import Latebra.State.LedgerState

/-!
# The encoded ledger refines the mathematical one

`Ledger.view` is the mathematical state that the encoded records of a ledger stand for: what its
queries answer. A ledger is `WellFormed` when every record decodes and the read cache mirrors the
store.

`run_view` is the refinement. On a well-formed ledger every transition program ends as it does on
the view, in a well-formed ledger that stands for the state that the program reaches there. So the
caches, the overlay and the encodings never show, and whatever is proved about runs on
`LedgerState` holds of the ledger that the node keeps.
-/

set_option autoImplicit false
set_option relaxedAutoImplicit false

namespace Latebra.State

open Foundation Crypto Latebra.Types Contracts

variable {C : CryptoSuite}

/-- The objects of a record store. -/
def LedgerState.ofRecords (C : CryptoSuite) (nextTokenId : UInt32)
    (records : RecordKey → Option Bytes) (dirty : Set DirtyKey) : LedgerState C where
  nextTokenId := nextTokenId
  account id := (records (.committed (.account id))).bind (decodeAccount C)
  token id := (records (.committed (.token id))).bind decodeToken
  ticker name := records (.ticker name)
  contract id := (records (.committed (.contract id))).bind decodeContract
  nullifier nf := (records (.committed (.nullifier nf))).isSome
  validator id := (records (.committed (.validator id))).bind decodeValidator
  pool token := (records (.committed (.pool token))).bind decodePool
  curve token := (records (.committed (.curve token))).bind decodeCurve
  lp token provider := ((records (.committed (.lp token provider))).bind u64OfLe).getD 0
  htlc id := (records (.committed (.htlc id))).bind decodeHtlc
  metaRecord := (records (.committed .metaRecord)).bind u32OfLe
  dirty := dirty

/-- A record body that the reads of its kind accept. -/
def RecordOK (C : CryptoSuite) (body : Bytes) : RecordKey → Prop
  | .committed (.account _) => (decodeAccount C body).isSome
  | .committed (.token _) => (decodeToken body).isSome
  | .committed (.contract _) => (decodeContract body).isSome
  | .committed (.validator _) => (decodeValidator body).isSome
  | .committed (.pool _) => (decodePool body).isSome
  | .committed (.curve _) => (decodeCurve body).isSome
  | .committed (.htlc _) => (decodeHtlc body).isSome
  | _ => True

namespace LedgerState

/-! ### Record writes are object updates -/

section OfRecords

variable (n : UInt32) (R : RecordKey → Option Bytes) (dirty : Set DirtyKey)

theorem ofRecords_account (id : Bytes32) (a : Account C) {body : Bytes}
    (hbody : decodeAccount C body = some a) :
    ofRecords C n (Function.update R (.committed (.account id)) (some body)) dirty =
      (ofRecords C n R dirty).setAccount id a := by
  ext1
  case account =>
    funext other
    by_cases heq : other = id <;> simp [ofRecords, Function.update_apply, heq, hbody]
  all_goals simp [ofRecords, Function.update_apply]

theorem ofRecords_contract (id : Bytes32) (c : Contract) {body : Bytes}
    (hbody : decodeContract body = some c) :
    ofRecords C n (Function.update R (.committed (.contract id)) (some body)) dirty =
      (ofRecords C n R dirty).setContract id c := by
  ext1
  case contract =>
    funext other
    by_cases heq : other = id <;> simp [ofRecords, Function.update_apply, heq, hbody]
  all_goals simp [ofRecords, Function.update_apply]

theorem ofRecords_validator (id : Bytes32) (v : Validator) {body : Option Bytes}
    (hbody : body.bind decodeValidator = if v.Drained then none else some v) :
    ofRecords C n (Function.update R (.committed (.validator id)) body) dirty =
      (ofRecords C n R dirty).setValidator id v := by
  ext1
  case validator =>
    funext other
    by_cases heq : other = id <;> simp [ofRecords, Function.update_apply, heq, hbody]
  all_goals simp [ofRecords, Function.update_apply]

theorem ofRecords_pool (p : Pool) {body : Option Bytes}
    (hbody : body.bind decodePool = if p.lpSupply = 0 then none else some p) :
    ofRecords C n (Function.update R (.committed (.pool p.token)) body) dirty =
      (ofRecords C n R dirty).setPool p := by
  ext1
  case pool =>
    funext other
    by_cases heq : other = p.token <;> simp [ofRecords, Function.update_apply, heq, hbody]
  all_goals simp [ofRecords, Function.update_apply]

theorem ofRecords_curve (c : CurvePool) {body : Bytes}
    (hbody : decodeCurve body = some c) :
    ofRecords C n (Function.update R (.committed (.curve c.token)) (some body)) dirty =
      (ofRecords C n R dirty).setCurve c := by
  ext1
  case curve =>
    funext other
    by_cases heq : other = c.token <;> simp [ofRecords, Function.update_apply, heq, hbody]
  all_goals simp [ofRecords, Function.update_apply]

theorem ofRecords_htlc (id : Bytes32) (h : Option Htlc) {body : Option Bytes}
    (hbody : body.bind decodeHtlc = h) :
    ofRecords C n (Function.update R (.committed (.htlc id)) body) dirty =
      (ofRecords C n R dirty).setHtlc id h := by
  ext1
  case htlc =>
    funext other
    by_cases heq : other = id <;> simp [ofRecords, Function.update_apply, heq, hbody]
  all_goals simp [ofRecords, Function.update_apply]

theorem ofRecords_lp (token : UInt32) (provider : Bytes32) (shares : UInt64) {body : Option Bytes}
    (hbody : (body.bind u64OfLe).getD 0 = shares) :
    ofRecords C n (Function.update R (.committed (.lp token provider)) body) dirty =
      (ofRecords C n R dirty).setLp token provider shares := by
  ext1
  case lp =>
    funext otherToken otherProvider
    by_cases htoken : otherToken = token <;> by_cases hprovider : otherProvider = provider <;>
      simp [ofRecords, Function.update_apply, htoken, hprovider, hbody]
  all_goals simp [ofRecords, Function.update_apply]

theorem ofRecords_nullifier (nf : Bytes32) (body : Bytes) :
    ofRecords C n (Function.update R (.committed (.nullifier nf)) (some body)) dirty =
      (ofRecords C n R dirty).setNullifier nf := by
  ext1
  case nullifier =>
    funext other
    by_cases heq : other = nf <;> simp [ofRecords, Function.update_apply, heq]
  all_goals simp [ofRecords, Function.update_apply]

/-- The three records of a token are written together. -/
theorem ofRecords_token {t : TokenMeta} (hfits : t.Fits) :
    ofRecords C n (Function.update (Function.update (Function.update R
      (.committed (.token t.id)) (some (encodeToken t))) (.ticker t.ticker) (some (u32Be t.id)))
        (.committed .metaRecord) (some (u32Le n))) dirty =
      (ofRecords C n R dirty).setToken t := by
  ext1
  case token =>
    funext other
    by_cases heq : other = t.id <;>
      simp [ofRecords, Function.update_apply, heq, decodeToken_encodeToken hfits]
  case ticker =>
    funext other
    by_cases heq : other = t.ticker <;> simp [ofRecords, Function.update_apply, heq]
  case metaRecord => simp [ofRecords, u32OfLe_u32Le]
  all_goals simp [ofRecords, Function.update_apply]

end OfRecords

end LedgerState

namespace Ledger

variable (L : Ledger C)

/-- The objects that the records of the ledger stand for. -/
def view : LedgerState C := .ofRecords C L.nextTokenId L.record { key | key ∈ L.dirty }

/-- Every record decodes, and the read cache mirrors the store. -/
structure WellFormed : Prop where
  records : ∀ key body, L.record key = some body → RecordOK C body key
  cache : ∀ id a, L.cache[id]? = some a → L.view.account id = some a

/-! ### Record writes -/

theorem record_putRecord (key : RecordKey) (body : Bytes) :
    (L.putRecord key body).record = Function.update L.record key (some body) := by
  funext other
  rw [record, putRecord, OverlayMap.get_put, Function.update_apply]
  simp only [RecordKey.bytes_injective.eq_iff]
  rfl

theorem record_deleteRecord (key : RecordKey) :
    (L.deleteRecord key).record = Function.update L.record key none := by
  funext other
  rw [record, deleteRecord, OverlayMap.get_delete, Function.update_apply]
  simp only [RecordKey.bytes_injective.eq_iff]
  rfl

theorem view_putRecord (key : RecordKey) (body : Bytes) :
    (L.putRecord key body).view = .ofRecords C L.nextTokenId
      (Function.update L.record key (some body)) { key | key ∈ L.dirty } := by
  rw [view, record_putRecord]
  rfl

theorem view_deleteRecord (key : RecordKey) :
    (L.deleteRecord key).view = .ofRecords C L.nextTokenId
      (Function.update L.record key none) { key | key ∈ L.dirty } := by
  rw [view, record_deleteRecord]
  rfl

variable {L}

/-- A readable record of another kind keeps the ledger well formed. -/
theorem WellFormed.putRecord (hL : L.WellFormed) {key : RecordKey} {body : Bytes}
    (hkey : ∀ id, key ≠ .committed (.account id)) (hok : RecordOK C body key) :
    (L.putRecord key body).WellFormed where
  records other found hfound := by
    rw [record_putRecord, Function.update_apply] at hfound
    split at hfound
    · next heq =>
      rw [heq, ← Option.some.inj hfound]
      exact hok
    · exact hL.records other found hfound
  cache id a hcached := by
    have hother : RecordKey.committed (.account id) ≠ key := (hkey id).symm
    have hview := hL.cache id a hcached
    rw [view_putRecord]
    simpa [view, LedgerState.ofRecords, Function.update_of_ne hother] using hview

theorem WellFormed.deleteRecord (hL : L.WellFormed) {key : RecordKey}
    (hkey : ∀ id, key ≠ .committed (.account id)) : (L.deleteRecord key).WellFormed where
  records other found hfound := by
    rw [record_deleteRecord, Function.update_apply] at hfound
    split at hfound
    · exact nomatch hfound
    · exact hL.records other found hfound
  cache id a hcached := by
    have hother : RecordKey.committed (.account id) ≠ key := (hkey id).symm
    have hview := hL.cache id a hcached
    rw [view_deleteRecord]
    simpa [view, LedgerState.ofRecords, Function.update_of_ne hother] using hview

/-- The read cache may keep any account that the store holds. -/
theorem WellFormed.cached (hL : L.WellFormed) {id : Bytes32} {a : Account C}
    (hview : L.view.account id = some a) : (L.cached id a).WellFormed where
  records := hL.records
  cache other found hfound := by
    change ((if ACCOUNT_CACHE_CAP ≤ L.cache.size then ∅ else L.cache).insert id a)[other]? =
      some found at hfound
    rw [FMap.lookup_insert] at hfound
    split at hfound
    · next heq =>
      rw [heq, ← Option.some.inj hfound]
      exact hview
    · split at hfound
      · simp at hfound
      · exact hL.cache other found hfound

/-- Writing an account to the store and to the cache. -/
theorem WellFormed.putAccount (hL : L.WellFormed) {id : Bytes32} {a : Account C}
    (hfits : a.Fits) :
    ((L.putRecord (.committed (.account id)) (encodeAccount a)).cached id a).WellFormed ∧
      ((L.putRecord (.committed (.account id)) (encodeAccount a)).cached id a).view =
        L.view.setAccount id a := by
  have hdecode := decodeAccount_encodeAccount hfits
  have hview : ((L.putRecord (.committed (.account id)) (encodeAccount a)).cached id a).view =
      L.view.setAccount id a :=
    (view_putRecord L _ _).trans (LedgerState.ofRecords_account _ _ _ id a hdecode)
  refine ⟨⟨fun key body hbody ↦ ?_, fun other found hfound ↦ ?_⟩, hview⟩
  · change (L.putRecord (.committed (.account id)) (encodeAccount a)).record key = some body
      at hbody
    rw [record_putRecord, Function.update_apply] at hbody
    split at hbody
    · next heq =>
      rw [heq, ← Option.some.inj hbody, RecordOK, hdecode]
      rfl
    · exact hL.records key body hbody
  · change ((if ACCOUNT_CACHE_CAP ≤ L.cache.size then ∅ else L.cache).insert id a)[other]? =
      some found at hfound
    rw [hview, LedgerState.setAccount_account, Function.update_apply]
    rw [FMap.lookup_insert] at hfound
    split at hfound
    · next heq => rw [if_pos heq, hfound]
    · next hne =>
      rw [if_neg hne]
      split at hfound
      · simp at hfound
      · exact hL.cache other found hfound

/-! ### Every command answers alike -/

/-- The encoded ledger and the objects that it stands for. -/
def Represents (L : Ledger C) (s : LedgerState C) : Prop := L.WellFormed ∧ L.view = s

theorem decoded_eq {α : Type} {decode : Bytes → Option α} {key : RecordKey}
    (hreads : ∀ body, L.record key = some body → (decode body).isSome) :
    L.decoded decode key = some ((L.record key).bind decode, L) := by
  unfold decoded
  cases hrecord : L.record key with
  | none => rfl
  | some body =>
    obtain ⟨value, hvalue⟩ := Option.isSome_iff_exists.mp (hreads body hrecord)
    simp [hvalue]

theorem WellFormed.account_eq (hL : L.WellFormed) (id : Bytes32) :
    ∃ L', L.account id = some (L.view.account id, L') ∧ Represents L' L.view := by
  unfold account
  cases hcached : L.cache[id]? with
  | some a => exact ⟨L, by rw [hL.cache id a hcached], hL, rfl⟩
  | none =>
    have hview : L.view.account id = (L.record (.committed (.account id))).bind (decodeAccount C) :=
      rfl
    cases hrecord : L.record (.committed (.account id)) with
    | none => exact ⟨L, by rw [hview, hrecord]; rfl, hL, rfl⟩
    | some body =>
      obtain ⟨a, ha⟩ := Option.isSome_iff_exists.mp (hL.records _ body hrecord)
      have hfound : L.view.account id = some a := by rw [hview, hrecord]; exact ha
      exact ⟨L.cached id a, by rw [hfound]; simp [ha], hL.cached hfound, rfl⟩

theorem WellFormed.isSome_account (hL : L.WellFormed) (id : Bytes32) :
    (L.cache[id]?.isSome || (L.record (.committed (.account id))).isSome) =
      (L.view.account id).isSome := by
  have hview : L.view.account id = (L.record (.committed (.account id))).bind (decodeAccount C) :=
    rfl
  cases hcached : L.cache[id]? with
  | some a => simp [hL.cache id a hcached]
  | none =>
    rw [hview]
    cases hrecord : L.record (.committed (.account id)) with
    | none => rfl
    | some body =>
      have hreads := hL.records _ body hrecord
      simp only [RecordOK] at hreads
      simp [hreads]

theorem Represents.putRecord {s : LedgerState C} (hrep : Represents L s) {key : RecordKey}
    {body : Bytes} {s' : LedgerState C} (hkey : ∀ id, key ≠ .committed (.account id))
    (hok : RecordOK C body key)
    (hview : LedgerState.ofRecords C L.nextTokenId (Function.update L.record key (some body))
      { key | key ∈ L.dirty } = s') : Represents (L.putRecord key body) s' :=
  ⟨hrep.1.putRecord hkey hok, (view_putRecord L key body).trans hview⟩

theorem Represents.deleteRecord {s : LedgerState C} (hrep : Represents L s) {key : RecordKey}
    {s' : LedgerState C} (hkey : ∀ id, key ≠ .committed (.account id))
    (hview : LedgerState.ofRecords C L.nextTokenId (Function.update L.record key none)
      { key | key ∈ L.dirty } = s') : Represents (L.deleteRecord key) s' :=
  ⟨hrep.1.deleteRecord hkey, (view_deleteRecord L key).trans hview⟩

theorem Represents.mark {s : LedgerState C} (hrep : Represents L s) (key : DirtyKey) :
    Represents (L.mark key) (s.setDirty key) := by
  obtain ⟨hL, rfl⟩ := hrep
  refine ⟨⟨hL.records, hL.cache⟩, ?_⟩
  ext1
  case dirty =>
    ext other
    simp [view, Ledger.mark, LedgerState.ofRecords]
  all_goals rfl

/-- A read that moves nothing and answers as the view does. -/
theorem alike_of_read {s : LedgerState C} (hrep : Represents L s) {c : LedgerCommand C}
    (reply : c.Reply) (hledger : handler.exec c L = some (reply, L))
    (hstate : LedgerState.handler.exec c s = some (reply, s)) :
    (handler.exec c L = none ∧ LedgerState.handler.exec c s = none) ∨
      ∃ reply L' s', handler.exec c L = some (reply, L') ∧
        LedgerState.handler.exec c s = some (reply, s') ∧ Represents L' s' :=
  .inr ⟨reply, L, s, hledger, hstate, hrep⟩

/-- Every command answers on the encoded ledger as it does on the objects. -/
theorem answers_alike (c : LedgerCommand C) :
    Program.AnswersAlike handler LedgerState.handler Represents c := by
  rintro L s hrep
  obtain ⟨hL, rfl⟩ := id hrep
  cases c with
  | account id =>
    obtain ⟨L', hread, hrep'⟩ := hL.account_eq id
    exact .inr ⟨_, L', L.view, hread, rfl, hrep'⟩
  | putAccount id a =>
    by_cases hfits : a.Fits
    · exact .inr ⟨(), _, L.view.setAccount id a, if_pos hfits, if_pos hfits, hL.putAccount hfits⟩
    · exact .inl ⟨if_neg hfits, if_neg hfits⟩
  | isRegistered id =>
    refine alike_of_read hrep ((L.view.account id).isSome) ?_ rfl
    exact congrArg (fun answer ↦ some (answer, L)) (hL.isSome_account id)
  | nextTokenId => exact alike_of_read hrep L.nextTokenId rfl rfl
  | setNextTokenId id => exact .inr ⟨(), _, _, rfl, rfl, ⟨hL.records, hL.cache⟩, rfl⟩
  | tokenById id =>
    exact alike_of_read hrep (L.view.token id)
      (decoded_eq fun body hbody ↦ hL.records _ body hbody) rfl
  | putToken t =>
    by_cases hfits : t.Fits
    · refine .inr ⟨(), _, L.view.setToken t, if_pos hfits, if_pos hfits, ?_, ?_⟩
      · have hreads : RecordOK C (encodeToken t) (.committed (.token t.id)) := by
          rw [RecordOK, decodeToken_encodeToken hfits]
          rfl
        have htoken := hL.putRecord (by simp) hreads
        have hticker : ((L.putRecord (.committed (.token t.id)) (encodeToken t)).putRecord
            (.ticker t.ticker) (u32Be t.id)).WellFormed := htoken.putRecord (by simp) trivial
        exact hticker.putRecord (by simp) trivial
      · rw [view_putRecord, record_putRecord, record_putRecord]
        exact LedgerState.ofRecords_token _ _ _ hfits
    · exact .inl ⟨if_neg hfits, if_neg hfits⟩
  | tickerTaken norm => exact alike_of_read hrep ((L.record (.ticker norm)).isSome) rfl rfl
  | contract id =>
    exact alike_of_read hrep (L.view.contract id)
      (decoded_eq fun body hbody ↦ hL.records _ body hbody) rfl
  | putContract id c =>
    by_cases hfits : c.Fits
    · have hdecode := decodeContract_encodeContract hfits
      refine .inr ⟨(), _, L.view.setContract id c, if_pos hfits, if_pos hfits,
        hrep.putRecord nofun ?_ (LedgerState.ofRecords_contract _ _ _ id c hdecode)⟩
      rw [RecordOK, hdecode]
      rfl
    · exact .inl ⟨if_neg hfits, if_neg hfits⟩
  | hasContract id =>
    refine alike_of_read hrep ((L.view.contract id).isSome) ?_ rfl
    change some ((L.record (.committed (.contract id))).isSome, L) =
      some (((L.record (.committed (.contract id))).bind decodeContract).isSome, L)
    cases hrecord : L.record (.committed (.contract id)) with
    | none => rfl
    | some body =>
      have hreads : (decodeContract body).isSome = true := hL.records _ body hrecord
      rw [Option.bind_some, hreads]
      rfl
  | nullifierSeen nf =>
    exact alike_of_read hrep ((L.record (.committed (.nullifier nf))).isSome) rfl rfl
  | insertNullifier nf =>
    exact .inr ⟨(), _, _, rfl, rfl,
      hrep.putRecord nofun trivial (LedgerState.ofRecords_nullifier _ _ _ nf [1])⟩
  | validator id =>
    exact alike_of_read hrep (L.view.validator id)
      (decoded_eq fun body hbody ↦ hL.records _ body hbody) rfl
  | putValidator id v =>
    by_cases hdrained : v.Drained
    · exact .inr ⟨(), _, L.view.setValidator id v, if_pos hdrained, if_pos (.inl hdrained),
        hrep.deleteRecord nofun
          (LedgerState.ofRecords_validator _ _ _ id v (by rw [if_pos hdrained]; rfl))⟩
    · by_cases hfits : v.Fits
      · have hdecode := decodeValidator_encodeValidator hfits
        refine .inr ⟨(), _, L.view.setValidator id v,
          (if_neg hdrained).trans (if_pos hfits), if_pos (.inr hfits),
          hrep.putRecord nofun ?_
            (LedgerState.ofRecords_validator _ _ _ id v (by rw [if_neg hdrained]; exact hdecode))⟩
        rw [RecordOK, hdecode]
        rfl
      · exact .inl ⟨(if_neg hdrained).trans (if_neg hfits),
          if_neg (not_or.mpr ⟨hdrained, hfits⟩)⟩
  | pool token =>
    exact alike_of_read hrep (L.view.pool token)
      (decoded_eq fun body hbody ↦ hL.records _ body hbody) rfl
  | putPool p =>
    refine .inr ⟨(), _, L.view.setPool p, rfl, rfl, ?_⟩
    unfold putPool
    split
    · next hzero =>
      exact hrep.deleteRecord nofun
        (LedgerState.ofRecords_pool _ _ _ p (by rw [if_pos hzero]; rfl))
    · next hpos =>
      refine hrep.putRecord nofun ?_ (LedgerState.ofRecords_pool _ _ _ p
        (by rw [if_neg hpos]; exact decodePool_encodePool p))
      rw [RecordOK, decodePool_encodePool]
      rfl
  | curve token =>
    exact alike_of_read hrep (L.view.curve token)
      (decoded_eq fun body hbody ↦ hL.records _ body hbody) rfl
  | putCurve c =>
    refine .inr ⟨(), _, _, rfl, rfl, hrep.putRecord nofun ?_
      (LedgerState.ofRecords_curve _ _ _ c (decodeCurve_encodeCurve c))⟩
    rw [RecordOK, decodeCurve_encodeCurve]
    rfl
  | lpShares token provider =>
    exact alike_of_read hrep (L.lpShares token provider) rfl rfl
  | putLp token provider shares =>
    refine .inr ⟨(), _, L.view.setLp token provider shares, rfl, rfl, ?_⟩
    unfold putLp
    split
    · next hzero =>
      exact hrep.deleteRecord nofun (LedgerState.ofRecords_lp _ _ _ token provider shares hzero.symm)
    · exact hrep.putRecord nofun trivial (LedgerState.ofRecords_lp _ _ _ token provider shares
        (by simp [u64OfLe_u64Le]))
  | htlc id =>
    exact alike_of_read hrep (L.view.htlc id)
      (decoded_eq fun body hbody ↦ hL.records _ body hbody) rfl
  | putHtlc id h =>
    refine .inr ⟨(), _, _, rfl, rfl, hrep.putRecord nofun ?_
      (LedgerState.ofRecords_htlc _ _ _ id (some h) (decodeHtlc_encodeHtlc h))⟩
    rw [RecordOK, decodeHtlc_encodeHtlc]
    rfl
  | deleteHtlc id =>
    exact .inr ⟨(), _, _, rfl, rfl,
      hrep.deleteRecord nofun (LedgerState.ofRecords_htlc _ _ _ id none rfl)⟩
  | mark key => exact .inr ⟨(), _, _, rfl, rfl, hrep.mark key⟩

/-- The refinement: on a well-formed ledger a program ends as it does on the view, in a well-formed
ledger that stands for the state that the program reaches there. -/
theorem run_view {α : Type} (hL : L.WellFormed) (program : LedgerM C α) :
    (program.run handler L).1 = (program.run LedgerState.handler L.view).1 ∧
      (program.run handler L).2.WellFormed ∧
      (program.run handler L).2.view = (program.run LedgerState.handler L.view).2 :=
  Program.run_related (program.uses_true) (fun c _ ↦ answers_alike c) ⟨hL, rfl⟩

end Ledger

end Latebra.State
