import Sbtc.ChainClient

/-!
`Client::get_tx_status` against a node whose view of the transaction moves while the two
queries are in flight. The node holds the transaction in one of three states and moves it by
the steps of `NodeStep`: into the mempool, into a block, out of the mempool, and back into the
mempool on a reorg. `get_raw_transaction_info` is answered in the state `s₀` in which it
reaches the node, `get_mempool_entry` in the state after the node steps taken in between,
and either call may fail on the way. The status reported need not be one the transaction had
between the two queries, and the `(true, true)` panic is reachable; what holds is
`getTxStatus_reports_observed`.
-/

namespace Sbtc.TxStatus

open ChainClient

/-- Modelled from the spec: `event::TransactionStatus` is not in the source; the spec's
status resolver has these three results. -/
inductive TransactionStatus
  | confirmed
  | broadcasted
  | rejected
  deriving DecidableEq, Repr

/-- The node's view of the transaction. -/
inductive TxState
  | unknown
  | inMempool
  | mined
  deriving DecidableEq, Repr

/-- The status the spec gives each state. -/
def TxState.status : TxState → TransactionStatus
  | .unknown => .rejected
  | .inMempool => .broadcasted
  | .mined => .confirmed

/-- The steps of the node: accept into the mempool, mine, evict, and a reorg that returns
the transaction to the mempool. -/
inductive NodeStep : TxState → TxState → Prop
  | accept : NodeStep .unknown .inMempool
  | mine : NodeStep .inMempool .mined
  | evict : NodeStep .inMempool .unknown
  | reorg : NodeStep .mined .inMempool

/-- The part of `GetRawTransactionResult` that `get_tx_status` reads. -/
structure RawTransactionInfo where
  confirmations : Option UInt32
  deriving DecidableEq, Repr

/-- `GetMempoolEntryResult`, of which `get_tx_status` reads only that it came. -/
structure MempoolEntry

/-- `is_confirmed`: an RPC error or a missing count reads as `false`. -/
def isConfirmed (rawInfo : Except RpcError RawTransactionInfo) : Bool :=
  ((rawInfo.toOption.bind (·.confirmations)).map fun confirmations => decide (0 < confirmations)).getD
    false

/-- The `match (is_confirmed, in_mempool)` of `get_tx_status`; `none` is the panic of the
`(true, true)` arm. -/
def resolve : Bool → Bool → Option TransactionStatus
  | true, false => some .confirmed
  | false, true => some .broadcasted
  | false, false => some .rejected
  | true, true => none

/-- `Client::get_tx_status` on the answers to its two calls; `none` is the panic. -/
def getTxStatus (info : Executed RawTransactionInfo) (entry : Executed MempoolEntry) :
    Option (Except ClientError TransactionStatus) :=
  match info with
  | .error err => some (.error (.execute err))
  | .ok rawInfo =>
    match entry with
    | .error err => some (.error (.execute err))
    | .ok mempoolEntry => (resolve (isConfirmed rawInfo) mempoolEntry.isOk).map .ok

/-- The answers of a node in state `s` to `get_raw_transaction_info`: the transaction, with
a positive confirmation count exactly when it is mined, or an RPC error when the node does
not know it. -/
def infoAnswer : TxState → Executed RawTransactionInfo → Bool
  | .unknown, .ok (.error _) => true
  | .inMempool, .ok (.ok info) => info.confirmations.all (· == 0)
  | .mined, .ok (.ok info) => info.confirmations.any (0 < ·)
  | _, _ => false

/-- The answers of a node in state `s` to `get_mempool_entry`. -/
def entryAnswer : TxState → Executed MempoolEntry → Bool
  | .inMempool, .ok (.ok _) => true
  | .unknown, .ok (.error _) => true
  | .mined, .ok (.error _) => true
  | _, _ => false

/-- A call that did not bring the node's answer back: `execute` failed, or the RPC failed on
the way, which the client cannot tell from an RPC error of the node. -/
def failed {α : Type} : Executed α → Bool
  | .ok (.ok _) => false
  | _ => true

/-- `execute` itself failed. -/
def executeFailed {α : Type} : Executed α → Bool
  | .error _ => true
  | .ok _ => false

/-- The answers `get_raw_transaction_info` can bring from a node in state `s`: a failure, or
the node's own answer. -/
def InfoFrom (s : TxState) (info : Executed RawTransactionInfo) : Prop :=
  failed info ∨ infoAnswer s info

/-- The answers `get_mempool_entry` can bring from a node in state `s`. -/
def EntryFrom (s : TxState) (entry : Executed MempoolEntry) : Prop :=
  failed entry ∨ entryAnswer s entry

theorem getTxStatus_eq_error_iff (info : Executed RawTransactionInfo)
    (entry : Executed MempoolEntry) :
    (∃ err, getTxStatus info entry = some (.error err)) ↔
      executeFailed info ∨ executeFailed entry := by
  rcases info with _ | rawInfo <;> rcases entry with _ | mempoolEntry <;>
    simp [getTxStatus, executeFailed]

section Answers

variable {s : TxState} {rawInfo : Except RpcError RawTransactionInfo}
  {mempoolEntry : Except RpcError MempoolEntry}

/-- A node that answers reports the transaction confirmed exactly when it is mined. -/
theorem isConfirmed_of_infoAnswer (h : infoAnswer s (.ok rawInfo)) :
    isConfirmed rawInfo = (s == .mined) := by
  rcases rawInfo with _ | ⟨_ | c⟩ <;> cases s <;>
    simp_all [isConfirmed, Except.toOption, infoAnswer]

theorem isConfirmed_of_infoFrom (h : InfoFrom s (.ok rawInfo)) (hconf : isConfirmed rawInfo) :
    s = .mined := by
  rcases h with h | h
  · rcases rawInfo with _ | _ <;> simp_all [isConfirmed, Except.toOption, failed]
  · simpa [isConfirmed_of_infoAnswer h] using hconf

theorem isOk_of_entryAnswer (h : entryAnswer s (.ok mempoolEntry)) :
    mempoolEntry.isOk = (s == .inMempool) := by
  rcases mempoolEntry with _ | _ <;> cases s <;> simp_all [Except.isOk, Except.toBool, entryAnswer]

theorem isOk_of_entryFrom (h : EntryFrom s (.ok mempoolEntry)) (hok : mempoolEntry.isOk) :
    s = .inMempool := by
  rcases h with h | h
  · rcases mempoolEntry with _ | _ <;> simp_all [Except.isOk, Except.toBool, failed]
  · simpa [isOk_of_entryAnswer h] using hok

end Answers

/-- Only a reorg takes a mined transaction out of its block. -/
theorem reorg_of_chain_mined {between : List TxState} (hrun : List.Chain NodeStep .mined between)
    (hlast : between.getLastD .mined = .inMempool) :
    List.IsInfix [.mined, .inMempool] (.mined :: between) := by
  cases hrun with
  | nil => cases hlast
  | cons hstep _ => cases hstep; exact ⟨[], _, rfl⟩

/-- What `get_tx_status` can report when the node moves between its two queries and either
call may fail: `Err` exactly when `execute` fails, `Confirmed` only for a transaction mined at
the first query, `Broadcasted` only for one in the mempool at the second, `Rejected` only
without either observation, and the panic only after a reorg between the queries. With no
node step in between and no failure, the status is the one the transaction has. -/
theorem getTxStatus_reports_observed (s₀ : TxState) (between : List TxState)
    (info : Executed RawTransactionInfo) (entry : Executed MempoolEntry)
    (hrun : List.Chain NodeStep s₀ between) (hinfo : InfoFrom s₀ info)
    (hentry : EntryFrom (between.getLastD s₀) entry) :
    ((∃ err, getTxStatus info entry = some (.error err)) ↔
      executeFailed info ∨ executeFailed entry) ∧
    (getTxStatus info entry = some (.ok .confirmed) → s₀ = .mined) ∧
    (getTxStatus info entry = some (.ok .broadcasted) → between.getLastD s₀ = .inMempool) ∧
    (getTxStatus info entry = some (.ok .rejected) →
      (failed info ∨ s₀ ≠ .mined) ∧ (failed entry ∨ between.getLastD s₀ ≠ .inMempool)) ∧
    (getTxStatus info entry = none → List.IsInfix [.mined, .inMempool] (s₀ :: between)) ∧
    (between = [] → infoAnswer s₀ info → entryAnswer s₀ entry →
      getTxStatus info entry = some (.ok s₀.status)) := by
  refine ⟨getTxStatus_eq_error_iff info entry, ?_⟩
  rcases info with err | rawInfo
  · simp [getTxStatus, infoAnswer]
  rcases entry with err | mempoolEntry
  · simp [getTxStatus, entryAnswer]
  have hexact : between = [] → infoAnswer s₀ (.ok rawInfo) → entryAnswer s₀ (.ok mempoolEntry) →
      getTxStatus (.ok rawInfo) (.ok mempoolEntry) = some (.ok s₀.status) := by
    rintro rfl hia hea
    simp only [getTxStatus, isConfirmed_of_infoAnswer hia, isOk_of_entryAnswer hea]
    cases s₀ <;> rfl
  refine ⟨?_, ?_, ?_, ?_, hexact⟩ <;> intro h <;> simp only [getTxStatus] at h <;>
    cases hcv : isConfirmed rawInfo <;> cases hmv : mempoolEntry.isOk <;>
    simp [hcv, hmv, resolve] at h
  · exact isConfirmed_of_infoFrom hinfo hcv
  · exact isOk_of_entryFrom hentry hmv
  · refine ⟨or_iff_not_imp_left.2 fun hf => ?_, or_iff_not_imp_left.2 fun hf => ?_⟩
    · simpa [isConfirmed_of_infoAnswer (hinfo.resolve_left hf)] using hcv
    · simpa [isOk_of_entryAnswer (hentry.resolve_left hf)] using hmv
  · obtain rfl := isConfirmed_of_infoFrom hinfo hcv
    exact reorg_of_chain_mined hrun (isOk_of_entryFrom hentry hmv)

theorem getTxStatus_reports_observed_mined_between :
    (List.Chain NodeStep .inMempool [] ∧ InfoFrom .inMempool (.ok (.ok ⟨none⟩)) ∧
      EntryFrom .inMempool (.ok (.ok ⟨⟩)) ∧
      getTxStatus (.ok (.ok ⟨none⟩)) (.ok (.ok ⟨⟩)) = some (.ok .broadcasted)) ∧
    (List.Chain NodeStep .inMempool [.mined] ∧ InfoFrom .inMempool (.ok (.ok ⟨none⟩)) ∧
      EntryFrom .mined (.ok (.error (.jsonRpc (.rpc (-5))))) ∧
      (failed (.ok (.ok ⟨none⟩) : Executed RawTransactionInfo) ∨ TxState.inMempool ≠ .mined) ∧
      (failed (.ok (.error (.jsonRpc (.rpc (-5)))) : Executed MempoolEntry) ∨
        [TxState.mined].getLastD .inMempool ≠ .inMempool)) :=
  ⟨⟨.nil, .inr rfl, .inr rfl,
    (getTxStatus_reports_observed .inMempool [] (.ok (.ok ⟨none⟩)) (.ok (.ok ⟨⟩)) .nil (.inr rfl)
      (.inr rfl)).2.2.2.2.2 rfl rfl rfl⟩,
   ⟨.cons .mine .nil, .inr rfl, .inr rfl,
    (getTxStatus_reports_observed .inMempool [.mined] (.ok (.ok ⟨none⟩))
      (.ok (.error (.jsonRpc (.rpc (-5))))) (.cons .mine .nil) (.inr rfl) (.inr rfl)).2.2.2.1 rfl⟩⟩

/-- A reorg between the queries reaches the panic, and a transaction mined between them is
reported `Rejected`, a status it did not have at any instant in between. -/
theorem getTxStatus_misreports_moving_node :
    (List.Chain NodeStep .mined [.inMempool] ∧ InfoFrom .mined (.ok (.ok ⟨some 1⟩)) ∧
      EntryFrom .inMempool (.ok (.ok ⟨⟩)) ∧
      getTxStatus (.ok (.ok ⟨some 1⟩)) (.ok (.ok ⟨⟩)) = none) ∧
    (List.Chain NodeStep .inMempool [.mined] ∧ InfoFrom .inMempool (.ok (.ok ⟨none⟩)) ∧
      EntryFrom .mined (.ok (.error (.jsonRpc (.rpc (-5))))) ∧
      getTxStatus (.ok (.ok ⟨none⟩)) (.ok (.error (.jsonRpc (.rpc (-5))))) = some (.ok .rejected) ∧
      ∀ s ∈ [TxState.inMempool, .mined], s.status ≠ .rejected) :=
  ⟨⟨.cons .reorg .nil, .inr rfl, .inr rfl, rfl⟩, ⟨.cons .mine .nil, .inr rfl, .inr rfl, rfl, by decide⟩⟩

end Sbtc.TxStatus
