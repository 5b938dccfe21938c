import Sbtc.DeclaredOrder

/-!
`Client::sign_and_broadcast` run by several tasks at once on clones of one `Client`, which
share its `Arc<Mutex<Wallet>>`. Each call is a short program (sleep, lock, sync, build, sign,
send) and a run interleaves the steps of all calls. The wallet keeps one view of its unspent
outputs, replaced by each sync and read by each build; the node spends a transaction's inputs
when it accepts its broadcast. The guard is held from `lock()` to the end of the blocking
closure, so the sync, build and sign spans of two calls never overlap; but it is dropped
before `send_raw_transaction`, so a second call can sync while the first call's transaction is
signed and not yet sent, and sign a second spend of the same output. What the lock gives is
that a call never spends an input of a transaction the node had accepted when it synced. The
node may also accept a broadcast whose answer is lost, and the call then returns `Err`.
-/

namespace Sbtc.SignAndBroadcast

open Collections ReorderOutputs

/-- An output of the wallet, by its outpoint. -/
abbrev Outpoint := Nat

/-- The part of a `Transaction` the model follows: the outpoints it spends, and its outputs. -/
structure Tx where
  inputs : List Outpoint
  outputs : List TxOut
  deriving DecidableEq, Repr

/-- Where a call of `sign_and_broadcast` is. `seen` is a ghost: the number of broadcasts the
node had accepted when the call synced. -/
inductive Phase
  | sleeping
  | waiting
  | locked
  | synced (seen : Nat)
  | built (tx : Tx) (change : Option TxOut) (seen : Nat)
  | sending (tx : Tx)
  | done (txid : Option Tx)
  deriving DecidableEq, Repr

/-- The phases in which a call holds the wallet's guard. -/
def Phase.holdsLock : Phase → Bool
  | .locked | .synced _ | .built _ _ _ => true
  | _ => false

/-- Ghost record of a signed transaction: its call, its change output, and the `seen` of the
call's sync. -/
structure Signed (Id : Type) where
  call : Id
  tx : Tx
  change : Option TxOut
  seen : Nat
  deriving DecidableEq, Repr

/-- A state of a run: the holder of the wallet's guard, the wallet's view of its unspent
outputs as of its last sync, the outputs of the wallet unspent on the chain, and each call's
phase. `accepted` and `signed` are ghosts: the transactions the node accepted, in order, and
the transactions the calls signed. -/
structure Sys (Id : Type) where
  lock : Option Id
  walletUtxos : List Outpoint
  unspent : List Outpoint
  accepted : List Tx
  signed : List (Signed Id)
  phase : Id → Phase

/-- A step of one call. -/
inductive Action
  | wake
  | lock
  | sync
  | build (inputs : List Outpoint) (change : Option TxOut) (produced : List TxOut)
  | sign
  | send
  | sendUnanswered
  | fail
  deriving DecidableEq, Repr

/-- The outputs `add_recipient` adds for the requested `(script, amount)` pairs. -/
def recipients (outputs : List (Script × UInt64)) : List TxOut :=
  outputs.map fun (script, amount) => ⟨amount, script⟩

theorem recipients_pairs (outputs : List (Script × UInt64)) :
    (recipients outputs).map TxOut.pair = outputs := by
  induction outputs with
  | nil => rfl
  | cons o outputs ih => simpa [recipients, TxOut.pair] using ih

variable {Id : Type}

/-- The node accepts `tx`: its inputs are spent and it joins the accepted broadcasts. -/
def Sys.accept (s : Sys Id) (tx : Tx) : Sys Id :=
  { s with unspent := s.unspent.filter (· ∉ tx.inputs), accepted := s.accepted ++ [tx] }

@[simp] theorem Sys.accept_lock (s : Sys Id) (tx : Tx) : (s.accept tx).lock = s.lock := rfl

@[simp] theorem Sys.accept_walletUtxos (s : Sys Id) (tx : Tx) :
    (s.accept tx).walletUtxos = s.walletUtxos := rfl

@[simp] theorem Sys.accept_unspent (s : Sys Id) (tx : Tx) :
    (s.accept tx).unspent = s.unspent.filter (· ∉ tx.inputs) := rfl

@[simp] theorem Sys.accept_accepted (s : Sys Id) (tx : Tx) :
    (s.accept tx).accepted = s.accepted ++ [tx] := rfl

@[simp] theorem Sys.accept_signed (s : Sys Id) (tx : Tx) : (s.accept tx).signed = s.signed := rfl

@[simp] theorem Sys.accept_phase (s : Sys Id) (tx : Tx) : (s.accept tx).phase = s.phase := rfl

section Step

variable [DecidableEq Id]

/-- Move call `i` to phase `p`. -/
def Sys.setPhase (s : Sys Id) (i : Id) (p : Phase) : Sys Id :=
  { s with phase := fun j => if j = i then p else s.phase j }

@[simp] theorem Sys.setPhase_phase_self (s : Sys Id) (i : Id) (p : Phase) :
    (s.setPhase i p).phase i = p := if_pos rfl

@[simp] theorem Sys.setPhase_phase_of_ne (s : Sys Id) {i j : Id} (p : Phase) (h : j ≠ i) :
    (s.setPhase i p).phase j = s.phase j := if_neg h

@[simp] theorem Sys.setPhase_lock (s : Sys Id) (i : Id) (p : Phase) :
    (s.setPhase i p).lock = s.lock := rfl

@[simp] theorem Sys.setPhase_walletUtxos (s : Sys Id) (i : Id) (p : Phase) :
    (s.setPhase i p).walletUtxos = s.walletUtxos := rfl

@[simp] theorem Sys.setPhase_unspent (s : Sys Id) (i : Id) (p : Phase) :
    (s.setPhase i p).unspent = s.unspent := rfl

@[simp] theorem Sys.setPhase_accepted (s : Sys Id) (i : Id) (p : Phase) :
    (s.setPhase i p).accepted = s.accepted := rfl

@[simp] theorem Sys.setPhase_signed (s : Sys Id) (i : Id) (p : Phase) :
    (s.setPhase i p).signed = s.signed := rfl

/-- The wallet holds no output before its first sync, and no call has started. -/
def init (utxos : List Outpoint) : Sys Id :=
  ⟨none, [], utxos, [], [], fun _ => .sleeping⟩

variable (request : Id → List (Script × UInt64))

/-- One step of call `i`, whose request is `request i`; `none` when the call cannot take it.
`wake`: the 3 s `sleep` ends and the blocking task starts. `lock`: `wallet.lock()` returns
the guard, once no other call holds it. `sync`: the wallet's view becomes the chain's
unspent outputs. `build`: `finish` selects inputs among the wallet's view, at least one since
the fee must be paid, and returns the recipients and change in some order, which
`reorder_outputs` rearranges. `sign`: the closure returns and its guard is dropped. `send`: the
node accepts the transaction if its inputs are unspent, and rejects it otherwise.
`sendUnanswered`: the node accepts the transaction but its answer is lost (the transport or the
blocking task fails), so the call returns `Err`. `fail`: the pending `?` returns `Err` before
its effect, for `send_raw_transaction` before the node sees the transaction. -/
def step (s : Sys Id) (i : Id) : Action → Option (Sys Id)
  | .wake =>
    match s.phase i with
    | .sleeping => some (s.setPhase i .waiting)
    | _ => none
  | .lock =>
    match s.phase i, s.lock with
    | .waiting, none => some ({ s with lock := some i }.setPhase i .locked)
    | _, _ => none
  | .sync =>
    match s.phase i with
    | .locked => some ({ s with walletUtxos := s.unspent }.setPhase i (.synced s.accepted.length))
    | _ => none
  | .build inputs change produced =>
    match s.phase i with
    | .synced seen =>
      if inputs ≠ [] ∧ inputs.all (· ∈ s.walletUtxos) ∧
          produced.Perm (recipients (request i) ++ change.toList) then
        some (s.setPhase i (.built ⟨inputs, reorderOutputs produced (request i)⟩ change seen))
      else none
    | _ => none
  | .sign =>
    match s.phase i with
    | .built tx change seen =>
      some ({ s with lock := none, signed := s.signed ++ [Signed.mk i tx change seen] }.setPhase i
        (.sending tx))
    | _ => none
  | .send =>
    match s.phase i with
    | .sending tx =>
      if tx.inputs.all (· ∈ s.unspent) then some ((s.accept tx).setPhase i (.done (some tx)))
      else some (s.setPhase i (.done none))
    | _ => none
  | .sendUnanswered =>
    match s.phase i with
    | .sending tx =>
      if tx.inputs.all (· ∈ s.unspent) then some ((s.accept tx).setPhase i (.done none)) else none
    | _ => none
  | .fail =>
    match s.phase i with
    | .locked | .synced _ | .built _ _ _ => some ({ s with lock := none }.setPhase i (.done none))
    | .sending _ => some (s.setPhase i (.done none))
    | _ => none

/-- The states a run of any number of calls reaches from `init utxos`. -/
inductive Reachable (utxos : List Outpoint) : Sys Id → Prop
  | init : Reachable utxos (init utxos)
  | step {s s' : Sys Id} {i : Id} {a : Action} :
    Reachable utxos s → step request s i a = some s' → Reachable utxos s'

/-- The steps of a trace of `(call, action)` pairs, in order. -/
def run (s : Sys Id) : List (Id × Action) → Option (Sys Id)
  | [] => some s
  | (i, a) :: rest => (step request s i a).bind (run · rest)

theorem reachable_of_run {utxos : List Outpoint} :
    ∀ {s s' : Sys Id} {trace : List (Id × Action)},
      Reachable request utxos s → run request s trace = some s' → Reachable request utxos s'
  | _, _, [], hs, h => by cases h; exact hs
  | s, _, (i, a) :: rest, hs, h => by
    simp only [run] at h
    cases hstep : step request s i a with
    | none => simp [hstep] at h
    | some s₁ => exact reachable_of_run (.step hs hstep) (by simpa [hstep] using h)

/-- Two calls on one `Client`, paying different recipients. -/
def twoRequests (i : Fin 2) : List (Script × UInt64) :=
  if i = 0 then [([0x51], 1000)] else [([0x52], 2000)]

/-- The first call signs and drops the guard; the second call syncs before the first call's
broadcast, and signs a spend of the same output; then both send. -/
def doubleSpendTrace : List (Fin 2 × Action) :=
  [(0, .wake), (0, .lock), (0, .sync), (0, .build [7] none [⟨1000, [0x51]⟩]), (0, .sign),
    (1, .wake), (1, .lock), (1, .sync), (1, .build [7] none [⟨2000, [0x52]⟩]), (1, .sign),
    (0, .send), (1, .send)]

/-- Two calls sign transactions that spend the same output, and the second broadcast fails. -/
theorem signAndBroadcast_double_spend :
    ∃ s, Reachable twoRequests [7] s ∧
      (∃ r ∈ s.signed, ∃ r' ∈ s.signed, r.call ≠ r'.call ∧ ∃ o ∈ r.tx.inputs, o ∈ r'.tx.inputs) ∧
      s.phase 1 = .done none := by
  have h : (run twoRequests (init [7]) doubleSpendTrace).map (fun s =>
      (s.signed.any fun r => s.signed.any fun r' =>
        decide (r.call ≠ r'.call) && r.tx.inputs.any (· ∈ r'.tx.inputs)) &&
      s.phase 1 == .done none) = some true := by decide
  cases hrun : run twoRequests (init [7]) doubleSpendTrace with
  | none => simp [hrun] at h
  | some s =>
    simp only [hrun, Option.map_some', Option.some.injEq, Bool.and_eq_true, List.any_eq_true,
      decide_eq_true_eq, beq_iff_eq] at h
    exact ⟨s, reachable_of_run twoRequests .init hrun, h⟩

/-! What each action can do, said once. -/

variable {request} {s s' : Sys Id} {i : Id}

theorem step_wake (h : step request s i .wake = some s') :
    s.phase i = .sleeping ∧ s' = s.setPhase i .waiting := by
  simp only [step] at h
  split at h <;> simp_all

theorem step_lock (h : step request s i .lock = some s') :
    s.phase i = .waiting ∧ s.lock = none ∧ s' = { s with lock := some i }.setPhase i .locked := by
  simp only [step] at h
  split at h <;> simp_all

theorem step_sync (h : step request s i .sync = some s') :
    s.phase i = .locked ∧
      s' = { s with walletUtxos := s.unspent }.setPhase i (.synced s.accepted.length) := by
  simp only [step] at h
  split at h <;> simp_all

theorem step_build {inputs : List Outpoint} {change : Option TxOut} {produced : List TxOut}
    (h : step request s i (.build inputs change produced) = some s') :
    ∃ seen, s.phase i = .synced seen ∧ inputs ≠ [] ∧ (∀ o ∈ inputs, o ∈ s.walletUtxos) ∧
      produced.Perm (recipients (request i) ++ change.toList) ∧
      s' = s.setPhase i (.built ⟨inputs, reorderOutputs produced (request i)⟩ change seen) := by
  simp only [step] at h
  split at h
  · split_ifs at h with hok
    · simp only [List.all_eq_true, decide_eq_true_eq] at hok
      exact ⟨_, ‹_›, hok.1, hok.2.1, hok.2.2, (Option.some.inj h).symm⟩
  · cases h

theorem step_sign (h : step request s i .sign = some s') :
    ∃ tx change seen, s.phase i = .built tx change seen ∧
      s' = { s with lock := none, signed := s.signed ++ [Signed.mk i tx change seen] }.setPhase i
        (.sending tx) := by
  simp only [step] at h
  split at h
  · exact ⟨_, _, _, ‹_›, (Option.some.inj h).symm⟩
  · cases h

theorem step_send (h : step request s i .send = some s') :
    ∃ tx, s.phase i = .sending tx ∧
      ((∀ o ∈ tx.inputs, o ∈ s.unspent) ∧ s' = (s.accept tx).setPhase i (.done (some tx)) ∨
        s' = s.setPhase i (.done none)) := by
  simp only [step] at h
  split at h
  · split_ifs at h with hok <;> simp_all
  · cases h

theorem step_sendUnanswered (h : step request s i .sendUnanswered = some s') :
    ∃ tx, s.phase i = .sending tx ∧ (∀ o ∈ tx.inputs, o ∈ s.unspent) ∧
      s' = (s.accept tx).setPhase i (.done none) := by
  simp only [step] at h
  split at h
  · split_ifs at h with hok
    simp_all
  · cases h

theorem step_fail (h : step request s i .fail = some s') :
    (s.phase i).holdsLock ∧ s' = { s with lock := none }.setPhase i (.done none) ∨
      ∃ tx, s.phase i = .sending tx ∧ s' = s.setPhase i (.done none) := by
  simp only [step] at h
  split at h <;> simp_all [Phase.holdsLock]

end Step

/-! ## The invariant -/

/-- No transaction among the first `seen` the node accepted spends one of `outpoints`. -/
def AvoidsAccepted (accepted : List Tx) (seen : Nat) (outpoints : List Outpoint) : Prop :=
  seen ≤ accepted.length ∧ ∀ tx ∈ accepted.take seen, ∀ o ∈ tx.inputs, o ∉ outpoints

theorem AvoidsAccepted.append {accepted : List Tx} {seen : Nat} {outpoints : List Outpoint}
    (h : AvoidsAccepted accepted seen outpoints) (tx : Tx) :
    AvoidsAccepted (accepted ++ [tx]) seen outpoints := by
  refine ⟨h.1.trans (by simp), ?_⟩
  rw [List.take_append_of_le_length h.1]
  exact h.2

theorem AvoidsAccepted.mono {accepted : List Tx} {seen : Nat} {outpoints outpoints' : List Outpoint}
    (h : AvoidsAccepted accepted seen outpoints) (hsub : ∀ o ∈ outpoints', o ∈ outpoints) :
    AvoidsAccepted accepted seen outpoints' :=
  ⟨h.1, fun tx htx o ho ho' => h.2 tx htx o ho (hsub o ho')⟩

/-- The outputs of a transaction a call built: `reorder_outputs` of the recipients and
change, in the order `finish` returned them. -/
def OutputsOf (outputs : List (Script × UInt64)) (tx : Tx) (change : Option TxOut) : Prop :=
  ∃ produced, produced.Perm (recipients outputs ++ change.toList) ∧
    tx.outputs = reorderOutputs produced outputs

section Inv

variable (request : Id → List (Script × UInt64))

/-- What holds of call `i` in phase `p`: it holds the guard exactly from `lock` to `sign`;
the wallet's view it synced, and then the inputs it chose, avoid every broadcast the node had
accepted at its sync. -/
def CallInv (s : Sys Id) (i : Id) : Phase → Prop
  | .locked => s.lock = some i
  | .synced seen => s.lock = some i ∧ AvoidsAccepted s.accepted seen s.walletUtxos
  | .built tx change seen =>
    s.lock = some i ∧ AvoidsAccepted s.accepted seen tx.inputs ∧ OutputsOf (request i) tx change
  | _ => s.lock ≠ some i

/-- The invariant of every reachable state. -/
structure Inv (s : Sys Id) : Prop where
  call : ∀ i, CallInv request s i (s.phase i)
  spent : ∀ tx ∈ s.accepted, ∀ o ∈ tx.inputs, o ∉ s.unspent
  signed : ∀ r ∈ s.signed,
    AvoidsAccepted s.accepted r.seen r.tx.inputs ∧ OutputsOf (request r.call) r.tx r.change

variable {request} {s s' : Sys Id} {i j : Id} {p : Phase}

theorem callInv_iff_of_not_holdsLock (hp : p.holdsLock = false) :
    CallInv request s i p ↔ s.lock ≠ some i := by
  cases p <;> simp_all [CallInv, Phase.holdsLock]

theorem lock_eq_of_callInv (h : CallInv request s i p) (hp : p.holdsLock) : s.lock = some i := by
  cases p <;> simp_all [CallInv, Phase.holdsLock]

/-- `CallInv` reads the state only through the lock, the wallet's view and the accepted
broadcasts. -/
theorem callInv_congr (hl : s'.lock = s.lock) (hw : s'.walletUtxos = s.walletUtxos)
    (ha : s'.accepted = s.accepted) : CallInv request s' i p ↔ CallInv request s i p := by
  cases p <;> simp [CallInv, hl, hw, ha]

/-- A call the guard is not with holds no guard, whatever the guard does next. -/
theorem callInv_of_not_locked (h : CallInv request s j p) (hs : s.lock ≠ some j)
    (hs' : s'.lock ≠ some j) : CallInv request s' j p := by
  have hp : p.holdsLock = false := by
    by_contra hp
    exact hs (lock_eq_of_callInv h (by simpa using hp))
  exact (callInv_iff_of_not_holdsLock hp).2 hs'

theorem callInv_append_accepted (h : CallInv request s j p) (tx : Tx) (unspent : List Outpoint) :
    CallInv request { s with accepted := s.accepted ++ [tx], unspent } j p := by
  cases p <;> simp_all [CallInv, AvoidsAccepted.append]

variable [DecidableEq Id]

/-- A step of call `i` that neither takes nor drops the guard, and changes no field but its
phase. -/
theorem Inv.setPhase_quiet (hinv : Inv request s) (hold : (s.phase i).holdsLock = false)
    (hp : p.holdsLock = false) : Inv request (s.setPhase i p) where
  call j := by
    by_cases hj : j = i
    · subst hj
      rw [Sys.setPhase_phase_self, callInv_iff_of_not_holdsLock hp, Sys.setPhase_lock]
      exact (callInv_iff_of_not_holdsLock hold).1 (hinv.call j)
    · rw [Sys.setPhase_phase_of_ne _ _ hj, callInv_congr rfl rfl rfl]
      exact hinv.call j
  spent := hinv.spent
  signed := hinv.signed

/-- A step of call `i` that may take or drop the guard, or replace the wallet's view: no
other call holds the guard before or after it, so their invariants stand. -/
theorem Inv.call_setPhase (hinv : Inv request s) {s₁ : Sys Id} (hphase : s₁.phase = s.phase)
    (hlock : s.lock = none ∨ s.lock = some i) (hlock₁ : s₁.lock = none ∨ s₁.lock = some i)
    (hi : CallInv request s₁ i p) (j : Id) :
    CallInv request (s₁.setPhase i p) j ((s₁.setPhase i p).phase j) := by
  rw [callInv_congr rfl rfl rfl]
  by_cases hj : j = i
  · subst hj
    rwa [Sys.setPhase_phase_self]
  · have hne : ∀ l : Option Id, (l = none ∨ l = some i) → l ≠ some j := by
      rintro _ (rfl | rfl) <;> simp [Ne.symm hj]
    rw [Sys.setPhase_phase_of_ne _ _ hj, hphase]
    exact callInv_of_not_locked (hinv.call j) (hne _ hlock) (hne _ hlock₁)

/-- The broadcast the node accepts keeps the invariant, whether or not its answer reaches the
call: the inputs it spends leave the unspent outputs, and the calls' records only gain a later
broadcast. -/
theorem Inv.accept (hinv : Inv request s) {tx : Tx} (hi : s.phase i = .sending tx)
    (txid : Option Tx) : Inv request ((s.accept tx).setPhase i (.done txid)) where
  call j := by
    by_cases hj : j = i
    · subst hj
      have := hinv.call j
      simp_all [CallInv]
    · rw [Sys.setPhase_phase_of_ne _ _ hj, callInv_congr rfl rfl rfl]
      exact callInv_append_accepted (hinv.call j) tx (s.unspent.filter (· ∉ tx.inputs))
  spent tx' htx' o ho := by
    simp only [Sys.setPhase_unspent, Sys.setPhase_accepted, Sys.accept_unspent,
      Sys.accept_accepted, List.mem_append, List.mem_singleton] at htx' ⊢
    rcases htx' with htx' | rfl
    · exact fun hmem => hinv.spent tx' htx' o ho (List.mem_filter.1 hmem).1
    · simp [ho]
  signed r hr := by
    obtain ⟨havoid, hout⟩ := hinv.signed r hr
    exact ⟨havoid.append tx, hout⟩

/-- Every step keeps the invariant. -/
theorem Inv.step (hinv : Inv request s) {a : Action} (h : step request s i a = some s') :
    Inv request s' := by
  cases a with
  | wake =>
    obtain ⟨hp, rfl⟩ := step_wake h
    exact hinv.setPhase_quiet (by simp [hp, Phase.holdsLock]) rfl
  | lock =>
    obtain ⟨-, hlock, rfl⟩ := step_lock h
    exact ⟨hinv.call_setPhase rfl (.inl hlock) (.inr rfl) rfl, hinv.spent, hinv.signed⟩
  | sync =>
    obtain ⟨hp, rfl⟩ := step_sync h
    have hlock : s.lock = some i := by simpa [hp, CallInv] using hinv.call i
    refine ⟨hinv.call_setPhase rfl (.inr hlock) (.inr hlock) ?_, hinv.spent, hinv.signed⟩
    simpa [CallInv, hlock, AvoidsAccepted] using hinv.spent
  | build inputs change produced =>
    obtain ⟨seen, hp, -, hinputs, hperm, rfl⟩ := step_build h
    have hi := hinv.call i
    rw [hp] at hi
    exact ⟨hinv.call_setPhase rfl (.inr hi.1) (.inr hi.1)
      ⟨hi.1, hi.2.mono hinputs, produced, hperm, rfl⟩, hinv.spent, hinv.signed⟩
  | sign =>
    obtain ⟨tx, change, seen, hp, rfl⟩ := step_sign h
    have hi := hinv.call i
    rw [hp] at hi
    refine ⟨hinv.call_setPhase rfl (.inr hi.1) (.inl rfl) (by simp [CallInv]), hinv.spent,
      fun r hr => ?_⟩
    simp only [Sys.setPhase_signed, Sys.setPhase_accepted, List.mem_append,
      List.mem_singleton] at hr ⊢
    rcases hr with hr | rfl
    · exact hinv.signed r hr
    · exact hi.2
  | send =>
    obtain ⟨tx, hp, ⟨-, rfl⟩ | rfl⟩ := step_send h
    · exact hinv.accept hp _
    · exact hinv.setPhase_quiet (by simp [hp, Phase.holdsLock]) rfl
  | sendUnanswered =>
    obtain ⟨tx, hp, -, rfl⟩ := step_sendUnanswered h
    exact hinv.accept hp _
  | fail =>
    rcases step_fail h with ⟨hp, rfl⟩ | ⟨tx, hp, rfl⟩
    · exact ⟨hinv.call_setPhase rfl (.inr (lock_eq_of_callInv (hinv.call i) hp)) (.inl rfl)
        (by simp [CallInv]), hinv.spent, hinv.signed⟩
    · exact hinv.setPhase_quiet (by simp [hp, Phase.holdsLock]) rfl

theorem Reachable.inv {utxos : List Outpoint} (h : Reachable request utxos s) : Inv request s := by
  induction h with
  | init =>
    exact ⟨fun i => by simp [SignAndBroadcast.init, CallInv], by simp [SignAndBroadcast.init],
      by simp [SignAndBroadcast.init]⟩
  | step _ hstep ih => exact ih.step hstep

/-- Over every interleaving of any number of calls, at most one call is between `lock` and
`sign`, and it holds the guard; and no transaction a call signs spends an input of a
transaction the node had accepted when that call synced. -/
theorem sign_spans_exclusive_and_avoid_accepted {utxos : List Outpoint}
    (h : Reachable request utxos s) :
    (∀ i j, (s.phase i).holdsLock → (s.phase j).holdsLock → i = j ∧ s.lock = some i) ∧
    (∀ r ∈ s.signed, r.seen ≤ s.accepted.length ∧
      ∀ tx ∈ s.accepted.take r.seen, ∀ o ∈ tx.inputs, o ∉ r.tx.inputs) := by
  have hinv := h.inv
  refine ⟨fun i j hi hj => ?_, fun r hr => (hinv.signed r hr).1⟩
  have hli := lock_eq_of_callInv (hinv.call i) hi
  have hlj := lock_eq_of_callInv (hinv.call j) hj
  exact ⟨Option.some.inj (hli.symm.trans hlj), hli⟩

/-- Two calls one after the other on the outputs `7` and `8`: the node accepts the first
call's spend of `7` before the second call syncs, and the second call spends `8`. -/
def sequentialTrace : List (Fin 2 × Action) :=
  [(0, .wake), (0, .lock), (0, .sync), (0, .build [7] none [⟨1000, [0x51]⟩]), (0, .sign),
    (0, .send), (1, .wake), (1, .lock), (1, .sync), (1, .build [8] none [⟨2000, [0x52]⟩]),
    (1, .sign)]

theorem sign_spans_exclusive_and_avoid_accepted_sequential :
    (∃ s, Reachable twoRequests [7, 8] s ∧ (s.phase 1).holdsLock ∧ s.lock = some 1) ∧
    ∃ s, Reachable twoRequests [7, 8] s ∧ ∃ r ∈ s.signed, r.call = 1 ∧ r.seen = 1 ∧
      ∀ tx ∈ s.accepted.take r.seen, ∀ o ∈ tx.inputs, o ∉ r.tx.inputs := by
  obtain ⟨s, hrun, hheld⟩ := Option.map_eq_some'.mp (show (run twoRequests (init [7, 8])
    (sequentialTrace.take 10)).map (fun s => (s.phase 1).holdsLock) = some true by decide)
  obtain ⟨s', hrun', hsigned⟩ := Option.map_eq_some'.mp (show (run twoRequests (init [7, 8])
    sequentialTrace).map Sys.signed = some [⟨0, ⟨[7], [⟨1000, [0x51]⟩]⟩, none, 0⟩,
      ⟨1, ⟨[8], [⟨2000, [0x52]⟩]⟩, none, 1⟩] by decide)
  have hs := reachable_of_run twoRequests .init hrun
  have hs' := reachable_of_run twoRequests .init hrun'
  have hr : ⟨1, ⟨[8], [⟨2000, [0x52]⟩]⟩, none, 1⟩ ∈ s'.signed := by simp [hsigned]
  exact ⟨⟨s, hs, hheld, ((sign_spans_exclusive_and_avoid_accepted hs).1 1 1 hheld hheld).2⟩,
    s', hs', _, hr, rfl, rfl, ((sign_spans_exclusive_and_avoid_accepted hs').2 _ hr).2⟩

/-- The transaction a call signs has the requested outputs in the requested order, then the
change, when the requested pairs are distinct and the change is none of them. -/
theorem signed_outputs_in_request_order {utxos : List Outpoint} (h : Reachable request utxos s)
    {r : Signed Id} (hr : r ∈ s.signed) (hlen : (request r.call).length ≤ usizeMax)
    (hnodup : (request r.call).Nodup) (hchange : ∀ c ∈ r.change, c.pair ∉ request r.call) :
    r.tx.outputs = recipients (request r.call) ++ r.change.toList := by
  obtain ⟨produced, hperm, hout⟩ := (h.inv.signed r hr).2
  rw [hout]
  exact DeclaredOrder.reorderOutputs_eq_declared_append_change hlen hnodup
    (recipients_pairs _) hchange hperm

/-- One call paying two recipients. -/
def twoRecipients (_ : Fin 1) : List (Script × UInt64) :=
  [([0x51], 1000), ([0x52], 2000)]

/-- The call run up to its signature, `finish` returning the change first and the two
recipients swapped. -/
def changeFirstTrace : List (Fin 1 × Action) :=
  [(0, .wake), (0, .lock), (0, .sync),
    (0, .build [7] (some ⟨500, [0x53]⟩) [⟨500, [0x53]⟩, ⟨2000, [0x52]⟩, ⟨1000, [0x51]⟩]),
    (0, .sign)]

theorem signed_outputs_in_request_order_change_first :
    ∃ s, Reachable twoRecipients [7] s ∧ ∃ r ∈ s.signed, r.change = some ⟨500, [0x53]⟩ ∧
      r.tx.outputs = recipients (twoRecipients r.call) ++ r.change.toList := by
  obtain ⟨s, hrun, hchanges⟩ := Option.map_eq_some'.mp (show (run twoRecipients (init [7])
    changeFirstTrace).map (·.signed.map Signed.change) = some [some ⟨500, [0x53]⟩] by decide)
  have hs := reachable_of_run twoRecipients .init hrun
  obtain ⟨r, hr, hc⟩ := List.mem_map.mp (show some ⟨500, [0x53]⟩ ∈ s.signed.map Signed.change by
    simp only [hchanges, List.mem_singleton])
  exact ⟨s, hs, r, hr, hc, signed_outputs_in_request_order hs hr
    (by unfold twoRecipients; decide) (by unfold twoRecipients; decide)
    (by rw [hc]; unfold twoRecipients; decide)⟩

end Inv

end Sbtc.SignAndBroadcast
