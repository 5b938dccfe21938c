import Mathlib.Data.List.Basic

/-!
The JSON-RPC side of romeo's `bitcoin_client.rs`. Every call goes through `execute`, whose
result has two layers: the outer `anyhow::Result` fails when the RPC client cannot be built
or the blocking task is lost, and the inner `bitcoincore_rpc::Result` is the node's answer.
The node itself is not modelled here: the answers to a call are arguments. `get_block` asks
for the hash at its height until an answer is not retryable, so it reads a stream of answers
and runs on fuel, `none` meaning that it is still polling. For every stream of answers we
give the exact calls and sleeps of `get_block` and its result, and show that it never returns
while the node keeps answering with retryable errors. `Client::new` names the URL in its
errors as the `url` crate prints it, credentials included.
-/

namespace Sbtc.ChainClient

/-- The cases of `jsonrpc::Error` that `get_block` tells apart. Of the node's error object
only `code` is read; every other case (JSON, nonce or version mismatch, ...) is `other`. -/
inductive JsonRpcError
  | transport
  | rpc (code : Int)
  | other
  deriving DecidableEq, Repr

/-- `bitcoincore_rpc::Error`: a JSON-RPC error, or another failure of the call (hex, JSON or
consensus decoding, I/O, an unexpected response). -/
inductive RpcError
  | jsonRpc (err : JsonRpcError)
  | other
  deriving DecidableEq, Repr

/-- The failures of `execute` itself: `RPCClient::new`, and the join of the blocking task. -/
inductive ExecuteError
  | clientNew
  | join
  deriving DecidableEq, Repr

/-- What `execute` returns for one call. -/
abbrev Executed (α : Type) := Except ExecuteError (Except RpcError α)

/-- The `anyhow::Error`s the client returns. `fetchingBlock` is
`"Error fetching Bitcoin block: {:?}"`, whose debug text shows the node's error object alone
for an `Rpc` error and the whole error otherwise. -/
inductive ClientError
  | walletNew
  | usernameEmpty (url : String)
  | passwordEmpty (url : String)
  | execute (err : ExecuteError)
  | rpc (err : RpcError)
  | fetchingBlock (err : RpcError)
  deriving DecidableEq, Repr

/-- The text of the two credential errors of `Client::new`. -/
def ClientError.credentialText : ClientError → Option String
  | .usernameEmpty url => some ("Username in " ++ url ++ " is empty")
  | .passwordEmpty url => some ("Password in " ++ url ++ " is empty")
  | _ => none

/-- The parts of a `url::Url` the client reads: its scheme, credentials, host and path, and
whether it can carry credentials at all (it has a host and is not a `file:` URL). -/
structure Url where
  scheme : String
  username : String
  password : Option String
  host : String
  path : String
  canHaveCredentials : Bool

/-- The credentials as the `url` crate writes them: none without a username or a password,
else the username, then `:` and the password if there is one, then `@`. -/
def Url.userinfo (url : Url) : String :=
  if url.username.isEmpty ∧ url.password.isNone then ""
  else url.username ++ (url.password.map (":" ++ ·)).getD "" ++ "@"

/-- `Display for Url` on these parts. -/
def Url.serialization (url : Url) : String :=
  url.scheme ++ "://" ++ url.userinfo ++ url.host ++ url.path

/-- `Client`: the field the JSON-RPC calls use. Its fields are private and `Client::new` is
the only constructor, so every client carries what `new` checked. The Electrum blockchain and
the wallet are the subject of `SignAndBroadcast`. -/
@[ext] structure Client where
  bitcoinUrl : Url
  username_ne : bitcoinUrl.username.isEmpty = false
  password_isSome : bitcoinUrl.password.isSome

/-- `Client::new`. `Wallet::new` runs first; `walletOk` says whether it succeeded. -/
def Client.new (bitcoinUrl : Url) (walletOk : Bool) : Except ClientError Client :=
  if !walletOk then .error .walletNew
  else if hu : bitcoinUrl.username.isEmpty then .error (.usernameEmpty bitcoinUrl.serialization)
  else if hp : bitcoinUrl.password.isNone then .error (.passwordEmpty bitcoinUrl.serialization)
  else .ok ⟨bitcoinUrl, by simpa using hu, Option.ne_none_iff_isSome.1 (by simpa using hp)⟩

/-- Once the wallet is built, `Client::new` admits exactly the URLs with a username and a
password. -/
theorem Client.new_eq_ok_iff (url : Url) (c : Client) :
    Client.new url true = .ok c ↔
      url.username.isEmpty = false ∧ url.password.isSome ∧ c.bitcoinUrl = url := by
  have hsome : url.password.isSome = !url.password.isNone := by cases url.password <;> rfl
  unfold Client.new
  split_ifs with hw hu hp
  · simp at hw
  · simp [hu]
  · simp [hsome, hp]
  · simp [hu, hsome, hp, Client.ext_iff, eq_comm]

/-- The texts `Client::new` fails with once the wallet is built, as its `no_password` test
checks them: a URL without a username is refused naming the username, one with a username but
no password naming the password, each with the URL as it prints. -/
theorem Client.new_error_credentialText {url : Url} {err : ClientError}
    (h : Client.new url true = .error err) :
    err.credentialText = some ((if url.username.isEmpty then "Username in " else "Password in ") ++
      url.serialization ++ " is empty") := by
  unfold Client.new at h
  split_ifs at h with hw hu <;> cases h
  · simp at hw
  all_goals simp [ClientError.credentialText, hu]

example : (match Client.new ⟨"http", "user", none, "host", "/", true⟩ true with
    | .error err => err.credentialText
    | .ok _ => none) = some "Password in http://user@host/ is empty" := by decide

/-- What `execute` connects with: `set_username("")` and `set_password(None)` are unwrapped,
a panic (`none`) on a URL that cannot carry credentials, and `Auth::UserPass` gets the
username and the password or its empty default. -/
def Client.auth (c : Client) : Option (String × String) :=
  if c.bitcoinUrl.canHaveCredentials then
    some (c.bitcoinUrl.username, c.bitcoinUrl.password.getD "")
  else none

/-- The `.await??` of a call whose node error is passed on as it is. -/
def tryExecuted {α : Type} : Executed α → Except ClientError α
  | .error err => .error (.execute err)
  | .ok (.error err) => .error (.rpc err)
  | .ok (.ok value) => .ok value

theorem tryExecuted_eq_ok_iff {α : Type} (a : Executed α) (value : α) :
    tryExecuted a = .ok value ↔ a = .ok (.ok value) := by
  rcases a with _ | _ | _ <;> simp [tryExecuted]

/-- `Client::broadcast`. -/
def broadcast {Txid : Type} (answer : Executed Txid) : Except ClientError Unit :=
  (tryExecuted answer).map fun _ => ()

/-- The part of `GetBlockchainInfoResult` that `get_height` reads. -/
structure BlockchainInfo where
  blocks : UInt64

/-- `Client::get_height`: `info.blocks as u32` keeps the low 32 bits. -/
def getHeight (answer : Executed BlockchainInfo) : Except ClientError UInt32 :=
  (tryExecuted answer).map fun info => info.blocks.toUInt32

/-- `BLOCK_POLLING_INTERVAL`, in seconds. -/
def blockPollingInterval : Nat := 5

/-- The calls `get_block` makes, and its sleeps. -/
inductive Event (Hash : Type)
  | getBlockHash (height : UInt64)
  | sleep (secs : Nat)
  | getBlock (hash : Hash)
  deriving DecidableEq, Repr

/-- How one pass of the `loop` of `get_block` ends: `break hash`, a return through `?`, or
on to the `sleep`. -/
inductive Pass (Hash : Type)
  | found (hash : Hash)
  | fail (err : ClientError)
  | retry

/-- The body of the `loop` of `get_block`, from the `?` on `execute` to the `match`. -/
def hashPass {Hash : Type} : Executed Hash → Pass Hash
  | .error err => .fail (.execute err)
  | .ok (.ok hash) => .found hash
  | .ok (.error (.jsonRpc (.rpc code))) =>
    if code = -8 then .retry else .fail (.fetchingBlock (.jsonRpc (.rpc code)))
  | .ok (.error (.jsonRpc .transport)) => .retry
  | .ok (.error (.jsonRpc .other)) => .fail (.fetchingBlock (.jsonRpc .other))
  | .ok (.error .other) => .fail (.fetchingBlock .other)

/-- The node's answers to `get_block`: to the `k`-th `get_block_hash`, and to `get_block`
of a hash. -/
structure NodeAnswers (Hash Block : Type) where
  hashAnswer : Nat → Executed Hash
  blockAnswer : Hash → Executed Block

section GetBlock

variable {Hash Block : Type} (height : UInt32)

/-- The `loop` of `get_block` for at most `fuel` passes, the first of them answered by the
`k`-th answer: its calls and sleeps, and the hash or error it leaves with (`none`: it is
still polling). -/
def hashLoop (answers : Nat → Executed Hash) :
    Nat → Nat → List (Event Hash) × Option (Except ClientError Hash)
  | 0, _ => ([], none)
  | fuel + 1, k =>
    match hashPass (answers k) with
    | .found hash => ([.getBlockHash height.toUInt64], some (.ok hash))
    | .fail err => ([.getBlockHash height.toUInt64], some (.error err))
    | .retry =>
      let rest := hashLoop answers fuel (k + 1)
      (.getBlockHash height.toUInt64 :: .sleep blockPollingInterval :: rest.1, rest.2)

/-- The code after the `loop`: fetch the block of the hash, or return the error. -/
def fetchBlock (node : NodeAnswers Hash Block) :
    Except ClientError Hash → List (Event Hash) × Except ClientError (UInt32 × Block)
  | .ok hash => ([.getBlock hash], (tryExecuted (node.blockAnswer hash)).map (height, ·))
  | .error err => ([], .error err)

/-- `Client::get_block` with at most `fuel` passes of its loop. -/
def getBlock (node : NodeAnswers Hash Block) (fuel : Nat) :
    List (Event Hash) × Option (Except ClientError (UInt32 × Block)) :=
  match hashLoop height node.hashAnswer fuel 0 with
  | (calls, some left) => (calls ++ (fetchBlock height node left).1, some (fetchBlock height node left).2)
  | (calls, none) => (calls, none)

/-- The answers retried on: JSON-RPC error `-8` and transport errors. -/
def retryable : Executed Hash → Bool
  | .ok (.error (.jsonRpc (.rpc code))) => code == -8
  | .ok (.error (.jsonRpc .transport)) => true
  | _ => false

/-- `n` passes of the loop that each end in the sleep. -/
def polls : Nat → List (Event Hash)
  | 0 => []
  | n + 1 => .getBlockHash height.toUInt64 :: .sleep blockPollingInterval :: polls n

/-- The block fetch that follows the first answer that is not retried. -/
def blockCalls : Executed Hash → List (Event Hash)
  | .ok (.ok hash) => [.getBlock hash]
  | _ => []

theorem blockCalls_eq_nil {a : Executed Hash} (h : ∀ hash, a ≠ .ok (.ok hash)) :
    blockCalls a = [] := by
  rcases a with _ | _ | hash <;> simp_all [blockCalls]

theorem hashPass_eq_retry_iff (a : Executed Hash) : hashPass a = .retry ↔ retryable a := by
  rcases a with _ | ((_ | code | _) | _) | _ <;> simp [hashPass, retryable]

/-- Where a pass that is not retried leaves the loop with. -/
def Pass.exit : Pass Hash → Option (Except ClientError Hash)
  | .found hash => some (.ok hash)
  | .fail err => some (.error err)
  | .retry => none

/-- A pass that is not retried leaves the loop, with the hash exactly when the answer is one. -/
theorem exit_hashPass_of_not_retryable {a : Executed Hash} (h : retryable a = false) :
    ∃ left, (hashPass a).exit = some left ∧ ∀ hash, left = .ok hash ↔ a = .ok (.ok hash) := by
  rcases a with err | ((_ | code | _) | _) | hash
  · exact ⟨.error (.execute err), rfl, by simp⟩
  · simp [retryable] at h
  · have hcode : code ≠ -8 := by simpa [retryable] using h
    exact ⟨.error (.fetchingBlock (.jsonRpc (.rpc code))), by simp [hashPass, hcode, Pass.exit],
      by simp⟩
  · exact ⟨.error (.fetchingBlock (.jsonRpc .other)), rfl, by simp⟩
  · exact ⟨.error (.fetchingBlock .other), rfl, by simp⟩
  · exact ⟨.ok hash, rfl, by simp⟩

variable {answers : Nat → Executed Hash} {fuel k : Nat}

theorem hashLoop_succ_of_retryable (h : retryable (answers k)) :
    hashLoop height answers (fuel + 1) k =
      (.getBlockHash height.toUInt64 :: .sleep blockPollingInterval ::
        (hashLoop height answers fuel (k + 1)).1, (hashLoop height answers fuel (k + 1)).2) := by
  rw [hashLoop, (hashPass_eq_retry_iff _).2 h]

theorem hashLoop_succ_of_not_retryable (h : retryable (answers k) = false) :
    hashLoop height answers (fuel + 1) k =
      ([.getBlockHash height.toUInt64], (hashPass (answers k)).exit) := by
  have hpass : hashPass (answers k) ≠ .retry := by simp [hashPass_eq_retry_iff, h]
  rw [hashLoop]
  split <;> simp_all [Pass.exit]

/-- While every answer is retried the loop polls and sleeps, and does not leave. -/
theorem hashLoop_of_retryable (h : ∀ i < fuel, retryable (answers (k + i))) :
    hashLoop height answers fuel k = (polls height fuel, none) := by
  induction fuel generalizing k with
  | zero => rfl
  | succ fuel ih =>
    rw [hashLoop_succ_of_retryable height (by simpa using h 0 (by omega)),
      ih fun i hi => by simpa [Nat.add_assoc, Nat.add_comm 1] using h (i + 1) (by omega)]
    rfl

/-- The loop leaves after the first answer that is not retried, with one sleep after each
answer before it. -/
theorem hashLoop_of_not_retryable {n : Nat} (hretry : ∀ i < n, retryable (answers (k + i)))
    (hn : retryable (answers (k + n)) = false) (hfuel : n < fuel) :
    hashLoop height answers fuel k =
      (polls height n ++ [.getBlockHash height.toUInt64], (hashPass (answers (k + n))).exit) := by
  induction n generalizing k fuel with
  | zero =>
    obtain ⟨fuel, rfl⟩ : ∃ f, fuel = f + 1 := ⟨fuel - 1, by omega⟩
    exact hashLoop_succ_of_not_retryable height hn
  | succ n ih =>
    obtain ⟨fuel, rfl⟩ : ∃ f, fuel = f + 1 := ⟨fuel - 1, by omega⟩
    have hshift : k + 1 + n = k + (n + 1) := by omega
    rw [hashLoop_succ_of_retryable height (by simpa using hretry 0 (by omega)),
      ih (fun i hi => by simpa [Nat.add_assoc, Nat.add_comm 1] using hretry (i + 1) (by omega))
        (by rwa [hshift]) (by omega), hshift]
    rfl

variable {node : NodeAnswers Hash Block}

theorem getBlock_of_retryable (h : ∀ i < fuel, retryable (node.hashAnswer i)) :
    getBlock height node fuel = (polls height fuel, none) := by
  rw [getBlock, hashLoop_of_retryable height (by simpa using h)]

theorem getBlock_of_not_retryable {n : Nat} (hretry : ∀ i < n, retryable (node.hashAnswer i))
    (hn : retryable (node.hashAnswer n) = false) (hfuel : n < fuel) :
    ∃ left, (∀ hash, left = .ok hash ↔ node.hashAnswer n = .ok (.ok hash)) ∧
      getBlock height node fuel = (polls height n ++ .getBlockHash height.toUInt64 ::
        (fetchBlock height node left).1, some (fetchBlock height node left).2) := by
  obtain ⟨left, hexit, hleft⟩ := exit_hashPass_of_not_retryable hn
  refine ⟨left, hleft, ?_⟩
  rw [getBlock, hashLoop_of_not_retryable height (k := 0) (by simpa using hretry) (by simpa using hn)
    hfuel, Nat.zero_add, hexit]
  simp

/-- `get_block` on any stream of answers to `get_block_hash`: while the answers are retried
it polls and sleeps and does not return; after the first answer that is not, it makes no
more hash query, fetches the block of a hash, and returns the block at its height exactly
when both answers are values, an error otherwise. -/
theorem getBlock_polls_until_not_retryable (node : NodeAnswers Hash Block) (n : Nat)
    (hretry : ∀ k < n, retryable (node.hashAnswer k)) :
    (∀ fuel ≤ n, getBlock height node fuel = (polls height fuel, none)) ∧
    (retryable (node.hashAnswer n) = false → ∀ fuel, n < fuel →
      (getBlock height node fuel).1 =
        polls height n ++ .getBlockHash height.toUInt64 :: blockCalls (node.hashAnswer n) ∧
      (∀ r, (getBlock height node fuel).2 = some (.ok r) ↔
        ∃ hash block, node.hashAnswer n = .ok (.ok hash) ∧
          node.blockAnswer hash = .ok (.ok block) ∧ r = (height, block)) ∧
      ((∃ err, (getBlock height node fuel).2 = some (.error err)) ↔
        (∀ hash, node.hashAnswer n ≠ .ok (.ok hash)) ∨
        ∃ hash, node.hashAnswer n = .ok (.ok hash) ∧
          ∀ block, node.blockAnswer hash ≠ .ok (.ok block))) := by
  refine ⟨fun fuel hfuel => getBlock_of_retryable height fun i hi => hretry i (by omega),
    fun hn fuel hfuel => ?_⟩
  obtain ⟨left, hleft, hrun⟩ := getBlock_of_not_retryable height hretry hn hfuel
  rw [hrun]
  rcases left with err | hash
  · have hnot : ∀ hash, node.hashAnswer n ≠ .ok (.ok hash) := fun hash h =>
      nomatch (hleft hash).2 h
    simp [fetchBlock, hnot, blockCalls_eq_nil hnot]
  · have hanswer := (hleft hash).1 rfl
    rcases hb : node.blockAnswer hash with err | err | block <;>
      simp [fetchBlock, hanswer, blockCalls, tryExecuted, Except.map, hb, eq_comm]

end GetBlock

/-- Two "block not found" answers, then the hash `7`, whose block is `8`. -/
def twoNotFound : NodeAnswers Nat Nat where
  hashAnswer k := if k < 2 then .ok (.error (.jsonRpc (.rpc (-8)))) else .ok (.ok 7)
  blockAnswer hash := .ok (.ok (hash + 1))

theorem getBlock_polls_until_not_retryable_twoNotFound :
    (∀ k < 2, retryable (twoNotFound.hashAnswer k)) ∧
      (getBlock 0 twoNotFound 3).2 = some (.ok (0, 8)) :=
  ⟨by decide, (((getBlock_polls_until_not_retryable 0 twoNotFound 2 (by decide)).2 (by decide) 3
    (by decide)).2.1 (0, 8)).2 ⟨7, 8, rfl, rfl, rfl⟩⟩

end Sbtc.ChainClient
