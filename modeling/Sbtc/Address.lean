import Sbtc.Script

/-!
`StacksAddress::from_public_keys` of stacks-core (`address.rs`) and the four hash
modes it dispatches to. Keys, digests and the two hash functions come from
`crate::crypto`, which is not in the source: a key is its 33-byte compressed
serialization and the hash functions are parameters, so every result below
holds for any hash functions. `hash_p2wsh` adds in `u8`, which a debug build
checks; an overflow is a panic, `none` here, and `from_public_keys` is `none`
exactly when it panics. The textual form goes through `crate::c32`, also not in the
source, whose two functions are parameters.
-/

namespace Sbtc.Address

open Script

/-- Modelled from the spec: `crypto::PublicKey` is not in the source; the spec gives a
secp256k1 key in compressed byte encoding, fixed-length and validated elsewhere. -/
@[ext] structure PublicKey where
  serialize : List UInt8
  serialize_length : serialize.length = 33
  deriving DecidableEq

/-- Modelled from the spec: `crypto::hash::Hash160`, always exactly 20 bytes. -/
structure Hash160 where
  bytes : List UInt8
  bytes_length : bytes.length = 20
  deriving DecidableEq

/-- Modelled from the spec: `crypto::hash::SHA256Hash`, 32 bytes. -/
structure SHA256Hash where
  bytes : List UInt8
  bytes_length : bytes.length = 32

/-- Modelled from the spec: `Hash160::new` (RIPEMD160 of SHA256) and `SHA256Hash::new`. -/
structure Hashers where
  hash160 : List UInt8 → Hash160
  sha256 : List UInt8 → SHA256Hash

/-- Supported Stacks address versions. -/
inductive AddressVersion
  | mainnetSingleSig
  | mainnetMultiSig
  | testnetSingleSig
  | testnetMultiSig
  deriving DecidableEq, Repr

/-- The `#[repr(u8)]` discriminants. -/
def AddressVersion.toU8 : AddressVersion → UInt8
  | .mainnetSingleSig => 22
  | .mainnetMultiSig => 20
  | .testnetSingleSig => 26
  | .testnetMultiSig => 21

/-- `AddressVersion::from_repr`. -/
def AddressVersion.fromRepr (value : UInt8) : Option AddressVersion :=
  if value = 22 then some .mainnetSingleSig
  else if value = 20 then some .mainnetMultiSig
  else if value = 26 then some .testnetSingleSig
  else if value = 21 then some .testnetMultiSig
  else none

inductive AddressHashMode
  | serializeP2PKH
  | serializeP2SH
  | serializeP2WPKH
  | serializeP2WSH
  deriving DecidableEq, Repr

/-- The hash modes `from_public_keys` restricts to one key and one signature. -/
def AddressHashMode.isSingleSig : AddressHashMode → Bool
  | .serializeP2PKH | .serializeP2WPKH => true
  | .serializeP2SH | .serializeP2WSH => false

/-- The `StacksError` variants this file raises. -/
inductive StacksError
  | invalidAddressVersion (value : UInt8)
  | invalidArguments (message : String)
  deriving DecidableEq, Repr

structure StacksAddress where
  version : AddressVersion
  hash : Hash160
  deriving DecidableEq

/-- `TryFrom<u8> for AddressVersion`. -/
def AddressVersion.tryFrom (value : UInt8) : Except StacksError AddressVersion :=
  match AddressVersion.fromRepr value with
  | some version => .ok version
  | none => .error (.invalidAddressVersion value)

/-- A byte is accepted exactly as the version whose discriminant it is. -/
theorem AddressVersion.tryFrom_eq_ok_iff (value : UInt8) (version : AddressVersion) :
    AddressVersion.tryFrom value = .ok version ↔ version.toU8 = value := by
  refine ⟨fun h => ?_, fun h => h ▸ by cases version <;> rfl⟩
  unfold tryFrom fromRepr at h
  split_ifs at h <;> cases h <;> subst_vars <;> rfl

/-- Only the four version bytes are accepted; any other is named in the error. -/
theorem AddressVersion.tryFrom_eq_error_iff (value : UInt8) :
    AddressVersion.tryFrom value = .error (.invalidAddressVersion value) ↔
      value ∉ [22, 20, 26, 21] := by
  unfold tryFrom fromRepr
  split_ifs <;> simp_all

/-- The key as the data of a push: 33 bytes. -/
def PublicKey.pushBytes (key : PublicKey) : PushBytes :=
  ⟨key.serialize, by rw [key.serialize_length]; decide⟩

/-- The keys as both multisig scripts write them: each one's length, then its bytes. -/
def keyPushes (pubKeys : List PublicKey) : List UInt8 :=
  pubKeys.flatMap fun key => 33 :: key.serialize

/-- `a + b` on `u8` in a debug build: an overflow panics, `none`. -/
def u8Add (a b : UInt8) : Option UInt8 :=
  if a.toNat + b.toNat < 256 then some (a + b) else none

section Hashes

variable (hashers : Hashers)

def hashP2pkh (key : PublicKey) : Hash160 := hashers.hash160 key.serialize

/-- The redeem script `hash_p2sh` builds and hashes. -/
def p2shScript (numSigs : Nat) (pubKeys : List PublicKey) : List UInt8 :=
  let builder := Builder.new.pushInt (BitVec.ofNat 64 numSigs)
  let builder := pubKeys.foldl (fun builder key => builder.pushSlice key.pushBytes) builder
  let builder := builder.pushInt (BitVec.ofNat 64 pubKeys.length)
  let builder := builder.pushOpcode opCheckmultisig
  builder.intoScript

def hashP2sh (numSigs : Nat) (pubKeys : List PublicKey) : Hash160 :=
  hashers.hash160 (p2shScript numSigs pubKeys)

def hashP2wpkh (key : PublicKey) : Hash160 :=
  let keyHash := (hashers.hash160 key.serialize).bytes
  hashers.hash160 ([0, keyHash.length.toUInt8] ++ keyHash)

/-- The witness script `hash_p2wsh` writes by hand, `none` where a `u8` sum overflows. -/
def p2wshScript (numSigs : Nat) (pubKeys : List PublicKey) : Option (List UInt8) := do
  let first ← u8Add numSigs.toUInt8 80
  let keys := pubKeys.flatMap fun pubKey => pubKey.serialize.length.toUInt8 :: pubKey.serialize
  let count ← u8Add pubKeys.length.toUInt8 80
  pure (first :: keys ++ [count, 174])

def hashP2wsh (numSigs : Nat) (pubKeys : List PublicKey) : Option Hash160 := do
  let script ← p2wshScript numSigs pubKeys
  let digestBytes := (hashers.sha256 script).bytes
  pure (hashers.hash160 ([0, digestBytes.length.toUInt8] ++ digestBytes))

/-- The hash `from_public_keys` takes for a mode once its checks pass; `none` is a panic,
of `public_keys[0]` or of `hash_p2wsh`. -/
def addressHash (publicKeys : List PublicKey) (signatures : Nat) :
    AddressHashMode → Option Hash160
  | .serializeP2PKH => publicKeys[0]?.map (hashP2pkh hashers)
  | .serializeP2SH => some (hashP2sh hashers signatures publicKeys)
  | .serializeP2WPKH => publicKeys[0]?.map (hashP2wpkh hashers)
  | .serializeP2WSH => hashP2wsh hashers signatures publicKeys

def fromPublicKeys (version : AddressVersion) (publicKeys : List PublicKey) (signatures : Nat)
    (hashMode : AddressHashMode) : Option (Except StacksError StacksAddress) :=
  let publicKeyCount := publicKeys.length
  if publicKeyCount < signatures then
    some (.error (.invalidArguments "Cannot require more signatures than public keys"))
  else if hashMode.isSingleSig ∧ publicKeyCount ≠ 1 then
    some (.error (.invalidArguments "Cannot use more than one public key for this hash mode"))
  else if hashMode.isSingleSig ∧ signatures ≠ 1 then
    some (.error (.invalidArguments "Cannot require more than one signature for this hash mode"))
  else (addressHash hashers publicKeys signatures hashMode).map fun hash => .ok ⟨version, hash⟩

end Hashes

/-! ### The two multisig scripts as byte strings -/

theorem u8Add_toUInt8 (n : Nat) :
    u8Add n.toUInt8 80 = if n % 256 < 176 then some (n + 80).toUInt8 else none := by
  unfold u8Add
  have h80 : (80 : UInt8).toNat = 80 := rfl
  rw [toNat_toUInt8, h80]
  split_ifs with h h'
  · exact congrArg some (UInt8.toNat.inj (by
      rw [toNat_add_uint8, toNat_toUInt8, toNat_toUInt8, h80]; omega))
  all_goals first | omega | rfl

theorem p2wshScript_eq (numSigs : Nat) (pubKeys : List PublicKey) :
    p2wshScript numSigs pubKeys =
      if numSigs % 256 < 176 ∧ pubKeys.length % 256 < 176 then
        some ((numSigs + 80).toUInt8 :: keyPushes pubKeys ++ [(pubKeys.length + 80).toUInt8, 174])
      else none := by
  have hkeys : (pubKeys.flatMap fun k => k.serialize.length.toUInt8 :: k.serialize) =
      keyPushes pubKeys := by
    simp only [keyPushes, PublicKey.serialize_length]
    rfl
  simp only [p2wshScript, u8Add_toUInt8, hkeys]
  split_ifs <;> simp_all

theorem hashP2wsh_of_script {hashers : Hashers} {numSigs : Nat} {pubKeys : List PublicKey}
    {script : List UInt8} (h : p2wshScript numSigs pubKeys = some script) :
    hashP2wsh hashers numSigs pubKeys =
      some (hashers.hash160 ([0, 0x20] ++ (hashers.sha256 script).bytes)) := by
  simp only [hashP2wsh, h, Option.bind_eq_bind, Option.some_bind, SHA256Hash.bytes_length]
  rfl

private theorem foldl_pushSlice_bytes (pubKeys : List PublicKey) (b : Builder) :
    (pubKeys.foldl (fun builder key => builder.pushSlice key.pushBytes) b).bytes =
      b.bytes ++ keyPushes pubKeys := by
  induction pubKeys generalizing b with
  | nil => simp [keyPushes]
  | cons key keys ih =>
    rw [List.foldl_cons, ih, Builder.pushSlice, pushSliceBytes_of_lt (by
      simp [PublicKey.pushBytes, key.serialize_length])]
    simp [keyPushes, PublicKey.pushBytes, key.serialize_length]
    rfl

theorem p2shScript_eq (numSigs : Nat) (pubKeys : List PublicKey) :
    p2shScript numSigs pubKeys =
      pushIntBytes (BitVec.ofNat 64 numSigs) ++ keyPushes pubKeys ++
        pushIntBytes (BitVec.ofNat 64 pubKeys.length) ++ [opCheckmultisig] := by
  simp only [p2shScript, Builder.intoScript, Builder.pushOpcode, Builder.pushInt,
    foldl_pushSlice_bytes, Builder.new, List.nil_append]

/-! ### `from_public_keys` -/

section FromPublicKeys

variable (hashers : Hashers) (version : AddressVersion) (publicKeys : List PublicKey)
  (signatures : Nat) (hashMode : AddressHashMode)

/-- Past its checks, `from_public_keys` returns the mode's hash. -/
theorem fromPublicKeys_of_admitted (h₁ : signatures ≤ publicKeys.length)
    (h₂ : hashMode.isSingleSig → publicKeys.length = 1 ∧ signatures = 1) :
    fromPublicKeys hashers version publicKeys signatures hashMode =
      (addressHash hashers publicKeys signatures hashMode).map fun hash => .ok ⟨version, hash⟩ := by
  simp only [fromPublicKeys]
  rw [if_neg (by omega), if_neg (fun h => h.2 (h₂ h.1).1), if_neg (fun h => h.2 (h₂ h.1).2)]

/-- `from_public_keys` returns `Err` exactly for more signatures than keys, and for a
single-signature mode without exactly one key and one signature. -/
theorem fromPublicKeys_eq_error_iff :
    (∃ e, fromPublicKeys hashers version publicKeys signatures hashMode = some (.error e)) ↔
      publicKeys.length < signatures ∨
        (hashMode.isSingleSig ∧ (publicKeys.length ≠ 1 ∨ signatures ≠ 1)) := by
  by_cases hr : publicKeys.length < signatures ∨
      (hashMode.isSingleSig ∧ (publicKeys.length ≠ 1 ∨ signatures ≠ 1))
  · simp only [hr, iff_true, fromPublicKeys]
    split_ifs <;> first | exact ⟨_, rfl⟩ | tauto
  · simp only [hr, iff_false, not_exists]
    rw [fromPublicKeys_of_admitted _ _ _ _ _ (by omega) (by tauto)]
    intro e h
    obtain ⟨_, -, h⟩ := Option.map_eq_some'.mp h
    exact Except.noConfusion h

/-- With 176 keys `pub_keys.len() as u8 + 80` overflows, so an admitted 1-of-176
P2WSH policy panics instead of returning its address. -/
theorem fromPublicKeys_panics_with_176_keys (key : PublicKey) :
    fromPublicKeys hashers version (List.replicate 176 key) 1 .serializeP2WSH = none := by
  rw [fromPublicKeys_of_admitted _ _ _ _ _ (by rw [List.length_replicate]; decide)
    (fun h => Bool.noConfusion h),
    addressHash, hashP2wsh, p2wshScript_eq, List.length_replicate, if_neg (by decide)]
  rfl

/-- `from_public_keys` panics exactly on an admitted P2WSH policy whose signature count or
key count is 176 or more modulo 256, where `num_sigs as u8 + 80` or `len as u8 + 80`
overflows; the single-signature modes index `public_keys[0]` only after checking that there
is one key, so they never panic. -/
theorem fromPublicKeys_eq_none_iff :
    fromPublicKeys hashers version publicKeys signatures hashMode = none ↔
      hashMode = .serializeP2WSH ∧ signatures ≤ publicKeys.length ∧
        (176 ≤ signatures % 256 ∨ 176 ≤ publicKeys.length % 256) := by
  by_cases hr : publicKeys.length < signatures ∨
      (hashMode.isSingleSig ∧ (publicKeys.length ≠ 1 ∨ signatures ≠ 1))
  · obtain ⟨e, he⟩ := (fromPublicKeys_eq_error_iff hashers version _ _ _).2 hr
    refine iff_of_false (by simp [he]) fun ⟨hmode, _, _⟩ => ?_
    simp [hmode, AddressHashMode.isSingleSig] at hr
    omega
  · have hle : signatures ≤ publicKeys.length := by omega
    rw [fromPublicKeys_of_admitted _ _ _ _ _ hle (by tauto), Option.map_eq_none']
    have hsingle : hashMode.isSingleSig → publicKeys.length = 1 := by tauto
    cases hashMode with
    | serializeP2WSH => simp [addressHash, hashP2wsh, p2wshScript_eq, hle]; omega
    | serializeP2SH => simp [addressHash]
    | serializeP2PKH | serializeP2WPKH =>
      obtain ⟨key, rfl⟩ := List.length_eq_one.mp (hsingle rfl)
      simp [addressHash]

end FromPublicKeys

/-! ### The textual form -/

/-- Modelled from the spec: `c32::encode_address` and `c32::decode_address` are not in the
source; they are parameters, with their errors already turned into `StacksError` by the
`into` of their callers. -/
structure C32Codec where
  encodeAddress : AddressVersion → List UInt8 → Except StacksError String
  decodeAddress : String → Except StacksError (AddressVersion × List UInt8)

namespace StacksAddress

variable (c32 : C32Codec)

/-- `TryFrom<&StacksAddress> for String`. -/
def stringTryFrom (address : StacksAddress) : Except StacksError String :=
  c32.encodeAddress address.version address.hash.bytes

/-- `TryFrom<&str> for StacksAddress`: the decoded hash must have `HASH160_LENGTH` bytes. -/
def tryFrom (address : String) : Except StacksError StacksAddress := do
  let (version, hashBytes) ← c32.decodeAddress address
  if h : hashBytes.length = 20 then
    pure ⟨version, ⟨hashBytes, h⟩⟩
  else
    throw (.invalidArguments "Invalid hash length for address")

/-- `Display for StacksAddress`: the `unwrap` panics, `none`, where the encoding fails. -/
def fmt (address : StacksAddress) : Option String :=
  (address.stringTryFrom c32).toOption

/-- A string parses exactly to the address whose version and hash bytes it decodes to. -/
theorem tryFrom_eq_ok_iff (text : String) (address : StacksAddress) :
    tryFrom c32 text = .ok address ↔
      c32.decodeAddress text = .ok (address.version, address.hash.bytes) := by
  rcases address with ⟨version, bytes, hlen⟩
  unfold tryFrom
  rcases c32.decodeAddress text with err | ⟨version', bytes'⟩
  · exact ⟨Except.noConfusion, Except.noConfusion⟩
  · by_cases h : bytes'.length = 20
    · simp [bind, Except.bind, h, pure, Except.pure]
    · simp only [bind, Except.bind, dif_neg h, throw, throwThe, MonadExceptOf.throw,
        Except.ok.injEq, Prod.mk.injEq]
      exact ⟨fun h => Except.noConfusion h, fun ⟨_, hb⟩ => absurd (hb ▸ hlen) h⟩

end StacksAddress

end Sbtc.Address
