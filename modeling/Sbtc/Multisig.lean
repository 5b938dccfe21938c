import Sbtc.Address

/-!
The two multisig encodings of `address.rs` side by side. `hash_p2sh` has the
`Builder` push the threshold and the key count; `hash_p2wsh` writes `n + 80`
by hand, which is the `Builder`'s opcode for 1..16 only. The two scripts agree
exactly when the threshold is at least 1 and there are at most 16 keys. Pushes
are self-delimiting, so the redeem script determines the policy; the witness
script does too below 256 keys, and from 256 keys on `num_sigs as u8` drops
the high bits and thresholds 256 apart share a script.
-/

namespace Sbtc.Multisig

open Script Address

/-! ### `push_int` of a `usize` -/

theorem toInt_ofNat_cases {n : Nat} (hn : n < 2 ^ 64) :
    (n < 2 ^ 63 ∧ (BitVec.ofNat 64 n).toInt = n) ∨
      (2 ^ 63 ≤ n ∧ (BitVec.ofNat 64 n).toInt = n - 2 ^ 64) := by
  by_cases h : n < 2 ^ 63
  · exact .inl ⟨h, toInt_ofNat_of_lt h⟩
  · exact .inr ⟨by omega, toInt_ofNat_of_ge (by omega) hn⟩

theorem pushIntBytes_ofNat_zero : pushIntBytes (BitVec.ofNat 64 0) = [opFalse] := by
  have ht : (BitVec.ofNat 64 0).toInt = 0 := toInt_ofNat_of_lt (by norm_num)
  rcases pushIntBytes_cases (BitVec.ofNat 64 0) with ⟨-, h⟩ | ⟨h, -⟩ | ⟨h, -⟩
  · exact h
  all_goals omega

theorem pushIntBytes_ofNat_small {n : Nat} (h₁ : 1 ≤ n) (h₁₆ : n ≤ 16) :
    pushIntBytes (BitVec.ofNat 64 n) = [(n + 80).toUInt8] := by
  have ht : (BitVec.ofNat 64 n).toInt = n := toInt_ofNat_of_lt (by omega)
  rcases pushIntBytes_cases (BitVec.ofNat 64 n) with ⟨h, -⟩ | ⟨-, h⟩ | ⟨h, -⟩
  · omega
  · rw [h, ht]
    congr 2
  · omega

theorem exists_pushIntBytes_eq_cons (data : BitVec 64) :
    ∃ b rest, pushIntBytes data = b :: rest := by
  rcases pushIntBytes_cases data with ⟨-, h⟩ | ⟨-, h⟩ | ⟨-, b, r, h, -⟩ <;> exact ⟨_, _, h⟩

/-- A push of a `usize` starts with a byte of 80 or more only for the numbers 1..16
(and `2^64 - 1`, which is the `i64` -1). -/
theorem small_of_pushIntBytes_eq_cons {n : Nat} {b : UInt8} {rest : List UInt8}
    (hn : n < 2 ^ 64) (hmax : n % 256 < 176) (h : pushIntBytes (BitVec.ofNat 64 n) = b :: rest)
    (hb : 80 ≤ b.toNat) : 1 ≤ n ∧ n ≤ 16 := by
  rcases toInt_ofNat_cases hn with ⟨-, ht⟩ | ⟨-, ht⟩ <;>
  rcases pushIntBytes_cases (BitVec.ofNat 64 n) with
    ⟨-, hp⟩ | ⟨hs, -⟩ | ⟨-, b', r, hp, -, h₉, -⟩ <;>
  first
  | omega
  | (rw [hp, List.cons.injEq] at h
     rw [← h.1] at hb
     first | omega | exact absurd hb (by decide))

/-- A push of a `usize` is one byte only for the numbers up to 16 (and `2^64 - 1`). -/
theorem le_16_of_length_pushIntBytes {n : Nat} (hn : n < 2 ^ 64) (hmax : n % 256 < 176)
    (h : (pushIntBytes (BitVec.ofNat 64 n)).length = 1) : n ≤ 16 := by
  rcases toInt_ofNat_cases hn with ⟨-, ht⟩ | ⟨-, ht⟩ <;>
  rcases pushIntBytes_cases (BitVec.ofNat 64 n) with
    ⟨h₀, -⟩ | ⟨hs, -⟩ | ⟨-, b, r, hp, h₁, -, hr⟩ <;>
  first | omega | (rw [hp, List.length_cons] at h; omega)

/-- A push of a `usize` never starts with the byte 33 that starts a key push. -/
theorem head_pushIntBytes_ne (data : BitVec 64) (rest : List UInt8) :
    (pushIntBytes data ++ rest).head? ≠ some 33 := by
  have h33 : (33 : UInt8).toNat = 33 := rfl
  rcases pushIntBytes_cases data with ⟨-, h⟩ | ⟨hs, h⟩ | ⟨-, b, r, h, -, h₉, -⟩ <;>
    rw [h] <;> intro he <;> have he' := congrArg UInt8.toNat (Option.some.inj he)
  · exact absurd he' (by decide)
  · rw [toNat_toUInt8, h33] at he'
    omega
  · omega

/-- Keys pushed before something that is not a key push are read back, and so is
what follows them. -/
theorem keyPushes_append_inj {k₁ k₂ : List PublicKey} {t₁ t₂ : List UInt8}
    (h₁ : t₁.head? ≠ some 33) (h₂ : t₂.head? ≠ some 33)
    (h : keyPushes k₁ ++ t₁ = keyPushes k₂ ++ t₂) : k₁ = k₂ ∧ t₁ = t₂ := by
  induction k₁ generalizing k₂ with
  | nil =>
    cases k₂ with
    | nil => exact ⟨rfl, h⟩
    | cons y ys =>
      simp only [keyPushes, List.flatMap_nil, List.nil_append] at h
      exact absurd (by rw [h]; rfl) h₁
  | cons x xs ih =>
    cases k₂ with
    | nil =>
      simp only [keyPushes, List.flatMap_nil, List.nil_append] at h
      exact absurd (by rw [← h]; rfl) h₂
    | cons y ys =>
      simp only [keyPushes, List.flatMap_cons, List.cons_append, List.append_assoc,
        List.cons.injEq, true_and] at h
      obtain ⟨hxy, hrest⟩ := List.append_inj h (by rw [x.serialize_length, y.serialize_length])
      obtain ⟨hk, ht⟩ := ih hrest
      exact ⟨by rw [PublicKey.ext hxy, hk], ht⟩

/-! ### Where the encodings agree -/

/-- A 0-of-1 policy: `hash_p2wsh` writes `OP_RESERVED` (80) where the `Builder` writes `OP_0`. -/
theorem p2wshScript_zero_threshold (key : PublicKey) :
    p2wshScript 0 [key] = some (80 :: keyPushes [key] ++ [81, 174]) ∧
      p2shScript 0 [key] = 0 :: keyPushes [key] ++ [81, 174] ∧
      p2wshScript 0 [key] ≠ some (p2shScript 0 [key]) := by
  have hw : p2wshScript 0 [key] = some (80 :: keyPushes [key] ++ [81, 174]) := by
    rw [p2wshScript_eq, if_pos ⟨by decide, by rw [List.length_singleton]; decide⟩]
    rfl
  have hs : p2shScript 0 [key] = 0 :: keyPushes [key] ++ [81, 174] := by
    rw [p2shScript_eq, pushIntBytes_ofNat_zero, List.length_singleton,
      pushIntBytes_ofNat_small le_rfl (by norm_num)]
    simp only [List.singleton_append, List.cons_append, List.append_assoc]
    rfl
  refine ⟨hw, hs, ?_⟩
  rw [hw, hs]
  simp

/-- With a threshold of 1..16 and at most 16 keys the two scripts are the same bytes. -/
theorem p2wshScript_of_small {numSigs : Nat} {pubKeys : List PublicKey} (h₁ : 1 ≤ numSigs)
    (h : numSigs ≤ pubKeys.length) (h₁₆ : pubKeys.length ≤ 16) :
    p2wshScript numSigs pubKeys = some (p2shScript numSigs pubKeys) := by
  rw [p2wshScript_eq, if_pos ⟨by omega, by omega⟩, p2shScript_eq,
    pushIntBytes_ofNat_small h₁ (by omega), pushIntBytes_ofNat_small (by omega) h₁₆]
  simp [opCheckmultisig]

/-- Over the policies `from_public_keys` admits, the hand-written witness script is the
`Builder`'s redeem script exactly when the threshold is 1..16 and so is the key count. -/
theorem p2wshScript_eq_some_p2shScript_iff {numSigs : Nat} {pubKeys : List PublicKey}
    (h : numSigs ≤ pubKeys.length) (hlen : pubKeys.length < 2 ^ 64) :
    p2wshScript numSigs pubKeys = some (p2shScript numSigs pubKeys) ↔
      1 ≤ numSigs ∧ pubKeys.length ≤ 16 := by
  refine ⟨fun heq => ?_, fun ⟨h₁, h₁₆⟩ => p2wshScript_of_small h₁ h h₁₆⟩
  rw [p2wshScript_eq] at heq
  split_ifs at heq with hc
  have hs := Option.some.inj heq
  rw [p2shScript_eq] at hs
  obtain ⟨b, rest, hp⟩ := exists_pushIntBytes_eq_cons (BitVec.ofNat 64 numSigs)
  have hm : 1 ≤ numSigs ∧ numSigs ≤ 16 := by
    rw [hp] at hs
    simp only [List.cons_append, List.append_assoc, List.cons.injEq] at hs
    refine small_of_pushIntBytes_eq_cons (by omega) hc.1 hp ?_
    rw [← hs.1, toNat_toUInt8]
    omega
  refine ⟨hm.1, le_16_of_length_pushIntBytes hlen hc.2 ?_⟩
  have hl := congrArg List.length hs
  rw [pushIntBytes_ofNat_small hm.1 hm.2] at hl
  simp only [List.length_append, List.length_cons, List.length_nil] at hl
  omega

theorem p2wshScript_eq_some_p2shScript_iff_two_of_three :
    let key : PublicKey := ⟨List.replicate 33 2, rfl⟩
    2 ≤ [key, key, key].length ∧ [key, key, key].length < 2 ^ 64 ∧
      (p2wshScript 2 [key, key, key] = some (p2shScript 2 [key, key, key]) ↔
        1 ≤ 2 ∧ [key, key, key].length ≤ 16) :=
  ⟨by decide, by decide, p2wshScript_eq_some_p2shScript_iff (by decide) (by decide)⟩

/-! ### Which policy a script determines -/

/-- The redeem script determines the policy: the pushes are self-delimiting, and a
`usize` threshold or key count never wraps in `as i64` to another `usize`'s value. -/
theorem p2shScript_injective {m₁ m₂ : Nat} {k₁ k₂ : List PublicKey}
    (hk₁ : k₁.length < 2 ^ 64) (hk₂ : k₂.length < 2 ^ 64) (hm₁ : m₁ ≤ k₁.length)
    (hm₂ : m₂ ≤ k₂.length) (h : p2shScript m₁ k₁ = p2shScript m₂ k₂) : m₁ = m₂ ∧ k₁ = k₂ := by
  rw [p2shScript_eq, p2shScript_eq] at h
  simp only [List.append_assoc] at h
  obtain ⟨hm, h⟩ := pushIntBytes_append_inj h
  obtain ⟨hk, -⟩ := keyPushes_append_inj (head_pushIntBytes_ne _ _) (head_pushIntBytes_ne _ _) h
  have := congrArg BitVec.toNat hm
  rw [BitVec.toNat_ofNat, BitVec.toNat_ofNat] at this
  exact ⟨by omega, hk⟩

theorem p2shScript_injective_one_of_one :
    let key : PublicKey := ⟨List.replicate 33 2, rfl⟩
    [key].length < 2 ^ 64 ∧ 1 ≤ [key].length ∧ p2shScript 1 [key] = p2shScript 1 [key] ∧
      (1 = 1 ∧ [key] = [key]) :=
  ⟨by decide, by decide, rfl, p2shScript_injective (by decide) (by decide) (by decide)
    (by decide) rfl⟩

private theorem toUInt8_add_80_ne_33 {n : Nat} (h : n % 256 < 176) : (n + 80).toUInt8 ≠ 33 :=
  fun he => by
    have := congrArg UInt8.toNat he
    rw [toNat_toUInt8, show (33 : UInt8).toNat = 33 from rfl] at this
    omega

/-- Below 256 keys the witness script determines the policy too. -/
theorem p2wshScript_injective_of_length_lt {m₁ m₂ : Nat} {k₁ k₂ : List PublicKey}
    {script : List UInt8} (hk₁ : k₁.length < 256) (hk₂ : k₂.length < 256)
    (hm₁ : m₁ ≤ k₁.length) (hm₂ : m₂ ≤ k₂.length) (h₁ : p2wshScript m₁ k₁ = some script)
    (h₂ : p2wshScript m₂ k₂ = some script) : m₁ = m₂ ∧ k₁ = k₂ := by
  rw [p2wshScript_eq] at h₁ h₂
  split_ifs at h₁ h₂ with c₁ c₂
  have h := (Option.some.inj h₁).trans (Option.some.inj h₂).symm
  simp only [List.cons_append, List.cons.injEq] at h
  have hm := congrArg UInt8.toNat h.1
  rw [toNat_toUInt8, toNat_toUInt8] at hm
  obtain ⟨hk, -⟩ := keyPushes_append_inj (by simpa using toUInt8_add_80_ne_33 c₁.2)
    (by simpa using toUInt8_add_80_ne_33 c₂.2) h.2
  exact ⟨by omega, hk⟩

theorem p2wshScript_injective_one_of_one :
    let key : PublicKey := ⟨List.replicate 33 2, rfl⟩
    [key].length < 256 ∧ 1 ≤ [key].length ∧
      p2wshScript 1 [key] = some (81 :: keyPushes [key] ++ [81, 174]) ∧ (1 = 1 ∧ [key] = [key]) :=
  have h : p2wshScript 1 [⟨List.replicate 33 2, rfl⟩] =
      some (81 :: keyPushes [⟨List.replicate 33 2, rfl⟩] ++ [81, 174]) := by
    rw [p2wshScript_eq, if_pos (by decide)]
    rfl
  ⟨by decide, by decide, h, p2wshScript_injective_of_length_lt (by decide) (by decide)
    (by decide) (by decide) h h⟩

/-- `num_sigs as u8` keeps only the low byte: thresholds 256 apart share a witness script. -/
theorem p2wshScript_add_256 (numSigs : Nat) (pubKeys : List PublicKey) :
    p2wshScript (numSigs + 256) pubKeys = p2wshScript numSigs pubKeys := by
  have hb : (numSigs + 256 + 80).toUInt8 = (numSigs + 80).toUInt8 :=
    UInt8.toNat.inj (by rw [toNat_toUInt8, toNat_toUInt8]; omega)
  rw [p2wshScript_eq, p2wshScript_eq, Nat.add_mod_right, hb]

/-- The 0-of-256 and the 256-of-256 P2WSH policies over one key list are both
admitted and get one and the same address. -/
theorem fromPublicKeys_p2wsh_threshold_collision (hashers : Hashers) (version : AddressVersion)
    (key : PublicKey) :
    ∃ address,
      fromPublicKeys hashers version (List.replicate 256 key) 0 .serializeP2WSH =
        some (.ok address) ∧
      fromPublicKeys hashers version (List.replicate 256 key) 256 .serializeP2WSH =
        some (.ok address) := by
  obtain ⟨script, hs⟩ : ∃ script, p2wshScript 0 (List.replicate 256 key) = some script := by
    rw [p2wshScript_eq, List.length_replicate, if_pos (by decide)]
    exact ⟨_, rfl⟩
  have hs' : p2wshScript 256 (List.replicate 256 key) = some script := by
    rw [← hs, ← p2wshScript_add_256 0]
  have hl : (List.replicate 256 key).length = 256 := List.length_replicate _ _
  refine ⟨⟨version, hashers.hash160 ([0, 0x20] ++ (hashers.sha256 script).bytes)⟩, ?_, ?_⟩
  · rw [fromPublicKeys_of_admitted _ _ _ _ _ (by omega) (fun h => Bool.noConfusion h),
      addressHash, hashP2wsh_of_script hs]
    rfl
  · rw [fromPublicKeys_of_admitted _ _ _ _ _ (by omega) (fun h => Bool.noConfusion h),
      addressHash, hashP2wsh_of_script hs']
    rfl

end Sbtc.Multisig
