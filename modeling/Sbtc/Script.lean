import Mathlib.Data.List.Basic
import Mathlib.Tactic.Ring

/-!
The script `Builder` of the `bitcoin` crate, as far as `hash_p2sh` drives it.
`push_int` writes 0, -1 and 1..16 as one opcode and any other number as a data
push of its minimal script-number encoding (`build_scriptint`); `push_slice`
writes the data after its length, in the shortest of four push forms. A script
number decodes to the number it encodes, so the number pushed at the front of
a script is read back from it whatever follows.
-/

namespace Sbtc.Script

/-! ### Opcodes and pushes -/

/-- `OP_0`, also `OP_FALSE`. -/
def opFalse : UInt8 := 0x00

def opPushdata1 : UInt8 := 0x4c

def opPushdata2 : UInt8 := 0x4d

def opPushdata4 : UInt8 := 0x4e

/-- `OP_PUSHNUM_1`, also `OP_TRUE`. -/
def opTrue : UInt8 := 0x51

def opCheckmultisig : UInt8 := 0xae

@[simp] theorem toNat_toUInt8 (n : Nat) : n.toUInt8.toNat = n % 256 := by
  simp [Nat.toUInt8, UInt8.toNat, UInt8.ofNat, Fin.ofNat]

theorem toNat_add_uint8 (a b : UInt8) : (a + b).toNat = (a.toNat + b.toNat) % 256 :=
  BitVec.toNat_add _ _

/-- Bytes a script can push: fewer than 2^32 of them (`PushBytes`). -/
structure PushBytes where
  bytes : List UInt8
  length_lt : bytes.length < 2 ^ 32

/-- What `push_slice` appends: the length in the shortest push form, then the data. -/
def pushSliceBytes (data : PushBytes) : List UInt8 :=
  let n := data.bytes.length
  let header :=
    if n < opPushdata1.toNat then [n.toUInt8]
    else if n < 0x100 then [opPushdata1, n.toUInt8]
    else if n < 0x10000 then [opPushdata2, (n % 0x100).toUInt8, (n / 0x100).toUInt8]
    else [opPushdata4, (n % 0x100).toUInt8, (n / 0x100 % 0x100).toUInt8,
      (n / 0x10000 % 0x100).toUInt8, (n / 0x1000000).toUInt8]
  header ++ data.bytes

/-- Data shorter than `OP_PUSHDATA1` is pushed after one length byte. -/
theorem pushSliceBytes_of_lt {data : PushBytes} (h : data.bytes.length < 76) :
    pushSliceBytes data = data.bytes.length.toUInt8 :: data.bytes := by
  dsimp only [pushSliceBytes]
  rw [show opPushdata1.toNat = 76 from rfl, if_pos h]
  rfl

/-! ### Script numbers -/

/-- The loop of `build_scriptint`: while `abs > 0xFF`, push its low byte and shift
it right by 8. Returns the bytes pushed and the `abs` left. -/
def scriptintLoop (abs : Nat) : List UInt8 × Nat :=
  if abs > 0xFF then
    ((abs &&& 0xFF).toUInt8 :: (scriptintLoop (abs >>> 8)).1, (scriptintLoop (abs >>> 8)).2)
  else ([], abs)
termination_by abs
decreasing_by rw [Nat.shiftRight_eq_div_pow]; omega

/-- `build_scriptint`: the minimal little-endian encoding of a script number, with
the sign in the top bit of the last byte. `abs` is `n.natAbs`. -/
def buildScriptint (n : Int) : List UInt8 :=
  if n = 0 then [] else
  let neg := decide (n < 0)
  let v := (scriptintLoop n.natAbs).1
  let abs := (scriptintLoop n.natAbs).2
  if abs &&& 0x80 ≠ 0 then v ++ [abs.toUInt8, if neg then 0x80 else 0]
  else v ++ [(abs ||| if neg then 0x80 else 0).toUInt8]

theorem scriptintLoop_eq (abs : Nat) : scriptintLoop abs =
    if abs > 0xFF then
      ((abs % 256).toUInt8 :: (scriptintLoop (abs / 256)).1, (scriptintLoop (abs / 256)).2)
    else ([], abs) := by
  rw [scriptintLoop, Nat.shiftRight_eq_div_pow,
    show (0xFF : Nat) = 2 ^ 8 - 1 from rfl, Nat.and_pow_two_sub_one_eq_mod]

/-- The loop pushes one byte per factor of 256 above the first. -/
theorem scriptintLoop_length_le (k : Nat) :
    ∀ abs, abs < 256 ^ (k + 1) → (scriptintLoop abs).1.length ≤ k := by
  induction k with
  | zero => intro abs h; rw [scriptintLoop_eq, if_neg (by omega)]; rfl
  | succ k ih =>
    intro abs h
    rw [scriptintLoop_eq]
    split_ifs
    · have := ih (abs / 256) (by rw [pow_succ] at h; omega)
      simp only [List.length_cons]
      omega
    · simp

theorem buildScriptint_length_le (n : Int) (h : n.natAbs < 256 ^ 8) :
    (buildScriptint n).length ≤ 9 := by
  have := scriptintLoop_length_le 7 n.natAbs h
  dsimp only [buildScriptint]
  split_ifs <;> simp only [List.length_append, List.length_cons, List.length_nil] <;> omega

theorem natAbs_toInt_lt (data : BitVec 64) : data.toInt.natAbs < 256 ^ 8 := by
  have hlt := data.isLt
  rw [BitVec.toInt_eq_toNat_cond]
  split_ifs <;> omega

/-- An `i64`'s script number fits in a push: at most nine bytes. -/
theorem buildScriptint_toInt_length_lt (data : BitVec 64) :
    (buildScriptint data.toInt).length < 2 ^ 32 := by
  have := buildScriptint_length_le _ (natAbs_toInt_lt data)
  omega

/-- The bytes `push_int` appends for `data : i64`. -/
def pushIntBytes (data : BitVec 64) : List UInt8 :=
  let n := data.toInt
  if n = -1 ∨ (1 ≤ n ∧ n ≤ 16) then [(n - 1 + opTrue.toNat).toNat.toUInt8]
  else if n = 0 then [opFalse]
  else pushSliceBytes ⟨buildScriptint n, buildScriptint_toInt_length_lt data⟩

/-! ### Reading numbers back -/

/-- The number a little-endian byte string stands for. -/
def leValue : List UInt8 → Nat
  | [] => 0
  | b :: bs => b.toNat + 256 * leValue bs

theorem leValue_append (l l' : List UInt8) :
    leValue (l ++ l') = leValue l + 256 ^ l.length * leValue l' := by
  induction l with
  | nil => simp [leValue]
  | cons b l ih => rw [List.cons_append, leValue, leValue, ih, List.length_cons, pow_succ]; ring

/-- A script number: a little-endian magnitude, the sign in the top bit of the last byte. -/
def readScriptint (bytes : List UInt8) : Int :=
  match bytes.getLast? with
  | none => 0
  | some last =>
    let magnitude : Nat :=
      leValue bytes.dropLast + 256 ^ bytes.dropLast.length * (last.toNat % 128)
    if 128 ≤ last.toNat then -(magnitude : Int) else magnitude

theorem readScriptint_append_singleton (v : List UInt8) (last : UInt8) :
    readScriptint (v ++ [last]) =
      if 128 ≤ last.toNat then -((leValue v + 256 ^ v.length * (last.toNat % 128) : Nat) : Int)
      else ((leValue v + 256 ^ v.length * (last.toNat % 128) : Nat) : Int) := by
  simp only [readScriptint, List.getLast?_concat, List.dropLast_concat]

/-- The loop leaves `abs` split into the bytes it pushed and a last digit below 256. -/
theorem scriptintLoop_spec (abs : Nat) :
    abs = leValue (scriptintLoop abs).1 + 256 ^ (scriptintLoop abs).1.length *
      (scriptintLoop abs).2 ∧ (scriptintLoop abs).2 < 256 := by
  induction abs using Nat.strong_induction_on with
  | _ abs ih =>
    rw [scriptintLoop_eq]
    split_ifs with h
    · obtain ⟨h₁, h₂⟩ := ih (abs / 256) (by omega)
      refine ⟨?_, h₂⟩
      rw [leValue, toNat_toUInt8, Nat.mod_mod, List.length_cons, pow_succ]
      conv_lhs => rw [← Nat.mod_add_div abs 256, h₁]
      ring
    · exact ⟨by simp [leValue], by omega⟩

set_option maxRecDepth 2000 in
private theorem and_0x80_ne_zero_iff : ∀ r < 256, (r &&& 0x80 ≠ 0 ↔ 128 ≤ r) := by decide

set_option maxRecDepth 2000 in
private theorem or_0x80_eq : ∀ r < 128, r ||| 0x80 = r + 128 := by decide

/-- `build_scriptint` round-trips: the script number it writes reads back as `n`. -/
theorem readScriptint_buildScriptint (n : Int) : readScriptint (buildScriptint n) = n := by
  obtain ⟨hv, hr⟩ := scriptintLoop_spec n.natAbs
  dsimp only [buildScriptint]
  set v := (scriptintLoop n.natAbs).1
  set r := (scriptintLoop n.natAbs).2
  have hv' : (n.natAbs : Int) = leValue v + 256 ^ v.length * r := by exact_mod_cast hv
  by_cases h₀ : n = 0
  · subst h₀; rfl
  rw [if_neg h₀]
  by_cases hbit : 128 ≤ r
  · rw [if_pos ((and_0x80_ne_zero_iff r hr).mpr hbit), ← List.singleton_append,
      ← List.append_assoc, readScriptint_append_singleton, leValue_append]
    by_cases hn : n < 0 <;> simp [hn, leValue, Nat.mod_eq_of_lt hr, UInt8.size] <;> omega
  · rw [if_neg (not_not.mpr (Decidable.of_not_not (mt (and_0x80_ne_zero_iff r hr).mp hbit))),
      readScriptint_append_singleton]
    by_cases hn : n < 0 <;>
      simp [hn, or_0x80_eq r (by omega), Nat.mod_eq_of_lt (show r + 128 < 256 by omega),
        Nat.mod_eq_of_lt (show r < 256 by omega), Nat.mod_eq_of_lt (show r < 128 by omega)] <;>
      omega

theorem buildScriptint_ne_nil {n : Int} (h : n ≠ 0) : buildScriptint n ≠ [] := by
  dsimp only [buildScriptint]
  rw [if_neg h]
  split_ifs <;> simp

/-- Reads the number pushed at the front of a script as `push_int` writes it:
`OP_0`, `OP_1NEGATE`, `OP_1`..`OP_16`, or a short data push of a script number. -/
def readPushInt : List UInt8 → Option (Int × List UInt8)
  | [] => none
  | op :: rest =>
    if op.toNat = 0 then some (0, rest)
    else if op.toNat = 79 ∨ (81 ≤ op.toNat ∧ op.toNat ≤ 96) then some ((op.toNat : Int) - 80, rest)
    else if op.toNat < 76 ∧ op.toNat ≤ rest.length then
      some (readScriptint (rest.take op.toNat), rest.drop op.toNat)
    else none

/-- A data push of a number other than 0, -1 and 1..16: a length byte from 1 to 9. -/
theorem pushIntBytes_of_not_small {data : BitVec 64} (h₁ : ¬ (data.toInt = -1 ∨
    (1 ≤ data.toInt ∧ data.toInt ≤ 16))) (h₀ : data.toInt ≠ 0) :
    pushIntBytes data = (buildScriptint data.toInt).length.toUInt8 :: buildScriptint data.toInt ∧
      1 ≤ (buildScriptint data.toInt).length ∧ (buildScriptint data.toInt).length ≤ 9 := by
  have hlen := buildScriptint_length_le _ (natAbs_toInt_lt data)
  refine ⟨?_, List.length_pos.mpr (buildScriptint_ne_nil h₀), hlen⟩
  rw [pushIntBytes, if_neg h₁, if_neg h₀, pushSliceBytes_of_lt (by simp only; omega)]

/-- `push_int` round-trips: the number it writes is read back from the front of a script. -/
theorem readPushInt_pushIntBytes (data : BitVec 64) (rest : List UInt8) :
    readPushInt (pushIntBytes data ++ rest) = some (data.toInt, rest) := by
  by_cases hsmall : data.toInt = -1 ∨ (1 ≤ data.toInt ∧ data.toInt ≤ 16)
  · have hb : ((data.toInt - 1 + opTrue.toNat).toNat.toUInt8).toNat = (data.toInt + 80).toNat := by
      have h81 : opTrue.toNat = 81 := rfl
      simp only [toNat_toUInt8, h81]
      omega
    rw [pushIntBytes, if_pos hsmall, List.singleton_append, readPushInt, hb,
      if_neg (by omega), if_pos (by omega)]
    congr 2
    omega
  by_cases h₀ : data.toInt = 0
  · rw [pushIntBytes, if_neg hsmall, if_pos h₀, h₀]
    rfl
  obtain ⟨heq, h₁, h₉⟩ := pushIntBytes_of_not_small hsmall h₀
  rw [heq, List.cons_append, readPushInt, toNat_toUInt8, Nat.mod_eq_of_lt (by omega),
    if_neg (by omega), if_neg (by omega), if_pos ⟨by omega, by simp⟩, List.take_left' rfl,
    List.drop_left' rfl, readScriptint_buildScriptint]

/-- Pushes of two `i64`s followed by anything agree only if the numbers agree and
the rests agree: a push is never a proper prefix of another. -/
theorem pushIntBytes_append_inj {a b : BitVec 64} {r s : List UInt8}
    (h : pushIntBytes a ++ r = pushIntBytes b ++ s) : a = b ∧ r = s := by
  have hb := readPushInt_pushIntBytes b s
  rw [← h, readPushInt_pushIntBytes, Option.some.injEq, Prod.mk.injEq] at hb
  exact ⟨BitVec.toInt_inj.mp hb.1, hb.2⟩

/-- What `push_int` can write: `OP_0`, one opcode for -1 and 1..16, or a data push
whose length byte, from 1 to 9, counts the bytes after it. -/
theorem pushIntBytes_cases (data : BitVec 64) :
    (data.toInt = 0 ∧ pushIntBytes data = [opFalse]) ∨
    ((data.toInt = -1 ∨ (1 ≤ data.toInt ∧ data.toInt ≤ 16)) ∧
      pushIntBytes data = [(data.toInt + 80).toNat.toUInt8]) ∨
    (¬ (-1 ≤ data.toInt ∧ data.toInt ≤ 16) ∧ ∃ b rest, pushIntBytes data = b :: rest ∧
      1 ≤ b.toNat ∧ b.toNat ≤ 9 ∧ rest.length = b.toNat) := by
  by_cases hsmall : data.toInt = -1 ∨ (1 ≤ data.toInt ∧ data.toInt ≤ 16)
  · refine .inr (.inl ⟨hsmall, ?_⟩)
    rw [pushIntBytes, if_pos hsmall]
    congr 3
    have h81 : opTrue.toNat = 81 := rfl
    omega
  by_cases h₀ : data.toInt = 0
  · exact .inl ⟨h₀, by rw [pushIntBytes, if_neg hsmall, if_pos h₀]⟩
  obtain ⟨heq, h₁, h₉⟩ := pushIntBytes_of_not_small hsmall h₀
  refine .inr (.inr ⟨by omega, _, _, heq, ?_⟩)
  rw [toNat_toUInt8, Nat.mod_eq_of_lt (by omega)]
  exact ⟨h₁, h₉, rfl⟩

theorem toInt_ofNat_of_lt {n : Nat} (h : n < 2 ^ 63) : (BitVec.ofNat 64 n).toInt = n := by
  rw [BitVec.toInt_eq_toNat_cond, BitVec.toNat_ofNat]
  split_ifs <;> omega

/-- A `usize` of 2^63 or more is a negative `i64`. -/
theorem toInt_ofNat_of_ge {n : Nat} (h : 2 ^ 63 ≤ n) (h' : n < 2 ^ 64) :
    (BitVec.ofNat 64 n).toInt = n - 2 ^ 64 := by
  rw [BitVec.toInt_eq_toNat_cond, BitVec.toNat_ofNat]
  split_ifs <;> omega

/-- The script under construction (`script::Builder`). -/
structure Builder where
  bytes : List UInt8

namespace Builder

def new : Builder := ⟨[]⟩

def pushOpcode (b : Builder) (op : UInt8) : Builder := ⟨b.bytes ++ [op]⟩

def pushSlice (b : Builder) (data : PushBytes) : Builder := ⟨b.bytes ++ pushSliceBytes data⟩

def pushInt (b : Builder) (data : BitVec 64) : Builder := ⟨b.bytes ++ pushIntBytes data⟩

def intoScript (b : Builder) : List UInt8 := b.bytes

end Builder

end Sbtc.Script
