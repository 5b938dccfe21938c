import Sbtc.Script

/-!
The data-carrying output script of sbtc-core's `construction/utils.rs`:
`build_op_return_script` is `OP_RETURN` followed by one `push_slice` of the data, and
`magic_bytes` gives the two-byte network tag the operations put first in that data. The
script reads back: a push made by `push_slice`, in any of its four forms, decodes to its data
and leaves whatever follows it, so the data of an `OP_RETURN` script is determined by it.
-/

namespace Sbtc.OpReturn

open Script

/-- `OP_RETURN`. -/
def opReturn : UInt8 := 0x6a

/-- The networks of the `bitcoin` crate. -/
inductive Network
  | bitcoin
  | testnet
  | signet
  | regtest
  deriving DecidableEq, Repr

/-- `magic_bytes`: `"X2"` on mainnet, `"T2"` on testnet, `"id"` otherwise. -/
def magicBytes : Network → List UInt8
  | .bitcoin => [0x58, 0x32]
  | .testnet => [0x54, 0x32]
  | _ => [0x69, 0x64]

/-- `build_op_return_script`. -/
def buildOpReturnScript (data : PushBytes) : List UInt8 :=
  (Builder.new.pushOpcode opReturn |>.pushSlice data).intoScript

/-- The `n` data bytes at the front of `rest`, and what follows them. -/
def takeData (n : Nat) (rest : List UInt8) : Option (List UInt8 × List UInt8) :=
  if n ≤ rest.length then some (rest.take n, rest.drop n) else none

/-- The bytes of the length after a `PUSHDATA` opcode; `0` for any other opcode. -/
def pushdataWidth (op : UInt8) : Nat :=
  if op = opPushdata1 then 1 else if op = opPushdata2 then 2 else if op = opPushdata4 then 4
  else 0

/-- Read one push of data the way the script interpreter does: a length below `OP_PUSHDATA1`
is the opcode itself, and `OP_PUSHDATA1`, `2` and `4` are followed by the length in 1, 2 or
4 little-endian bytes. -/
def readPushSlice : List UInt8 → Option (List UInt8 × List UInt8)
  | [] => none
  | op :: rest =>
    if op.toNat < 76 then takeData op.toNat rest
    else if pushdataWidth op = 0 ∨ rest.length < pushdataWidth op then none
    else takeData (leValue (rest.take (pushdataWidth op))) (rest.drop (pushdataWidth op))

theorem takeData_append (data rest : List UInt8) :
    takeData data.length (data ++ rest) = some (data, rest) := by
  simp [takeData]

/-- The length header `push_slice` writes, read back after its opcode. -/
theorem readPushSlice_header {op : UInt8} {len data rest : List UInt8} (hop : 76 ≤ op.toNat)
    (hwidth : len.length = pushdataWidth op) (hpos : 0 < len.length)
    (hlen : leValue len = data.length) :
    readPushSlice (op :: len ++ data ++ rest) = some (data, rest) := by
  have hnot : ¬ op.toNat < 76 := by omega
  simp only [readPushSlice, List.cons_append, hnot, if_false, ← hwidth, List.append_assoc]
  rw [if_neg (by simp only [List.length_append]; omega), List.take_left' rfl, List.drop_left' rfl, hlen, takeData_append]

/-- A push made by `push_slice` reads back to its data, whatever follows it. -/
theorem readPushSlice_pushSliceBytes (data : PushBytes) (rest : List UInt8) :
    readPushSlice (pushSliceBytes data ++ rest) = some (data.bytes, rest) := by
  have hlt := data.length_lt
  dsimp only [pushSliceBytes]
  rw [show opPushdata1.toNat = 76 from rfl]
  split_ifs with h₁ h₂ h₃
  · simp only [List.singleton_append, List.cons_append, List.nil_append, readPushSlice,
      toNat_toUInt8, Nat.mod_eq_of_lt (show data.bytes.length < 256 by omega), h₁, if_true,
      takeData_append]
  · exact readPushSlice_header (by decide) rfl (by simp) (by simp [leValue]; omega)
  · exact readPushSlice_header (by decide) rfl (by simp) (by simp [leValue]; omega)
  · exact readPushSlice_header (by decide) rfl (by simp) (by simp [leValue]; omega)

/-- `build_op_return_script` writes `OP_RETURN` and one push that reads back to exactly the
data, so two scripts are equal only for equal data. -/
theorem buildOpReturnScript_reads_back (data : PushBytes) :
    (buildOpReturnScript data).head? = some opReturn ∧
      readPushSlice (buildOpReturnScript data).tail = some (data.bytes, []) := by
  simpa [buildOpReturnScript, Builder.intoScript, Builder.pushSlice, Builder.pushOpcode,
    Builder.new] using readPushSlice_pushSliceBytes data []

end Sbtc.OpReturn
