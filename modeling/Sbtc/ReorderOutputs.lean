import Sbtc.Collections

/-!
`reorder_outputs` of sbtc-core (`operations/construction/utils.rs`), which
`sign_and_broadcast` applies to the outputs the wallet has built. Each output is
keyed by the index of its `(script_pubkey, value)` pair in the declared order, or
by `usize::MAX` when the pair is not declared, and the outputs are read back from
a `BTreeMap` in key order. A repeated pair keeps its last index, and of two
outputs under one key only the later survives: outputs can be lost, never
duplicated, and the result always lists its keys in strictly increasing order.
-/

namespace Sbtc.ReorderOutputs

open Collections

/-- A script, as its bytes. -/
abbrev Script := List UInt8

/-- `bitcoin::TxOut`. -/
structure TxOut where
  value : UInt64
  scriptPubkey : Script
  deriving DecidableEq, Repr

/-- The `(script_pubkey, value)` pair an output is looked up by. -/
def TxOut.pair (o : TxOut) : Script × UInt64 := (o.scriptPubkey, o.value)

/-- `usize::MAX` on a 64-bit target. -/
def usizeMax : Nat := 18446744073709551615

/-- `order.into_iter().enumerate().map(|(idx, val)| (val, idx)).collect()`. -/
def indices (order : List (Script × UInt64)) : HashMap (Script × UInt64) Nat :=
  HashMap.collect (order.enum.map fun (idx, val) => (val, idx))

def reorderOutputs (outputs : List TxOut) (order : List (Script × UInt64)) : List TxOut :=
  let outputsOrdered : BTreeMap TxOut :=
    BTreeMap.collect (outputs.map fun txout =>
      (((indices order).get (txout.scriptPubkey, txout.value)).getD usizeMax, txout))
  outputsOrdered.intoValues

/-- The key `reorder_outputs` stores an output under: the index of its pair, or
`usize::MAX` (the change output). -/
def outputKey (order : List (Script × UInt64)) (txout : TxOut) : Nat :=
  ((indices order).get txout.pair).getD usizeMax

/-- The `outputs_ordered` map. -/
def outputsOrdered (outputs : List TxOut) (order : List (Script × UInt64)) : BTreeMap TxOut :=
  BTreeMap.collect (outputs.map fun o => (outputKey order o, o))

theorem reorderOutputs_eq (outputs : List TxOut) (order : List (Script × UInt64)) :
    reorderOutputs outputs order = (outputsOrdered outputs order).intoValues := rfl

/-! ### The index map -/

/-- `i` is the last position of `p` in `order`. -/
def IsLastIndex (order : List (Script × UInt64)) (p : Script × UInt64) (i : Nat) : Prop :=
  order[i]? = some p ∧ ∀ j < order.length, i < j → order[j]? ≠ some p

instance (order : List (Script × UInt64)) (p : Script × UInt64) (i : Nat) :
    Decidable (IsLastIndex order p i) :=
  inferInstanceAs (Decidable (_ ∧ _))

theorem get_indices_append_singleton (order : List (Script × UInt64)) (q p : Script × UInt64) :
    (indices (order ++ [q])).get p = if p = q then some order.length else (indices order).get p := by
  simp only [indices, List.enum_append, List.enumFrom_singleton, List.map_append, List.map_cons,
    List.map_nil]
  exact HashMap.get_collect_append_singleton _ _ _ _

private theorem getElem?_append_singleton {α : Type} (l : List α) (q : α) (j : Nat) :
    (l ++ [q])[j]? = if j < l.length then l[j]? else if j = l.length then some q else none := by
  rw [List.getElem?_append]
  split_ifs with h₁ h₂
  · rfl
  · subst h₂; simp
  · exact List.getElem?_eq_none (by simp; omega)

theorem isLastIndex_append_singleton (order : List (Script × UInt64)) (q p : Script × UInt64)
    (i : Nat) : IsLastIndex (order ++ [q]) p i ↔
      if p = q then i = order.length else IsLastIndex order p i := by
  by_cases hpq : p = q
  · subst hpq
    rw [if_pos rfl]
    constructor
    · rintro ⟨h₁, h₂⟩
      rcases Nat.lt_trichotomy i order.length with hi | hi | hi
      · exact absurd (List.getElem?_concat_length order p) (h₂ _ (by simp) hi)
      · exact hi
      · rw [List.getElem?_eq_none (by simp; omega)] at h₁
        exact Option.noConfusion h₁
    · rintro rfl
      refine ⟨List.getElem?_concat_length order p, fun j hj hij => ?_⟩
      simp only [List.length_append, List.length_singleton] at hj
      omega
  · rw [if_neg hpq]
    simp only [IsLastIndex, getElem?_append_singleton, List.length_append, List.length_singleton]
    constructor
    · rintro ⟨h₁, h₂⟩
      have hi : i < order.length := by
        by_contra hi
        rw [if_neg hi] at h₁
        split_ifs at h₁
        exact hpq (Option.some_injective _ h₁).symm
      rw [if_pos hi] at h₁
      exact ⟨h₁, fun j hj hij => by simpa [hj] using h₂ j (by omega) hij⟩
    · rintro ⟨h₁, h₂⟩
      have hi : i < order.length := (List.getElem?_eq_some_iff.mp h₁).1
      refine ⟨by rwa [if_pos hi], fun j _ hij => ?_⟩
      split_ifs with hj hj'
      · exact h₂ j hj hij
      · exact fun h => hpq (Option.some_injective _ h).symm
      · exact Option.noConfusion

/-- The index map answers the last position of a declared pair. -/
theorem get_indices_eq_some_iff (order : List (Script × UInt64)) (p : Script × UInt64) (i : Nat) :
    (indices order).get p = some i ↔ IsLastIndex order p i := by
  induction order using List.reverseRecOn generalizing i with
  | nil => simp [indices, IsLastIndex]
  | append_singleton order q ih =>
    rw [get_indices_append_singleton, isLastIndex_append_singleton]
    split_ifs
    · simp [eq_comm]
    · exact ih i

theorem get_indices_eq_none_iff (order : List (Script × UInt64)) (p : Script × UInt64) :
    (indices order).get p = none ↔ p ∉ order := by
  induction order using List.reverseRecOn with
  | nil => simp [indices]
  | append_singleton order q ih =>
    rw [get_indices_append_singleton]
    split_ifs with h <;> simp [h, ih]

theorem outputKey_of_getElem? {order : List (Script × UInt64)} {o : TxOut} {i : Nat}
    (hnodup : order.Nodup) (h : order[i]? = some o.pair) : outputKey order o = i := by
  rw [outputKey, (get_indices_eq_some_iff order o.pair i).mpr ⟨h, fun j _ hij hj => ?_⟩]
  · rfl
  obtain ⟨hi, hi'⟩ := List.getElem?_eq_some_iff.mp h
  obtain ⟨hj, hj'⟩ := List.getElem?_eq_some_iff.mp hj
  have := (List.Nodup.getElem_inj_iff hnodup).mp (hi'.trans hj'.symm)
  omega

theorem outputKey_of_not_mem {order : List (Script × UInt64)} {o : TxOut}
    (h : o.pair ∉ order) : outputKey order o = usizeMax := by
  rw [outputKey, (get_indices_eq_none_iff order o.pair).mpr h]
  rfl

/-- A declared output's key is below the sentinel: `order.len()` is a `usize`. -/
theorem outputKey_lt_usizeMax {order : List (Script × UInt64)} {o : TxOut}
    (hlen : order.length ≤ usizeMax) (h : o.pair ∈ order) : outputKey order o < usizeMax := by
  obtain ⟨i, hi⟩ := Option.ne_none_iff_exists'.mp
    (mt (get_indices_eq_none_iff order o.pair).mp (not_not.mpr h))
  have hlt := (List.getElem?_eq_some_iff.mp ((get_indices_eq_some_iff order _ i).mp hi).1).1
  rw [outputKey, hi]
  exact Nat.lt_of_lt_of_le hlt hlen

/-! ### The map and the result -/

theorem mem_outputsOrdered {outputs : List TxOut} {order : List (Script × UInt64)}
    {e : Nat × TxOut} (h : e ∈ (outputsOrdered outputs order).entries) :
    e.2 ∈ outputs ∧ e.1 = outputKey order e.2 := by
  obtain ⟨o, ho, rfl⟩ := List.mem_map.mp (BTreeMap.mem_collect h)
  exact ⟨ho, rfl⟩

/-- The map stores every output it keeps under that output's own key. -/
theorem outputsOrdered_entries (outputs : List TxOut) (order : List (Script × UInt64)) :
    (outputsOrdered outputs order).entries =
      (reorderOutputs outputs order).map fun o => (outputKey order o, o) := by
  rw [reorderOutputs_eq, BTreeMap.intoValues, List.map_map]
  exact (List.map_id _).symm.trans
    (List.map_congr_left fun e he => Prod.ext (mem_outputsOrdered he).2 rfl)

/-- The result lists its keys in strictly increasing order. -/
theorem reorderOutputs_keys_sorted (outputs : List TxOut) (order : List (Script × UInt64)) :
    ((reorderOutputs outputs order).map (outputKey order)).Sorted (· < ·) := by
  have h := (outputsOrdered outputs order).sorted
  rw [outputsOrdered_entries] at h
  have h' := List.pairwise_map.mp h
  exact List.pairwise_map.mpr h'

/-- Reordering never duplicates an output: the result is a sub-multiset of the outputs. -/
theorem reorderOutputs_subperm (outputs : List TxOut) (order : List (Script × UInt64)) :
    (reorderOutputs outputs order).Subperm outputs := by
  have hnodup : (outputsOrdered outputs order).entries.Nodup :=
    (outputsOrdered outputs order).sorted.imp fun h => ne_of_apply_ne Prod.fst (ne_of_lt h)
  obtain ⟨l, hp, hs⟩ := List.subperm_of_subset hnodup fun _ he => BTreeMap.mem_collect he
  refine ⟨l.map Prod.snd, hp.map _, ?_⟩
  simpa [List.map_map, Function.comp_def] using hs.map Prod.snd

/-- With pairwise distinct keys no output is lost either. -/
theorem reorderOutputs_perm {outputs : List TxOut} {order : List (Script × UInt64)}
    (h : (outputs.map (outputKey order)).Nodup) : (reorderOutputs outputs order).Perm outputs := by
  have hnd : ((outputs.map fun o => (outputKey order o, o)).map Prod.fst).Nodup := by
    simpa [List.map_map] using h
  have := (BTreeMap.collect_perm hnd).map Prod.snd
  simpa [reorderOutputs_eq, outputsOrdered, BTreeMap.intoValues, List.map_map,
    Function.comp_def] using this

/-- A declared output and a change output are both kept, declared first. -/
theorem reorderOutputs_perm_with_change :
    ([⟨5, [3]⟩, ⟨10, [1]⟩].map (outputKey [([1], 10)])).Nodup ∧
      (reorderOutputs [⟨5, [3]⟩, ⟨10, [1]⟩] [([1], 10)]).Perm [⟨5, [3]⟩, ⟨10, [1]⟩] :=
  have h : ([⟨5, [3]⟩, ⟨10, [1]⟩].map (outputKey [([1], 10)])).Nodup := by decide
  ⟨h, reorderOutputs_perm h⟩

/-- Two outputs paying one script one amount, declared twice: one of them is dropped. -/
theorem reorderOutputs_drops_repeated_pair :
    reorderOutputs [⟨100, [0x51]⟩, ⟨100, [0x51]⟩] [([0x51], 100), ([0x51], 100)] =
      [⟨100, [0x51]⟩] := by
  decide

theorem reorderOutputs_idempotent (outputs : List TxOut) (order : List (Script × UInt64)) :
    reorderOutputs (reorderOutputs outputs order) order = reorderOutputs outputs order := by
  have h := BTreeMap.collect_of_sorted (outputsOrdered outputs order).sorted
  rw [outputsOrdered_entries] at h
  rw [reorderOutputs_eq (reorderOutputs outputs order), outputsOrdered, BTreeMap.intoValues, h,
    List.map_map]
  exact List.map_id _

end Sbtc.ReorderOutputs
