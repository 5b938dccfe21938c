import Sbtc.ReorderOutputs

/-!
What the declared order buys `sign_and_broadcast`. Keys increase along the
result, a declared pair is keyed by its last index and change by `usize::MAX`,
so declared outputs come first and in the order of their pairs' last
occurrences. When the declared pairs are distinct and the wallet returns one
output per pair plus at most one change output, in any arrangement, the result
is the declared outputs in declared order followed by the change. Against the spec's
algorithm, a stable sort by declared index, the code agrees exactly on the output lists in
which no two outputs get one index.
-/

namespace Sbtc.DeclaredOrder

open Collections ReorderOutputs

/-- A position in a list whose keys strictly increase is ordered by its key. -/
theorem lt_of_outputKey_lt {order : List (Script × UInt64)} {r : List TxOut} {a b : Nat}
    {oa ob : TxOut} (hs : (r.map (outputKey order)).Sorted (· < ·)) (ha : r[a]? = some oa)
    (hb : r[b]? = some ob) (hk : outputKey order oa < outputKey order ob) : a < b := by
  obtain ⟨ha, rfl⟩ := List.getElem?_eq_some_iff.mp ha
  obtain ⟨hb, rfl⟩ := List.getElem?_eq_some_iff.mp hb
  by_contra hab
  rcases Nat.lt_or_eq_of_le (Nat.le_of_not_lt hab) with hba | rfl
  · have := List.pairwise_iff_getElem.mp hs b a (by rwa [List.length_map])
      (by rwa [List.length_map]) hba
    simp only [List.getElem_map] at this
    omega
  · exact lt_irrefl _ hk

/-- `i` is the first position of `p` in `order`. -/
def IsFirstIndex (order : List (Script × UInt64)) (p : Script × UInt64) (i : Nat) : Prop :=
  order[i]? = some p ∧ ∀ j < i, order[j]? ≠ some p

instance (order : List (Script × UInt64)) (p : Script × UInt64) (i : Nat) :
    Decidable (IsFirstIndex order p i) :=
  inferInstanceAs (Decidable (_ ∧ _))

/-- The first-occurrence tie-break fails: declaring `A, B, A` puts `B`'s output first. -/
theorem reorderOutputs_first_occurrence_counterexample :
    ¬ ∀ (outputs : List TxOut) (order : List (Script × UInt64)),
      (∀ (a b : Nat) (oa ob : TxOut), (reorderOutputs outputs order)[a]? = some oa →
        (reorderOutputs outputs order)[b]? = some ob → oa.pair ∈ order → ob.pair ∉ order →
        a < b) ∧
      (∀ (a b : Nat) (oa ob : TxOut) (i j : Nat), (reorderOutputs outputs order)[a]? = some oa →
        (reorderOutputs outputs order)[b]? = some ob → IsFirstIndex order oa.pair i →
        IsFirstIndex order ob.pair j → i < j → a < b) := by
  intro h
  have := (h [⟨1, []⟩, ⟨2, []⟩] [([], 1), ([], 2), ([], 1)]).2 1 0 ⟨1, []⟩ ⟨2, []⟩ 0 1
    (by decide) (by decide) (by decide) (by decide) (by decide)
  omega

/-- Declared outputs precede change, and declared outputs follow the last
occurrences of their pairs. `order.len()` is a `usize`, so it is at most `usize::MAX`. -/
theorem reorderOutputs_declared_first_last_occurrence (outputs : List TxOut)
    (order : List (Script × UInt64)) (hlen : order.length ≤ usizeMax) :
    (∀ (a b : Nat) (oa ob : TxOut), (reorderOutputs outputs order)[a]? = some oa →
      (reorderOutputs outputs order)[b]? = some ob → oa.pair ∈ order → ob.pair ∉ order →
      a < b) ∧
    (∀ (a b : Nat) (oa ob : TxOut) (i j : Nat), (reorderOutputs outputs order)[a]? = some oa →
      (reorderOutputs outputs order)[b]? = some ob → IsLastIndex order oa.pair i →
      IsLastIndex order ob.pair j → i < j → a < b) := by
  have hs := reorderOutputs_keys_sorted outputs order
  refine ⟨fun a b oa ob ha hb hoa hob => lt_of_outputKey_lt hs ha hb ?_,
    fun a b oa ob i j ha hb hi hj hij => lt_of_outputKey_lt hs ha hb ?_⟩
  · rw [outputKey_of_not_mem hob]
    exact outputKey_lt_usizeMax hlen hoa
  · rwa [outputKey, (get_indices_eq_some_iff order _ i).mpr hi, outputKey,
      (get_indices_eq_some_iff order _ j).mpr hj]

/-- Declaring `A, B, A` with a change output `C`: the result is `B, A, C`. -/
theorem reorderOutputs_declared_first_last_occurrence_example :
    ([([], 1), ([], 2), ([], 1)] : List (Script × UInt64)).length ≤ usizeMax ∧
      reorderOutputs [⟨1, []⟩, ⟨2, []⟩, ⟨3, []⟩] [([], 1), ([], 2), ([], 1)] =
        [⟨2, []⟩, ⟨1, []⟩, ⟨3, []⟩] ∧ (0 < 2 ∧ 0 < 1) := by
  have hlen : ([([], 1), ([], 2), ([], 1)] : List (Script × UInt64)).length ≤ usizeMax := by
    decide
  have h := reorderOutputs_declared_first_last_occurrence [⟨1, []⟩, ⟨2, []⟩, ⟨3, []⟩] _ hlen
  exact ⟨hlen, by decide, h.1 0 2 ⟨2, []⟩ ⟨3, []⟩ (by decide) (by decide) (by decide) (by decide),
    h.2 0 1 ⟨2, []⟩ ⟨1, []⟩ 1 2 (by decide) (by decide) (by decide) (by decide) (by decide)⟩

/-! ### Distinct declared pairs and one change output -/

section Declared

variable {order : List (Script × UInt64)} {declared : List TxOut} {change : Option TxOut}

/-- With distinct declared pairs, the output paying `order[i]` is keyed `i`. -/
theorem map_outputKey_declared (hnodup : order.Nodup) (hdecl : declared.map TxOut.pair = order) :
    declared.map (outputKey order) = List.range declared.length := by
  subst hdecl
  refine List.ext_getElem (by simp) fun i h₁ _ => ?_
  have hi : i < declared.length := by simpa using h₁
  rw [List.getElem_map, List.getElem_range]
  exact outputKey_of_getElem? hnodup (by simp [hi])

/-- Declared outputs in declared order, then the change: their keys strictly increase. -/
theorem declared_append_change_keys_sorted (hlen : order.length ≤ usizeMax)
    (hnodup : order.Nodup) (hdecl : declared.map TxOut.pair = order)
    (hchange : ∀ c ∈ change, c.pair ∉ order) :
    ((declared ++ change.toList).map (outputKey order)).Sorted (· < ·) := by
  rw [List.map_append, map_outputKey_declared hnodup hdecl]
  refine List.pairwise_append.mpr ⟨List.pairwise_lt_range _, ?_, fun a ha b hb => ?_⟩
  · cases change <;> simp
  · obtain ⟨c, hc, rfl⟩ := List.mem_map.mp hb
    rw [outputKey_of_not_mem (hchange c (Option.mem_toList.mp hc))]
    have : declared.length = order.length := by rw [← hdecl, List.length_map]
    have := List.mem_range.mp ha
    omega

/-- The wallet's outputs, however arranged, come back as the declared outputs in
declared order followed by the change. -/
theorem reorderOutputs_eq_declared_append_change {outputs : List TxOut}
    (hlen : order.length ≤ usizeMax) (hnodup : order.Nodup)
    (hdecl : declared.map TxOut.pair = order) (hchange : ∀ c ∈ change, c.pair ∉ order)
    (hperm : outputs.Perm (declared ++ change.toList)) :
    reorderOutputs outputs order = declared ++ change.toList := by
  have hkeys := declared_append_change_keys_sorted hlen hnodup hdecl hchange
  have hsorted : ((declared ++ change.toList).map fun o => (outputKey order o, o)).Sorted
      (·.1 < ·.1) := List.pairwise_map.mpr (List.pairwise_map.mp hkeys)
  have hnd : ((outputs.map fun o => (outputKey order o, o)).map Prod.fst).Nodup := by
    rw [List.map_map]
    exact (hperm.map _).nodup_iff.mpr hkeys.nodup
  have h := BTreeMap.eq_of_perm_of_sorted ((BTreeMap.collect_perm hnd).trans (hperm.map _))
    (BTreeMap.collect _).sorted hsorted
  rw [reorderOutputs_eq, BTreeMap.intoValues, outputsOrdered, h, List.map_map]
  exact List.map_id _

end Declared

theorem reorderOutputs_declared_order (order : List (Script × UInt64))
    (outputs declared : List TxOut) (change : Option TxOut) (hlen : order.length ≤ usizeMax)
    (hnodup : order.Nodup) (hdecl : declared.map TxOut.pair = order)
    (hchange : ∀ c ∈ change, c.pair ∉ order) (hperm : outputs.Perm (declared ++ change.toList)) :
    (reorderOutputs outputs order).length = outputs.length ∧
      (∀ i < order.length, (reorderOutputs outputs order)[i]?.map TxOut.pair = order[i]?) ∧
      (∀ c ∈ change, (reorderOutputs outputs order).getLast? = some c) ∧
      ∀ outputs' : List TxOut, outputs'.Perm outputs →
        reorderOutputs outputs' order = reorderOutputs outputs order := by
  have h : ∀ {outs : List TxOut}, outs.Perm (declared ++ change.toList) →
      reorderOutputs outs order = declared ++ change.toList :=
    reorderOutputs_eq_declared_append_change hlen hnodup hdecl hchange
  refine ⟨by rw [h hperm, hperm.length_eq], fun i hi => ?_, fun c hc => ?_,
    fun outputs' hp => by rw [h (hp.trans hperm), h hperm]⟩
  · have : i < declared.length := by rwa [← hdecl, List.length_map] at hi
    rw [h hperm, List.getElem?_append_left this, ← hdecl, List.getElem?_map]
  · rw [h hperm, Option.mem_def.mp hc]
    exact List.getLast?_concat _

theorem reorderOutputs_declared_order_example :
    let order : List (Script × UInt64) := [([1], 10), ([2], 20)]
    let declared : List TxOut := [⟨10, [1]⟩, ⟨20, [2]⟩]
    let outputs : List TxOut := [⟨20, [2]⟩, ⟨5, [3]⟩, ⟨10, [1]⟩]
    order.length ≤ usizeMax ∧ order.Nodup ∧ declared.map TxOut.pair = order ∧
      (∀ c ∈ some (⟨5, [3]⟩ : TxOut), c.pair ∉ order) ∧
      outputs.Perm (declared ++ [⟨5, [3]⟩]) ∧
      (reorderOutputs outputs order).length = outputs.length ∧
      (∀ i < order.length, (reorderOutputs outputs order)[i]?.map TxOut.pair = order[i]?) ∧
      (∀ c ∈ some (⟨5, [3]⟩ : TxOut), (reorderOutputs outputs order).getLast? = some c) ∧
      ∀ outputs' : List TxOut, outputs'.Perm outputs →
        reorderOutputs outputs' order = reorderOutputs outputs order := by
  intro order declared outputs
  have hlen : order.length ≤ usizeMax := by decide
  have hnodup : order.Nodup := by decide
  have hdecl : declared.map TxOut.pair = order := by decide
  have hchange : ∀ c ∈ some (⟨5, [3]⟩ : TxOut), c.pair ∉ order := by decide
  have hperm : outputs.Perm (declared ++ [⟨5, [3]⟩]) := by decide
  exact ⟨hlen, hnodup, hdecl, hchange, hperm,
    reorderOutputs_declared_order order outputs declared (some ⟨5, [3]⟩) hlen hnodup hdecl hchange
      hperm⟩

/-! ### The stable sort of the spec -/

/-- Modelled from the spec: the index the lookup gives an output when a repeated pair keeps
its first declared index, and the sentinel for an undeclared pair. -/
def firstIndex (order : List (Script × UInt64)) (o : TxOut) : Nat :=
  if o.pair ∈ order then order.indexOf o.pair else usizeMax

/-- Modelled from the spec: the outputs stably sorted by their assigned index. -/
def stableSortByIndex (outputs : List TxOut) (order : List (Script × UInt64)) : List TxOut :=
  outputs.mergeSort fun a b => decide (firstIndex order a ≤ firstIndex order b)

section StableSort

variable {order : List (Script × UInt64)}

/-- `indexOf` finds a declared pair, under the `BEq` that pairs derive. -/
theorem getElem?_indexOf_of_mem {p : Script × UInt64} (h : p ∈ order) :
    order[order.indexOf p]? = some p := by
  have hex : ∃ x ∈ order, (x == p) = true := ⟨p, h, beq_self_eq_true p⟩
  rw [List.indexOf, List.findIdx_getElem?_eq_getElem_of_exists hex]
  exact congrArg some (eq_of_beq (@List.findIdx_getElem _ (· == p) order _))

/-- With distinct declared pairs the first and the last index of a pair coincide. -/
theorem firstIndex_eq_outputKey (hnodup : order.Nodup) (o : TxOut) :
    firstIndex order o = outputKey order o := by
  unfold firstIndex
  split_ifs with h
  · exact (outputKey_of_getElem? hnodup (getElem?_indexOf_of_mem h)).symm
  · exact (outputKey_of_not_mem h).symm

/-- The stable sort orders its outputs by key. -/
theorem stableSortByIndex_sorted (hnodup : order.Nodup) (outputs : List TxOut) :
    (stableSortByIndex outputs order).Pairwise fun a b => outputKey order a ≤ outputKey order b :=
  (List.sorted_mergeSort (fun _ _ _ h h' => by simp only [decide_eq_true_eq] at *; omega)
      (fun a b => by simp only [Bool.or_eq_true, decide_eq_true_eq]; omega) outputs).imp
    fun h => by simpa only [firstIndex_eq_outputKey hnodup, decide_eq_true_eq] using h

/-- For distinct declared pairs, `reorder_outputs` is the spec's stable sort by declared index
on exactly the output lists in which the spec assigns no index twice. -/
theorem reorderOutputs_eq_stableSortByIndex_iff (outputs : List TxOut) (hnodup : order.Nodup) :
    reorderOutputs outputs order = stableSortByIndex outputs order ↔
      (outputs.map (firstIndex order)).Nodup := by
  have hperm : (stableSortByIndex outputs order).Perm outputs := List.mergeSort_perm _ _
  rw [funext (firstIndex_eq_outputKey hnodup)]
  refine ⟨fun h => ?_, fun hkeys => ?_⟩
  · have hnd := (reorderOutputs_keys_sorted outputs order).nodup
    rw [h] at hnd
    exact (hperm.map _).nodup_iff.mp hnd
  · have hne := List.pairwise_map.mp ((hperm.map (outputKey order)).nodup_iff.mpr hkeys)
    have hlt : (stableSortByIndex outputs order).Pairwise
        fun a b => outputKey order a < outputKey order b :=
      ((stableSortByIndex_sorted hnodup outputs).and hne).imp fun h => lt_of_le_of_ne h.1 h.2
    have hcollect := BTreeMap.collect_perm (l := outputs.map fun o => (outputKey order o, o))
      (by simpa only [List.map_map] using hkeys)
    have hentries := BTreeMap.eq_of_perm_of_sorted (hcollect.trans (hperm.map _).symm)
      (BTreeMap.collect _).sorted (List.pairwise_map.mpr hlt)
    rw [reorderOutputs_eq, BTreeMap.intoValues, outputsOrdered, hentries, List.map_map]
    exact List.map_id _

theorem reorderOutputs_eq_stableSortByIndex_iff_distinct :
    ([([1], 10), ([2], 20)] : List (Script × UInt64)).Nodup ∧
      reorderOutputs [⟨20, [2]⟩, ⟨5, [3]⟩, ⟨10, [1]⟩] [([1], 10), ([2], 20)] =
        stableSortByIndex [⟨20, [2]⟩, ⟨5, [3]⟩, ⟨10, [1]⟩] [([1], 10), ([2], 20)] :=
  have hnodup : ([([1], 10), ([2], 20)] : List (Script × UInt64)).Nodup := by decide
  ⟨hnodup, (reorderOutputs_eq_stableSortByIndex_iff _ hnodup).2 (by decide)⟩

end StableSort

end Sbtc.DeclaredOrder
