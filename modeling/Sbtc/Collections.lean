import Mathlib.Data.List.Sort
import Mathlib.Data.List.Perm.Subperm

/-!
The two standard collections `reorder_outputs` goes through, modelled by what the
function observes of them. A `HashMap` is read only through `get`. A
`BTreeMap<usize, V>` is read through `into_values`, so it keeps its entries in
strictly increasing key order, and that order is a field of the structure. Both
`collect`s insert the pairs in turn, and a later value under a key replaces the
earlier one. The standard library builds a `BTreeMap` from an iterator by a
stable sort on the keys that then keeps the last of equal keys, which is the
same map.
-/

namespace Sbtc.Collections

/-- A `HashMap<K, V>` as the lookup it answers. -/
structure HashMap (K V : Type) where
  get : K → Option V

namespace HashMap

variable {K V : Type}

def empty : HashMap K V := ⟨fun _ => none⟩

@[simp] theorem get_empty (k : K) : (empty : HashMap K V).get k = none := rfl

variable [DecidableEq K]

/-- `HashMap::insert`: the new value replaces any value already under `key`. -/
def insert (m : HashMap K V) (key : K) (value : V) : HashMap K V :=
  ⟨fun k => if k = key then some value else m.get k⟩

/-- `FromIterator::from_iter`, which `collect` calls: the pairs are inserted in turn. -/
def collect (pairs : List (K × V)) : HashMap K V :=
  pairs.foldl (fun m kv => m.insert kv.1 kv.2) empty

@[simp] theorem collect_nil : collect ([] : List (K × V)) = empty := rfl

theorem get_collect_append_singleton (pairs : List (K × V)) (key k : K) (value : V) :
    (collect (pairs ++ [(key, value)])).get k =
      if k = key then some value else (collect pairs).get k := by
  simp only [collect, List.foldl_append, List.foldl_cons, List.foldl_nil, insert]

end HashMap

/-- A `BTreeMap<usize, V>`: its entries, in strictly increasing key order. -/
structure BTreeMap (V : Type) where
  entries : List (Nat × V)
  sorted : entries.Sorted (·.1 < ·.1)

namespace BTreeMap

variable {V : Type}

/-- Put `(k, v)` at its place in a key-ordered entry list, replacing the value of
an entry with the same key. -/
def insertEntry (k : Nat) (v : V) : List (Nat × V) → List (Nat × V)
  | [] => [(k, v)]
  | e :: rest =>
    if k < e.1 then (k, v) :: e :: rest
    else if k = e.1 then (k, v) :: rest
    else e :: insertEntry k v rest

theorem mem_insertEntry {k : Nat} {v : V} {e : Nat × V} {l : List (Nat × V)}
    (h : e ∈ insertEntry k v l) : e = (k, v) ∨ e ∈ l := by
  induction l with
  | nil => simpa [insertEntry] using h
  | cons d rest ih =>
    simp only [insertEntry] at h
    split_ifs at h
    · exact List.mem_cons.mp h
    · exact (List.mem_cons.mp h).imp_right (List.mem_cons_of_mem d)
    · rcases List.mem_cons.mp h with rfl | h
      · exact .inr (List.mem_cons_self _ _)
      · exact (ih h).imp_right (List.mem_cons_of_mem d)

theorem insertEntry_sorted (k : Nat) (v : V) {l : List (Nat × V)}
    (h : l.Sorted (·.1 < ·.1)) : (insertEntry k v l).Sorted (·.1 < ·.1) := by
  induction l with
  | nil => exact List.sorted_singleton _
  | cons d rest ih =>
    have hd := List.rel_of_sorted_cons h
    have hrest := h.of_cons
    simp only [insertEntry]
    split_ifs with hlt heq
    · refine List.Pairwise.cons (fun e he => ?_) h
      rcases List.mem_cons.mp he with rfl | he
      · exact hlt
      · exact hlt.trans (hd e he)
    · exact List.Pairwise.cons (fun e he => heq ▸ hd e he) hrest
    · refine List.Pairwise.cons (fun e he => ?_) (ih hrest)
      rcases mem_insertEntry he with rfl | he
      · show d.1 < k
        omega
      · exact hd e he

def empty : BTreeMap V := ⟨[], List.sorted_nil⟩

/-- `BTreeMap::insert`: the new value replaces any value already under `k`. -/
def insert (m : BTreeMap V) (k : Nat) (v : V) : BTreeMap V :=
  ⟨insertEntry k v m.entries, insertEntry_sorted k v m.sorted⟩

/-- `FromIterator::from_iter`, which `collect` calls. -/
def collect (pairs : List (Nat × V)) : BTreeMap V :=
  pairs.foldl (fun m kv => m.insert kv.1 kv.2) empty

/-- `BTreeMap::into_values`: the values in increasing key order. -/
def intoValues (m : BTreeMap V) : List V := m.entries.map Prod.snd

/-- A fresh key is inserted without disturbing the other entries. -/
theorem insertEntry_perm (k : Nat) (v : V) {l : List (Nat × V)}
    (hk : k ∉ l.map Prod.fst) : (insertEntry k v l).Perm ((k, v) :: l) := by
  induction l with
  | nil => rfl
  | cons d rest ih =>
    simp only [List.map_cons, List.mem_cons, not_or] at hk
    simp only [insertEntry, if_neg hk.1]
    split_ifs
    · rfl
    · exact ((ih hk.2).cons d).trans (List.Perm.swap _ _ _)

private theorem mem_foldl_insert (l : List (Nat × V)) (m : BTreeMap V) {e : Nat × V}
    (h : e ∈ (l.foldl (fun m kv => m.insert kv.1 kv.2) m).entries) : e ∈ m.entries ∨ e ∈ l := by
  induction l generalizing m with
  | nil => exact .inl h
  | cons d rest ih =>
    rcases ih _ h with h | h
    · rcases mem_insertEntry h with rfl | h
      · exact .inr (List.mem_cons_self _ _)
      · exact .inl h
    · exact .inr (List.mem_cons_of_mem d h)

/-- Every entry of a collected map is one of the pairs it was collected from. -/
theorem mem_collect {l : List (Nat × V)} {e : Nat × V} (h : e ∈ (collect l).entries) :
    e ∈ l :=
  (mem_foldl_insert l empty h).resolve_left (List.not_mem_nil e)

private theorem foldl_insert_perm (l : List (Nat × V)) (m : BTreeMap V)
    (h : ((m.entries ++ l).map Prod.fst).Nodup) :
    (l.foldl (fun m kv => m.insert kv.1 kv.2) m).entries.Perm (m.entries ++ l) := by
  induction l generalizing m with
  | nil => simp
  | cons e l ih =>
    have hcons := (List.perm_middle.map Prod.fst).nodup_iff.mp h
    have hk : e.1 ∉ m.entries.map Prod.fst := by
      rw [List.map_cons, List.nodup_cons, List.map_append, List.mem_append, not_or] at hcons
      exact hcons.1.1
    have hp : ((m.insert e.1 e.2).entries ++ l).Perm (m.entries ++ e :: l) :=
      ((insertEntry_perm e.1 e.2 hk).append_right l).trans List.perm_middle.symm
    exact (ih _ ((hp.map Prod.fst).nodup_iff.mpr h)).trans hp

/-- With pairwise distinct keys nothing is lost: the entries are the pairs, reordered. -/
theorem collect_perm {l : List (Nat × V)} (h : (l.map Prod.fst).Nodup) :
    (collect l).entries.Perm l :=
  foldl_insert_perm l empty h

/-- Two key-ordered entry lists holding the same entries are equal. -/
theorem eq_of_perm_of_sorted {l l' : List (Nat × V)} (hp : l.Perm l')
    (hl : l.Sorted (·.1 < ·.1)) (hl' : l'.Sorted (·.1 < ·.1)) : l = l' :=
  haveI : IsAntisymm (Nat × V) (·.1 < ·.1) :=
    ⟨fun _ _ h h' => absurd (h.trans h') (lt_irrefl _)⟩
  List.eq_of_perm_of_sorted hp hl hl'

/-- Pairs already in increasing key order are collected as they are. -/
theorem collect_of_sorted {l : List (Nat × V)} (hs : l.Sorted (·.1 < ·.1)) :
    (collect l).entries = l :=
  eq_of_perm_of_sorted (collect_perm (List.pairwise_map.mpr hs).nodup) (collect l).sorted hs

end BTreeMap

end Sbtc.Collections
