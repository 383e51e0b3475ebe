import Mathlib.Data.List.Nodup

/-!
# Association lists

Maps kept as lists of keys and values: what `List.lookup` finds after a cons, in a list put together
from pieces; and lists of updates, where the last value given for a key counts (`lookupLast`).
-/

namespace AssocList

variable {K V : Type} {k a : K} {v : V} {l l' : List (K × V)}

/-- The keys of an association list. -/
def keys (l : List (K × V)) : List K :=
  l.map Prod.fst

@[simp]
theorem keys_nil : keys ([] : List (K × V)) = [] := rfl

@[simp]
theorem keys_cons : keys ((a, v) :: l) = a :: keys l := rfl

@[simp]
theorem keys_append : keys (l ++ l') = keys l ++ keys l' :=
  List.map_append

/-- The keys of a list put together from pieces with keys of their own. -/
theorem nodup_keys_flatMap {β W : Type} {f : K × β → List (W × V)} {l : List (K × β)}
    (hnodup : (keys l).Nodup) (hpiece : ∀ p ∈ l, (keys (f p)).Nodup)
    (hdisjoint : ∀ p ∈ l, ∀ q ∈ l, p.1 ≠ q.1 → ∀ w ∈ keys (f p), w ∉ keys (f q)) :
    (keys (l.flatMap f)).Nodup := by
  unfold keys at *
  rw [List.map_flatMap, List.nodup_flatMap]
  refine ⟨hpiece, ?_⟩
  have hpairs : l.Pairwise fun p q => p.1 ≠ q.1 := List.pairwise_map.mp hnodup
  refine hpairs.imp_of_mem fun hp hq hne => ?_
  exact fun w hw hw' => hdisjoint _ hp _ hq hne w hw hw'

variable [DecidableEq K]

theorem lookup_cons : ((a, v) :: l).lookup k = if k = a then some v else l.lookup k := by
  rw [List.lookup_cons]
  by_cases h : k = a
  · simp [h]
  · have hne : (k == a) = false := by simpa using h
    simp [h, hne]

theorem mem_keys_iff : k ∈ keys l ↔ (l.lookup k).isSome := by
  induction l with
  | nil => simp
  | cons p l ih =>
    obtain ⟨a, v⟩ := p
    rw [lookup_cons, keys_cons, List.mem_cons, ih]
    by_cases h : k = a <;> simp [h]

theorem lookup_eq_none_iff : l.lookup k = none ↔ k ∉ keys l := by
  rw [mem_keys_iff]
  cases l.lookup k <;> simp

theorem lookup_eq_some_of_mem (hnodup : (keys l).Nodup) (h : (k, v) ∈ l) : l.lookup k = some v := by
  induction l with
  | nil => cases h
  | cons p l ih =>
    obtain ⟨a, v'⟩ := p
    obtain ⟨hmem, hnodup⟩ := List.nodup_cons.mp hnodup
    rw [lookup_cons]
    rcases List.mem_cons.mp h with heq | hrest
    · obtain ⟨rfl, rfl⟩ := Prod.mk.inj heq
      rw [if_pos rfl]
    · have hkey : k ∈ keys l := List.mem_map_of_mem hrest
      have hne : k ≠ a := by
        rintro rfl
        exact hmem hkey
      rw [if_neg hne, ih hnodup hrest]

theorem mem_of_lookup_eq_some (h : l.lookup k = some v) : (k, v) ∈ l := by
  obtain ⟨before, after, rfl, -⟩ := List.lookup_eq_some_iff.mp h
  exact List.mem_append_right _ List.mem_cons_self

theorem lookup_append :
    (l ++ l').lookup k = (l.lookup k).or (l'.lookup k) :=
  List.lookup_append

/-- The lookup in a list put together from pieces, when only the piece of `a` can have the key. -/
theorem lookup_flatMap {β W : Type} {f : K × β → List (W × V)} [DecidableEq W] {w : W} :
    ∀ {l : List (K × β)}, (keys l).Nodup → (∀ p ∈ l, p.1 ≠ a → (f p).lookup w = none) →
      (l.flatMap f).lookup w = (l.lookup a).bind fun b => (f (a, b)).lookup w
  | [], _, _ => rfl
  | (a', b) :: l, hnodup, hother => by
    obtain ⟨hmem, hnodup⟩ := List.nodup_cons.mp hnodup
    have ih := lookup_flatMap hnodup fun p hp => hother p (List.mem_cons_of_mem _ hp)
    rw [List.flatMap_cons, lookup_append, ih, lookup_cons]
    by_cases ha : a = a'
    · subst ha
      simp [lookup_eq_none_iff.mpr hmem]
    · rw [hother (a', b) List.mem_cons_self (Ne.symm ha), if_neg ha]
      rfl

/-- The lookup in a list whose values were filtered and changed. -/
theorem lookup_map_filter {W : Type} {p : V → Bool} {f : V → W} (hnodup : (keys l).Nodup) :
    ((l.filter fun q => p q.2).map fun q => (q.1, f q.2)).lookup k =
      ((l.lookup k).filter p).map f := by
  induction l with
  | nil => rfl
  | cons q l ih =>
    obtain ⟨a, v⟩ := q
    obtain ⟨hmem, hnodup⟩ := List.nodup_cons.mp hnodup
    rw [lookup_cons, List.filter_cons]
    by_cases hp : p v
    · rw [if_pos hp, List.map_cons, lookup_cons, ih hnodup]
      split_ifs <;> simp [Option.filter, hp]
    · rw [if_neg hp, ih hnodup]
      split_ifs with hk
      · have hnone : l.lookup k = none := lookup_eq_none_iff.mpr (hk ▸ hmem)
        simp [Option.filter, hnone, hp]
      · rfl

/-! ## The last value of a key -/

/-- The last value given for a key. -/
def lookupLast (l : List (K × V)) (k : K) : Option V :=
  l.reverse.lookup k

@[simp]
theorem lookupLast_nil : lookupLast ([] : List (K × V)) k = none := rfl

theorem lookupLast_cons :
    lookupLast ((a, v) :: l) k = (lookupLast l k).or (if k = a then some v else none) := by
  unfold lookupLast
  rw [List.reverse_cons, lookup_append, lookup_cons]
  rfl

theorem isSome_lookupLast : (lookupLast l k).isSome ↔ k ∈ keys l := by
  unfold lookupLast
  rw [← mem_keys_iff]
  show k ∈ l.reverse.map Prod.fst ↔ k ∈ l.map Prod.fst
  rw [List.map_reverse, List.mem_reverse]

theorem lookupLast_eq_none_iff : lookupLast l k = none ↔ k ∉ keys l := by
  rw [← isSome_lookupLast]
  cases lookupLast l k <;> simp

theorem mem_of_lookupLast_eq_some (h : lookupLast l k = some v) : (k, v) ∈ l :=
  List.mem_reverse.mp (mem_of_lookup_eq_some h)

/-- A key given once has its only value. -/
theorem lookupLast_eq_lookup (hnodup : (keys l).Nodup) : lookupLast l k = l.lookup k := by
  induction l with
  | nil => rfl
  | cons p l ih =>
    obtain ⟨a, v⟩ := p
    obtain ⟨hmem, hnodup⟩ := List.nodup_cons.mp hnodup
    rw [lookupLast_cons, lookup_cons, ih hnodup]
    split_ifs with hk
    · rw [hk, lookup_eq_none_iff.mpr hmem]
      rfl
    · simp

end AssocList
