import Mathlib.Data.List.Nodup
import Mathlib.Data.List.Pairwise
import Std.Data.ExtTreeMap

/-! # The last entries of keys

In a list of entries a key may occur again; if none does, each entry is the only one of its key
(`filter_key_eq`). `latest key` keeps the last entry of each key
(`mem_latest`, `mem_map_latest`). A map that is made of the entries in order holds these and no others
(`getElem?_ofList_eq_some`), and lists them in ascending order of their keys (`toList_ofList`). -/

namespace Reputation

variable {α β κ : Type}

/-- **The last entry of each key**, in the order in which they stand. -/
def latest [DecidableEq κ] (key : α → κ) : List α → List α
  | [] => []
  | x :: xs => if ∃ y ∈ xs, key y = key x then latest key xs else x :: latest key xs

/-- Entries in ascending order of their keys. -/
def sortByKey [Ord κ] (key : α → κ) (xs : List α) : List α :=
  xs.mergeSort fun x y => (compare (key x) (key y)).isLE

section Latest
variable [DecidableEq κ] {key : α → κ}

theorem latest_cons (x : α) (xs : List α) : latest key (x :: xs) =
    if ∃ y ∈ xs, key y = key x then latest key xs else x :: latest key xs := rfl

/-- An entry is the last of its key if no later one has it. -/
theorem mem_latest {x : α} {xs : List α} : x ∈ latest key xs ↔
    ∃ before after, xs = before ++ x :: after ∧ ∀ y ∈ after, key y ≠ key x := by
  induction xs with
  | nil => simp [latest]
  | cons z xs ih =>
    rw [latest_cons]
    constructor
    · intro hx
      by_cases hz : ∃ y ∈ xs, key y = key z
      · rw [if_pos hz] at hx
        obtain ⟨before, after, rfl, hafter⟩ := ih.mp hx
        exact ⟨z :: before, after, rfl, hafter⟩
      · rw [if_neg hz] at hx
        rcases List.mem_cons.mp hx with rfl | hx
        · exact ⟨[], xs, rfl, fun y hy hyx => hz ⟨y, hy, hyx⟩⟩
        · obtain ⟨before, after, rfl, hafter⟩ := ih.mp hx
          exact ⟨z :: before, after, rfl, hafter⟩
    · rintro ⟨before, after, h, hafter⟩
      rcases before with _ | ⟨w, before⟩
      · obtain ⟨rfl, rfl⟩ := List.cons.inj h
        rw [if_neg fun ⟨y, hy, hyz⟩ => hafter y hy hyz]
        exact List.mem_cons_self
      · obtain ⟨rfl, rfl⟩ := List.cons.inj h
        have hx : x ∈ latest key (before ++ x :: after) := ih.mpr ⟨before, after, rfl, hafter⟩
        split
        · exact hx
        · exact List.mem_cons_of_mem _ hx

theorem mem_of_mem_latest {x : α} {xs : List α} (h : x ∈ latest key xs) : x ∈ xs := by
  obtain ⟨before, after, rfl, -⟩ := mem_latest.mp h
  simp

/-- Every key that occurs has a last entry. -/
theorem mem_map_latest {xs : List α} {k : κ} : k ∈ (latest key xs).map key ↔ k ∈ xs.map key := by
  induction xs with
  | nil => rfl
  | cons x xs ih =>
    rw [latest_cons, List.map_cons, List.mem_cons]
    by_cases hx : ∃ y ∈ xs, key y = key x
    · rw [if_pos hx, ih]
      refine (or_iff_right_of_imp ?_).symm
      rintro rfl
      exact List.mem_map.mpr hx
    · rw [if_neg hx, List.map_cons, List.mem_cons, ih]

theorem pairwise_latest (xs : List α) : (latest key xs).Pairwise fun x y => key x ≠ key y := by
  induction xs with
  | nil => simp [latest]
  | cons x xs ih =>
    rw [latest_cons]
    split
    · exact ih
    · next hx =>
      exact List.pairwise_cons.mpr ⟨fun y hy hxy => hx ⟨y, mem_of_mem_latest hy, hxy.symm⟩, ih⟩

/-- Distinct keys have one entry each. -/
theorem latest_eq_self {xs : List α} (h : xs.Pairwise fun x y => key x ≠ key y) :
    latest key xs = xs := by
  induction xs with
  | nil => rfl
  | cons x xs ih =>
    obtain ⟨hx, hxs⟩ := List.pairwise_cons.mp h
    rw [latest_cons, if_neg fun ⟨y, hy, hyx⟩ => hx y hy hyx.symm, ih hxs]

theorem latest_map (f : β → α) (xs : List β) :
    latest key (xs.map f) = (latest (fun x => key (f x)) xs).map f := by
  induction xs with
  | nil => rfl
  | cons x xs ih =>
    have hlater : (∃ z ∈ xs.map f, key z = key (f x)) ↔ ∃ y ∈ xs, key (f y) = key (f x) := by
      simp only [List.mem_map, exists_exists_and_eq_and]
    rw [List.map_cons, latest_cons, latest_cons, ih]
    simp only [hlater]
    split <;> rfl

/-- Under distinct keys each entry is the only one of its key. -/
theorem filter_key_eq {xs : List α} (hn : (xs.map key).Nodup) {x : α} (hx : x ∈ xs) :
    xs.filter (fun y => key y == key x) = [x] := by
  induction xs with
  | nil => cases hx
  | cons y xs ih =>
    rw [List.map_cons, List.nodup_cons] at hn
    obtain ⟨hy, hn⟩ := hn
    rcases List.mem_cons.mp hx with rfl | hx
    · have hrest : xs.filter (fun y => key y == key x) = [] := by
        refine List.filter_eq_nil_iff.mpr fun z hz hzx => hy ?_
        rw [← beq_iff_eq.mp hzx]
        exact List.mem_map_of_mem hz
      rw [List.filter_cons_of_pos (by simp), hrest]
    · have hne : ¬ (key y == key x) = true := by
        intro hyx
        rw [beq_iff_eq.mp hyx] at hy
        exact hy (List.mem_map_of_mem hx)
      rw [List.filter_cons_of_neg (by simpa using hne)]
      exact ih hn hx

end Latest

section Maps
variable [Ord κ] {key : α → κ} {val : α → β}

theorem pairwise_ne_of_pairwise_lt [Std.ReflOrd κ] {xs : List α}
    (h : xs.Pairwise fun x y => compare (key x) (key y) = .lt) :
    xs.Pairwise fun x y => key x ≠ key y := by
  refine h.imp fun {x y} hxy heq => ?_
  rw [heq, Std.compare_self] at hxy
  cases hxy

theorem nodup_of_pairwise_lt [Std.ReflOrd κ] {xs : List α}
    (h : xs.Pairwise fun x y => compare (key x) (key y) = .lt) : xs.Nodup :=
  (pairwise_ne_of_pairwise_lt h).imp fun hne heq => hne (congrArg key heq)

theorem sortByKey_map (f : β → α) (xs : List β) :
    sortByKey key (xs.map f) = (sortByKey (fun x => key (f x)) xs).map f := by
  unfold sortByKey
  exact (List.map_mergeSort (f := f) fun _ _ _ _ => rfl).symm

variable [Std.TransOrd κ]

/-- Lists in ascending order of their keys are equal if they have the same entries. -/
theorem eq_of_pairwise_lt (key : α → κ) {xs ys : List α}
    (hx : xs.Pairwise fun x y => compare (key x) (key y) = .lt)
    (hy : ys.Pairwise fun x y => compare (key x) (key y) = .lt) (h : ∀ x, x ∈ xs ↔ x ∈ ys) :
    xs = ys := by
  have hperm : xs.Perm ys :=
    (List.perm_ext_iff_of_nodup (nodup_of_pairwise_lt hx) (nodup_of_pairwise_lt hy)).mpr h
  refine hperm.eq_of_pairwise (fun x y _ _ hxy hyx => ?_) hx hy
  have hswap : compare (key x) (key y) = (compare (key y) (key x)).swap :=
    Std.OrientedCmp.eq_swap
  rw [hswap, hyx] at hxy
  cases hxy

variable [Std.LawfulEqOrd κ]

theorem getElem?_foldl_insert [DecidableEq κ] (xs : List α) (t : Std.ExtTreeMap κ β) (k : κ)
    (v : β) : (xs.foldl (fun t x => t.insert (key x) (val x)) t)[k]? = some v ↔
      (∃ x ∈ latest key xs, key x = k ∧ val x = v) ∨
        t[k]? = some v ∧ ∀ x ∈ xs, key x ≠ k := by
  induction xs generalizing t with
  | nil => simp [latest]
  | cons x xs ih =>
    have hinsert : (t.insert (key x) (val x))[k]? = if key x = k then some (val x) else t[k]? := by
      simp only [Std.ExtTreeMap.getElem?_insert, Std.LawfulEqCmp.compare_eq_iff_eq]
    rw [List.foldl_cons, ih, hinsert, latest_cons]
    by_cases hk : key x = k
    · subst hk
      by_cases hx : ∃ y ∈ xs, key y = key x
      · obtain ⟨y, hy, hyx⟩ := hx
        have hno : ¬ ∀ y ∈ xs, key y ≠ key x := fun h => h y hy hyx
        rw [if_pos rfl, if_pos ⟨y, hy, hyx⟩]
        simp [hno]
      · have hall : ∀ y ∈ xs, key y ≠ key x := fun y hy hyx => hx ⟨y, hy, hyx⟩
        have hlatest : ¬ ∃ y ∈ latest key xs, key y = key x ∧ val y = v := by
          rintro ⟨y, hy, hyx, -⟩
          exact hall y (mem_of_mem_latest hy) hyx
        rw [if_pos rfl, if_neg hx]
        simpa [hlatest] using fun _ => hall
    · rw [if_neg hk]
      split <;> simp [hk]

/-- **A map keeps the last entry of each key.** -/
theorem getElem?_ofList_eq_some [DecidableEq κ] {xs : List α} {k : κ} {v : β} :
    (Std.ExtTreeMap.ofList (xs.map fun x => (key x, val x)))[k]? = some v ↔
      ∃ x ∈ latest key xs, key x = k ∧ val x = v := by
  rw [Std.ExtTreeMap.ofList_eq_insertMany_empty, Std.ExtTreeMap.insertMany_list_eq_foldl,
    List.foldl_map, getElem?_foldl_insert]
  simp

theorem pairwise_sortByKey {xs : List α} (h : xs.Pairwise fun x y => key x ≠ key y) :
    (sortByKey key xs).Pairwise fun x y => compare (key x) (key y) = .lt := by
  have hle : (sortByKey key xs).Pairwise fun x y => (compare (key x) (key y)).isLE = true := by
    refine List.pairwise_mergeSort (fun a b c => ?_) (fun a b => ?_) xs
    · exact Std.TransCmp.isLE_trans
    · have hswap : compare (key b) (key a) = (compare (key a) (key b)).swap :=
        Std.OrientedCmp.eq_swap
      rw [hswap]
      cases compare (key a) (key b) <;> rfl
  have hne : (sortByKey key xs).Pairwise fun x y => key x ≠ key y :=
    (List.mergeSort_perm xs _).symm.pairwise h fun hxy => hxy.symm
  refine (hle.and hne).imp fun {x y} hxy => ?_
  obtain ⟨hle, hne⟩ := hxy
  cases hc : compare (key x) (key y) with
  | lt => rfl
  | eq => exact absurd (Std.LawfulEqOrd.eq_of_compare hc) hne
  | gt => rw [hc] at hle; cases hle

theorem sortByKey_eq {xs ys : List α} (hx : xs.Pairwise fun x y => key x ≠ key y)
    (hy : ys.Pairwise fun x y => compare (key x) (key y) = .lt) (h : xs.Perm ys) :
    sortByKey key xs = ys := by
  refine eq_of_pairwise_lt key (pairwise_sortByKey hx) hy fun x => ?_
  exact List.mem_mergeSort.trans h.mem_iff

/-- **A map lists the last entries in order.** -/
theorem toList_ofList [DecidableEq κ] (xs : List α) :
    (Std.ExtTreeMap.ofList (xs.map fun x => (key x, val x))).toList =
      (sortByKey key (latest key xs)).map fun x => (key x, val x) := by
  refine eq_of_pairwise_lt Prod.fst Std.ExtTreeMap.ordered_keys_toList ?_ fun x => ?_
  · exact List.pairwise_map.mpr (pairwise_sortByKey (pairwise_latest xs))
  · obtain ⟨k, v⟩ := x
    rw [Std.ExtTreeMap.mem_toList_iff_getElem?_eq_some, getElem?_ofList_eq_some]
    unfold sortByKey
    simp only [List.mem_map, List.mem_mergeSort, Prod.mk.injEq]

/-- **A map is made again of what it lists.** -/
theorem ofList_toList (t : Std.ExtTreeMap κ β) : Std.ExtTreeMap.ofList t.toList = t := by
  classical
  have hkeys : t.toList.Pairwise fun x y => x.1 ≠ y.1 :=
    Std.ExtTreeMap.distinct_keys_toList.imp fun {x y} h heq => h (by rw [heq, Std.compare_self])
  have hid : t.toList = t.toList.map fun x => (x.1, x.2) := (List.map_id _).symm
  refine Std.ExtTreeMap.ext_getElem? fun k => Option.ext fun v => ?_
  rw [hid, getElem?_ofList_eq_some, latest_eq_self hkeys,
    ← Std.ExtTreeMap.mem_toList_iff_getElem?_eq_some]
  constructor
  · rintro ⟨x, hx, rfl, rfl⟩
    exact hx
  · exact fun h => ⟨(k, v), h, rfl, rfl⟩

end Maps

end Reputation
