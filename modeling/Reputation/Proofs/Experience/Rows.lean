import Reputation.Proofs.Experience.Growth
import Reputation.Proofs.Experience.Overflow

/-! # Rows of the store, and stores of rows

The rows of a store that arises from operations list its pairs with a call, each once and in order
(`Experiences.listsRows_rows`). They do not give the store back: pairs without a call and endpoints
are gone. But the store that is made of them answers alike where there was a call, and has the same
rows. Rows that come from elsewhere may tell of a pair twice, in any order. Then the last row of the
pair counts, also where it has no call and hides an earlier one (`Experiences.rows_toStore`). -/

namespace Reputation

/-- The pair that a row is about. -/
def ExperienceRecord.pair (r : ExperienceRecord) : Pair := ⟨r.observer, r.partner⟩

namespace Experiences

variable {K : Type} [Number K] {s : Experiences}

theorem Arises.named (h : s.Arises K) : s.Named := by
  obtain ⟨hours, start, ops, hstart, hrun⟩ := h
  exact ((tracks_of_withRetention_eq_ok hstart).run hrun).named

/-! ### Rows of a store -/

/-- **The rows list the store**: each pair with a call once, in ascending order of observer and
partner, with its counters and its time. -/
structure ListsRows (s : Experiences) (rs : List ExperienceRecord) : Prop where
  ascending : rs.Pairwise fun r r' => compare r.pair r'.pair = .lt
  mem_iff : ∀ o p : Peer, (∃ r ∈ rs, r.pair = key o p) ↔ s.Stored o p ∧ (s.peek o p).used = true
  eq_peek : ∀ r ∈ rs, r.experience = s.peek (.named r.observer) (.named r.partner)

theorem mem_rows {r : ExperienceRecord} :
    r ∈ s.rows ↔ s.entries[r.pair]? = some r.experience ∧ r.experience.used = true := by
  unfold rows
  constructor
  · intro hr
    obtain ⟨⟨k, e⟩, hx, rfl⟩ := List.mem_map.mp hr
    have hk := Std.ExtTreeMap.mem_toList_iff_getElem?_eq_some.mp hx
    rw [getElem?_kept, Option.filter_eq_some_iff] at hk
    exact hk
  · intro hr
    refine List.mem_map.mpr ⟨(r.pair, r.experience), ?_, rfl⟩
    rw [Std.ExtTreeMap.mem_toList_iff_getElem?_eq_some, getElem?_kept, Option.filter_eq_some_iff]
    exact hr

theorem pairwise_rows (s : Experiences) :
    s.rows.Pairwise fun r r' => compare r.pair r'.pair = .lt :=
  List.pairwise_map.mpr Std.ExtTreeMap.ordered_keys_toList

theorem listsRows_rows (s : Experiences) : s.ListsRows s.rows := by
  refine ⟨pairwise_rows s, fun o p => ⟨?_, fun ⟨hs, hu⟩ => ?_⟩, fun r hr => ?_⟩
  · rintro ⟨r, hr, hk⟩
    obtain ⟨hr, hu⟩ := mem_rows.mp hr
    have he : s.entries[key o p]? = some r.experience := hk ▸ hr
    have hs : s.Stored o p := Std.ExtTreeMap.mem_iff_isSome_getElem?.mpr (by rw [he]; rfl)
    have hpeek : s.peek o p = r.experience := Option.some.inj ((stored_iff.mp hs).symm.trans he)
    exact ⟨hs, hpeek ▸ hu⟩
  · exact ⟨⟨o.id, p.id, (s.peek o p).successes, (s.peek o p).failures, (s.peek o p).updated.seconds⟩,
      mem_rows.mpr ⟨stored_iff.mp hs, hu⟩, rfl⟩
  · have hr : s.entries[key (.named r.observer) (.named r.partner)]? = some r.experience :=
      (mem_rows.mp hr).1
    unfold peek
    rw [hr]
    rfl

/-! ### Stores of rows -/

section Rows
variable (rs : List ExperienceRecord)

theorem getElem?_entries_toStore {k : Pair} {e : Experience} :
    (ExperienceRecord.toStore rs).entries[k]? = some e ↔
      ∃ r ∈ latest ExperienceRecord.pair rs, r.pair = k ∧ r.experience = e := by
  rw [entries_toStore]
  exact getElem?_ofList_eq_some

/-- **The rows of a store of rows** are the last ones of each pair, in order, less those without a
call. -/
theorem rows_toStore : (ExperienceRecord.toStore rs).rows =
    (sortByKey ExperienceRecord.pair (latest ExperienceRecord.pair rs)).filter
      fun r => r.experience.used := by
  have hlist : (ExperienceRecord.toStore rs).entries.toList =
      (sortByKey ExperienceRecord.pair (latest ExperienceRecord.pair rs)).map
        fun r => (r.pair, r.experience) := by
    rw [entries_toStore]
    exact toList_ofList rs
  unfold rows kept
  rw [Std.ExtTreeMap.toList_filter, hlist, List.filter_map, List.map_map]
  exact List.map_id _

theorem fits_toStore_iff : (∀ o p, ((ExperienceRecord.toStore rs).peek o p).Fits) ↔
    ∀ r ∈ latest ExperienceRecord.pair rs, r.experience.Fits := by
  rw [fits_iff]
  constructor
  · intro h r hr
    refine h (r.pair, r.experience) (Std.ExtTreeMap.mem_toList_iff_getElem?_eq_some.mpr ?_)
    exact (getElem?_entries_toStore rs).mpr ⟨r, hr, rfl, rfl⟩
  · rintro h ⟨k, e⟩ hx
    obtain ⟨r, hr, -, rfl⟩ :=
      (getElem?_entries_toStore rs).mp (Std.ExtTreeMap.mem_toList_iff_getElem?_eq_some.mp hx)
    exact h r hr

end Rows

/-- **Rows and stores go into each other.** The rows of a store that arises from operations list its
pairs with a call. The store that is made of them answers alike for these pairs, and for all others
as an empty one; and it has the same rows. Of any rows, the last one of each pair comes back, in
order, if it has a call. -/
theorem rows_restored (K : Type) [Number K] :
    (∀ s : Experiences, s.Arises K → (∀ o p, (s.peek o p).Fits) →
      ∃ rs, ExperienceRecord.ofStore s = .ok rs ∧ s.ListsRows rs ∧
        (∀ o p, (ExperienceRecord.toStore rs).peek o p =
          if s.Stored o p ∧ (s.peek o p).used = true then s.peek o p else .none) ∧
        ExperienceRecord.ofStore (ExperienceRecord.toStore rs) = .ok rs) ∧
    ∀ rs : List ExperienceRecord, (∀ r ∈ latest ExperienceRecord.pair rs, r.experience.Fits) →
      ExperienceRecord.ofStore (ExperienceRecord.toStore rs) =
        .ok ((sortByKey ExperienceRecord.pair (latest ExperienceRecord.pair rs)).filter
          fun r => r.experience.used) := by
  refine ⟨fun s hs hf => ?_, fun rs hf => ?_⟩
  · have hn : s.Named := hs.named
    have hrows : ExperienceRecord.ofStore s = .ok s.rows := (ofStore_eq_ok_iff hn).mpr ⟨hf, rfl⟩
    have hkept : (ExperienceRecord.toStore s.rows).kept = s.kept := s.kept_toStore_rows
    refine ⟨s.rows, hrows, s.listsRows_rows, fun o p => ?_, ?_⟩
    · have hused : (s.Stored o p ∧ (s.peek o p).used = true) ↔ (s.peek o p).used = true :=
        and_iff_right_of_imp stored_of_used
      rw [peek_toStore_rows]
      simp only [hused]
    · refine (ofStore_eq_ok_iff (named_toStore s.rows)).mpr ⟨fun o p => ?_, rows_congr hkept.symm⟩
      exact (fits_congr hkept o p).mpr (hf o p)
  · exact (ofStore_eq_ok_iff (named_toStore rs)).mpr ⟨(fits_toStore_iff rs).mpr hf,
      (rows_toStore rs).symm⟩

/-- A store with a pair that was only asked for, and rows of which the last one hides the first. -/
theorem rows_restored_hidden :
    let s := (Experiences.empty.put (.named "b") (.named "a") ⟨2, 1, ⟨3⟩⟩).touch (.named "a") (.named "b")
    let rs := [⟨"b", "a", 1, 0, 3⟩, ⟨"a", "b", 2, 0, 1⟩, ⟨"b", "a", 0, 0, 9⟩, ⟨"a", "", 1, 1, 1⟩]
    (s.Arises ℚ ∧ (∀ o p, (s.peek o p).Fits) ∧
      ExperienceRecord.ofStore s = .ok [⟨"b", "a", 2, 1, 3⟩] ∧
      ExperienceRecord.ofStore (ExperienceRecord.toStore [⟨"b", "a", 2, 1, 3⟩]) =
        .ok [⟨"b", "a", 2, 1, 3⟩]) ∧
    (∀ r ∈ latest ExperienceRecord.pair rs, r.experience.Fits) ∧
      ExperienceRecord.ofStore (ExperienceRecord.toStore rs) =
        .ok [⟨"a", "", 1, 1, 1⟩, ⟨"a", "b", 2, 0, 1⟩] := by
  intro s rs
  have hnew : withRetention 24 = .ok .empty := if_pos (by decide)
  have harises : s.Arises ℚ := ⟨24, .empty,
    [.put (.named "b") (.named "a") ⟨2, 1, ⟨3⟩⟩, .experience (.named "a") (.named "b")], hnew, rfl⟩
  have hfits : ∀ o p, (s.peek o p).Fits := by
    intro o p
    rw [peek_touch]
    exact fits_put fits_empty (by decide) _ _ o p
  have hlisted : ExperienceRecord.ofStore s = .ok [⟨"b", "a", 2, 1, 3⟩] := by decide +kernel
  have hlast : ∀ r ∈ latest ExperienceRecord.pair rs, r.experience.Fits := by decide
  obtain ⟨rows, hrows, -, -, hback⟩ := (rows_restored ℚ).1 s harises hfits
  obtain rfl : [⟨"b", "a", 2, 1, 3⟩] = rows := Except.ok.inj (hlisted.symm.trans hrows)
  have hsorted : sortByKey ExperienceRecord.pair (latest ExperienceRecord.pair rs) =
      [⟨"a", "", 1, 1, 1⟩, ⟨"a", "b", 2, 0, 1⟩, ⟨"b", "a", 0, 0, 9⟩] :=
    sortByKey_eq (pairwise_latest rs) (by decide) (by decide)
  refine ⟨⟨harises, hfits, hlisted, hback⟩, hlast, ((rows_restored ℚ).2 rs hlast).trans ?_⟩
  rw [hsorted]
  rfl

end Experiences

end Reputation
