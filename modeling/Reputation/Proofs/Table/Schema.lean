import Reputation.Proofs.Failure
import Reputation.Proofs.Latest
import Reputation.Proofs.Number.Numeral
import Reputation.Proofs.Table.Basic
import Reputation.Table.Schema

/-! # Records read back

A schema is `Lawful` if its columns are distinct, at least two, and if it reads back the fields that
it gives to a record. Then a file holds exactly the records that were saved to it
(`Schema.load_save`). The tables of experiences and of statuses are lawful. -/

namespace Reputation

namespace Schema

variable {α : Type}

/-- **A schema that reads back what it writes.** -/
structure Lawful (t : Schema α) : Prop where
  nodup : t.columns.Nodup
  two_le : 2 ≤ t.columns.length
  unmarked : (Table.writeRow (t.columns.map Bytes.ofString)).head? ≠ some 0xEF
  length_fields : ∀ r, (t.fields r).length = t.columns.length
  read?_fields : ∀ r, t.read? (t.fields r) = some r

/-! ### Columns -/

theorem underColumn_eq {header row : List String} (hn : header.Nodup)
    (hl : header.length ≤ row.length) {cell : String × String} (h : cell ∈ List.zip header row) :
    underColumn header row cell.1 = [cell.2] := by
  have hkeys : ((List.zip header row).map Prod.fst).Nodup := by rwa [List.map_fst_zip hl]
  have hcell : (List.zip header row).filter (fun c => c.1 == cell.1) = [cell] :=
    filter_key_eq hkeys h
  unfold underColumn
  rw [hcell, List.map_cons, List.map_nil]

theorem select?_eq {t : Schema α} (hn : t.columns.Nodup) {row : List String}
    (hl : row.length = t.columns.length) : t.select? (some t.columns) row = some row := by
  have hcolumns : (List.zip t.columns row).map Prod.fst = t.columns := List.map_fst_zip hl.ge
  have hrow : (List.zip t.columns row).map Prod.snd = row := List.map_snd_zip hl.le
  have hcell : ∀ x ∈ List.zip t.columns row, underColumn t.columns row x.1 = [x.2] :=
    fun _ hx => underColumn_eq hn hl.ge hx
  unfold select?
  dsimp only
  conv_lhs => arg 2; rw [← hcolumns]
  conv_rhs => rw [← hrow]
  refine mapM_map_eq_some fun x hx => ?_
  rw [hcell x hx]

theorem texts?_map_ofString (row : List String) : texts? (row.map Bytes.ofString) = some row := by
  have htext := mapM_map_eq_some (k := id) fun s (_ : s ∈ row) => Bytes.toString?_ofString s
  unfold texts?
  rw [htext, List.map_id]

/-! ### Files -/

section Lawful
variable {t : Schema α} (h : t.Lawful)
include h

theorem readRow?_eq (r : α) :
    t.readRow? (t.columns.map Bytes.ofString) ((t.fields r).map Bytes.ofString) = some r := by
  have hl : (t.fields r).length = t.columns.length := h.length_fields r
  unfold readRow?
  rw [if_neg (by simp [hl]), texts?_map_ofString, texts?_map_ofString]
  change (t.select? (some t.columns) (t.fields r) >>= fun fields => t.read? fields) = some r
  rw [select?_eq h.nodup hl]
  exact h.read?_fields r

theorem visible_of_length {row : List String} (hl : row.length = t.columns.length) :
    Table.Visible (row.map Bytes.ofString) := by
  have htwo : 2 ≤ (row.map Bytes.ofString).length := by
    rw [List.length_map, hl]
    exact h.two_le
  constructor
  · intro hrow
    rw [hrow] at htwo
    exact absurd htwo (by decide)
  · intro hrow
    rw [hrow] at htwo
    exact absurd htwo (by decide)

/-- **The rows of a file**: the names of the columns, and then one row for each record. Without a
record there is no row at all. -/
theorem rows_save (rs : List α) : Table.rows (t.save rs) =
    if rs.isEmpty then [] else
      (t.columns :: rs.map t.fields).map fun row => row.map Bytes.ofString := by
  cases rs with
  | nil => rfl
  | cons r rs =>
    have hvisible : ∀ row ∈ (t.columns :: (r :: rs).map t.fields).map fun row =>
        row.map Bytes.ofString, Table.Visible row := by
      intro row hrow
      obtain ⟨fields, hfields, rfl⟩ := List.mem_map.mp hrow
      rcases List.mem_cons.mp hfields with rfl | hfields
      · exact visible_of_length h rfl
      · obtain ⟨r', -, rfl⟩ := List.mem_map.mp hfields
        exact visible_of_length h (h.length_fields r')
    have hmark : (t.save (r :: rs)).head? ≠ some 0xEF := by
      change (Table.writeRow (t.columns.map Bytes.ofString) ++ _).head? ≠ some 0xEF
      have hne : Table.writeRow (t.columns.map Bytes.ofString) ≠ [] := by simp [Table.writeRow]
      rw [List.head?_append_of_ne_nil _ hne]
      exact h.unmarked
    exact Table.rows_write hvisible hmark

/-- **A file holds the records that were saved to it.** -/
theorem load_save (rs : List α) : t.load (t.save rs) = .ok rs := by
  have hrecords : ((rs.map t.fields).map fun row => row.map Bytes.ofString).mapM
      (t.readRow? (t.columns.map Bytes.ofString)) = some rs := by
    have hread := mapM_map_eq_some (k := id) fun x (_ : x ∈ rs) => readRow?_eq h x
    rw [List.map_map]
    exact hread.trans (congrArg some (List.map_id _))
  unfold load
  rw [rows_save h]
  cases rs with
  | nil => rfl
  | cons r rs =>
    rw [if_neg (by simp), List.map_cons]
    dsimp only
    rw [hrecords]

end Lawful

/-! ### The schemas -/

theorem readCount?_toString (n : UInt64) : readCount? (toString n) = some n := by
  obtain ⟨c, cs, hs, -, hd⟩ := exists_toList_toString n.toNat
  have hle : n.toNat ≤ Number.greatestCount := Nat.le_pred_of_lt n.toNat_lt
  have hcount : Reputation.readCount Number.greatestCount (toString n) = .ok n.toNat :=
    readCount_toString hle
  have hlist : (toString n).toList = c :: cs := hs
  unfold readCount?
  rw [hlist]
  split
  · -- decimals have no mark
    next r hx =>
    cases hx
    cases hd 'x' (List.mem_cons_of_mem _ List.mem_cons_self)
  · rw [hcount]
    change (if n.toNat ≤ Number.greatestCount then some (UInt64.ofNat n.toNat) else none) = some n
    rw [if_pos hle, UInt64.ofNat_toNat]

theorem lawful_experience : experience.Lawful where
  nodup := by decide
  two_le := by decide
  unmarked := by decide +kernel
  length_fields _ := rfl
  read?_fields r := by
    change (readCount? (toString r.successes) >>= fun successes =>
      readCount? (toString r.failures) >>= fun failures =>
        readCount? (toString r.updated) >>= fun updated =>
          some (⟨r.observer, r.partner, successes, failures, updated⟩ : ExperienceRecord)) = some r
    rw [readCount?_toString, readCount?_toString, readCount?_toString]
    rfl

theorem lawful_status : status.Lawful where
  nodup := by decide
  two_le := by decide
  unmarked := by decide +kernel
  length_fields _ := rfl
  read?_fields r := by
    have hname : Status.ofName? r.status.name = some r.status := by
      cases r.status <;> decide
    change (Status.ofName? r.status.name).map _ = some r
    rw [hname]
    rfl

end Schema

end Reputation
