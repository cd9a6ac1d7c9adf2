import Reputation.Proofs.Place
import Reputation.Proofs.Table.Schema

/-! # Records in files

Records that are written to a place are loaded from it again, the same ones in the same order,
whatever their texts hold (`Schema.reload_eq`). The file is a table of one row for each record below
the names of the columns, and it is empty if there is no record (`Schema.rows_save`). -/

namespace Reputation

namespace Schema

variable {α : Type}

/-- **Writes records to a place, and loads those that the file holds then.** -/
def reload (t : Schema α) (p : Place) (rs : List α) : Except TrustError (List α) := do
  let p ← p.writeTable (t.save rs)
  t.load (← p.read)

theorem reload_of_lawful {t : Schema α} (h : t.Lawful) (p : Place) (rs : List α) :
    t.reload p rs = if p = .nowhere then .error .unwritableTable else .ok rs := by
  have hfile := p.write_bind_read .unwritableTable (t.save rs) t.load
  rw [load_save h] at hfile
  exact hfile

/-- **What is saved is loaded again.** The records of experiences and of statuses come back from the
file to which they were written, where one can be: all of them, in their order, with every character
of their texts. -/
theorem reload_eq (p : Place) :
    (∀ rs : List ExperienceRecord, experience.reload p rs =
      if p = .nowhere then .error .unwritableTable else .ok rs) ∧
    ∀ rs : List StatusRecord, status.reload p rs =
      if p = .nowhere then .error .unwritableTable else .ok rs :=
  ⟨reload_of_lawful lawful_experience p, reload_of_lawful lawful_status p⟩

/-- A field with a comma, a quote and both ends of lines is quoted, an empty one is not. -/
example : status.save [⟨"a,\"\r\n", .busy⟩, ⟨"", .active⟩] =
    Bytes.ofString "node,status\n\"a,\"\"\r\n\",busy\n,active\n" := by
  decide +kernel

end Schema

end Reputation
