import Mathlib.Data.List.Basic
import Reputation.Table.Basic

/-! # Tables read back

A field that needs no quotes is read as it stands (`Table.scan_plain`), and within quotes every
doubled quote is a quote again (`Table.scan_quoted`). So a written field is read back up to the byte
that ends it (`Table.scan_field`), and with it a row (`Table.scan_row`) and a table
(`Table.rows_write`). A row of one empty field is written as a blank line, which is passed over; all
other rows come back. -/

namespace Reputation

namespace Table

/-- The bytes that are read as they stand, at any place of a field. -/
def IsPlain (b : UInt8) : Prop := b ≠ comma ∧ b ≠ quote ∧ isLineEnd b = false

theorem isPlain_of_needsQuotes {field : Bytes} (h : needsQuotes field = false) :
    ∀ b ∈ field, IsPlain b := by
  intro b hb
  have hany := List.any_eq_false.mp h b hb
  simpa [IsPlain, and_assoc] using hany

/-! ### One byte -/

theorem scan_cons {mode : Mode} (hm : mode ≠ .quoted) (field : Bytes) (row : Row) (b : UInt8)
    (s : Bytes) : scan mode field row (b :: s) =
      if mode = .between ∧ isLineEnd b then scan .between [] [] s
      else if b = quote ∧ (mode = .between ∨ mode = .start) then scan .quoted [] row s
      else if b = quote ∧ mode = .closed then scan .quoted (quote :: field) row s
      else if b = comma then scan .start [] (field.reverse :: row) s
      else if isLineEnd b then (field.reverse :: row).reverse :: scan .between [] [] s
      else scan .plain (b :: field) row s := by
  cases mode with
  | quoted => exact absurd rfl hm
  | _ => rfl

theorem scan_quoted_cons (field : Bytes) (row : Row) (b : UInt8) (s : Bytes) :
    scan .quoted field row (b :: s) =
      if b = quote then scan .closed field row s else scan .quoted (b :: field) row s := rfl

theorem scan_of_isPlain {mode : Mode} (hm : mode ≠ .quoted) {b : UInt8} (hb : IsPlain b)
    (field : Bytes) (row : Row) (s : Bytes) :
    scan mode field row (b :: s) = scan .plain (b :: field) row s := by
  obtain ⟨hcomma, hquote, hend⟩ := hb
  rw [scan_cons hm, if_neg (by simp [hend]), if_neg (by simp [hquote]), if_neg (by simp [hquote]),
    if_neg hcomma, if_neg (by simp [hend])]

/-- A quote at the start of a field opens it. -/
theorem scan_quote {mode : Mode} (hm : mode = .between ∨ mode = .start) (field : Bytes) (row : Row)
    (s : Bytes) : scan mode field row (quote :: s) = scan .quoted [] row s := by
  have hq : mode ≠ .quoted := by rcases hm with rfl | rfl <;> decide
  have hend : ¬ (mode = .between ∧ isLineEnd quote = true) := fun h => absurd h.2 (by decide)
  rw [scan_cons hq, if_neg hend, if_pos ⟨rfl, hm⟩]

/-! ### One field -/

theorem scan_plain {f : Bytes} (h : ∀ b ∈ f, IsPlain b) (field : Bytes) (row : Row) (s : Bytes) :
    scan .plain field row (f ++ s) = scan .plain (f.reverse ++ field) row s := by
  induction f generalizing field with
  | nil => rfl
  | cons b f ih =>
    have hb : IsPlain b := h b List.mem_cons_self
    rw [List.cons_append, scan_of_isPlain (by decide) hb,
      ih fun c hc => h c (List.mem_cons_of_mem _ hc), List.reverse_cons, List.append_assoc]
    rfl

/-- A field with its quotes doubled. -/
def doubled (f : Bytes) : Bytes := f.flatMap fun b => if b = quote then [quote, quote] else [b]

theorem scan_quoted (f field : Bytes) (row : Row) (s : Bytes) :
    scan .quoted field row (doubled f ++ quote :: s) = scan .closed (f.reverse ++ field) row s := by
  induction f generalizing field with
  | nil =>
    change scan .quoted field row (quote :: s) = _
    rw [scan_quoted_cons, if_pos rfl]
    rfl
  | cons b f ih =>
    have hrev : (b :: f).reverse ++ field = f.reverse ++ b :: field := by simp
    rw [hrev, ← ih]
    by_cases hb : b = quote
    · subst hb
      have hd : doubled (quote :: f) = quote :: quote :: doubled f := by simp [doubled]
      rw [hd, List.cons_append, List.cons_append, scan_quoted_cons, if_pos rfl,
        scan_cons (by decide), if_neg (by simp), if_neg (by simp), if_pos ⟨rfl, rfl⟩]
    · have hd : doubled (b :: f) = b :: doubled f := by simp [doubled, hb]
      rw [hd, List.cons_append, scan_quoted_cons, if_neg hb]

/-- Does the byte end a field? -/
def EndsField (b : UInt8) : Prop := b = comma ∨ b = 10

/-- What is read from the end of a field on. -/
def close (field : Bytes) (row : Row) (b : UInt8) (s : Bytes) : List Row :=
  if b = comma then scan .start [] (field :: row) s
  else (field :: row).reverse :: scan .between [] [] s

theorem scan_end {mode : Mode} {b : UInt8} (hb : EndsField b)
    (hm : mode = .start ∨ mode = .plain ∨ mode = .closed ∨ mode = .between ∧ b = comma)
    (field : Bytes) (row : Row) (s : Bytes) :
    scan mode field row (b :: s) = close field.reverse row b s := by
  have hq : b ≠ quote := by rcases hb with rfl | rfl <;> decide
  have hmode : mode ≠ .quoted := by rcases hm with rfl | rfl | rfl | ⟨rfl, -⟩ <;> decide
  have hbetween : ¬ (mode = .between ∧ isLineEnd b = true) := by
    rcases hm with rfl | rfl | rfl | ⟨-, rfl⟩
    · simp
    · simp
    · simp
    · exact fun h => absurd h.2 (by decide)
  unfold close
  rw [scan_cons hmode, if_neg hbetween, if_neg (by simp [hq]), if_neg (by simp [hq])]
  rcases hb with rfl | rfl
  · rw [if_pos rfl, if_pos rfl]
  · have hcomma : (10 : UInt8) ≠ comma := by decide
    have hend : isLineEnd 10 = true := by decide
    rw [if_neg hcomma, if_pos hend, if_neg hcomma]

/-- **A written field is read back.** Between rows it must not be a blank line. -/
theorem scan_field {mode : Mode} {f : Bytes} {b : UInt8} (hb : EndsField b)
    (hm : mode = .start ∨ mode = .between ∧ (f ≠ [] ∨ b = comma)) (row : Row) (s : Bytes) :
    scan mode [] row (writeField f ++ b :: s) = close f row b s := by
  have hstart : mode = .between ∨ mode = .start := by
    rcases hm with hm | hm
    · exact Or.inr hm
    · exact Or.inl hm.1
  have hmode : mode ≠ .quoted := by rcases hstart with rfl | rfl <;> decide
  unfold writeField
  cases hn : needsQuotes f with
  | true =>
    have hw : quote :: (doubled f ++ [quote]) ++ b :: s = quote :: (doubled f ++ quote :: b :: s) := by
      simp
    rw [if_pos rfl]
    change scan mode [] row (quote :: (doubled f ++ [quote]) ++ b :: s) = _
    rw [hw, scan_quote hstart, scan_quoted, scan_end hb (by simp)]
    simp
  | false =>
    have hplain := isPlain_of_needsQuotes hn
    rw [if_neg Bool.false_ne_true]
    cases f with
    | nil =>
      refine scan_end hb ?_ [] row s
      rcases hm with hm | ⟨hm, hf | hc⟩
      · exact Or.inl hm
      · exact absurd rfl hf
      · exact Or.inr (Or.inr (Or.inr ⟨hm, hc⟩))
    | cons c f =>
      have hc : IsPlain c := hplain c List.mem_cons_self
      have hf : ∀ d ∈ f, IsPlain d := fun d hd => hplain d (List.mem_cons_of_mem _ hd)
      rw [List.cons_append, scan_of_isPlain hmode hc, scan_plain hf, scan_end hb (by simp)]
      simp

/-! ### Rows -/

theorem writeRow_singleton (f : Bytes) : writeRow [f] = writeField f ++ [10] := by
  simp [writeRow]

theorem writeRow_cons_cons (f g : Bytes) (row : Row) :
    writeRow (f :: g :: row) = writeField f ++ comma :: writeRow (g :: row) := by
  simp [writeRow]

theorem scan_fields {mode : Mode} {f : Bytes} {fs : Row}
    (hm : mode = .start ∨ mode = .between ∧ f :: fs ≠ [[]]) (row : Row) (s : Bytes) :
    scan mode [] row (writeRow (f :: fs) ++ s) = (row.reverse ++ f :: fs) :: scan .between [] [] s := by
  induction fs generalizing mode f row with
  | nil =>
    have hf : mode = .start ∨ mode = .between ∧ (f ≠ [] ∨ (10 : UInt8) = comma) := by
      rcases hm with hm | ⟨hm, hf⟩
      · exact Or.inl hm
      · exact Or.inr ⟨hm, Or.inl fun h => hf (by rw [h])⟩
    rw [writeRow_singleton, List.append_assoc, List.singleton_append,
      scan_field (Or.inr rfl) hf]
    unfold close
    rw [if_neg (by decide), List.reverse_cons]
  | cons g fs ih =>
    have hf : mode = .start ∨ mode = .between ∧ (f ≠ [] ∨ comma = comma) := by
      rcases hm with hm | ⟨hm, -⟩
      · exact Or.inl hm
      · exact Or.inr ⟨hm, Or.inr rfl⟩
    rw [writeRow_cons_cons, List.append_assoc, List.cons_append, scan_field (Or.inl rfl) hf]
    unfold close
    rw [if_pos rfl, ih (Or.inl rfl), List.reverse_cons, List.append_assoc]
    rfl

/-- Is the row more than a blank line when it is written? -/
def Visible (row : Row) : Prop := row ≠ [] ∧ row ≠ [[]]

theorem scan_row {row : Row} (h : Visible row) (s : Bytes) :
    scan .between [] [] (writeRow row ++ s) = row :: scan .between [] [] s := by
  obtain ⟨hne, hblank⟩ := h
  cases row with
  | nil => exact absurd rfl hne
  | cons f fs => exact scan_fields (Or.inr ⟨rfl, hblank⟩) [] s

theorem scan_write {rows : List Row} (h : ∀ row ∈ rows, Visible row) :
    scan .between [] [] (write rows) = rows := by
  induction rows with
  | nil => rfl
  | cons row rows ih =>
    have hrow : Visible row := h row List.mem_cons_self
    unfold write at ih ⊢
    rw [List.flatMap_cons, scan_row hrow, ih fun r hr => h r (List.mem_cons_of_mem _ hr)]

theorem dropMark_eq_self {s : Bytes} (h : s.head? ≠ some 0xEF) : dropMark s = s := by
  unfold dropMark
  split
  · exact absurd rfl h
  · rfl

/-- **A written table is read back**, if it does not start like a byte order mark. -/
theorem rows_write {rows : List Row} (h : ∀ row ∈ rows, Visible row)
    (hmark : (write rows).head? ≠ some 0xEF) : Table.rows (write rows) = rows := by
  unfold Table.rows
  rw [dropMark_eq_self hmark, scan_write h]

end Table

end Reputation
