import Mathlib.Data.List.Forall2
import Mathlib.Tactic.SplitIfs
import Reputation.Document.Reader
import Reputation.Proofs.Number.Numeral
import Reputation.Proofs.Text.Bytes

/-! # Strings and counts of documents

A written string is read back, whatever its bytes are: quotes, backslashes and controls are escaped,
and each escape is read as the byte that was escaped (`readString_escape`). A written count is read
back where no digit, point or exponent follows it (`readNumber_toString`). -/

namespace Reputation

namespace Document

/-! ### Strings -/

/-- **A piece that stands for one byte.** -/
def Piece.Holds (b : UInt8) (p : Piece) : Prop :=
  p = .byte b ∨ p = .unit b.toNat ∧ b < 128

theorem join_unit {n : ℕ} (hn : n < 128) (ps : List Piece) :
    join (.unit n :: ps) = UInt8.ofNat n :: join ps := by
  have hpoint : encodePoint n = [UInt8.ofNat n] := by
    unfold encodePoint
    exact if_pos hn
  have hhigh : isHighSurrogate n = false := by
    unfold isHighSurrogate
    simp only [Bool.and_eq_false_iff, decide_eq_false_iff_not]
    omega
  cases ps with
  | nil => simp [join, hpoint]
  | cons p ps =>
    cases p with
    | byte b => simp [join, hpoint]
    | unit m => simp [join, hpoint, hhigh]

theorem join_eq {content : Bytes} {ps : List Piece}
    (h : List.Forall₂ Piece.Holds content ps) : join ps = content := by
  induction h with
  | nil => rfl
  | cons hp _ ih =>
    rcases hp with rfl | ⟨rfl, hb⟩
    · rw [join, ih]
    · rw [join_unit (by simpa [UInt8.lt_iff_toNat_lt] using hb), ih, UInt8.ofNat_toNat]

theorem pieces_escaped {b c : UInt8} (hc : unescape? b = some c) (hb : b ≠ Bytes.ascii 'u')
    (s : Bytes) : pieces .plain (Bytes.ascii '\\' :: b :: s) = before (.byte c) (pieces .plain s) := by
  have hslash : Bytes.ascii '\\' ≠ Bytes.ascii '"' := by decide
  simp only [pieces, hslash, hb, hc, if_true, if_false]

theorem hexByte_eq (b : UInt8) :
    hexByte b = [Bytes.ascii (Nat.digitChar (b.toNat / 16)),
      Bytes.ascii (Nat.digitChar (b.toNat % 16))] := by
  have hascii : ∀ n < 16, (Nat.digitChar n).toNat < 128 := by decide
  have hb : b.toNat / 16 < 16 := by
    have := b.toNat_lt
    omega
  unfold hexByte
  rw [Bytes.ofString_ofList]
  · rfl
  · intro c hc
    simp only [List.mem_cons, List.not_mem_nil, or_false] at hc
    rcases hc with rfl | rfl
    · exact hascii _ hb
    · exact hascii _ (Nat.mod_lt _ (by decide))

theorem hexValue?_digitChar {n : ℕ} (hn : n < 16) :
    hexValue? (Bytes.ascii (Nat.digitChar n)) = some n := by
  have h : ∀ n < 16, hexValue? (Bytes.ascii (Nat.digitChar n)) = some n := by decide +kernel
  exact h n hn

theorem pieces_hexByte {b : UInt8} (s : Bytes) :
    pieces .plain (Bytes.ofString "\\u00" ++ hexByte b ++ s) =
      before (.unit b.toNat) (pieces .plain s) := by
  have hzeros : Bytes.ofString "\\u00" =
      [Bytes.ascii '\\', Bytes.ascii 'u', Bytes.ascii '0', Bytes.ascii '0'] := by decide +kernel
  have hslash : Bytes.ascii '\\' ≠ Bytes.ascii '"' := by decide
  have hhigh := hexValue?_digitChar (n := b.toNat / 16) (by have := b.toNat_lt; omega)
  have hlow := hexValue?_digitChar (n := b.toNat % 16) (Nat.mod_lt _ (by decide))
  have hzero : hexValue? (Bytes.ascii '0') = some 0 := by decide
  have hvalue : 16 * (b.toNat / 16) + b.toNat % 16 = b.toNat := Nat.div_add_mod _ _
  rw [hzeros, hexByte_eq]
  simp [pieces, hslash, hhigh, hlow, hzero, hvalue]

theorem named_spec (letter : Char) {b : UInt8} {word : String}
    (hword : Bytes.ofString word = [Bytes.ascii '\\', Bytes.ascii letter])
    (hletter : unescape? (Bytes.ascii letter) = some b) (hu : Bytes.ascii letter ≠ Bytes.ascii 'u') :
    ∃ p, Piece.Holds b p ∧
      ∀ s, pieces .plain (Bytes.ofString word ++ s) = before p (pieces .plain s) := by
  rw [hword]
  exact ⟨.byte b, Or.inl rfl, pieces_escaped hletter hu⟩

theorem escape_spec (b : UInt8) :
    ∃ p, Piece.Holds b p ∧ ∀ s, pieces .plain (escape b ++ s) = before p (pieces .plain s) := by
  unfold escape
  -- a letter after the backslash for seven bytes, four digits for the other controls
  split_ifs with h1 h2 h3 h4 h5 h6 h7 h8
  · exact named_spec '"' (by decide +kernel) (by rw [h1]; decide) (by decide)
  · exact named_spec '\\' (by decide +kernel) (by rw [h2]; decide) (by decide)
  · exact named_spec 'b' (by decide +kernel) (by rw [h3]; decide) (by decide)
  · exact named_spec 't' (by decide +kernel) (by rw [h4]; decide) (by decide)
  · exact named_spec 'n' (by decide +kernel) (by rw [h5]; decide) (by decide)
  · exact named_spec 'f' (by decide +kernel) (by rw [h6]; decide) (by decide)
  · exact named_spec 'r' (by decide +kernel) (by rw [h7]; decide) (by decide)
  · have hb : b < 128 := UInt8.lt_trans h8 (by decide)
    exact ⟨.unit b.toNat, Or.inr ⟨rfl, hb⟩, pieces_hexByte⟩
  · refine ⟨.byte b, Or.inl rfl, fun s => ?_⟩
    simp [pieces, h1, h2, h8]

theorem pieces_content (content s : Bytes) :
    ∃ ps, List.Forall₂ Piece.Holds content ps ∧
      pieces .plain (content.flatMap escape ++ Bytes.ascii '"' :: s) = some (ps, s) := by
  induction content with
  | nil => exact ⟨[], .nil, by simp [pieces]⟩
  | cons b content ih =>
    obtain ⟨ps, hps, hread⟩ := ih
    obtain ⟨p, hp, hfirst⟩ := escape_spec b
    refine ⟨p :: ps, .cons hp hps, ?_⟩
    rw [List.flatMap_cons, List.append_assoc, hfirst, hread]
    rfl

/-- **A written string is read back.** -/
theorem readString_escape (content s : Bytes) :
    readString (content.flatMap escape ++ Bytes.ascii '"' :: s) = some (content, s) := by
  obtain ⟨ps, hps, hread⟩ := pieces_content content s
  unfold readString
  simp only [hread, Option.map_some, join_eq hps]

/-! ### Counts -/

/-- **Bytes with which no number goes on.** -/
def Ends (s : Bytes) : Prop :=
  ∀ b ∈ s.head?, Bytes.isDigit b = false ∧ b ≠ Bytes.ascii '.' ∧ b ≠ Bytes.ascii 'e' ∧
    b ≠ Bytes.ascii 'E'

theorem isSpace_digit {c : Char} (hc : c.isDigit = true) : isSpace (Bytes.ascii c) = false := by
  have h1 : Bytes.ascii c ≠ Bytes.ascii ' ' := Bytes.ascii_ne_of_isDigit hc (by decide) (by decide)
  have h2 : Bytes.ascii c ≠ Bytes.ascii '\t' := Bytes.ascii_ne_of_isDigit hc (by decide) (by decide)
  have h3 : Bytes.ascii c ≠ Bytes.ascii '\n' := Bytes.ascii_ne_of_isDigit hc (by decide) (by decide)
  have h4 : Bytes.ascii c ≠ Bytes.ascii '\r' := Bytes.ascii_ne_of_isDigit hc (by decide) (by decide)
  unfold isSpace
  simp only [Bool.or_eq_false_iff, beq_eq_false_iff_ne]
  exact ⟨⟨⟨h1, h2⟩, h3⟩, h4⟩

theorem toNat_lt_of_mem_toDigits {n : ℕ} {c : Char} (h : c ∈ Nat.toDigits 10 n) : c.toNat < 128 :=
  Bytes.toNat_lt_of_isDigit (Nat.isDigit_of_mem_toDigits (by decide) (by decide) h)

/-- The bytes of a written count are those of its digits. -/
theorem ofString_toString (n : ℕ) :
    Bytes.ofString (toString n) = (Nat.toDigits 10 n).map Bytes.ascii := by
  rw [Nat.toString_eq_repr, Nat.repr_eq_ofList_toDigits,
    Bytes.ofString_ofList fun _ => toNat_lt_of_mem_toDigits]

theorem exists_ofString_toString (n : ℕ) : ∃ c t, c.isDigit = true ∧
    Bytes.ofString (toString n) = Bytes.ascii c :: t := by
  obtain ⟨c, cs, -, hcs, hd⟩ := exists_toList_toString n
  exact ⟨c, cs.map Bytes.ascii, hd c List.mem_cons_self, by
    rw [ofString_toString, ← hcs, List.map_cons]⟩

theorem splitDigits_append {ds : List Char} {s : Bytes} (hd : ∀ c ∈ ds, c.isDigit = true)
    (hs : Ends s) : splitDigits (ds.map Bytes.ascii ++ s) = (ds.map Bytes.ascii, s) := by
  have hdigits : ∀ b ∈ ds.map Bytes.ascii, Bytes.isDigit b = true := by
    intro b hb
    obtain ⟨c, hc, rfl⟩ := List.mem_map.mp hb
    exact Bytes.isDigit_ascii (hd c hc)
  have hnext : ∀ b ∈ s.head?, Bytes.isDigit b = false := fun b hb => (hs b hb).1
  unfold splitDigits
  rw [List.takeWhile_append_of_pos hdigits, List.dropWhile_append_of_pos hdigits]
  cases s with
  | nil => simp
  | cons b s =>
    have hb : Bytes.isDigit b = false := hnext b rfl
    simp [hb]

theorem readFraction_of_ends {s : Bytes} (h : Ends s) : readFraction s = some ([], s) := by
  cases s with
  | nil => rfl
  | cons b s => simp [readFraction, (h b rfl).2.1]

theorem readExponent_of_ends {s : Bytes} (h : Ends s) : readExponent s = some ([], s) := by
  cases s with
  | nil => rfl
  | cons b s => simp [readExponent, (h b rfl).2.2.1, (h b rfl).2.2.2]

theorem readWhole_toDigits (n : ℕ) {s : Bytes} (h : Ends s) :
    readWhole ((Nat.toDigits 10 n).map Bytes.ascii ++ s) =
      some ((Nat.toDigits 10 n).map Bytes.ascii, s) := by
  obtain ⟨c, cs, -, hcs, hd⟩ := exists_toList_toString n
  have hsplit := splitDigits_append hd h
  unfold readWhole
  rw [← hcs, hsplit]
  cases cs with
  | nil => rfl
  | cons c' cs =>
    have hn : n ≠ 0 := by
      rintro rfl
      cases hcs
    have hhead : c ≠ '0' := by
      have := head?_toDigits_ne hn
      rw [← hcs] at this
      simpa using this
    have hc : c.toNat < 128 := Bytes.toNat_lt_of_isDigit (hd c List.mem_cons_self)
    have hbyte : Bytes.ascii c ≠ Bytes.ascii '0' := by rwa [Ne, Bytes.ascii_inj hc (by decide)]
    simp [hbyte]

/-- **A written count is read back as it is written.** -/
theorem readNumber_toString (n : ℕ) {s : Bytes} (h : Ends s) :
    readNumber (Bytes.ofString (toString n) ++ s) = some (toString n, s) := by
  obtain ⟨c, cs, -, hcs, hd⟩ := exists_toList_toString n
  have htext : Bytes.asciiText ((Nat.toDigits 10 n).map Bytes.ascii) = toString n := by
    rw [Bytes.asciiText_map fun _ => toNat_lt_of_mem_toDigits, ← Nat.repr_eq_ofList_toDigits,
      ← Nat.toString_eq_repr]
  have hsign : Bytes.ascii c ≠ Bytes.ascii '-' :=
    Bytes.ascii_ne_of_isDigit (hd c List.mem_cons_self) (by decide) (by decide)
  have hwhole := readWhole_toDigits n h
  rw [ofString_toString, ← htext]
  rw [← hcs, List.map_cons, List.cons_append] at hwhole ⊢
  simp [readNumber, hsign, hwhole, readFraction_of_ends h, readExponent_of_ends h]

end Document

end Reputation
