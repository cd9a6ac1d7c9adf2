import Mathlib.Data.List.TakeWhile
import Reputation.Params
import Reputation.Proofs.Number.Numeral

/-! # Numerals without blanks

A text that is read as a number has no blank in it, so trimming leaves it as it is
(`Params.readNumber?_of_read`). A count that fits in its bounds is the same whole number under wider
ones (`readInteger_of_readCount`). So a parameter whose text was read as a number is used as this
number, although its blanks are trimmed first (`Params.readInteger?_of_readCount`). -/

namespace Reputation

/-! ### Blanks -/

namespace Text

theorem isBlank_eq_false {c : Char} (h : 0x20 < c.toNat ∧ c.toNat < 0x85) : isBlank c = false := by
  simp only [isBlank, blankRanges, List.any_eq_false, List.mem_cons, List.not_mem_nil, or_false,
    Bool.and_eq_true, decide_eq_true_eq, not_and]
  rintro r (rfl | rfl | rfl | rfl | rfl | rfl | rfl | rfl | rfl | rfl) <;> dsimp only <;> omega

theorem isBlank_eq_false_of_isDigit {c : Char} (h : c.isDigit = true) : isBlank c = false := by
  obtain ⟨hlow, hhigh⟩ := Char.isDigit_iff_toNat.mp h
  exact isBlank_eq_false ⟨lt_of_lt_of_le (by decide) hlow, lt_of_le_of_lt hhigh (by decide)⟩

/-- Only letters are changed into small ones. -/
theorem isBlank_eq_false_of_toLower {c : Char} (h : isBlank c.toLower = false) :
    isBlank c = false := by
  unfold Char.toLower at h
  split at h
  · next hc =>
    obtain ⟨hlow, hhigh⟩ := hc
    rw [ge_iff_le, UInt32.le_iff_toNat_le] at hlow
    rw [UInt32.le_iff_toNat_le] at hhigh
    exact isBlank_eq_false ⟨lt_of_lt_of_le (by decide) hlow, lt_of_le_of_lt hhigh (by decide)⟩
  · exact h

/-- A row of characters in which there is no blank. -/
def Unbroken (s : List Char) : Prop := ∀ c ∈ s, isBlank c = false

instance (s : List Char) : Decidable (Unbroken s) :=
  decidable_of_iff (s.all fun c => !isBlank c)
    (List.all_eq_true.trans (forall₂_congr fun _ _ => by rw [Bool.not_eq_true']))

theorem Unbroken.cons {c : Char} {s : List Char} (hc : isBlank c = false) (hs : Unbroken s) :
    Unbroken (c :: s) := List.forall_mem_cons.mpr ⟨hc, hs⟩

theorem unbroken_of_digits {s : List Char} (h : ∀ c ∈ s, c.isDigit = true) : Unbroken s :=
  fun c hc => isBlank_eq_false_of_isDigit (h c hc)

theorem Unbroken.dropWhile_eq {s : List Char} (h : Unbroken s) : s.dropWhile isBlank = s := by
  cases s with
  | nil => rfl
  | cons c s => exact List.dropWhile_cons_of_neg (by simp [h c List.mem_cons_self])

theorem trim_eq_self {s : String} (h : Unbroken s.toList) : trim s = s := by
  have hreverse : Unbroken s.toList.reverse := fun c hc => h c (List.mem_reverse.mp hc)
  unfold trim dropEnd
  rw [h.dropWhile_eq, hreverse.dropWhile_eq, List.reverse_reverse, String.ofList_toList]

end Text

open Text

/-! ### Decimals -/

theorem unbroken_of_splitSign {s : List Char} (h : Unbroken (splitSign s).2) : Unbroken s := by
  unfold splitSign at h
  split at h
  · exact .cons (by decide) h
  · exact .cons (by decide) h
  · exact h

theorem unbroken_of_splitDigits {s : List Char} (h : Unbroken (splitDigits s).2) : Unbroken s := by
  have hdigits : Unbroken (splitDigits s).1 :=
    unbroken_of_digits fun c hc => List.mem_takeWhile_imp hc
  intro c hc
  rw [← List.takeWhile_append_dropWhile (p := Char.isDigit) (l := s)] at hc
  rcases List.mem_append.mp hc with hc | hc
  · exact hdigits c hc
  · exact h c hc

namespace Numeral

theorem unbroken_of_exponent? {s : List Char} {e : ℤ} (h : exponent? s = some e) : Unbroken s := by
  cases s with
  | nil => exact nofun
  | cons d s =>
    unfold exponent? at h
    dsimp only at h
    split_ifs at h with hd hdigits
    -- the sign decides the value only
    all_goals
      rw [Bool.or_eq_true, not_or, Bool.not_eq_true', Bool.not_eq_false] at hdigits
      refine .cons ?_ (unbroken_of_splitSign (unbroken_of_digits (List.all_eq_true.mp hdigits.2)))
      rcases hd with rfl | rfl <;> decide

/-- With a point before the digits or without. -/
theorem unbroken_of_fraction {s : List Char}
    (h : Unbroken (match s with
      | '.' :: r => splitDigits r
      | r => ([], r)).2) : Unbroken s := by
  split at h
  · exact .cons (by decide) (unbroken_of_splitDigits h)
  · exact h

theorem unbroken_of_unsigned? {negative : Bool} {s : List Char} {n : Numeral}
    (h : unsigned? negative s = some n) : Unbroken s := by
  refine unbroken_of_splitDigits (unbroken_of_fraction ?_)
  unfold unsigned? at h
  dsimp only at h
  split_ifs at h
  obtain ⟨e, he, -⟩ := Option.map_eq_some_iff.mp h
  exact unbroken_of_exponent? he

/-- **A number is written without blanks.** -/
theorem unbroken_of_ofString? {s : String} {n : Numeral} (h : ofString? s = some n) :
    Unbroken s.toList := by
  apply unbroken_of_splitSign
  unfold ofString? at h
  dsimp only at h
  -- a word has no capital, so its letters are those of the text but for the case
  have hword {w : String} (hw : String.ofList ((splitSign s.toList).2.map Char.toLower) = w)
      (hbroken : Unbroken w.toList) : Unbroken (splitSign s.toList).2 := by
    rw [← hw, String.toList_ofList] at hbroken
    exact fun c hc => isBlank_eq_false_of_toLower (hbroken _ (List.mem_map_of_mem hc))
  split_ifs at h with hinf hnan
  · rcases hinf with hinf | hinf <;> exact hword hinf (by decide)
  · exact hword hnan (by decide)
  · exact unbroken_of_unsigned? h

end Numeral

/-! ### Whole numbers -/

section Count

variable {low high high' n m : ℕ} {ds : List Char} {s : String}

theorem digits_of_countFrom (h : countFrom high n ds = .ok m) : ∀ c ∈ ds, c.isDigit = true := by
  induction ds generalizing n with
  | nil => exact nofun
  | cons c ds ih =>
    unfold countFrom at h
    split_ifs at h with hc hhigh
    rw [Bool.not_eq_true', Bool.not_eq_false] at hc
    exact List.forall_mem_cons.mpr ⟨hc, ih h⟩

theorem le_of_countFrom (hn : n ≤ high) (h : countFrom high n ds = .ok m) : m ≤ high := by
  induction ds generalizing n with
  | nil =>
    cases h
    exact hn
  | cons c ds ih =>
    unfold countFrom at h
    split_ifs at h with hc hhigh
    exact ih (Nat.not_lt.mp hhigh) h

theorem countFrom_mono (hle : high ≤ high') (h : countFrom high n ds = .ok m) :
    countFrom high' n ds = .ok m := by
  induction ds generalizing n with
  | nil => exact h
  | cons c ds ih =>
    unfold countFrom at h ⊢
    split_ifs at h with hc hhigh
    rw [if_neg hc, if_neg fun hlt => hhigh (hle.trans_lt hlt)]
    exact ih h

theorem readDigits_eq_ok_iff :
    readDigits high ds = .ok m ↔ ds ≠ [] ∧ countFrom high 0 ds = .ok m := by
  unfold readDigits
  cases ds with
  | nil => exact iff_of_false (fun h => by cases h) fun h => h.1 rfl
  | cons c ds => exact ⟨fun h => ⟨List.cons_ne_nil _ _, h⟩, fun h => h.2⟩

/-- **What a count is read from**: digits, with a plus before them or not. -/
theorem countFrom_of_readCount (h : readCount high s = .ok m) :
    ∃ ds, (s.toList = ds ∨ s.toList = '+' :: ds) ∧ ds ≠ [] ∧ countFrom high 0 ds = .ok m := by
  unfold readCount at h
  split at h
  · cases h
  · next ds hs => exact ⟨ds, .inr hs, readDigits_eq_ok_iff.mp h⟩
  · exact ⟨_, .inl rfl, readDigits_eq_ok_iff.mp h⟩

theorem le_of_readCount (h : readCount high s = .ok m) : m ≤ high := by
  obtain ⟨ds, -, -, hcount⟩ := countFrom_of_readCount h
  exact le_of_countFrom (Nat.zero_le _) hcount

/-- **A count is written without blanks.** -/
theorem unbroken_of_readCount (h : readCount high s = .ok m) : Unbroken s.toList := by
  obtain ⟨ds, hs, -, hcount⟩ := countFrom_of_readCount h
  have hds : Unbroken ds := unbroken_of_digits (digits_of_countFrom hcount)
  rcases hs with hs | hs
  · exact hs ▸ hds
  · exact hs ▸ hds.cons (by decide)

/-- **A count is also an integer**, where the integers reach further. -/
theorem readInteger_of_readCount (hle : high ≤ high') (h : readCount high s = .ok m) :
    readInteger low high' s = .ok (m : ℤ) := by
  obtain ⟨ds, hs, hne, hcount⟩ := countFrom_of_readCount h
  have hread : readDigits high' ds = .ok m :=
    readDigits_eq_ok_iff.mpr ⟨hne, countFrom_mono hle hcount⟩
  have hdigits := digits_of_countFrom hcount
  unfold readInteger
  rcases hs with hs | hs
  · rw [hs]
    split
    · exact absurd rfl hne
    · cases hdigits '-' List.mem_cons_self
    · cases hdigits '+' List.mem_cons_self
    · rw [hread]
      rfl
  · rw [hs]
    change (readDigits high' ds).map Int.ofNat = _
    rw [hread]
    rfl

end Count

namespace Params

theorem readNumber?_of_read {K : Type} [Number K] {s : String} {n : Numeral}
    (h : Numeral.read s = .ok n) : (readNumber? s : Option K) = Number.ofNumeral? n := by
  unfold Numeral.read at h
  split_ifs at h
  cases hs : Numeral.ofString? s with
  | none => rw [hs] at h; cases h
  | some m =>
    rw [hs] at h
    cases h
    unfold readNumber?
    rw [trim_eq_self (Numeral.unbroken_of_ofString? hs), hs, Option.bind_some]

theorem readInteger?_of_readCount {s : String} {n : ℕ}
    (h : readCount (UInt32.size - 1) s = .ok n) : readInteger? s = some (n : ℤ) := by
  unfold readInteger?
  rw [trim_eq_self (unbroken_of_readCount h), readInteger_of_readCount (by decide) h]
  rfl

end Params

end Reputation
