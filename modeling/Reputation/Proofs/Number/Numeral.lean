import Mathlib.Data.List.Basic
import Mathlib.Data.Nat.Notation
import Mathlib.Tactic.Linarith
import Reputation.Number.Numeral

/-! # Counts as they are written

The decimals of a count are digits, none of them a sign and the first no zero unless the count is
zero, and they are read back as the count (`readCount_toString`). -/

namespace Reputation

theorem le_ofDigitChars (n : ℕ) (ds : List Char) : n ≤ Nat.ofDigitChars 10 ds n := by
  have hpow : 1 ≤ 10 ^ ds.length := Nat.one_le_pow _ _ (by decide)
  rw [Nat.ofDigitChars_eq_ofDigitChars_zero]
  nlinarith

theorem countFrom_eq_ok {high n : ℕ} {ds : List Char} (hd : ∀ c ∈ ds, c.isDigit = true)
    (hle : Nat.ofDigitChars 10 ds n ≤ high) :
    countFrom high n ds = .ok (Nat.ofDigitChars 10 ds n) := by
  induction ds generalizing n with
  | nil => rfl
  | cons c ds ih =>
    have hc : c.isDigit = true := hd c List.mem_cons_self
    have hds : ∀ c ∈ ds, c.isDigit = true := fun c hc => hd c (List.mem_cons_of_mem _ hc)
    rw [Nat.ofDigitChars_cons] at hle ⊢
    have hn : ¬ high < 10 * n + digitValue c :=
      Nat.not_lt.mpr ((le_ofDigitChars _ ds).trans hle)
    unfold countFrom
    rw [if_neg (by simp [hc]), if_neg hn]
    exact ih hds hle

theorem exists_toList_toString (n : ℕ) : ∃ c cs, (toString n).toList = c :: cs ∧
    c :: cs = Nat.toDigits 10 n ∧ ∀ d ∈ c :: cs, d.isDigit = true := by
  have hdigits : (toString n).toList = Nat.toDigits 10 n := by
    rw [Nat.toString_eq_repr, Nat.toList_repr]
  cases hcs : Nat.toDigits 10 n with
  | nil => exact absurd hcs Nat.toDigits_ne_nil
  | cons c cs =>
    refine ⟨c, cs, hdigits.trans hcs, rfl, fun d hd => ?_⟩
    rw [← hcs] at hd
    exact Nat.isDigit_of_mem_toDigits (by decide) (by decide) hd

theorem head?_toDigits_ne {n : ℕ} (hn : n ≠ 0) : (Nat.toDigits 10 n).head? ≠ some '0' := by
  induction n using Nat.strongRecOn with
  | ind n ih =>
    by_cases hlt : n < 10
    · have h : ∀ n < 10, n ≠ 0 → Nat.digitChar n ≠ '0' := by decide
      rw [Nat.toDigits_of_lt_base hlt]
      simpa using h n hlt hn
    · rw [Nat.toDigits_of_base_le (by decide) (by omega),
        List.head?_append_of_ne_nil _ Nat.toDigits_ne_nil]
      exact ih (n / 10) (by omega) (by omega)

/-- **A written count is read back.** -/
theorem readCount_toString {high n : ℕ} (h : n ≤ high) : readCount high (toString n) = .ok n := by
  obtain ⟨c, cs, hs, hcs, hd⟩ := exists_toList_toString n
  have hvalue : Nat.ofDigitChars 10 (c :: cs) 0 = n := by rw [hcs, Nat.ofDigitChars_ten_toDigits]
  have hcount : readDigits high (c :: cs) = .ok n := by
    unfold readDigits
    rw [if_neg (by simp), countFrom_eq_ok hd (hvalue.trans_le h), hvalue]
  unfold readCount
  rw [hs]
  split
  · next hnil => cases hnil
  · next ds hplus =>
    cases hplus
    cases hd '+' List.mem_cons_self
  · exact hcount

end Reputation
