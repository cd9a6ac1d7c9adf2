import Reputation.Text.Bytes

/-! # Bytes of ASCII texts

An ASCII text has one byte for each character (`ofString_ofList`), and the text is read off these
bytes (`asciiText_map`). -/

namespace Reputation

namespace Bytes

theorem utf8EncodeChar_eq {c : Char} (hc : c.toNat < 128) :
    String.utf8EncodeChar c = [ascii c] := by
  have h : c.val.toNat ≤ 127 := Nat.le_of_lt_succ hc
  unfold String.utf8EncodeChar
  rw [if_pos h]
  rfl

theorem ofString_ofList {cs : List Char} (h : ∀ c ∈ cs, c.toNat < 128) :
    ofString (String.ofList cs) = cs.map ascii := by
  have hbytes : cs.flatMap String.utf8EncodeChar = cs.map ascii := by
    rw [List.flatMap_def, List.map_congr_left fun c hc => utf8EncodeChar_eq (h c hc),
      ← List.flatMap_def, ← List.map_eq_flatMap]
  unfold ofString
  rw [String.toByteArray_ofList, List.utf8Encode, hbytes]
  simp

theorem toNat_ascii {c : Char} (hc : c.toNat < 128) : (ascii c).toNat = c.toNat := by
  unfold ascii
  rw [UInt8.toNat_ofNat']
  omega

theorem asciiText_map {cs : List Char} (h : ∀ c ∈ cs, c.toNat < 128) :
    asciiText (cs.map ascii) = String.ofList cs := by
  have hmap : (cs.map ascii).map (fun x => Char.ofNat x.toNat) = cs := by
    rw [List.map_map]
    refine (List.map_congr_left fun c hc => ?_).trans (List.map_id cs)
    rw [Function.comp_apply, toNat_ascii (h c hc), Char.ofNat_toNat]
    rfl
  unfold asciiText
  rw [hmap]

theorem ascii_inj {c d : Char} (hc : c.toNat < 128) (hd : d.toNat < 128) :
    ascii c = ascii d ↔ c = d := by
  refine ⟨fun h => ?_, fun h => h ▸ rfl⟩
  have := congrArg UInt8.toNat h
  rw [toNat_ascii hc, toNat_ascii hd] at this
  exact Char.toNat_inj.mp this

theorem toNat_lt_of_isDigit {c : Char} (hc : c.isDigit = true) : c.toNat < 128 :=
  Nat.lt_of_le_of_lt (Char.isDigit_iff_toNat.mp hc).2 (by decide)

theorem isDigit_ascii {c : Char} (hc : c.isDigit = true) : isDigit (ascii c) = true := by
  obtain ⟨hlow, hhigh⟩ := Char.isDigit_iff_toNat.mp hc
  unfold isDigit
  simp only [UInt8.le_iff_toNat_le, toNat_ascii (toNat_lt_of_isDigit hc), Bool.and_eq_true,
    decide_eq_true_eq]
  exact ⟨hlow, hhigh⟩

theorem ascii_ne_of_isDigit {c d : Char} (hc : c.isDigit = true) (hd : d.toNat < 128)
    (hdigit : d.isDigit = false) : ascii c ≠ ascii d := by
  rw [Ne, ascii_inj (toNat_lt_of_isDigit hc) hd]
  rintro rfl
  rw [hc] at hdigit
  cases hdigit

theorem expect?_ofString (word : String) (s : Bytes) :
    expect? word (ofString word ++ s) = some s := by
  simp [expect?]

end Bytes

end Reputation
