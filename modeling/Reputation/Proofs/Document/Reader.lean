import Reputation.Proofs.Document.Scalars

/-! # Documents are read as they are printed

A document is read back from its bytes, whether it is printed in one line or indented
(`read?_write`). Its strings may be any, its numbers are counts (`Plain`). Each part of it is read
wherever it stands (`Reads`), that is before bytes with which no number goes on: inside an array or
an object a comma, a line break or a bracket comes next. The readers of items and members go along
the row between the brackets (`row`). -/

namespace Reputation

namespace Document

/-! ### Blanks -/

theorem skip_cons {b : UInt8} (h : isSpace b = false) (s : Bytes) : skip (b :: s) = b :: s := by
  unfold skip
  rw [List.dropWhile_cons_of_neg (by simp [h])]

theorem skip_append {blanks : Bytes} (h : ∀ b ∈ blanks, isSpace b = true) (s : Bytes) :
    skip (blanks ++ s) = skip s :=
  List.dropWhile_append_of_pos h

theorem isSpace_of_mem_lineBreak {level : Option ℕ} {b : UInt8} (h : b ∈ lineBreak level) :
    isSpace b = true := by
  cases level with
  | none => cases h
  | some n =>
    rcases List.mem_cons.mp h with rfl | h
    · rfl
    · rw [List.eq_of_mem_replicate h]
      rfl

theorem ends_cons {b : UInt8} (h : ¬ Bytes.isDigit b = true ∧ b ≠ Bytes.ascii '.' ∧
    b ≠ Bytes.ascii 'e' ∧ b ≠ Bytes.ascii 'E') (s : Bytes) : Ends (b :: s) := by
  rintro b' hb
  cases hb
  exact ⟨Bool.eq_false_of_not_eq_true h.1, h.2⟩

theorem ends_lineBreak_append (level : Option ℕ) {s : Bytes} (h : Ends s) :
    Ends (lineBreak level ++ s) := by
  cases level with
  | none => exact h
  | some n => exact ends_cons (by decide) _

/-! ### Rows of items -/

/-- Items with commas between them and a line break before each, up to the bytes `close`. -/
def row (line close : Bytes) : List Bytes → Bytes
  | [] => close
  | [x] => line ++ (x ++ close)
  | x :: y :: xs => line ++ (x ++ Bytes.ascii ',' :: row line close (y :: xs))

theorem row_eq (line close x : Bytes) (xs : List Bytes) :
    (((x :: xs).map (line ++ ·)).intersperse [Bytes.ascii ',']).flatten ++ close =
      row line close (x :: xs) := by
  induction xs generalizing x with
  | nil => simp [row]
  | cons y ys ih =>
    have h := ih y
    rw [List.map_cons] at h
    rw [row, ← h]
    simp

theorem enclose_append (level : Option ℕ) (left right : Char) (x : Bytes) (xs : List Bytes)
    (s : Bytes) : enclose level left right (x :: xs) ++ s =
      Bytes.ascii left :: row (lineBreak (level.map (· + 1)))
        (lineBreak level ++ Bytes.ascii right :: s) (x :: xs) := by
  rw [← row_eq]
  simp [enclose]

theorem writeItems_eq (level : Option ℕ) (items : List Document) :
    writeItems level items = items.map (write level) := by
  induction items with
  | nil => rfl
  | cons d ds ih => rw [writeItems, ih, List.map_cons]

/-- A key and its value. -/
def writeMember (level : Option ℕ) (m : Bytes × Document) : Bytes :=
  writeString m.1 ++ colon level ++ write level m.2

theorem writeMembers_eq (level : Option ℕ) (members : List (Bytes × Document)) :
    writeMembers level members = members.map (writeMember level) := by
  induction members with
  | nil => rfl
  | cons m ms ih => rw [writeMembers, ih, List.map_cons, writeMember]

/-! ### Documents -/

/-- **A document whose numbers are counts.** -/
inductive Plain : Document → Prop where
  | null : Plain null
  | bool (b : Bool) : Plain (bool b)
  | count (n : ℕ) : Plain (ofNat n)
  | string (content : Bytes) : Plain (string content)
  | array {items : List Document} (h : ∀ d ∈ items, Plain d) : Plain (array items)
  | object {members : List (Bytes × Document)} (h : ∀ m ∈ members, Plain m.2) :
      Plain (object members)

/-- **A document that is read where it was written**, however it was printed. -/
structure Reads (d : Document) : Prop where
  /-- It starts neither with a blank nor as a row of items ends. -/
  head (level : Option ℕ) :
    ∃ b t, write level d = b :: t ∧ isSpace b = false ∧ b ≠ Bytes.ascii ']'
  /-- Two units of fuel for each byte that is left are enough. -/
  read (level : Option ℕ) (fuel : ℕ) {s : Bytes} (hs : Ends s)
    (hfuel : 2 * (write level d ++ s).length ≤ fuel) :
    readValue fuel (write level d ++ s) = some (d, s)

theorem exists_fuel {x s t : Bytes} {b : UInt8} {fuel : ℕ} (hx : x = b :: t)
    (hfuel : 2 * (x ++ s).length ≤ fuel) : ∃ n, fuel = n + 1 := by
  rw [hx, List.cons_append, List.length_cons] at hfuel
  exact ⟨fuel - 1, by omega⟩

theorem readValue_append {blanks : Bytes} (h : ∀ b ∈ blanks, isSpace b = true) (fuel : ℕ)
    (s : Bytes) : readValue fuel (blanks ++ s) = readValue fuel s := by
  cases fuel with
  | zero => rfl
  | succ fuel => rw [readValue, readValue, skip_append h]

/-! ### Items and members -/

theorem readItems_row {items : List Document} (h : ∀ d ∈ items, Reads d) (hne : items ≠ [])
    (level inner : Option ℕ) (s : Bytes) (fuel : ℕ)
    (hfuel : 2 * (row (lineBreak inner) (lineBreak level ++ Bytes.ascii ']' :: s)
      (items.map (write inner))).length < fuel) :
    readItems fuel (row (lineBreak inner) (lineBreak level ++ Bytes.ascii ']' :: s)
      (items.map (write inner))) = some (items, s) := by
  have hblank : ∀ l : Option ℕ, ∀ b ∈ lineBreak l, isSpace b = true := fun l b =>
    isSpace_of_mem_lineBreak
  -- along the row: an item uses up a unit of fuel, and at least a byte goes with it
  induction items generalizing fuel with
  | nil => exact absurd rfl hne
  | cons d ds ih =>
    have hd : Reads d := h d List.mem_cons_self
    obtain ⟨fuel, rfl⟩ : ∃ n, fuel = n + 1 := ⟨fuel - 1, by omega⟩
    unfold readItems
    cases ds with
    | nil =>
      have hends : Ends (lineBreak level ++ Bytes.ascii ']' :: s) :=
        ends_lineBreak_append level (ends_cons (by decide) s)
      have hvalue := hd.read inner fuel hends (by simp [row] at hfuel ⊢; omega)
      simp only [List.map_cons, List.map_nil, row]
      rw [readValue_append (hblank inner), hvalue]
      simp only [skip_append (hblank level)]
      rw [skip_cons (by decide)]
      rfl
    | cons d' ds =>
      have hrest := ih (fun d hd => h d (List.mem_cons_of_mem _ hd)) (by simp) fuel
        (by simp [row] at hfuel ⊢; omega)
      have hvalue := hd.read inner fuel (ends_cons (b := Bytes.ascii ',') (by decide)
        (row (lineBreak inner) (lineBreak level ++ Bytes.ascii ']' :: s)
          ((d' :: ds).map (write inner)))) (by simp [row] at hfuel ⊢; omega)
      simp only [List.map_cons, row] at hvalue hrest ⊢
      rw [readValue_append (hblank inner), hvalue]
      simp only
      rw [skip_cons (by decide)]
      simp [hrest]

theorem writeString_append (content s : Bytes) : writeString content ++ s =
    Bytes.ascii '"' :: (content.flatMap escape ++ Bytes.ascii '"' :: s) := by
  simp [writeString]

/-- The blanks between a colon and a value. -/
def gap : Option ℕ → Bytes
  | none => []
  | some _ => [Bytes.ascii ' ']

theorem writeMember_append (level : Option ℕ) (m : Bytes × Document) (s : Bytes) :
    writeMember level m ++ s =
      writeString m.1 ++ Bytes.ascii ':' :: (gap level ++ (write level m.2 ++ s)) := by
  cases level with
  | none => simp [writeMember, colon, gap]
  | some n => simp [writeMember, colon, gap]

theorem isSpace_of_mem_gap {level : Option ℕ} {b : UInt8} (h : b ∈ gap level) :
    isSpace b = true := by
  cases level with
  | none => cases h
  | some n =>
    rw [List.mem_singleton.mp h]
    rfl

theorem readKey_append {blanks : Bytes} (h : ∀ b ∈ blanks, isSpace b = true) (key s : Bytes) :
    readKey (blanks ++ (writeString key ++ Bytes.ascii ':' :: s)) = some (key, s) := by
  unfold readKey
  rw [skip_append h, writeString_append, skip_cons (by decide)]
  simp only [if_true, readString_escape]
  rw [skip_cons (by decide)]
  rfl

theorem readMembers_row {members : List (Bytes × Document)} (h : ∀ m ∈ members, Reads m.2)
    (hne : members ≠ []) (level inner : Option ℕ) (s : Bytes) (fuel : ℕ)
    (hfuel : 2 * (row (lineBreak inner) (lineBreak level ++ Bytes.ascii '}' :: s)
      (members.map (writeMember inner))).length < fuel) :
    readMembers fuel (row (lineBreak inner) (lineBreak level ++ Bytes.ascii '}' :: s)
      (members.map (writeMember inner))) = some (members, s) := by
  have hblank : ∀ l : Option ℕ, ∀ b ∈ lineBreak l, isSpace b = true := fun l b =>
    isSpace_of_mem_lineBreak
  have hgap : ∀ b ∈ gap inner, isSpace b = true := fun b => isSpace_of_mem_gap
  induction members generalizing fuel with
  | nil => exact absurd rfl hne
  | cons m ms ih =>
    have hm : Reads m.2 := h m List.mem_cons_self
    obtain ⟨fuel, rfl⟩ : ∃ n, fuel = n + 1 := ⟨fuel - 1, by omega⟩
    unfold readMembers
    cases ms with
    | nil =>
      have hends : Ends (lineBreak level ++ Bytes.ascii '}' :: s) :=
        ends_lineBreak_append level (ends_cons (by decide) s)
      simp only [List.map_cons, List.map_nil, row, writeMember_append] at hfuel ⊢
      have hvalue := hm.read inner fuel hends (by simp at hfuel ⊢; omega)
      rw [readKey_append (hblank inner)]
      simp only
      rw [readValue_append hgap, hvalue]
      simp only [skip_append (hblank level)]
      rw [skip_cons (by decide)]
      rfl
    | cons m' ms =>
      have hrest := ih (fun m hm => h m (List.mem_cons_of_mem _ hm)) (by simp) fuel
        (by simp [row] at hfuel ⊢; omega)
      simp only [List.map_cons, row, writeMember_append] at hfuel hrest ⊢
      have hvalue := hm.read inner fuel (ends_cons (b := Bytes.ascii ',') (by decide)
        (row (lineBreak inner) (lineBreak level ++ Bytes.ascii '}' :: s)
          (writeMember inner m' :: ms.map (writeMember inner)))) (by simp at hfuel ⊢; omega)
      rw [readKey_append (hblank inner)]
      simp only
      rw [readValue_append hgap, hvalue]
      simp only
      rw [skip_cons (by decide)]
      simp [hrest]

/-! ### Values -/

theorem reads_word {word : String} {b : UInt8} {t : Bytes} {d : Document}
    (hword : Bytes.ofString word = b :: t) (hb : isSpace b = false ∧ b ≠ Bytes.ascii ']')
    (hread : ∀ fuel s, readValue (fuel + 1) (b :: s) = readWord word d (b :: s))
    (hwrite : ∀ level, write level d = Bytes.ofString word) : Reads d := by
  refine ⟨fun level => ⟨b, t, by rw [hwrite, hword], hb⟩, fun level fuel s _ hfuel => ?_⟩
  rw [hwrite] at hfuel ⊢
  obtain ⟨fuel, rfl⟩ := exists_fuel hword hfuel
  rw [hword, List.cons_append, hread, ← List.cons_append, ← hword]
  unfold readWord
  rw [Bytes.expect?_ofString]
  rfl

theorem reads_null : Reads null :=
  reads_word (b := Bytes.ascii 'n') (t := ['u', 'l', 'l'].map Bytes.ascii) (by decide +kernel)
    (by decide) (fun fuel s => by rw [readValue, skip_cons (by decide)]; rfl) fun _ => rfl

theorem reads_bool (b : Bool) : Reads (bool b) := by
  cases b with
  | false =>
    exact reads_word (b := Bytes.ascii 'f') (t := ['a', 'l', 's', 'e'].map Bytes.ascii)
      (by decide +kernel) (by decide)
      (fun fuel s => by rw [readValue, skip_cons (by decide)]; rfl) fun _ => rfl
  | true =>
    exact reads_word (b := Bytes.ascii 't') (t := ['r', 'u', 'e'].map Bytes.ascii)
      (by decide +kernel) (by decide)
      (fun fuel s => by rw [readValue, skip_cons (by decide)]; rfl) fun _ => rfl

theorem reads_string (content : Bytes) : Reads (string content) := by
  refine ⟨fun level => ⟨Bytes.ascii '"', _, rfl, by decide⟩, fun level fuel s _ hfuel => ?_⟩
  obtain ⟨fuel, rfl⟩ := exists_fuel rfl hfuel
  rw [write, writeString_append, readValue, skip_cons (by decide)]
  simp only [if_true, readString_escape]
  rfl

theorem readValue_digit {c : Char} (hc : c.isDigit = true) (fuel : ℕ) (s : Bytes) :
    readValue (fuel + 1) (Bytes.ascii c :: s) =
      (readNumber (Bytes.ascii c :: s)).map fun (text, r) => (number text, r) := by
  have hne : ∀ d : Char, d.toNat < 128 → d.isDigit = false → Bytes.ascii c ≠ Bytes.ascii d :=
    fun d => Bytes.ascii_ne_of_isDigit hc
  rw [readValue, skip_cons (isSpace_digit hc)]
  simp only [hne '"' (by decide) (by decide), hne '[' (by decide) (by decide),
    hne '{' (by decide) (by decide), hne 'n' (by decide) (by decide),
    hne 't' (by decide) (by decide), hne 'f' (by decide) (by decide), if_false]

theorem reads_ofNat (n : ℕ) : Reads (ofNat n) := by
  obtain ⟨c, t, hc, hbytes⟩ := exists_ofString_toString n
  have hwrite : ∀ level, write level (ofNat n) = Bytes.ascii c :: t := fun _ => hbytes
  have hbracket : Bytes.ascii c ≠ Bytes.ascii ']' :=
    Bytes.ascii_ne_of_isDigit hc (by decide) (by decide)
  refine ⟨fun level => ⟨_, t, hwrite level, isSpace_digit hc, hbracket⟩,
    fun level fuel s hs hfuel => ?_⟩
  have hnumber := readNumber_toString n hs
  rw [hbytes, List.cons_append] at hnumber
  obtain ⟨fuel, rfl⟩ := exists_fuel (hwrite level) hfuel
  rw [hwrite, List.cons_append, readValue_digit hc, hnumber]
  rfl

theorem head_enclose (level : Option ℕ) (left right : Char) (items : List Bytes) :
    ∃ t, enclose level left right items = Bytes.ascii left :: t := by
  cases items with
  | nil => exact ⟨_, rfl⟩
  | cons x xs => exact ⟨_, rfl⟩

theorem readValue_bracket {b : UInt8} {s t : Bytes} (hs : skip s = b :: t)
    (hb : b ≠ Bytes.ascii ']') (fuel : ℕ) :
    readValue (fuel + 1) (Bytes.ascii '[' :: s) =
      (readItems fuel s).map fun (ds, r) => (array ds, r) := by
  have hquote : Bytes.ascii '[' ≠ Bytes.ascii '"' := by decide
  rw [readValue, skip_cons (by decide)]
  simp only [hquote, hs, hb, if_true, if_false]

theorem readValue_brace {b : UInt8} {s t : Bytes} (hs : skip s = b :: t)
    (hb : b ≠ Bytes.ascii '}') (fuel : ℕ) :
    readValue (fuel + 1) (Bytes.ascii '{' :: s) =
      (readMembers fuel s).map fun (ms, r) => (object ms, r) := by
  have hquote : Bytes.ascii '{' ≠ Bytes.ascii '"' := by decide
  have hbracket : Bytes.ascii '{' ≠ Bytes.ascii '[' := by decide
  rw [readValue, skip_cons (by decide)]
  simp only [hquote, hbracket, hs, hb, if_true, if_false]

theorem skip_row (level : Option ℕ) {b : UInt8} (hb : isSpace b = false) (close t : Bytes)
    (xs : List Bytes) :
    ∃ t', skip (row (lineBreak level) close ((b :: t) :: xs)) = b :: t' := by
  have hblank : ∀ b ∈ lineBreak level, isSpace b = true := fun _ => isSpace_of_mem_lineBreak
  cases xs with
  | nil => exact ⟨_, by rw [row, skip_append hblank, List.cons_append, skip_cons hb]⟩
  | cons x xs => exact ⟨_, by rw [row, skip_append hblank, List.cons_append, skip_cons hb]⟩

theorem reads_array {items : List Document} (h : ∀ d ∈ items, Reads d) :
    Reads (array items) := by
  have hhead := fun level : Option ℕ =>
    head_enclose level '[' ']' (writeItems (level.map (· + 1)) items)
  refine ⟨fun level => ?_, fun level fuel s _ hfuel => ?_⟩
  · obtain ⟨t, ht⟩ := hhead level
    exact ⟨_, t, ht, by decide⟩
  · obtain ⟨t, ht⟩ := hhead level
    obtain ⟨fuel, rfl⟩ := exists_fuel ht hfuel
    rw [write, writeItems_eq] at hfuel ⊢
    cases items with
    | nil =>
      have hs : skip (Bytes.ascii ']' :: s) = Bytes.ascii ']' :: s := skip_cons (by decide) s
      simp only [List.map_nil, enclose, List.cons_append, List.nil_append]
      rw [readValue, skip_cons (by decide)]
      simp only [hs]
      rfl
    | cons d ds =>
      rw [List.map_cons, enclose_append, ← List.map_cons] at hfuel ⊢
      have hitems := readItems_row h (by simp) level (level.map (· + 1)) s fuel
        (by simp at hfuel ⊢; omega)
      obtain ⟨b, t, hhead, hspace, hb⟩ := (h d List.mem_cons_self).head (level.map (· + 1))
      obtain ⟨t', hskip⟩ := skip_row (level.map (· + 1)) hspace
        (lineBreak level ++ Bytes.ascii ']' :: s) t (ds.map (write (level.map (· + 1))))
      rw [← hhead, ← List.map_cons] at hskip
      rw [readValue_bracket hskip hb, hitems]
      rfl

theorem reads_object {members : List (Bytes × Document)} (h : ∀ m ∈ members, Reads m.2) :
    Reads (object members) := by
  have hhead := fun level : Option ℕ =>
    head_enclose level '{' '}' (writeMembers (level.map (· + 1)) members)
  refine ⟨fun level => ?_, fun level fuel s _ hfuel => ?_⟩
  · obtain ⟨t, ht⟩ := hhead level
    exact ⟨_, t, ht, by decide⟩
  · obtain ⟨t, ht⟩ := hhead level
    obtain ⟨fuel, rfl⟩ := exists_fuel ht hfuel
    rw [write, writeMembers_eq] at hfuel ⊢
    cases members with
    | nil =>
      have hs : skip (Bytes.ascii '}' :: s) = Bytes.ascii '}' :: s := skip_cons (by decide) s
      simp only [List.map_nil, enclose, List.cons_append, List.nil_append]
      rw [readValue, skip_cons (by decide)]
      simp only [hs]
      rfl
    | cons m ms =>
      rw [List.map_cons, enclose_append, ← List.map_cons] at hfuel ⊢
      have hmembers := readMembers_row h (by simp) level (level.map (· + 1)) s fuel
        (by simp at hfuel ⊢; omega)
      obtain ⟨t, hhead⟩ : ∃ t, writeMember (level.map (· + 1)) m = Bytes.ascii '"' :: t :=
        ⟨_, rfl⟩
      obtain ⟨t', hskip⟩ := skip_row (level.map (· + 1)) (b := Bytes.ascii '"')
        (by decide) (lineBreak level ++ Bytes.ascii '}' :: s) t
        (ms.map (writeMember (level.map (· + 1))))
      rw [← hhead, ← List.map_cons] at hskip
      rw [readValue_brace hskip (by decide), hmembers]
      rfl

/-- **What is printed is read.** -/
theorem Plain.reads {d : Document} (h : Plain d) : Reads d := by
  induction h with
  | null => exact reads_null
  | bool b => exact reads_bool b
  | count n => exact reads_ofNat n
  | string content => exact reads_string content
  | array _ ih => exact reads_array ih
  | object _ ih => exact reads_object ih

theorem read?_write {d : Document} (h : Plain d) (level : Option ℕ) :
    read? (write level d) = some d := by
  have hends : Ends [] := by
    rintro b hb
    cases hb
  have hvalue := h.reads.read level (2 * (write level d).length + 2) hends (by simp)
  rw [List.append_nil] at hvalue
  unfold read?
  rw [hvalue]
  rfl

end Document

end Reputation
