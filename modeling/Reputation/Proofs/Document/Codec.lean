import Mathlib.Data.List.Perm.Basic
import Reputation.Document.Codec
import Reputation.Proofs.Document.Reader
import Reputation.Proofs.Failure
import Reputation.Proofs.Params

/-! # Values in documents

A codec is `Lawful` if it decodes what it encodes; then a file holds the value that was saved to it
(`Codec.Lawful.load_save`). The codecs of texts, names, counts, lists and parameters are lawful. An
object from which members were taken away, or in which they stand in another order, still has the
others as its fields (`Codec.fields?_kept`). -/

namespace Reputation

open Document

namespace Codec

variable {α : Type}

/-- **A codec that decodes what it encodes**, and prints no numbers but counts. -/
structure Lawful (c : Codec α) : Prop where
  plain (x : α) : Plain (c.encode x)
  decode?_encode (x : α) : c.decode? (c.encode x) = some x

theorem Lawful.load_save {c : Codec α} (h : c.Lawful) (x : α) : c.load (c.save x) = .ok x := by
  unfold load save
  rw [read?_write (h.plain x), Option.bind_some, h.decode?_encode]

/-! ### Values -/

theorem lawful_text : text.Lawful where
  plain s := .string (Bytes.ofString s)
  decode?_encode s := Bytes.toString?_ofString s

theorem lawful_named {name : α → String} {ofName? : String → Option α}
    (h : ∀ x, ofName? (name x) = some x) : (named name ofName?).Lawful where
  plain x := .string (Bytes.ofString (name x))
  decode?_encode x := by
    change (Bytes.toString? (Bytes.ofString (name x))).bind ofName? = some x
    rw [Bytes.toString?_ofString, Option.bind_some, h]

theorem lawful_algorithm : algorithm.Lawful :=
  lawful_named fun a => by cases a <;> decide

theorem nat?_ofNat {high n : ℕ} (h : n ≤ high) : (Document.ofNat n).nat? high = some n := by
  obtain ⟨c, cs, htext, hcs, hd⟩ := exists_toList_toString n
  have hvalue : digitsValue (toString n).toList = n := by
    rw [htext, hcs]
    exact Nat.ofDigitChars_ten_toDigits
  have hdigits : (toString n).toList.all Char.isDigit = true := by
    rw [htext]
    exact List.all_eq_true.mpr hd
  have hle : (decide (n ≤ high)) = true := decide_eq_true h
  unfold Document.ofNat nat?
  simp only [hvalue, hdigits, hle, Bool.and_self, if_true]

theorem lawful_word : word.Lawful where
  plain n := .count n.toNat
  decode?_encode n := by
    have hn : n.toNat ≤ UInt64.size - 1 := Nat.le_pred_of_lt n.toNat_lt
    change ((Document.ofNat n.toNat).nat? _).map UInt64.ofNat = some n
    rw [nat?_ofNat hn, Option.map_some, UInt64.ofNat_toNat]

theorem lawful_halfWord : halfWord.Lawful where
  plain n := .count n.toNat
  decode?_encode n := by
    have hn : n.toNat ≤ UInt32.size - 1 := Nat.le_pred_of_lt n.toNat_lt
    change ((Document.ofNat n.toNat).nat? _).map UInt32.ofNat = some n
    rw [nat?_ofNat hn, Option.map_some, UInt32.ofNat_toNat]

theorem lawful_list {c : Codec α} (h : c.Lawful) : (list c).Lawful where
  plain xs := by
    refine .array fun d hd => ?_
    obtain ⟨x, -, rfl⟩ := List.mem_map.mp hd
    exact h.plain x
  decode?_encode xs := by
    have hread := mapM_map_eq_some (k := id) fun x (_ : x ∈ xs) => h.decode?_encode x
    rw [List.map_id] at hread
    exact hread

/-! ### Objects -/

theorem plain_ofMembers {ms : List (String × Document)} (h : ∀ m ∈ ms, Plain m.2) :
    Plain (ofMembers ms) := by
  refine .object fun m hm => ?_
  obtain ⟨x, hx, rfl⟩ := List.mem_map.mp hm
  exact h x hx

theorem members?_ofMembers (ms : List (String × Document)) :
    (ofMembers ms).members? = some ms := by
  have hread : (ms.map fun m => (Bytes.ofString m.1, m.2)).mapM
      (fun m => (Bytes.toString? m.1).map fun k => (k, m.2)) = some (ms.map id) :=
    mapM_map_eq_some fun m _ => by
      rw [Bytes.toString?_ofString]
      rfl
  rw [List.map_id] at hread
  exact hread

theorem lawful_params : params.Lawful where
  plain p := by
    refine plain_ofMembers fun m hm => ?_
    obtain ⟨x, -, rfl⟩ := List.mem_map.mp hm
    exact .string (Bytes.ofString x.2)
  decode?_encode p := by
    have htexts : (p.toList.map fun x => (x.1, Document.ofString x.2)).mapM
        (fun m => (text? m.2).map fun v => (m.1, v)) = some (p.toList.map id) :=
      mapM_map_eq_some fun x _ =>
        congrArg (Option.map fun v => (x.1, v)) (lawful_text.decode?_encode x.2)
    rw [List.map_id] at htexts
    change ((ofMembers (p.toList.map fun x => (x.1, Document.ofString x.2))).members? >>=
      fun ms => (ms.mapM fun m => (text? m.2).map fun v => (m.1, v)) >>=
        fun texts => some (Params.ofList texts)) = some p
    rw [members?_ofMembers, Option.bind_eq_bind, Option.bind_some, htexts, Option.bind_eq_bind,
      Option.bind_some, Params.ofList_toList]

/-! ### Fields -/

theorem valuesOf_kept {all ms : List (String × Document)} (hn : (all.map Prod.fst).Nodup)
    {keep : String → Bool} (hms : ms.Perm (all.filter fun m => keep m.1))
    {m : String × Document} (hm : m ∈ all) :
    valuesOf m.1 ms = if keep m.1 then [m.2] else [] := by
  have hperm : (ms.filter fun x => x.1 == m.1).Perm ([m].filter fun m => keep m.1) := by
    have h := hms.filter fun x => x.1 == m.1
    rwa [List.filter_comm, filter_key_eq hn hm] at h
  unfold valuesOf
  by_cases hk : keep m.1 = true
  · simp only [List.filter_cons, hk, if_true, List.filter_nil] at hperm
    rw [hperm.eq_singleton, if_pos hk]
    rfl
  · simp only [List.filter_cons, hk, List.filter_nil, Bool.false_eq_true, if_false] at hperm
    rw [hperm.eq_nil, if_neg hk]
    rfl

/-- **The fields of an object**: the members that were kept, and nothing for the others. -/
theorem fields?_kept {all ms : List (String × Document)} (hn : (all.map Prod.fst).Nodup)
    {keep : String → Bool} (hms : ms.Perm (all.filter fun m => keep m.1)) (mayEnd : Bool) :
    fields? (all.map Prod.fst) mayEnd (ofMembers ms) =
      some (all.map fun m => if keep m.1 then some m.2 else none) := by
  have hmembers := members?_ofMembers ms
  unfold ofMembers at hmembers ⊢
  unfold fields?
  dsimp only
  rw [hmembers, Option.bind_eq_bind, Option.bind_some]
  refine mapM_map_eq_some fun m hm => ?_
  rw [valuesOf_kept hn hms hm]
  by_cases hk : keep m.1 = true
  · rw [if_pos hk, if_pos hk]
  · rw [if_neg hk, if_neg hk]

theorem orDefault?_kept {read : Document → Option α} {d : Document} {x : α}
    (h : read d = some x) (base : α) (keep : Bool) :
    orDefault? read base (if keep then some d else none) = some (if keep then x else base) := by
  cases keep with
  | false => rfl
  | true => exact h

end Codec

end Reputation
