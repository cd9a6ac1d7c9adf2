import Reputation.Config
import Reputation.Proofs.Latest

/-! # Parameters that are listed, and that are checked and then used

Parameters are made again of their list (`Params.ofList_toList`).

A parameter is checked by a reading that refuses a malformed text, and used by one that takes a
default instead. Where the check passes both read the same: what is used is the value of the text that
is there, or the default if there is none (`Params.used_of_checkParam`). -/

namespace Reputation

open Number

namespace Params

variable {α : Type} {p : Params} {name : String} {read? : String → Option α}

theorem values_ofList (entries : List (String × String)) :
    (ofList entries).values = Std.ExtTreeMap.ofList entries := by
  have hfold : entries.foldl (fun t e => t.insert e.1 e.2) empty.values =
      (entries.foldl (fun p e => p.set e.1 e.2) empty).values :=
    List.foldl_hom Params.values fun _ _ => rfl
  rw [Std.ExtTreeMap.ofList_eq_insertMany_empty, Std.ExtTreeMap.insertMany_list_eq_foldl]
  exact hfold.symm

/-- **Parameters are made again of their list.** -/
theorem ofList_toList (p : Params) : ofList p.toList = p := by
  have h : (ofList p.toList).values = p.values := by
    rw [values_ofList]
    exact Reputation.ofList_toList p.values
  exact congrArg Params.mk h

/-- **What a parameter gives**: the value of its text, or a default if it is not there. -/
def Gives (p : Params) (read? : String → Option α) (name : String) (default x : α) : Prop :=
  match p.get? name with
  | some text => read? text = some x
  | none => x = default

theorem Gives.read_eq {default x : α} (h : p.Gives read? name default x) {text : String}
    (ht : p.get? name = some text) : read? text = some x := by
  unfold Gives at h
  rwa [ht] at h

theorem Gives.eq_default {default x : α} (h : p.Gives read? name default x)
    (ht : p.get? name = none) : x = default := by
  unfold Gives at h
  rwa [ht] at h

theorem required_eq {text : String} (h : p.get? name = some text) (read? : String → Option α) :
    p.required read? name = match read? text with
      | some x => .ok x
      | none => .error (.malformedParameter name text) := by
  unfold required Params.text
  rw [h]
  rfl

/-- **A parameter that is used as it was checked**: its text is not malformed, and its value passed
the check or is the default. -/
structure Used (p : Params) (read? : String → Option α) (name : String)
    (check : α → Except TrustError Unit) (default : α) : Prop where
  gives : p.Gives read? name default (p.optional read? name default).1
  bad_eq : (p.optional read? name default).2 = none
  checked : (p.optional read? name default).1 = default ∨
    check (p.optional read? name default).1 = .ok ()

theorem used_of_checkParam {check : α → Except TrustError Unit}
    (h : Config.checkParam p name (p.required read?) check = .ok ()) (default : α) :
    p.Used read? name check default := by
  unfold Config.checkParam contains at h
  cases hp : p.get? name with
  | none =>
    have hx : p.optional read? name default = (default, none) := by
      unfold optional
      rw [hp]
    have hgives : p.Gives read? name default default := by
      unfold Gives
      rw [hp]
    exact ⟨by rwa [hx], by rw [hx], Or.inl (by rw [hx])⟩
  | some text =>
    rw [hp, Option.isSome_some, if_pos rfl, required_eq hp] at h
    cases hr : read? text with
    | none =>
      -- a text that cannot be read does not pass
      rw [hr] at h
      cases h
    | some x =>
      rw [hr] at h
      have hx : p.optional read? name default = (x, none) := by
        unfold optional
        rw [hp]
        simp only [hr]
      have hgives : p.Gives read? name default x := by
        unfold Gives
        rwa [hp]
      exact ⟨by rwa [hx], by rw [hx], Or.inr (by rw [hx]; exact h)⟩

end Params

end Reputation
