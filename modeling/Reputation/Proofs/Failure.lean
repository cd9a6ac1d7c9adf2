import Reputation.Failure

/-! # Loops that may fail

A loop whose steps all give an answer is the loop over the answers (`mapM_eq_ok`, `foldlM_eq_ok`,
`filterM_eq_ok`). Where the state of a loop has no part in its failures, they are those of the items
alone (`foldlM_eq_mapM`). Where one failure is the only one that the steps know, the loop ends in an
answer or in this failure (`Only.mapM`, `Only.foldlM`), and in the failure if one of the steps does
(`mapM_eq_error`, `foldlM_eq_error`). -/

namespace Reputation

variable {α β ε : Type}

theorem bind_eq_ok {x : Except ε α} {f : α → Except ε β} {b : β} (h : (x >>= f) = .ok b) :
    ∃ a, x = .ok a ∧ f a = .ok b := by
  cases x with
  | error e => cases h
  | ok a => exact ⟨a, rfl, h⟩

theorem run_bind {σ : Type} (x : ExceptT ε (StateM σ) α) (f : α → ExceptT ε (StateM σ) β) (s : σ) :
    (x >>= f).run.run s = match x.run.run s with
      | (.ok y, s') => (f y).run.run s'
      | (.error e, s') => (.error e, s') := by
  change (StateT.bind x.run (ExceptT.bindCont f)).run s = _
  unfold StateT.bind
  change (match x.run.run s with | (y, s') => (ExceptT.bindCont f y).run s') = _
  rcases x.run.run s with ⟨y | y, s'⟩ <;> rfl

theorem run_get_bind {σ : Type} (f : σ → ExceptT ε (StateM σ) β) (s : σ) :
    (get >>= f).run.run s = (f s).run.run s := rfl

theorem mapError_ok {ε' : Type} (f : ε → ε') (a : α) :
    (Except.ok a : Except ε α).mapError f = .ok a := rfl

theorem mapError_eq_ok {ε' : Type} {f : ε → ε'} {x : Except ε α} {a : α} :
    x.mapError f = .ok a ↔ x = .ok a := by
  cases x with
  | error e => exact iff_of_false (fun h => by cases h) fun h => by cases h
  | ok b => rw [mapError_ok, Except.ok.injEq, Except.ok.injEq]

theorem mapM_congr {m : Type → Type} [Monad m] [LawfulMonad m] {f g : α → m β} {xs : List α}
    (h : ∀ x ∈ xs, f x = g x) : xs.mapM f = xs.mapM g := by
  induction xs with
  | nil => rfl
  | cons x xs ih =>
    rw [List.mapM_cons, List.mapM_cons, h x List.mem_cons_self,
      ih fun y hy => h y (List.mem_cons_of_mem _ hy)]

theorem mapM_map_eq_some {γ : Type} {f : β → Option γ} {g : α → β} {k : α → γ} {xs : List α}
    (h : ∀ x ∈ xs, f (g x) = some (k x)) : (xs.map g).mapM f = some (xs.map k) := by
  rw [List.mapM_map]
  exact (mapM_congr h).trans List.mapM_pure

theorem mapM_eq_ok {f : α → Except ε β} {g : α → β} {xs : List α}
    (h : ∀ x ∈ xs, f x = .ok (g x)) : xs.mapM f = .ok (xs.map g) := by
  rw [mapM_congr h]
  exact List.mapM_pure

theorem length_of_mapM_eq_ok {f : α → Except ε β} {xs : List α} {ys : List β}
    (h : xs.mapM f = .ok ys) : ys.length = xs.length := by
  induction xs generalizing ys with
  | nil => cases h; rfl
  | cons x xs ih =>
    rw [List.mapM_cons] at h
    cases hx : f x with
    | error e => rw [hx] at h; cases h
    | ok y =>
      cases hxs : xs.mapM f with
      | error e => rw [hx, hxs] at h; cases h
      | ok zs =>
        rw [hx, hxs] at h
        cases h
        rw [List.length_cons, List.length_cons, ih hxs]

/-- **A loop answers if each step does**, and only then. -/
theorem exists_mapM_eq_ok_iff {f : α → Except ε β} {xs : List α} :
    (∃ ys, xs.mapM f = .ok ys) ↔ ∀ x ∈ xs, ∃ y, f x = .ok y := by
  induction xs with
  | nil => exact ⟨fun _ x hx => absurd hx List.not_mem_nil, fun _ => ⟨[], rfl⟩⟩
  | cons x xs ih =>
    rw [List.forall_mem_cons, ← ih, List.mapM_cons]
    constructor
    · rintro ⟨ys, h⟩
      obtain ⟨y, hy, h⟩ := bind_eq_ok h
      obtain ⟨zs, hzs, -⟩ := bind_eq_ok h
      exact ⟨⟨y, hy⟩, zs, hzs⟩
    · rintro ⟨⟨y, hy⟩, zs, hzs⟩
      exact ⟨y :: zs, by rw [hy, hzs]; rfl⟩

theorem foldlM_congr {f g : β → α → Except ε β} {xs : List α} (h : ∀ s, ∀ x ∈ xs, f s x = g s x)
    (s : β) : xs.foldlM f s = xs.foldlM g s := by
  induction xs generalizing s with
  | nil => rfl
  | cons x xs ih =>
    rw [List.foldlM_cons, List.foldlM_cons, h s x List.mem_cons_self]
    refine congrArg _ (funext fun t => ?_)
    exact ih (fun s y hy => h s y (List.mem_cons_of_mem _ hy)) t

theorem foldlM_eq_ok {f : β → α → Except ε β} {g : β → α → β} {xs : List α}
    (h : ∀ s, ∀ x ∈ xs, f s x = .ok (g s x)) (s : β) : xs.foldlM f s = .ok (xs.foldl g s) := by
  rw [foldlM_congr h]
  exact List.foldlM_pure

theorem eq_map_of_mapM_eq_ok {f : α → Except ε β} {xs : List α} {ys : List β} (d : β)
    (h : xs.mapM f = .ok ys) : ys = xs.map fun x => (f x).toOption.getD d := by
  induction xs generalizing ys with
  | nil => cases h; rfl
  | cons x xs ih =>
    rw [List.mapM_cons] at h
    cases hx : f x with
    | error e => rw [hx] at h; cases h
    | ok y =>
      cases hxs : xs.mapM f with
      | error e => rw [hx, hxs] at h; cases h
      | ok zs =>
        rw [hx, hxs] at h
        cases h
        rw [List.map_cons, hx, ← ih hxs]
        rfl

/-- A loop whose steps fail for reasons that its state has no part in. -/
theorem foldlM_eq_mapM {γ ε' : Type} {f : β → α → Except ε' β} {g : α → Except ε γ} {h : β → α → β}
    {k : ε → ε'} (hf : ∀ s x, f s x = ((g x).map fun _ => h s x).mapError k) (xs : List α) (s : β) :
    xs.foldlM f s = ((xs.mapM g).map fun _ => xs.foldl h s).mapError k := by
  induction xs generalizing s with
  | nil => rfl
  | cons x xs ih =>
    rw [List.foldlM_cons, List.mapM_cons, List.foldl_cons, hf]
    cases g x with
    | error e => rfl
    | ok y =>
      refine (ih (h s x)).trans ?_
      cases xs.mapM g <;> rfl

/-! ### Selections -/

theorem filterAuxM_eq (f : α → Except ε Bool) (xs acc : List α) :
    xs.filterAuxM f acc = (xs.filterM f).map fun ys => ys.reverse ++ acc := by
  have h : ∀ acc, xs.filterAuxM f acc = (xs.filterAuxM f []).map fun zs => zs ++ acc := by
    induction xs with
    | nil => exact fun _ => rfl
    | cons x xs ih =>
      intro acc
      unfold List.filterAuxM
      cases f x with
      | error _ => rfl
      | ok b =>
        change xs.filterAuxM f (cond b (x :: acc) acc) = (xs.filterAuxM f (cond b [x] [])).map _
        rw [ih, ih (cond b [x] [])]
        cases xs.filterAuxM f [] with
        | error _ => rfl
        | ok zs => cases b <;> simp [Except.map]
  rw [h acc]
  unfold List.filterM
  cases xs.filterAuxM f [] with
  | error _ => rfl
  | ok zs => simp [Except.map, bind, Except.bind, pure, Except.pure]

theorem filterM_cons (f : α → Except ε Bool) (x : α) (xs : List α) :
    (x :: xs).filterM f =
      f x >>= fun b => (xs.filterM f).map fun ys => if b then x :: ys else ys := by
  rw [List.filterM]
  unfold List.filterAuxM
  cases f x with
  | error _ => rfl
  | ok b =>
    change (xs.filterAuxM f (cond b [x] []) >>= _) = (xs.filterM f).map _
    rw [filterAuxM_eq]
    cases xs.filterM f with
    | error _ => rfl
    | ok ys => cases b <;> simp [Except.map, bind, Except.bind, pure, Except.pure]

theorem filterM_eq_ok {f : α → Except ε Bool} {g : α → Bool} {xs : List α}
    (h : ∀ x ∈ xs, f x = .ok (g x)) : xs.filterM f = .ok (xs.filter g) := by
  induction xs with
  | nil => rfl
  | cons x xs ih =>
    rw [filterM_cons, h x List.mem_cons_self, ih fun y hy => h y (List.mem_cons_of_mem _ hy)]
    cases hx : g x with
    | true => rw [List.filter_cons_of_pos hx]; rfl
    | false => rw [List.filter_cons_of_neg (by simp [hx])]; rfl

theorem exists_ok_of_filterM_eq_ok {f : α → Except ε Bool} {xs ys : List α}
    (h : xs.filterM f = .ok ys) : ∀ x ∈ xs, ∃ b, f x = .ok b := by
  induction xs generalizing ys with
  | nil => exact fun x hx => absurd hx List.not_mem_nil
  | cons x xs ih =>
    rw [filterM_cons] at h
    obtain ⟨b, hb, h⟩ := bind_eq_ok h
    cases hxs : xs.filterM f with
    | error _ => rw [hxs] at h; cases h
    | ok zs =>
      intro y hy
      rcases List.mem_cons.mp hy with rfl | hy
      · exact ⟨b, hb⟩
      · exact ih hxs y hy

/-! ### One failure only -/

/-- **An answer or the failure `e`**, and no other failure. -/
def Only (e : ε) (x : Except ε α) : Prop := (∃ a, x = .ok a) ∨ x = .error e

theorem Only.ok {e : ε} (a : α) : Only e (.ok a) := Or.inl ⟨a, rfl⟩

/-- **The failure is the one it knows**, and it fails where there is no answer. -/
theorem Only.eq_error_iff {e e' : ε} {x : Except ε α} (h : Only e x) :
    x = .error e' ↔ e' = e ∧ ¬ ∃ a, x = .ok a := by
  rcases h with ⟨a, rfl⟩ | rfl
  · exact iff_of_false (fun h => by cases h) fun h => h.2 ⟨a, rfl⟩
  · constructor
    · exact fun h => ⟨(Except.error.inj h).symm, fun ⟨_, ha⟩ => by cases ha⟩
    · exact fun h => congrArg _ h.1.symm

theorem Only.map {e : ε} {x : Except ε α} (h : Only e x) (f : α → β) : Only e (x.map f) := by
  rcases h with ⟨a, rfl⟩ | rfl
  · exact Or.inl ⟨f a, rfl⟩
  · exact Or.inr rfl

theorem Only.mapError {ε' : Type} {e : ε} {x : Except ε α} (h : Only e x) (k : ε → ε') :
    Only (k e) (x.mapError k) := by
  rcases h with ⟨a, rfl⟩ | rfl
  · exact Or.inl ⟨a, rfl⟩
  · exact Or.inr rfl

theorem Only.bind {e : ε} {x : Except ε α} {f : α → Except ε β} (hx : Only e x)
    (hf : ∀ a, x = .ok a → Only e (f a)) : Only e (x >>= f) := by
  rcases hx with ⟨a, rfl⟩ | rfl
  · exact hf a rfl
  · exact Or.inr rfl

theorem Only.mapM {e : ε} {f : α → Except ε β} {xs : List α} (h : ∀ x ∈ xs, Only e (f x)) :
    Only e (xs.mapM f) := by
  induction xs with
  | nil => exact Or.inl ⟨[], rfl⟩
  | cons x xs ih =>
    rw [List.mapM_cons]
    refine (h x List.mem_cons_self).bind fun y _ => ?_
    exact (ih fun z hz => h z (List.mem_cons_of_mem _ hz)).bind fun ys _ => Or.inl ⟨y :: ys, rfl⟩

theorem Only.filterM {e : ε} {f : α → Except ε Bool} {xs : List α} (h : ∀ x ∈ xs, Only e (f x)) :
    Only e (xs.filterM f) := by
  induction xs with
  | nil => exact Only.ok []
  | cons x xs ih =>
    rw [filterM_cons]
    refine (h x List.mem_cons_self).bind fun b _ => ?_
    exact (ih fun y hy => h y (List.mem_cons_of_mem _ hy)).map _

theorem Only.foldlM {e : ε} {f : β → α → Except ε β} {xs : List α}
    (h : ∀ s, ∀ x ∈ xs, Only e (f s x)) (s : β) : Only e (xs.foldlM f s) := by
  induction xs generalizing s with
  | nil => exact Or.inl ⟨s, rfl⟩
  | cons x xs ih =>
    rw [List.foldlM_cons]
    exact (h s x List.mem_cons_self).bind fun t _ =>
      ih (fun s y hy => h s y (List.mem_cons_of_mem _ hy)) t

theorem mapM_eq_error {e : ε} {f : α → Except ε β} {xs : List α} (h : ∀ x ∈ xs, Only e (f x))
    (he : ∃ x ∈ xs, f x = .error e) : xs.mapM f = .error e := by
  induction xs with
  | nil => obtain ⟨x, hx, -⟩ := he; cases hx
  | cons x xs ih =>
    rw [List.mapM_cons]
    rcases h x List.mem_cons_self with ⟨y, hy⟩ | hx
    · obtain ⟨z, hz, hze⟩ := he
      rcases List.mem_cons.mp hz with rfl | hz
      · rw [hze] at hy; cases hy
      · rw [hy, ih (fun z hz => h z (List.mem_cons_of_mem _ hz)) ⟨z, hz, hze⟩]; rfl
    · rw [hx]; rfl

theorem foldlM_eq_error {e : ε} {f : β → α → Except ε β} {xs : List α}
    (h : ∀ s, ∀ x ∈ xs, Only e (f s x)) (he : ∃ x ∈ xs, ∀ s, f s x = .error e) (s : β) :
    xs.foldlM f s = .error e := by
  induction xs generalizing s with
  | nil => obtain ⟨x, hx, -⟩ := he; cases hx
  | cons x xs ih =>
    rw [List.foldlM_cons]
    rcases h s x List.mem_cons_self with ⟨t, ht⟩ | hx
    · obtain ⟨z, hz, hze⟩ := he
      rcases List.mem_cons.mp hz with rfl | hz
      · rw [hze] at ht; cases ht
      · rw [ht]
        exact ih (fun s z hz => h s z (List.mem_cons_of_mem _ hz)) ⟨z, hz, hze⟩ t
    · rw [hx]; rfl

end Reputation
