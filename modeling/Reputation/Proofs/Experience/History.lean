import Reputation.Proofs.Experience.Listing
import Reputation.Proofs.Number.Exact

/-! # The history of the store

A run of the store is a list of operations. What a pair goes through in it is the list of its
`Event`s: the writes that are addressed to this pair, and the prunes. The `Account` of a pair is kept
by replaying these events alone, in natural numbers; the events of other pairs, questions, neutral
outcomes and interactions of a peer with itself never enter it.

One operation keeps every account true (`Experiences.Tracks.perform`), so a whole run does
(`Experiences.Tracks.run`). `Experiences.run_told` tells what the store answers after any run from
its accounts, and that the run gives a store whenever no count leaves its 64 bits. -/

namespace Reputation

/-- **An operation of the store**, with what it is given. -/
inductive Operation where
  | experience (observer partner : Peer)
  | peek (observer partner : Peer)
  | modify (observer partner : Peer) (f : Experience → Experience)
  | put (observer partner : Peer) (e : Experience)
  | record (observer partner : Peer) (outcome : Outcome) (t : Instant)
  | report (observer : Peer) (es : List (Peer × Experience)) (t : Instant)
  | snapshot (peers : List Peer)
  | shared (home : Peer) (peers : List Peer)
  | prune (t : Instant)

namespace Experiences

/-- The store after an operation. -/
def perform (K : Type) [Number K] (s : Experiences) : Operation → Except Failure Experiences
  | .experience o p => .ok (s.experience o p).2
  | .peek _ _ => .ok s
  | .modify o p f => .ok (s.modify o p f)
  | .put o p e => .ok (s.put o p e)
  | .record o p outcome t => (s.record o p outcome t).mapError .fault
  | .report o es t => .ok (s.report o es t)
  | .snapshot _ => .ok s
  | .shared home peers => (s.shared (K := K) home peers).map fun _ => s
  | .prune t => .ok (s.prune t)

/-- The store after a run. -/
def run (K : Type) [Number K] (s : Experiences) (ops : List Operation) :
    Except Failure Experiences :=
  ops.foldlM (perform K) s

end Experiences

/-! ### Accounts -/

/-- **What happens to the experience of a pair.** -/
inductive Event where
  | touch
  | write (f : Experience → Experience)
  | success (t : Instant)
  | failure (t : Instant)
  | prune (t : Instant)

/-- The events of an outcome. -/
def Outcome.events (t : Instant) : Outcome → List Event
  | .success => [.success t]
  | .failure => [.failure t]
  | .neutral => []

/-- The events of a pair in an operation. -/
def Operation.events (k : Pair) : Operation → List Event
  | .experience o p => if Experiences.key o p = k then [.touch] else []
  | .modify o p f => if Experiences.key o p = k then [.write f] else []
  | .put o p e => if Experiences.key o p = k then [.write fun _ => e] else []
  | .record o p outcome t =>
    if Experiences.key o p = k ∧ o.id ≠ p.id then outcome.events t else []
  | .report o es t => (es.filter fun x => Experiences.key o x.1 = k).map fun x =>
    .write fun _ => { x.2 with updated := t }
  | .prune t => [.prune t]
  | .peek .. | .snapshot _ | .shared .. => []

/-- **The account of a pair**: its last overwrite, the calls that were counted since, and the time
of the last write. -/
structure Account where
  stored : Bool
  base : Experience
  successes : ℕ
  failures : ℕ
  updated : Instant

namespace Account

/-- The account of a pair that was never written, or was dropped. -/
def empty : Account := ⟨false, .none, 0, 0, .zero⟩

/-- The experience that an account stands for. -/
def experience (a : Account) : Experience :=
  ⟨a.base.successes + UInt64.ofNat a.successes, a.base.failures + UInt64.ofNat a.failures,
    a.updated⟩

/-- Enters an event; a prune drops what was last written longer than the retention before. -/
def enter (retention : ℕ) (a : Account) : Event → Account
  | .touch => { a with stored := true }
  | .write f => ⟨true, f a.experience, 0, 0, (f a.experience).updated⟩
  | .success t => { a with stored := true, successes := a.successes + 1, updated := t }
  | .failure t => { a with stored := true, failures := a.failures + 1, updated := t }
  | .prune t => if a.updated.seconds.toNat + retention < t.seconds.toNat then empty else a

/-- **The account of a pair after a run.** -/
def after (retention : ℕ) (ops : List Operation) (k : Pair) : Account :=
  (ops.flatMap (Operation.events k)).foldl (enter retention) empty

/-- The successes and the failures of an account, together, are a 64-bit count. -/
def Fits (a : Account) : Prop :=
  a.base.successes.toNat + a.successes + (a.base.failures.toNat + a.failures) < UInt64.size

/-- **The experience is what the account says**, with no count reduced. -/
structure Tells (a : Account) (e : Experience) : Prop where
  successes : e.successes.toNat = a.base.successes.toNat + a.successes
  failures : e.failures.toNat = a.base.failures.toNat + a.failures
  updated : e.updated = a.updated

/-- The entry of a pair is what its account says. -/
def Matches (a : Account) : Option Experience → Prop
  | none => a = empty
  | some e => a.stored = true ∧ a.Tells e

variable {a : Account} {e : Experience} {x : Option Experience} {retention : ℕ}

theorem tells_empty : empty.Tells .none := ⟨rfl, rfl, rfl⟩

theorem Tells.fits_iff (h : a.Tells e) : e.Fits ↔ a.Fits := by
  unfold Experience.Fits Fits
  rw [h.successes, h.failures]

theorem Tells.eq_experience (h : a.Tells e) : e = a.experience := by
  have add_ofNat : ∀ {b c : UInt64} {n : ℕ}, c.toNat = b.toNat + n → c = b + UInt64.ofNat n := by
    intro b c n hc
    have hlt := c.toNat_lt
    refine UInt64.toNat_inj.mp ?_
    rw [UInt64.toNat_add, UInt64.toNat_ofNat', Nat.add_mod_mod, ← hc, Nat.mod_eq_of_lt hlt]
  unfold experience
  rw [← add_ofNat h.successes, ← add_ofNat h.failures, ← h.updated]

theorem Matches.tells (h : a.Matches x) : a.Tells (x.getD .none) := by
  cases x with
  | none => rw [show a = empty from h]; exact tells_empty
  | some e => exact h.2

theorem Matches.stored_iff (h : a.Matches x) : x.isSome = true ↔ a.stored = true := by
  cases x with
  | none => rw [show a = empty from h]; simp [empty]
  | some e => simp [h.1]

/-! ### One event -/

theorem Matches.touch (h : a.Matches x) :
    (a.enter retention .touch).Matches (some (x.getD .none)) :=
  ⟨rfl, h.tells.successes, h.tells.failures, h.tells.updated⟩

theorem Matches.write (h : a.Matches x) (f : Experience → Experience) :
    (a.enter retention (.write f)).Matches (some (f (x.getD .none))) := by
  rw [h.tells.eq_experience]
  exact ⟨rfl, rfl, rfl, rfl⟩

theorem enter_prune (t : Instant) : a.enter retention (.prune t) =
    if a.updated.seconds.toNat + retention < t.seconds.toNat then empty else a := rfl

theorem Matches.prune (h : a.Matches x) {n : UInt64} (hn : n.toNat = retention) (t : Instant) :
    (a.enter retention (.prune t)).Matches
      (x.filter fun e => decide (t.since e.updated ≤ n)) := by
  have hdrop : ∀ u : Instant, t.since u ≤ n ↔ ¬ u.seconds.toNat + retention < t.seconds.toNat := by
    intro u
    rw [Instant.since_le_iff, hn]
  rw [enter_prune]
  cases x with
  | none =>
    have ha : a = empty := h
    rw [ha, ite_self]
    rfl
  | some e =>
    have hu : e.updated = a.updated := h.2.updated
    by_cases ht : a.updated.seconds.toNat + retention < t.seconds.toNat
    · rw [if_pos ht, Option.filter_some_neg (by simpa [hdrop, hu] using ht)]
      rfl
    · rw [if_neg ht, Option.filter_some_pos (by simpa [hdrop, hu] using ht)]
      exact h

theorem Matches.record (h : a.Matches x) {outcome : Outcome} {t : Instant}
    (hn : outcome ≠ .neutral) (he : (x.getD .none).record outcome t = .ok e) :
    ((outcome.events t).foldl (enter retention) a).Matches (some e) := by
  obtain ⟨hs, hf, hu⟩ := Experience.record_spec he
  rw [h.tells.successes] at hs
  rw [h.tells.failures] at hf
  cases outcome with
  | neutral => exact absurd rfl hn
  | success => exact ⟨rfl, hs, hf, hu⟩
  | failure => exact ⟨rfl, hs, hf, hu⟩

end Account

namespace Experiences

variable {s s' : Experiences} {retention : ℕ} {A B : Pair → Account}

/-! ### One operation -/

/-- **The store is kept by the accounts.** -/
structure Tracks (s : Experiences) (retention : ℕ) (A : Pair → Account) : Prop where
  retention_eq : s.retention.toNat = retention
  named : s.Named
  entries : ∀ k, (A k).Matches s.entries[k]?

theorem tracks_new (n : UInt64) : Tracks ⟨n, ∅, ∅⟩ n.toNat fun _ => .empty := by
  refine ⟨rfl, named_new n, fun k => ?_⟩
  rw [Std.ExtTreeMap.getElem?_empty]
  rfl

theorem Tracks.congr (h : s.Tracks retention A) (hAB : ∀ k, A k = B k) : s.Tracks retention B :=
  ⟨h.retention_eq, h.named, fun k => hAB k ▸ h.entries k⟩

theorem Tracks.put (h : s.Tracks retention A) {o p : Peer} {e : Experience}
    (hk : (B (key o p)).Matches (some e)) (hne : ∀ k, key o p ≠ k → B k = A k) :
    (s.put o p e).Tracks retention B := by
  refine ⟨h.retention_eq, h.named.put o p e, fun k => ?_⟩
  rw [getElem?_entries_put]
  by_cases hok : key o p = k
  · rw [if_pos hok, ← hok]
    exact hk
  · rw [if_neg hok, hne k hok]
    exact h.entries k

theorem Tracks.touch (h : s.Tracks retention A) {o p : Peer}
    (hk : B (key o p) = (A (key o p)).enter retention .touch)
    (hne : ∀ k, key o p ≠ k → B k = A k) : (s.touch o p).Tracks retention B := by
  refine ⟨h.retention_eq, h.named.touch o p, fun k => ?_⟩
  rw [getElem?_entries_touch]
  by_cases hok : key o p = k
  · rw [if_pos hok, ← hok, hk]
    exact (h.entries (key o p)).touch
  · rw [if_neg hok, hne k hok]
    exact h.entries k

theorem Tracks.report (h : s.Tracks retention A) (o : Peer) (es : List (Peer × Experience))
    (t : Instant) : (s.report o es t).Tracks retention fun k =>
      ((Operation.report o es t).events k).foldl (Account.enter retention) (A k) := by
  unfold Experiences.report
  induction es generalizing s A with
  | nil => exact h
  | cons x es ih =>
    have hx : (s.put o x.1 { x.2 with updated := t }).Tracks retention fun k =>
        if key o x.1 = k then (A k).enter retention (.write fun _ => { x.2 with updated := t })
        else A k := by
      refine h.put ?_ fun k hk => if_neg hk
      rw [if_pos rfl]
      exact (h.entries (key o x.1)).write fun _ => { x.2 with updated := t }
    rw [List.foldl_cons]
    refine (ih hx).congr fun k => ?_
    by_cases hk : key o x.1 = k
    · simp [Operation.events, hk]
    · simp [Operation.events, hk]

theorem Tracks.record (h : s.Tracks retention A) {o p : Peer} {outcome : Outcome} {t : Instant}
    (hs : s.record o p outcome t = .ok s') : s'.Tracks retention fun k =>
      ((Operation.record o p outcome t).events k).foldl (Account.enter retention) (A k) := by
  rcases record_cases hs with ⟨hn, rfl⟩ | ⟨⟨hop, hneutral⟩, e, he, rfl⟩
  · refine h.congr fun k => ?_
    by_cases hop : o.id = p.id
    · simp [Operation.events, hop]
    · have hneutral : outcome = .neutral := by tauto
      simp [Operation.events, Outcome.events, hneutral]
  · refine h.put ?_ fun k hk => ?_
    · rw [Operation.events, if_pos ⟨rfl, hop⟩]
      exact (h.entries (key o p)).record hneutral he
    · rw [Operation.events, if_neg fun hok => hk hok.1]
      rfl

theorem Tracks.prune (h : s.Tracks retention A) (t : Instant) :
    (s.prune t).Tracks retention fun k => (A k).enter retention (.prune t) := by
  refine ⟨h.retention_eq, h.named, fun k => ?_⟩
  rw [getElem?_entries_prune]
  exact (h.entries k).prune h.retention_eq t

/-- **One operation keeps the accounts.** -/
theorem Tracks.perform {K : Type} [Number K] (h : s.Tracks retention A) {op : Operation}
    (hs : s.perform K op = .ok s') : s'.Tracks retention fun k =>
      (op.events k).foldl (Account.enter retention) (A k) := by
  cases op with
  | experience o p =>
    cases hs
    refine h.touch ?_ fun k hk => ?_
    · simp only [Operation.events, if_pos, List.foldl_cons, List.foldl_nil]
    · simp only [Operation.events, if_neg hk, List.foldl_nil]
  | peek o p => cases hs; exact h
  | modify o p f =>
    cases hs
    refine h.put ?_ fun k hk => ?_
    · simp only [Operation.events, if_pos, List.foldl_cons, List.foldl_nil]
      exact (h.entries (key o p)).write f
    · simp only [Operation.events, if_neg hk, List.foldl_nil]
  | put o p e =>
    cases hs
    refine h.put ?_ fun k hk => ?_
    · simp only [Operation.events, if_pos, List.foldl_cons, List.foldl_nil]
      exact (h.entries (key o p)).write fun _ => e
    · simp only [Operation.events, if_neg hk, List.foldl_nil]
  | record o p outcome t => exact h.record (mapError_eq_ok.mp hs)
  | report o es t => cases hs; exact h.report o es t
  | snapshot peers => cases hs; exact h
  | shared home peers =>
    cases hm : s.shared (K := K) home peers with
    | error f => simp only [Experiences.perform, hm] at hs; cases hs
    | ok m =>
      simp only [Experiences.perform, hm] at hs
      cases hs
      exact h
  | prune t => cases hs; exact h.prune t

/-! ### A whole run -/

/-- **A run keeps the accounts.** -/
theorem Tracks.run {K : Type} [Number K] (h : s.Tracks retention A) {ops : List Operation}
    (hs : s.run K ops = .ok s') : s'.Tracks retention fun k =>
      (ops.flatMap (Operation.events k)).foldl (Account.enter retention) (A k) := by
  unfold Experiences.run at hs
  induction ops generalizing s A with
  | nil => cases hs; exact h
  | cons op ops ih =>
    rw [List.foldlM_cons] at hs
    obtain ⟨s₁, h₁, hs⟩ := bind_eq_ok hs
    refine (ih (h.perform h₁) hs).congr fun k => ?_
    rw [List.flatMap_cons, List.foldl_append]

end Experiences

/-- **No count is going to overflow** in an operation on these accounts: there is room for one more
call where one is recorded, and the calls that are compared can be counted. -/
def Operation.Room (A : Pair → Account) : Operation → Prop
  | .record o p .success _ => o.id ≠ p.id →
    (A (Experiences.key o p)).base.successes.toNat + (A (Experiences.key o p)).successes + 1 <
      UInt64.size
  | .record o p .failure _ => o.id ≠ p.id →
    (A (Experiences.key o p)).base.failures.toNat + (A (Experiences.key o p)).failures + 1 <
      UInt64.size
  | .shared home peers => ∀ p ∈ home :: peers, ∀ q ∈ peers, (A (Experiences.key p q)).Fits
  | _ => True

namespace Experiences

variable {s s' : Experiences} {retention : ℕ} {A : Pair → Account}

/-! ### Answers -/

theorem Tracks.tells (h : s.Tracks retention A) (o p : Peer) :
    (A (key o p)).Tells (s.peek o p) := (h.entries (key o p)).tells

theorem Tracks.fits_iff (h : s.Tracks retention A) (o p : Peer) :
    (s.peek o p).Fits ↔ (A (key o p)).Fits := (h.tells o p).fits_iff

theorem Tracks.exists_record (h : s.Tracks retention A) {o p : Peer} {outcome : Outcome}
    {t : Instant} (hroom : (Operation.record o p outcome t).Room A) :
    ∃ s', s.record o p outcome t = .ok s' := by
  by_cases hcall : o.id ≠ p.id ∧ outcome ≠ .neutral
  · have ht := h.tells o p
    obtain ⟨e, he⟩ : ∃ e, (s.peek o p).record outcome t = .ok e := by
      refine Experience.exists_record t (fun hs => ?_) fun hf => ?_
      · subst hs
        rw [ht.successes]
        exact hroom hcall.1
      · subst hf
        rw [ht.failures]
        exact hroom hcall.1
    exact ⟨s.put o p e, by rw [record_of_call s t hcall, he]; rfl⟩
  · exact ⟨s, record_of_not_call s t hcall⟩

/-- **An operation with room for its counts is carried out.** -/
theorem Tracks.exists_perform (h : s.Tracks retention A) (K : Type) [Number K] {op : Operation}
    (hroom : op.Room A) : ∃ s', s.perform K op = .ok s' := by
  cases op with
  | record o p outcome t =>
    obtain ⟨s', hs⟩ := h.exists_record hroom
    exact ⟨s', by simp only [Experiences.perform, hs]; rfl⟩
  | shared home peers =>
    have hf : ∀ p ∈ home :: peers, ∀ q ∈ peers, (s.peek p q).Fits :=
      fun p hp q hq => (h.fits_iff p q).mpr (hroom p hp q hq)
    obtain ⟨m, hm, -⟩ := exists_shared K (comparable_of_fits hf)
    exact ⟨s, by simp only [Experiences.perform, hm]; rfl⟩
  | _ => exact ⟨_, rfl⟩

theorem Tracks.exists_run (h : s.Tracks retention A) (K : Type) [Number K] {ops : List Operation}
    (hroom : ∀ before op rest, ops = before ++ op :: rest → op.Room fun k =>
      (before.flatMap (Operation.events k)).foldl (Account.enter retention) (A k)) :
    ∃ s', s.run K ops = .ok s' := by
  unfold Experiences.run
  induction ops generalizing s A with
  | nil => exact ⟨s, rfl⟩
  | cons op ops ih =>
    obtain ⟨s₁, h₁⟩ := h.exists_perform K (hroom [] op ops rfl)
    have hrest : ∀ before op' rest, ops = before ++ op' :: rest → op'.Room fun k =>
        (before.flatMap (Operation.events k)).foldl (Account.enter retention)
          ((op.events k).foldl (Account.enter retention) (A k)) := by
      intro before op' rest hops
      have hr := hroom (op :: before) op' rest (by rw [hops]; rfl)
      simpa only [List.flatMap_cons, List.foldl_append] using hr
    obtain ⟨s', hs'⟩ := ih (h.perform h₁) hrest
    exact ⟨s', by rw [List.foldlM_cons, h₁]; exact hs'⟩

/-- **What a store answers**, told by an account for every pair. -/
structure Told (s : Experiences) (A : Pair → Account) : Prop where
  peek : ∀ o p, (A (key o p)).Tells (s.peek o p)
  stored : ∀ o p, s.Stored o p ↔ (A (key o p)).stored = true
  ofObserver : ∀ o, s.Lists o (s.ofObserver o)
  interactions : (∀ k, (A k).Fits) → ∃ xs, s.interactions = .ok xs ∧ s.ListsAll xs

theorem Tracks.told (h : s.Tracks retention A) : s.Told A where
  peek := h.tells
  stored o p := by
    unfold Stored
    rw [Std.ExtTreeMap.mem_iff_isSome_getElem?]
    exact (h.entries (key o p)).stored_iff
  ofObserver o := lists_ofObserver h.named o
  interactions hf := exists_interactions h.named fun o p => (h.fits_iff o p).mpr (hf (key o p))

/-- **A run of the store.** Every pair is answered from its own account, whatever else the run does;
and the run gives a store if there is room for every count. -/
theorem run_told (K : Type) [Number K] {hours : UInt64} {new : Experiences}
    (hnew : withRetention hours = .ok new) (ops : List Operation) :
    (∀ s, new.run K ops = .ok s → s.Told (Account.after (hours.toNat * 3600) ops)) ∧
    ((∀ before op rest, ops = before ++ op :: rest →
      op.Room (Account.after (hours.toNat * 3600) before)) → ∃ s, new.run K ops = .ok s) := by
  have hstart : new.Tracks (hours.toNat * 3600) fun _ => .empty := by
    unfold withRetention at hnew
    split at hnew
    · next hlt =>
      cases hnew
      have hn : (hours * 3600).toNat = hours.toNat * 3600 := by
        rw [UInt64.toNat_mul]
        exact Nat.mod_eq_of_lt hlt
      rw [← hn]
      exact tracks_new (hours * 3600)
    · cases hnew
  exact ⟨fun s hs => (hstart.run hs).told, hstart.exists_run K⟩

/-- Two calls of one peer with another, and one of the other with the first between them. -/
def exchange (a b : Peer) : List Operation :=
  [.record a b .success ⟨5⟩, .experience b a, .record b a .failure ⟨6⟩, .record a b .failure ⟨7⟩]

theorem run_told_exchange : ∃ new s, withRetention 24 = .ok new ∧
    new.run ℚ (exchange (.named "a") (.named "b")) = .ok s ∧
    s.peek (.named "a") (.named "b") = ⟨1, 1, ⟨7⟩⟩ ∧
    s.peek (.named "b") (.named "a") = ⟨0, 1, ⟨6⟩⟩ := by
  have hnew : withRetention 24 = .ok ⟨24 * 3600, ∅, ∅⟩ := if_pos (by decide)
  obtain ⟨htold, hrun⟩ := run_told ℚ hnew (exchange (.named "a") (.named "b"))
  have hroom : ∀ before op rest, exchange (.named "a") (.named "b") = before ++ op :: rest →
      op.Room (Account.after ((24 : UInt64).toNat * 3600) before) := by
    intro before op rest h
    have hlen : before.length ≤ 3 := by
      have := congrArg List.length h
      simp only [exchange, List.length_append, List.length_cons, List.length_nil] at this
      omega
    rcases before with _ | ⟨_, _ | ⟨_, _ | ⟨_, _ | ⟨_, before⟩⟩⟩⟩
    · cases h; intro _; decide
    · cases h; trivial
    · cases h; intro _; decide
    · cases h; intro _; decide
    · simp only [List.length_cons] at hlen; omega
  obtain ⟨s, hs⟩ := hrun hroom
  have ht := htold s hs
  exact ⟨_, s, hnew, hs, (ht.peek _ _).eq_experience.trans (by decide),
    (ht.peek _ _).eq_experience.trans (by decide)⟩

end Experiences

end Reputation
