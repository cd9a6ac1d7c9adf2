import Reputation.Proofs.Experience.Growth

/-! # First instances

An operation that stores a pair introduces its two peers; one that asks, drops or passes over
introduces nobody (`Operation.introduced`). The store remembers an identity as the peer who was
introduced first under it (`Experiences.Remembers`). One operation keeps this and adds its own peers
at the end (`Experiences.Remembers.perform`), so a run does (`Experiences.Remembers.run`): neither a
later instance nor a pruning puts another peer in the place of the first one. Since the peers of
every stored pair are remembered, a listing of the store names the first instances and no others
(`Experiences.run_remembers`). -/

namespace Reputation

/-- The first of some peers who has an identity. -/
def Peer.first? (ps : List Peer) (id : String) : Option Peer := ps.find? fun p => p.id == id

/-- **The peers that an operation introduces**, in order: those of the pairs that it stores. -/
def Operation.introduced : Operation → List Peer
  | .experience o p | .modify o p _ | .put o p _ => [o, p]
  | .record o p outcome _ => if o.id ≠ p.id ∧ outcome ≠ .neutral then [o, p] else []
  | .report o es _ => es.flatMap fun x => [o, x.1]
  | .peek .. | .snapshot _ | .shared .. | .prune _ => []

namespace Peer

theorem first?_append (ps qs : List Peer) (id : String) :
    first? (ps ++ qs) id = (first? ps id).or (first? qs id) := List.find?_append

theorem first?_singleton (p : Peer) (id : String) :
    first? [p] id = if p.id = id then some p else none := by
  unfold first?
  rw [List.find?_singleton]
  simp only [beq_iff_eq]

end Peer

namespace Experiences

variable {s s' : Experiences} {ps : List Peer}

/-! ### One operation -/

/-- **The store remembers the first** of some peers under each identity. -/
def Remembers (s : Experiences) (ps : List Peer) : Prop :=
  ∀ id : String, s.known[id]? = Peer.first? ps id

theorem remembers_new (retention : UInt64) : Remembers ⟨retention, ∅, ∅⟩ [] :=
  fun _ => Std.ExtTreeMap.getElem?_empty

theorem Remembers.remember (h : s.Remembers ps) (p : Peer) :
    (s.remember p).Remembers (ps ++ [p]) := by
  intro id
  rw [Peer.first?_append, Peer.first?_singleton, ← h id]
  cases hid : s.known[id]? with
  | some q => exact getElem?_known_remember_of_some hid p
  | none =>
    have hnew : id ∉ s.known := by rw [Std.ExtTreeMap.mem_iff_isSome_getElem?, hid]; exact nofun
    unfold Experiences.remember
    simp only [Std.ExtTreeMap.getElem?_insertIfNew, Std.LawfulEqCmp.compare_eq_iff_eq, hid]
    by_cases hp : p.id = id
    · rw [if_pos ⟨hp, hp ▸ hnew⟩, if_pos hp]
      rfl
    · rw [if_neg fun h => hp h.1, if_neg hp]
      rfl

theorem Remembers.pair (h : s.Remembers ps) (o p : Peer) :
    ((s.remember o).remember p).Remembers (ps ++ [o, p]) := by
  have hpair := (h.remember o).remember p
  rwa [List.append_assoc] at hpair

theorem Remembers.put (h : s.Remembers ps) (o p : Peer) (e : Experience) :
    (s.put o p e).Remembers (ps ++ [o, p]) := h.pair o p

theorem Remembers.report (h : s.Remembers ps) (o : Peer) (es : List (Peer × Experience))
    (t : Instant) : (s.report o es t).Remembers (ps ++ es.flatMap fun x => [o, x.1]) := by
  unfold Experiences.report
  induction es generalizing s ps with
  | nil => rwa [List.flatMap_nil, List.append_nil]
  | cons x es ih =>
    rw [List.flatMap_cons, ← List.append_assoc]
    exact ih (h.put o x.1 _)

/-- **One operation** introduces its peers after the others. -/
theorem Remembers.perform {K : Type} [Number K] (h : s.Remembers ps) {op : Operation}
    (hs : s.perform K op = .ok s') : s'.Remembers (ps ++ op.introduced) := by
  have hnobody : s.Remembers (ps ++ []) := by rwa [List.append_nil]
  cases op with
  | experience o p => cases hs; exact h.pair o p
  | peek o p => cases hs; exact hnobody
  | modify o p f => cases hs; exact h.put o p _
  | put o p e => cases hs; exact h.put o p e
  | record o p outcome t =>
    rw [Operation.introduced]
    rcases record_cases (mapError_eq_ok.mp hs) with ⟨hcall, rfl⟩ | ⟨hcall, e, -, rfl⟩
    · rw [if_neg hcall]
      exact hnobody
    · rw [if_pos hcall]
      exact h.put o p e
  | report o es t => cases hs; exact h.report o es t
  | snapshot peers => cases hs; exact hnobody
  | shared home peers =>
    have hm : (s.shared (K := K) home peers).map (fun _ => s) = .ok s' := hs
    cases hshared : s.shared (K := K) home peers with
    | error f => rw [hshared] at hm; cases hm
    | ok m => rw [hshared] at hm; cases hm; exact hnobody
  | prune t => cases hs; exact hnobody

/-! ### A whole run -/

/-- **A run** introduces the peers of its operations one after the other. -/
theorem Remembers.run {K : Type} [Number K] (h : s.Remembers ps) {ops : List Operation}
    (hs : s.run K ops = .ok s') : s'.Remembers (ps ++ ops.flatMap Operation.introduced) := by
  unfold Experiences.run at hs
  induction ops generalizing s ps with
  | nil =>
    cases hs
    rwa [List.flatMap_nil, List.append_nil]
  | cons op ops ih =>
    rw [List.foldlM_cons] at hs
    obtain ⟨s₁, h₁, hs⟩ := bind_eq_ok hs
    rw [List.flatMap_cons, ← List.append_assoc]
    exact ih (h.perform h₁) hs

/-! ### Listings -/

theorem Remembers.named (h : s.Remembers ps) : s.Named := by
  intro id p hp
  rw [h id] at hp
  have hid : (p.id == id) = true := List.find?_some (p := fun p : Peer => p.id == id) hp
  exact beq_iff_eq.mp hid

/-- The peer who is listed under a remembered identity. -/
theorem Remembers.first?_peerOf (h : s.Remembers ps) {id : String} (hid : id ∈ s.known) :
    Peer.first? ps (s.peerOf id).id = some (s.peerOf id) := by
  obtain ⟨p, hp⟩ : ∃ p, s.known[id]? = some p := ⟨_, Std.ExtTreeMap.getElem?_eq_some_getElem hid⟩
  have hpeer : s.peerOf id = p := by
    unfold peerOf
    rw [hp]
    rfl
  rw [hpeer, h.named id p hp, ← h id, hp]

/-- **Listings name first instances**: the peers of every stored pair are remembered, and each of
them is listed as the first of some peers with its identity. -/
structure ListsFirst (s : Experiences) (ps : List Peer) : Prop where
  acquainted : ∀ k ∈ s.entries, k.observer ∈ s.known ∧ k.partner ∈ s.known
  ofObserver : ∀ o : Peer, s.Lists o (s.ofObserver o) ∧
    ∀ x ∈ s.ofObserver o, Peer.first? ps x.1.id = some x.1
  interactions : ∀ xs, s.interactions = .ok xs → s.ListsAll xs ∧
    ∀ x ∈ xs, Peer.first? ps x.1.id = some x.1 ∧ Peer.first? ps x.2.1.id = some x.2.1

theorem Remembers.listsFirst (h : s.Remembers ps) (ha : s.Acquainted) : s.ListsFirst ps := by
  have hmem : ∀ x ∈ s.entries.toList, x.1.observer ∈ s.known ∧ x.1.partner ∈ s.known := by
    rintro ⟨k, e⟩ hx
    refine ha k (Std.ExtTreeMap.mem_iff_isSome_getElem?.mpr ?_)
    rw [Std.ExtTreeMap.mem_toList_iff_getElem?_eq_some.mp hx]
    rfl
  refine ⟨ha, fun o => ⟨lists_ofObserver h.named o, fun x hx => ?_⟩, fun xs hxs => ?_⟩
  · obtain ⟨y, hy, rfl⟩ := List.mem_map.mp hx
    exact h.first?_peerOf (hmem y (List.mem_filter.mp hy).1).2
  · have hf := fits_of_interactions hxs
    obtain ⟨ys, hys, hall⟩ := exists_interactions h.named hf
    obtain rfl : ys = xs := Except.ok.inj (hys.symm.trans hxs)
    refine ⟨hall, fun x hx => ?_⟩
    rw [interactions_eq hf] at hxs
    cases hxs
    obtain ⟨y, hy, rfl⟩ := List.mem_map.mp hx
    have hknown := hmem y (List.mem_filter.mp hy).1
    exact ⟨h.first?_peerOf hknown.1, h.first?_peerOf hknown.2⟩

/-- **First instances in every store that arises.** After any run of a new store both peers of each
stored pair are remembered, and the listings of an observer and of all interactions name each peer
as the one who was first introduced under its identity, endpoint included. -/
theorem run_remembers (K : Type) [Number K] {hours : UInt64} {new : Experiences}
    (hnew : withRetention hours = .ok new) {ops : List Operation} {s : Experiences}
    (hs : new.run K ops = .ok s) : s.ListsFirst (ops.flatMap Operation.introduced) := by
  obtain ⟨retention, rfl⟩ := exists_eq_of_withRetention_eq_ok hnew
  have hfirst := (remembers_new retention).run hs
  rw [List.nil_append] at hfirst
  exact hfirst.listsFirst ((acquainted_new retention).run hs)

/-- Peers who move between a neutral outcome, a report, a question, a pruning and another report. -/
def moves : List Operation :=
  [.record ⟨"a", some "unused"⟩ ⟨"b", some "unused"⟩ .neutral ⟨1⟩,
    .report ⟨"a", some "first"⟩ [(⟨"b", some "first"⟩, ⟨1, 0, ⟨0⟩⟩)] ⟨5⟩,
    .experience ⟨"b", some "second"⟩ ⟨"c", some "first"⟩, .prune ⟨90000⟩,
    .put ⟨"c", some "second"⟩ ⟨"a", some "second"⟩ ⟨1, 0, ⟨90001⟩⟩]

theorem run_remembers_moves : ∃ new s, withRetention 24 = .ok new ∧ new.run ℚ moves = .ok s ∧
    s.ListsFirst (moves.flatMap Operation.introduced) ∧
    s.ofObserver (.named "c") = [(⟨"a", some "first"⟩, ⟨1, 0, ⟨90001⟩⟩)] ∧
    s.interactions = .ok [(⟨"c", some "first"⟩, ⟨"a", some "first"⟩, ⟨1, 0, ⟨90001⟩⟩)] := by
  have hnew : withRetention 24 = .ok ⟨24 * 3600, ∅, ∅⟩ := if_pos (by decide)
  have hrun : Experiences.run ℚ ⟨24 * 3600, ∅, ∅⟩ moves =
      .ok ((((⟨24 * 3600, ∅, ∅⟩ : Experiences).put ⟨"a", some "first"⟩ ⟨"b", some "first"⟩
        ⟨1, 0, ⟨5⟩⟩).touch ⟨"b", some "second"⟩ ⟨"c", some "first"⟩).prune ⟨90000⟩ |>.put
        ⟨"c", some "second"⟩ ⟨"a", some "second"⟩ ⟨1, 0, ⟨90001⟩⟩) := rfl
  exact ⟨_, _, hnew, hrun, run_remembers ℚ hnew hrun, by decide +kernel, by decide +kernel⟩

end Experiences

end Reputation
