import Reputation.Proofs.Peer
import Reputation.Selector.Bootstrap

/-! # What the way back adds

A bootstrap joins a selection with anchors: what it chose stays at the front, no peer comes in twice,
and everyone joined is there in the end (`Selector.join_spec`). So the several peers of a bootstrap
are those of the inner selector without the local one, with all anchors if none answers, all who
answer if the local peer is pre-trusted, and one of them otherwise (`Selector.bootstrap_several`).
The one peer is the inner selector's, else an anchor (`Selector.bootstrap_one_of_some`,
`Selector.bootstrap_one_of_none`). -/

namespace Reputation

namespace Selector

variable {K : Type} [Number K] {c : Context}

theorem mem_anchors {p : Peer} : p ∈ anchors c ↔ p ∈ c.preTrusted.peers ∧ p.id ≠ c.home.id := by
  unfold anchors
  rw [List.mem_filter, Bool.not_eq_true', Bool.eq_false_iff, ne_eq, Peer.same_iff]

theorem mem_activeAnchors {roster : Roster} {p : Peer} :
    p ∈ activeAnchors c roster ↔ p ∈ anchors c ∧ roster.status p = .active := by
  unfold activeAnchors
  rw [List.mem_filter, beq_iff_eq]

/-! ### One of some peers -/

/-- **A draw of a position finds a peer**, whatever its value is. -/
theorem exists_anyOf {ps : List Peer} (h : ps ≠ []) (source : Source) (draws : Draws K) :
    ∃ p ∈ ps, ∃ source' draws', anyOf ps source draws = (some p, source', draws') := by
  have hpos : 0 < ps.length := List.length_pos_iff.mpr h
  have he : ps.isEmpty = false := by simpa using h
  have hi : Source.position (source.draw draws).1 ps.length < ps.length := by
    unfold Source.position
    omega
  refine ⟨_, List.getElem_mem hi, (source.draw draws).2.1, (source.draw draws).2.2, ?_⟩
  simp only [anyOf, Source.index, he, if_neg Bool.false_ne_true, List.getElem?_eq_getElem hi]

/-! ### Joining -/

theorem join_cons (selected : List Peer) (p : Peer) (ps : List Peer) :
    join selected (p :: ps) =
      join (if selected.any p.same then selected else selected ++ [p]) ps := rfl

/-- **A join**: the selection stays at the front, and what is added are new peers of the others. -/
theorem join_spec {selected : List Peer} (h : Peer.Distinct selected) (ps : List Peer) :
    Peer.Distinct (join selected ps) ∧
      (∃ added, join selected ps = selected ++ added ∧ ∀ p ∈ added, p ∈ ps) ∧
      ∀ p ∈ ps, p.id ∈ (join selected ps).map Peer.id := by
  induction ps generalizing selected with
  | nil =>
    refine ⟨h, ⟨[], (List.append_nil _).symm, fun p hp => ?_⟩, fun p hp => ?_⟩
    · cases hp
    · cases hp
  | cons q ps ih =>
    rw [join_cons]
    cases hq : selected.any q.same with
    | true =>
      obtain ⟨hd, ⟨added, hj, ha⟩, hm⟩ := ih h
      refine ⟨hd, ⟨added, hj, fun p hp => List.mem_cons_of_mem q (ha p hp)⟩, fun p hp => ?_⟩
      rcases List.mem_cons.mp hp with rfl | hp
      · obtain ⟨r, hr, hpr⟩ := List.any_eq_true.mp hq
        have hr : r.id ∈ selected.map Peer.id := List.mem_map_of_mem hr
        rw [if_pos rfl, hj, List.map_append, Peer.same_iff.mp hpr]
        exact List.mem_append_left _ hr
      · exact hm p hp
    | false =>
      have hnew : ∀ r ∈ selected, r.id ≠ q.id := by
        intro r hr hrq
        have hany : selected.any q.same = true := List.any_eq_true.mpr ⟨r, hr, by simp [hrq]⟩
        rw [hq] at hany
        cases hany
      have hdq : Peer.Distinct (selected ++ [q]) := by
        refine h.append (Peer.distinct_singleton q) fun r hr s hs => ?_
        rw [List.mem_singleton.mp hs]
        exact hnew r hr
      obtain ⟨hd, ⟨added, hj, ha⟩, hm⟩ := ih hdq
      rw [if_neg Bool.false_ne_true]
      refine ⟨hd, ⟨q :: added, ?_, fun p hp => ?_⟩, fun p hp => ?_⟩
      · rw [hj, List.append_assoc]
        rfl
      · rcases List.mem_cons.mp hp with rfl | hp
        · exact List.mem_cons_self
        · exact List.mem_cons_of_mem q (ha p hp)
      · rcases List.mem_cons.mp hp with rfl | hp
        · rw [hj, List.map_append, List.map_append]
          simp
        · exact hm p hp

/-! ### The selector -/

/-- **Enough peers to join**: anchors only, all of them if none answers, all who answer if the local
peer is pre-trusted, and one who answers otherwise. -/
structure Extra (c : Context) (roster : Roster) (extra : List Peer) : Prop where
  mem_anchors : ∀ p ∈ extra, p ∈ anchors c
  some_active : (∃ p, p ∈ activeAnchors c roster) → ∃ p ∈ activeAnchors c roster, p ∈ extra
  all_active : c.preTrusted.contains c.home = true → ∀ p ∈ activeAnchors c roster, p ∈ extra
  all_anchors : (¬ ∃ p, p ∈ activeAnchors c roster) → ∀ p ∈ anchors c, p ∈ extra

theorem extra_anchors {roster : Roster} (h : activeAnchors c roster = []) :
    Extra c roster (anchors c) where
  mem_anchors _ hp := hp
  some_active := by
    rintro ⟨p, hp⟩
    rw [h] at hp
    cases hp
  all_active _ _ hp := (mem_activeAnchors.mp hp).1
  all_anchors _ _ hp := hp

theorem extra_activeAnchors {roster : Roster} (h : activeAnchors c roster ≠ []) :
    Extra c roster (activeAnchors c roster) where
  mem_anchors _ hp := (mem_activeAnchors.mp hp).1
  some_active := fun ⟨p, hp⟩ => ⟨p, hp, hp⟩
  all_active _ _ hp := hp
  all_anchors hno := absurd (List.exists_mem_of_ne_nil _ h) hno

theorem extra_singleton {roster : Roster} (h : c.preTrusted.contains c.home = false) {p : Peer}
    (hp : p ∈ activeAnchors c roster) : Extra c roster [p] where
  mem_anchors q hq := by
    rw [List.mem_singleton.mp hq]
    exact (mem_activeAnchors.mp hp).1
  some_active _ := ⟨p, hp, List.mem_singleton_self p⟩
  all_active hhome := by
    rw [h] at hhome
    cases hhome
  all_anchors hno := absurd ⟨p, hp⟩ hno

section Bootstrap
variable {σ : Type} {inner : Selector K σ} {source : Source} {own : σ} {env : Environment K}

variable (c source) in
theorem exists_extra (hr : (inner.several own env).2.2.roster = env.roster) :
    ∃ extra, Extra c env.roster extra ∧ ((bootstrap c inner).several (source, own) env).1 =
      join ((inner.several own env).1.filter fun p => !p.same c.home) extra := by
  obtain ⟨chosen, own', env', hi⟩ : ∃ chosen own' env', inner.several own env =
    (chosen, own', env') := ⟨_, _, _, rfl⟩
  rw [hi] at hr ⊢
  have hact : env'.roster = env.roster := hr
  by_cases hnone : activeAnchors c env.roster = []
  · refine ⟨anchors c, extra_anchors hnone, ?_⟩
    simp only [bootstrap, hi, hact, hnone, List.isEmpty_nil, if_true]
  · have he : (activeAnchors c env.roster).isEmpty = false := by simpa using hnone
    cases hhome : c.preTrusted.contains c.home with
    | true =>
      refine ⟨activeAnchors c env.roster, extra_activeAnchors hnone, ?_⟩
      simp only [bootstrap, hi, hact, he, hhome, if_true, if_neg Bool.false_ne_true]
    | false =>
      obtain ⟨p, hp, source', draws', ha⟩ := exists_anyOf hnone source env'.draws
      refine ⟨[p], extra_singleton hhome hp, ?_⟩
      simp only [bootstrap, hi, hact, he, hhome, if_neg Bool.false_ne_true, ha,
        Option.toList_some]

/-- **A selection with a way back**: the chosen peers come first, and the anchors that follow are
enough to reach the pre-trusted peers again. -/
structure Reconnects (c : Context) (roster : Roster) (chosen ps : List Peer) : Prop where
  distinct : Peer.Distinct ps
  parts : ∃ added, ps = chosen ++ added ∧ ∀ p ∈ added, p ∈ anchors c
  some_active : (∃ p, p ∈ activeAnchors c roster) → ∃ p ∈ activeAnchors c roster,
    p.id ∈ ps.map Peer.id
  all_active : c.preTrusted.contains c.home = true → ∀ p ∈ activeAnchors c roster,
    p.id ∈ ps.map Peer.id
  all_anchors : (¬ ∃ p, p ∈ activeAnchors c roster) → ∀ p ∈ anchors c, p.id ∈ ps.map Peer.id

variable (c source) in
/-- **Several peers of a bootstrap.** -/
theorem bootstrap_several (hd : Peer.Distinct (inner.several own env).1)
    (hr : (inner.several own env).2.2.roster = env.roster) :
    Reconnects c env.roster ((inner.several own env).1.filter fun p => !p.same c.home)
      ((bootstrap c inner).several (source, own) env).1 := by
  obtain ⟨extra, hextra, hj⟩ := exists_extra c source hr
  obtain ⟨hdist, ⟨added, hadd, hmem⟩, hin⟩ := join_spec (hd.sublist List.filter_sublist) extra
  rw [hj]
  refine ⟨hdist, ⟨added, hadd, fun p hp => hextra.mem_anchors p (hmem p hp)⟩, ?_, ?_, ?_⟩
  · intro h
    obtain ⟨p, hp, hpe⟩ := hextra.some_active h
    exact ⟨p, hp, hin p hpe⟩
  · exact fun h p hp => hin p (hextra.all_active h p hp)
  · exact fun h p hp => hin p (hextra.all_anchors h p hp)

/-- The one peer of a bootstrap is that of the inner selector, if it has one. -/
theorem bootstrap_one_of_some {p : Peer} (h : (inner.one own env).1 = some p) :
    ((bootstrap c inner).one (source, own) env).1 = some p := by
  obtain ⟨o, own', env', hi⟩ : ∃ o own' env', inner.one own env = (o, own', env') :=
    ⟨_, _, _, rfl⟩
  rw [hi] at h
  have ho : o = some p := h
  simp only [bootstrap, hi, ho]

variable (c source) in
/-- **Otherwise it is an anchor**, and one who answers if there is one. -/
theorem bootstrap_one_of_none (h : (inner.one own env).1 = none)
    (hr : (inner.one own env).2.2.roster = env.roster) :
    ((∃ p, p ∈ activeAnchors c env.roster) → ∃ p ∈ activeAnchors c env.roster,
      ((bootstrap c inner).one (source, own) env).1 = some p) ∧
    ((∃ p, p ∈ anchors c) → ∃ p ∈ anchors c,
      ((bootstrap c inner).one (source, own) env).1 = some p) ∧
    ((¬ ∃ p, p ∈ anchors c) → ((bootstrap c inner).one (source, own) env).1 = none) := by
  obtain ⟨o, own', env', hi⟩ : ∃ o own' env', inner.one own env = (o, own', env') :=
    ⟨_, _, _, rfl⟩
  rw [hi] at h hr
  have ho : o = none := h
  have hact : env'.roster = env.roster := hr
  have hone : ((bootstrap c inner).one (source, own) env).1 =
      (anyOf (if (activeAnchors c env.roster).isEmpty then anchors c
        else activeAnchors c env.roster) source env'.draws).1 := by
    simp only [bootstrap, hi, ho, hact]
  rw [hone]
  by_cases hnone : activeAnchors c env.roster = []
  · rw [hnone, List.isEmpty_nil, if_pos rfl]
    refine ⟨?_, ?_, ?_⟩
    · rintro ⟨p, hp⟩
      cases hp
    · rintro ⟨p, hp⟩
      obtain ⟨q, hq, source', draws', ha⟩ :=
        exists_anyOf (List.ne_nil_of_mem hp) source env'.draws
      exact ⟨q, hq, by rw [ha]⟩
    · intro hno
      have hempty : anchors c = [] := List.eq_nil_iff_forall_not_mem.mpr fun p hp => hno ⟨p, hp⟩
      rw [hempty]
      rfl
  · have he : (activeAnchors c env.roster).isEmpty = false := by simpa using hnone
    obtain ⟨q, hq, source', draws', ha⟩ := exists_anyOf hnone source env'.draws
    have hqa : q ∈ anchors c := (mem_activeAnchors.mp hq).1
    rw [he, if_neg Bool.false_ne_true, ha]
    exact ⟨fun _ => ⟨q, hq, rfl⟩, fun _ => ⟨q, hqa, rfl⟩, fun hno => absurd ⟨q, hqa⟩ hno⟩

end Bootstrap

end Selector

end Reputation
