import Reputation.Proofs.Number.Positive
import Reputation.Proofs.Provider.Composition
import Reputation.Proofs.Selector.Positions
import Reputation.Proofs.Selector.Weighted

/-! # Selection without replacement

Several peers are chosen from a list that shrinks, a single one from the whole assessment. A draw
for the shrinking list is one for an assessment in which those who are chosen have no trust any more:
the list without the drawn element is the list for the assessment without this trust
(`Selector.exists_position`), so a draw is the choice of a single peer from there
(`Selector.picks_of_pick`). By induction on the number of draws, all of them are
(`Selector.drawSeveral_replays`).

Nothing but the `Signs` of the numbers is used, so this holds in binary64 for all draws and all
trust, infinite or not a number as well: `Selector.several_samples`. -/

namespace Reputation

open Number

namespace Selector

variable {K : Type} [Number K] {a : Assessment K}

/-! ### The peers of positive trust by position -/

theorem eligible_eq (a : Assessment K) :
    eligible a = (a.toList.zipIdx.filter fun x => lt zero x.1.2).map Prod.fst := by
  unfold eligible
  conv_lhs => rw [← List.zipIdx_map_fst 0 a.toList, List.filter_map]
  rfl

theorem length_positives (a : Assessment K) : a.positives.length = (eligible a).length := by
  unfold Assessment.positives
  rw [eligible_eq, List.length_map, List.length_map]

theorem map_positives (a : Assessment K) :
    a.positives.map (a.context.peers[·]?) = (eligible a).map fun x => some x.1 := by
  unfold Assessment.positives
  rw [eligible_eq, List.map_map, List.map_map]
  refine List.map_congr_left fun x hx => ?_
  exact Assessment.getElem?_peers (List.mem_zipIdx_iff_getElem?.mp (List.mem_filter.mp hx).1)

/-! ### The choice of a single peer -/

/-- **From a state of the draws a single peer is chosen**, the one at a position, and one draw is
taken. -/
def Picks (a : Assessment K) (env : Environment K) (s : Source × Draws K) (i : ℕ) : Prop :=
  ∀ limit, (weighted limit a).one s.1 { env with draws := s.2 } =
    (a.context.peers[i]?, (s.1.draw s.2).2.1, { env with draws := (s.1.draw s.2).2.2 })

section Signs
variable (hK : Signs K)
include hK

/-- **A draw is for a position of positive trust.** Without this trust the peers to draw from are
those that are left. -/
theorem exists_position (hne : eligible a ≠ []) (y : K) :
    ∃ i x, a.toList[i]? = some x ∧ lt zero x.2 = true ∧
      (eligible a)[pick (eligible a) y]? = some x ∧
      eligible (a.without i) = (eligible a).eraseIdx (pick (eligible a) y) := by
  have hj := List.getElem?_eq_getElem (pick_lt hne y)
  obtain ⟨i, hi, hpos, hij⟩ := exists_getElem?_of_filter hj
  refine ⟨i, _, hi, hpos, hj, ?_⟩
  unfold eligible at hi hpos hij ⊢
  rw [Assessment.toList_without hi, filter_set_eq_eraseIdx hi hpos hK.zero_not_pos, hij]

theorem picks_of_pick (hne : eligible a ≠ []) (s : Source × Draws K) (env : Environment K) {i : ℕ}
    {x : Peer × K} (hi : a.toList[i]? = some x)
    (hx : (eligible a)[pick (eligible a) (s.1.draw s.2).1]? = some x) : Picks a env s i := by
  intro limit
  simp only [weighted, draw_eq hK hne pos_of_mem_eligible, Option.bind_some, hx,
    Assessment.getElem?_peers hi, Option.map_some]

/-! ### The choice of several peers -/

/-- The first of several draws, and those that follow it. -/
theorem drawSeveral_succ (n : ℕ) {ps : List (Peer × K)} (h : ∀ x ∈ ps, lt zero x.2 = true)
    (s : Source × Draws K) {x : Peer × K} (hx : ps[pick ps (s.1.draw s.2).1]? = some x) :
    drawSeveral s.1 s.2 (n + 1) ps =
      (x.1 :: (drawSeveral (s.1.draw s.2).2.1 (s.1.draw s.2).2.2 n
          (ps.eraseIdx (pick ps (s.1.draw s.2).1))).1,
        (drawSeveral (s.1.draw s.2).2.1 (s.1.draw s.2).2.2 n
          (ps.eraseIdx (pick ps (s.1.draw s.2).1))).2) := by
  have hne : ps ≠ [] := List.ne_nil_of_mem (List.mem_of_getElem? hx)
  simp only [drawSeveral, draw_eq hK hne h, hx, Option.map_some, Option.toList_some,
    List.singleton_append]

/-- **Draws without putting one back are choices of a single peer** from what the earlier ones have
left. -/
theorem drawSeveral_replays (env : Environment K) (n : ℕ) {a : Assessment K}
    (hn : n ≤ (eligible a).length) (s : Source × Draws K) :
    ∃ is : List ℕ, is.length = n ∧ is.Nodup ∧ is ⊆ a.positives ∧
      (drawSeveral s.1 s.2 n (eligible a)).1.map some = is.map (a.context.peers[·]?) ∧
      (drawSeveral s.1 s.2 n (eligible a)).2 = Source.after n s ∧
      ∀ k i, is[k]? = some i → Picks (a.withoutAll (is.take k)) env (Source.after k s) i := by
  induction n generalizing a s with
  | zero => exact ⟨[], rfl, List.nodup_nil, List.nil_subset _, rfl, rfl, fun k i hi => by cases hi⟩
  | succ n ih =>
    have hne : eligible a ≠ [] := List.length_pos_iff.mp (by omega)
    obtain ⟨i, x, hi, hpos, hx, hleft⟩ := exists_position hK hne (s.1.draw s.2).1
    have hmem : i ∈ a.positives := Assessment.mem_positives.mpr ⟨x, hi, hpos⟩
    have hlen : n ≤ (eligible (a.without i)).length := by
      rw [hleft, List.length_eraseIdx_of_lt (pick_lt hne _)]
      omega
    obtain ⟨is, his, hnodup, hsub, hpeers, hafter, hpicks⟩ := ih hlen (s.1.draw s.2).2
    -- the position is drawn once, since its trust is gone afterwards
    have hlater : ∀ j ∈ is, j ≠ i ∧ j ∈ a.positives :=
      fun j hj => Assessment.of_mem_positives_without hmem hK.zero_not_pos (hsub hj)
    rw [drawSeveral_succ hK n pos_of_mem_eligible s hx, ← hleft]
    refine ⟨i :: is, by rw [List.length_cons, his], ?nodup, ?subset, ?peers, hafter, ?picks⟩
    case nodup => exact List.nodup_cons.mpr ⟨fun h => (hlater i h).1 rfl, hnodup⟩
    case subset => exact List.cons_subset.mpr ⟨hmem, fun j hj => (hlater j hj).2⟩
    case peers =>
      rw [List.map_cons, List.map_cons, Assessment.getElem?_peers hi, hpeers]
      rfl
    case picks =>
      intro k j hj
      cases k with
      | zero =>
        obtain rfl := Option.some.inj hj
        exact picks_of_pick hK hne s env hi hx
      | succ k => exact hpicks k j hj

end Signs

/-! ### The selector -/

/-- **A sample without replacement**: positions of positive trust, none of them twice and as many as
allowed or as there are. All are taken in order and without a draw if there are no more than
allowed. Otherwise each takes one draw, and is the choice of a single peer by this draw from the
trust without that of the earlier ones. -/
structure Samples (limit : ℕ) (a : Assessment K) (source : Source) (env : Environment K)
    (is : List ℕ) : Prop where
  peers_eq : ((weighted limit a).several source env).1.map some = is.map (a.context.peers[·]?)
  length_eq : is.length = min limit a.positives.length
  nodup : is.Nodup
  positive : is ⊆ a.positives
  all : a.positives.length ≤ limit →
    is = a.positives ∧ ((weighted limit a).several source env).2 = (source, env)
  drawn : limit < a.positives.length →
    ((weighted limit a).several source env).2 =
      ((Source.after limit (source, env.draws)).1,
        { env with draws := (Source.after limit (source, env.draws)).2 }) ∧
    ∀ k i, is[k]? = some i →
      Picks (a.withoutAll (is.take k)) env (Source.after k (source, env.draws)) i

section Samples
variable {limit : ℕ} (source : Source) (env : Environment K)

theorem samples_positives (h : a.positives.length ≤ limit) :
    Samples limit a source env a.positives := by
  have hall : (weighted limit a).several source env = ((eligible a).map Prod.fst, source, env) := by
    unfold weighted
    dsimp only
    rw [if_pos (by rwa [← length_positives])]
  have hpeers : ((weighted limit a).several source env).1.map some =
      a.positives.map (a.context.peers[·]?) := by
    rw [hall, map_positives, List.map_map]
    rfl
  exact ⟨hpeers, by omega, a.nodup_positives, List.Subset.refl _, fun _ => ⟨rfl, by rw [hall]⟩,
    fun hlt => by omega⟩

theorem exists_samples (hK : Signs K) (h : limit < a.positives.length) :
    ∃ is, Samples limit a source env is := by
  have hlt : limit < (eligible a).length := by rwa [← length_positives]
  have hdrawn : (weighted limit a).several source env =
      ((drawSeveral source env.draws limit (eligible a)).1,
        (drawSeveral source env.draws limit (eligible a)).2.1,
        { env with draws := (drawSeveral source env.draws limit (eligible a)).2.2 }) := by
    unfold weighted
    dsimp only
    rw [if_neg (by omega)]
  obtain ⟨is, his, hnodup, hsub, hpeers, hafter, hpicks⟩ :=
    drawSeveral_replays hK env limit hlt.le (source, env.draws)
  have hchosen : ((weighted limit a).several source env).1.map some =
      is.map (a.context.peers[·]?) := by
    rw [hdrawn]
    exact hpeers
  have hstate : ((weighted limit a).several source env).2 =
      ((Source.after limit (source, env.draws)).1,
        { env with draws := (Source.after limit (source, env.draws)).2 }) := by
    rw [hdrawn, ← hafter]
  exact ⟨is, hchosen, by omega, hnodup, hsub, fun hle => by omega, fun _ => ⟨hstate, hpicks⟩⟩

end Samples

/-- **Several peers are single choices without replacement**, whatever the trust and the draws
are. -/
theorem several_samples (limit : ℕ) (a : Assessment Float) (source : Source)
    (env : Environment Float) : ∃ is, Samples limit a source env is := by
  rcases Nat.lt_or_ge limit a.positives.length with h | h
  · exact exists_samples source env signs_float h
  · exact ⟨a.positives, samples_positives source env h⟩

/-- Trust that is not a number is passed over, and a draw that no sum exceeds is for the last
peer. -/
example :
    let a : Assessment Float := ⟨Context.trio (.ofList []), ⟨[0 / 0, 2, 1 / 0]⟩, rfl⟩
    ((weighted 1 a).several .script ⟨fun _ => .empty, default, default, .ofList [1 / 0], []⟩).1 =
      [.named "m"] := by
  decide +kernel

end Selector

end Reputation
