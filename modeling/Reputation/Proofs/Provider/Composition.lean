import Reputation.Proofs.Number.Positive
import Reputation.Proofs.Provider.Visits

/-! # What a truncation is made of

The pre-trusted peers enter a selection first, then the peers that were most trusted before, and each
list as far as there is room and without those who are there (`Truncation.foldl_enlist_eq`). So what
is settled without a draw is two cuts (`Truncation.settled_eq`); the second follows the ranking of
the previous assessment (`Truncation.ranks_ranking`), for which the positive numbers have to be
ordered, as those of binary64 are. A context of too many peers has candidates for all places that are
left, and each place takes one draw (`Truncation.fill_eq`). The inner provider of a cache therefore
gets a context of exactly as many peers as allowed: `Provider.visit_composes`. -/

namespace Reputation

open Number

/-- A source and a shared script after some draws. -/
def Source.after {K : Type} [Number K] : ℕ → Source × Draws K → Source × Draws K
  | 0, s => s
  | n + 1, s => after n (s.1.draw s.2).2

namespace Truncation

variable {K : Type} [Number K]

/-! ### Two cuts -/

section Enlist
variable {capacity : ℕ} {ps qs : List Peer} {q : Peer}

theorem enlist_eq_self (h : capacity ≤ ps.length ∨ ps.any q.same = true) :
    enlist capacity ps q = ps := by
  unfold enlist
  rcases h with h | h
  · rw [decide_eq_false (Nat.not_lt.mpr h), Bool.false_and, if_neg Bool.false_ne_true]
  · rw [h, Bool.not_true, Bool.and_false, if_neg Bool.false_ne_true]

theorem enlist_eq_concat (hl : ps.length < capacity) (hq : ps.any q.same = false) :
    enlist capacity ps q = ps ++ [q] := by
  unfold enlist
  rw [hq, decide_eq_true hl]
  rfl

/-- Peers other than `q` are new to a selection with `q` if they are new to it without. -/
theorem filter_new_concat (hq : q.id ∉ qs.map Peer.id) :
    (qs.filter fun r => !(ps ++ [q]).any r.same) = qs.filter fun r => !ps.any r.same := by
  refine List.filter_congr fun r hr => ?_
  have hrq : r.same q = false := by
    rw [Bool.eq_false_iff, ne_eq, Peer.same_iff]
    exact fun he => hq (List.mem_map.mpr ⟨r, hr, he⟩)
  rw [List.any_append, List.any_cons, hrq, List.any_nil, Bool.or_false, Bool.or_false]

/-- **What is enlisted of a list**: the new peers, as far as there is room. -/
theorem foldl_enlist_eq (hp : ps.length ≤ capacity) (hq : Peer.Distinct qs) :
    qs.foldl (enlist capacity) ps =
      ps ++ (qs.filter fun q => !ps.any q.same).take (capacity - ps.length) := by
  induction qs generalizing ps with
  | nil => simp
  | cons q qs ih =>
    obtain ⟨hnew, hq⟩ := List.nodup_cons.mp hq
    rw [List.foldl_cons]
    cases hany : ps.any q.same with
    | true =>
      rw [enlist_eq_self (Or.inr hany), ih hp hq, List.filter_cons_of_neg (by simp [hany])]
    | false =>
      rw [List.filter_cons_of_pos (by rw [hany]; rfl)]
      rcases Nat.lt_or_ge ps.length capacity with hl | hl
      · obtain ⟨room, hroom⟩ : ∃ room, capacity = ps.length + 1 + room := Nat.exists_eq_add_of_le hl
        have hlen : (ps ++ [q]).length = ps.length + 1 := List.length_append
        have hafter : capacity - (ps.length + 1) = room := by omega
        have hbefore : capacity - ps.length = room + 1 := by omega
        rw [enlist_eq_concat hl hany, ih (hlen ▸ hl) hq, filter_new_concat hnew, hlen, hafter,
          hbefore, List.take_succ_cons, List.append_assoc, List.singleton_append]
      · have hfull : capacity - ps.length = 0 := Nat.sub_eq_zero_of_le hl
        rw [enlist_eq_self (Or.inl hl), ih hp hq, hfull, List.take_zero, List.take_zero]

end Enlist

/-! ### Ranking -/

/-- The peers of positive trust in a previous assessment. -/
def trusted (previous : Option (Assessment K)) : List (Peer × K) :=
  (previous.elim [] Assessment.toList).filter fun x => lt zero x.2

/-- **A ranking** of the peers of positive trust: the most trusted first, and of two the earlier one
first unless it is less trusted. -/
structure Ranks (previous : Option (Assessment K)) (ranked : List (Peer × K)) : Prop where
  perm : ranked.Perm (trusted previous)
  descending : ranked.Pairwise fun x y => le y.2 x.2
  stable : ∀ x y, [x, y].Sublist (trusted previous) → le y.2 x.2 → [x, y].Sublist ranked

/-- The ranking by which peers are selected. -/
def ranking (previous : Option (Assessment K)) : List (Peer × K) :=
  (trusted previous).mergeSort fun x y => le y.2 x.2

theorem ranks_ranking (hK : Ordered K) (previous : Option (Assessment K)) :
    Ranks previous (ranking previous) := by
  have hpos : ∀ x ∈ trusted previous, lt zero x.2 = true := fun x hx => (List.mem_filter.mp hx).2
  -- the order is one of the peers of positive trust only
  have hsort : ((trusted previous).attach.mergeSort fun x y => le y.1.2 x.1.2).map Subtype.val =
      ranking previous := by
    have h := List.map_mergeSort (f := Subtype.val) (l := (trusted previous).attach)
      (r := fun x y => le y.1.2 x.1.2) (s := fun x y => le y.2 x.2) fun _ _ _ _ => rfl
    rw [List.attach_map_subtype_val] at h
    exact h
  have htrans : ∀ x y z : { x // x ∈ trusted previous },
      le y.1.2 x.1.2 = true → le z.1.2 y.1.2 = true → le z.1.2 x.1.2 = true :=
    fun x y z hxy hyz =>
      hK.trans _ _ _ (hpos _ z.2) (hpos _ y.2) (hpos _ x.2) hyz hxy
  have htotal : ∀ x y : { x // x ∈ trusted previous },
      (le y.1.2 x.1.2 || le x.1.2 y.1.2) = true :=
    fun x y => Bool.or_eq_true_iff.mpr (hK.total _ _ (hpos _ y.2) (hpos _ x.2))
  refine ⟨List.mergeSort_perm _ _, ?_, fun x y hxy hle => ?_⟩
  · rw [← hsort, List.pairwise_map]
    exact List.pairwise_mergeSort htrans htotal _
  · rw [← List.attach_map_subtype_val (trusted previous)] at hxy
    obtain ⟨l, hl, he⟩ := List.sublist_map_iff.mp hxy
    obtain ⟨x, l, rfl, rfl, ht⟩ := List.map_eq_cons_iff.mp he.symm
    obtain ⟨y, l, rfl, rfl, hn⟩ := List.map_eq_cons_iff.mp ht
    obtain rfl := List.map_eq_nil_iff.mp hn
    rw [← hsort]
    exact (List.pair_sublist_mergeSort htrans htotal hle hl).map Subtype.val

/-! ### What is settled without a draw -/

/-- The pre-trusted peers that are selected. -/
def anchors (c : Context) (size : ℕ) : List Peer :=
  (c.others.filter c.preTrusted.contains).take (size - 1)

/-- The peers that are selected for their rank. -/
def favourites (c : Context) (ranked : List (Peer × K)) (size : ℕ) : List Peer :=
  (((ranked.take (size / 10)).map Prod.fst).filter fun p =>
    c.others.any p.same && !(anchors c size).any p.same).take (size - 1 - (anchors c size).length)

theorem distinct_others (c : Context) : Peer.Distinct c.others :=
  Peer.Distinct.sublist c.nodup List.filter_sublist

theorem distinct_ranking (previous : Option (Assessment K)) :
    Peer.Distinct ((ranking previous).map Prod.fst) := by
  have ht : Peer.Distinct ((trusted previous).map Prod.fst) := by
    cases previous with
    | none => exact List.nodup_nil
    | some a =>
      have hs : ((trusted (some a)).map Prod.fst).Sublist (a.toList.map Prod.fst) :=
        List.filter_sublist.map Prod.fst
      have he : a.toList.map Prod.fst = a.context.peers :=
        List.map_fst_zip (le_of_eq a.size_eq.symm)
      exact Peer.Distinct.sublist a.context.nodup (he ▸ hs)
  exact (((List.mergeSort_perm _ _).map Prod.fst).map Peer.id).nodup_iff.mpr ht

theorem settled_eq (c : Context) (previous : Option (Assessment K)) (size : ℕ) :
    settled c previous size = anchors c size ++ favourites c (ranking previous) size := by
  have ha : (c.others.filter c.preTrusted.contains).foldl (enlist (size - 1)) [] =
      anchors c size := by
    rw [foldl_enlist_eq (Nat.zero_le _) (Peer.Distinct.sublist (distinct_others c)
      List.filter_sublist)]
    simp [anchors]
  have hl : (anchors c size).length ≤ size - 1 := List.length_take_le _ _
  have hs : settled c previous size =
      ((((ranking previous).take (size / 10)).map Prod.fst).filter fun p =>
        c.others.any p.same).foldl (enlist (size - 1))
        ((c.others.filter c.preTrusted.contains).foldl (enlist (size - 1)) []) := by
    cases previous with
    | none => simp [settled, ranking, trusted]
    | some a => rfl
  have hd : Peer.Distinct (((ranking previous).take (size / 10)).map Prod.fst) :=
    Peer.Distinct.sublist (distinct_ranking previous)
      ((List.take_sublist _ _).map Prod.fst)
  rw [hs, ha, foldl_enlist_eq hl (Peer.Distinct.sublist hd List.filter_sublist),
    List.filter_filter]
  congr 2
  exact List.filter_congr fun p _ => Bool.and_comm _ _

/-! ### Draws -/

theorem length_swapRemove {ps : List Peer} {i : ℕ} (h : i < ps.length) :
    (swapRemove ps i).length + 1 = ps.length :=
  (swapRemove_perm (List.getElem?_eq_getElem h)).length_eq

/-- **Every free place takes one draw**, as long as there are candidates. -/
theorem fill_eq {room : ℕ} {candidates : List Peer} (h : room ≤ candidates.length)
    (source : Source) (draws : Draws K) :
    (fill source draws room candidates).1.length = room ∧
      (fill source draws room candidates).2 = Source.after room (source, draws) := by
  induction room generalizing candidates source draws with
  | zero => exact ⟨rfl, rfl⟩
  | succ room ih =>
    have hi : (source.index draws candidates.length).1 < candidates.length := by
      change min _ _ < _
      omega
    have hl := length_swapRemove hi
    have hroom : room ≤ (swapRemove candidates (source.index draws candidates.length).1).length := by
      omega
    obtain ⟨h1, h2⟩ := ih hroom (source.index draws candidates.length).2.1
      (source.index draws candidates.length).2.2
    unfold fill
    simp only
    rw [List.getElem?_eq_getElem hi]
    exact ⟨congrArg (· + 1) h1, h2⟩

/-! ### Room for all -/

theorem length_others (c : Context) : c.others.length + 1 = c.peers.length := by
  have h1 : c.peers.countP (fun p => p.same c.home) = 1 := by
    have h := List.count_eq_one_of_mem c.nodup c.home_mem
    rw [List.count_eq_countP, List.countP_map] at h
    exact h
  have hsum := List.length_eq_countP_add_countP (fun p : Peer => p.same c.home) (l := c.peers)
  unfold Context.others
  rw [← List.countP_eq_length_filter]
  simp only [decide_not, Bool.decide_eq_true] at hsum
  omega

/-- A context has a candidate for every peer that is not chosen. -/
theorem length_others_le (c : Context) (chosen : List Peer) :
    c.others.length ≤ chosen.length + (c.others.filter fun p => !chosen.any p.same).length := by
  set taken := c.others.filter fun p => chosen.any p.same
  have hd : (taken.map Peer.id).Nodup := Peer.Distinct.sublist (distinct_others c)
    List.filter_sublist
  have hsub : taken.map Peer.id ⊆ chosen.map Peer.id := by
    intro id hid
    obtain ⟨p, hp, rfl⟩ := List.mem_map.mp hid
    obtain ⟨q, hq, hpq⟩ := List.any_eq_true.mp (List.mem_filter.mp hp).2
    exact List.mem_map.mpr ⟨q, hq, (Peer.same_iff.mp hpq).symm⟩
  have hle : taken.length ≤ chosen.length := by
    simpa using (hd.subperm hsub).length_le
  have hsum := List.length_eq_countP_add_countP (fun p : Peer => chosen.any p.same) (l := c.others)
  simp only [List.countP_eq_length_filter, decide_not, Bool.decide_eq_true] at hsum
  rw [hsum]
  exact Nat.add_le_add_right hle _

/-! ### The composition -/

/-- **What `size` selected peers are made of**: peers settled without a draw, drawn ones and the
local one. -/
structure Composes (c : Context) (previous : Option (Assessment K)) (size : ℕ)
    (ps drawn : List Peer) : Prop where
  length : ps.length = size
  distinct : Peer.Distinct ps
  mem : ∀ p ∈ ps, p.id ∈ c.peers.map Peer.id
  parts : ∃ ranked, Ranks previous ranked ∧
    ps = anchors c size ++ favourites c ranked size ++ drawn ++ [c.home] ∧
    ∀ p ∈ drawn, p ∈ c.others ∧ ∀ q ∈ anchors c size ++ favourites c ranked size, p.id ≠ q.id

theorem id_mem_of_mem_settled {c : Context} {previous : Option (Assessment K)} {size : ℕ} {p : Peer}
    (h : p ∈ settled c previous size) : p.id ∈ c.peers.map Peer.id := by
  rw [settled_eq] at h
  rcases List.mem_append.mp h with h | h
  · have ho := List.mem_of_mem_filter (List.mem_of_mem_take h)
    exact List.mem_map_of_mem (List.mem_of_mem_filter ho)
  · have hs := (List.mem_filter.mp (List.mem_of_mem_take h)).2
    obtain ⟨q, hq, hpq⟩ := List.any_eq_true.mp (Bool.and_eq_true_iff.mp hs).1
    exact List.mem_map.mpr ⟨q, List.mem_of_mem_filter hq, (Peer.same_iff.mp hpq).symm⟩

/-- **A truncation composes `size` peers**, with one draw for each that is drawn. -/
theorem select_composes (hK : Ordered K) {c : Context} {size : ℕ} (hsize : 1 ≤ size)
    (hl : size < c.peers.length) (previous : Option (Assessment K)) (source : Source)
    (draws : Draws K) : ∃ drawn,
      Composes c previous size (select c previous size source draws).1 drawn ∧
      (select c previous size source draws).2 = Source.after drawn.length (source, draws) := by
  have hs := selection_settled c previous size
  have hmem : ∀ p ∈ settled c previous size, p.id ∈ c.peers.map Peer.id :=
    fun p hp => id_mem_of_mem_settled hp
  have hchosen := settled_eq c previous size
  set chosen := settled c previous size
  set candidates := c.others.filter fun p => !chosen.any p.same
  have hcd : Peer.Distinct candidates :=
    Peer.Distinct.sublist c.nodup (List.filter_sublist.trans List.filter_sublist)
  have hroom : size - 1 - chosen.length ≤ candidates.length := by
    have h1 := length_others c
    have h2 : c.others.length ≤ chosen.length + candidates.length := length_others_le c chosen
    omega
  obtain ⟨hlen, hafter⟩ := fill_eq hroom source draws
  obtain ⟨-, -, hsub⟩ := fill_spec (size - 1 - chosen.length) hcd source draws
  set drawn := (fill source draws (size - 1 - chosen.length) candidates).1
  have he : (select c previous size source draws).1 = chosen ++ drawn ++ [c.home] := rfl
  refine ⟨drawn, ⟨?length, (select_spec c previous hsize source draws).1, ?mem,
    ranking previous, ranks_ranking hK previous, hchosen ▸ he, fun p hp => ?drawn⟩, ?after⟩
  case length =>
    have hcl := hs.length_le
    rw [he, List.length_append, List.length_append, List.length_singleton]
    omega
  case mem =>
    rw [he]
    intro p hp
    rcases List.mem_append.mp hp with hp | hp
    · rcases List.mem_append.mp hp with hp | hp
      · exact hmem p hp
      · exact List.mem_map_of_mem (List.mem_of_mem_filter (List.mem_of_mem_filter (hsub hp)))
    · rw [List.mem_singleton.mp hp]; exact c.home_mem
  case drawn =>
    obtain ⟨ho, hn⟩ := List.mem_filter.mp (hsub hp)
    rw [Bool.not_eq_true', List.any_eq_false] at hn
    rw [← hchosen]
    exact ⟨ho, fun q hq hpq => hn q hq (Peer.same_iff.mpr hpq)⟩
  case after =>
    rw [hlen]
    exact hafter

end Truncation

namespace Provider

variable {σ : Type}

/-- **What a cache passes on**, with trust in binary64. Where it asks, the question is about the
context itself if that has at most `size` peers, and nothing is drawn; otherwise it is about the same
setting with `size` of the peers, and every peer that is drawn takes one draw. -/
theorem visit_composes {interval : UInt64} {size : ℕ} (hsize : 1 ≤ size)
    (inner : Provider Float σ) (c : Context) {s : Cache Float × σ} {env : Environment Float}
    (h : s.1.fresh? env.clock.read.1 interval = none) {v : Visit Float} {own : σ}
    (hv : visit interval size inner c s env = (v, own)) :
    ∃ q, v.inquiries = [q] ∧
      (c.peers.length ≤ size →
        q.context = c ∧ v.after.source = s.1.source ∧ q.env.draws = env.draws) ∧
      (size < c.peers.length →
        q.context.home = c.home ∧ q.context.store = c.store ∧
        q.context.preTrusted = c.preTrusted ∧ q.context.params = c.params ∧ ∃ drawn,
          Truncation.Composes c (s.1.latest.map Prod.fst) size q.context.peers drawn ∧
          (v.after.source, q.env.draws) = Source.after drawn.length (s.1.source, env.draws)) := by
  obtain ⟨cache, own₀⟩ := s
  obtain ⟨c', source, draws, answer, own', left, hb, hi⟩ :=
    exists_inquiry size c cache env inner own₀
  rw [visit_of_stale h hb hi] at hv
  cases hv
  rw [max_eq_left hsize] at hb
  refine ⟨_, rfl, fun hl => ?_, fun hl => ?_⟩
  · unfold bounded at hb
    rw [if_neg (Nat.not_lt.mpr hl)] at hb
    cases hb
    exact ⟨rfl, rfl, rfl⟩
  · obtain ⟨drawn, hcomp, hafter⟩ := Truncation.select_composes ordered_float hsize hl
      (cache.latest.map Prod.fst) cache.source env.draws
    obtain ⟨ps, source', draws', hsel⟩ : ∃ ps source' draws', Truncation.select c
        (cache.latest.map Prod.fst) size cache.source env.draws = (ps, source', draws') :=
      ⟨_, _, _, rfl⟩
    rw [hsel] at hcomp hafter
    have hhome : c.home.id ∈ ps.map Peer.id := by
      obtain ⟨ranked, -, hps, -⟩ := hcomp.parts
      change ps = _ at hps
      rw [hps]
      exact List.mem_map_of_mem (List.mem_append_right _ (List.mem_singleton_self _))
    unfold bounded Context.withPeers at hb
    rw [if_pos hl, hsel] at hb
    simp only [Context.build_eq_ok hcomp.distinct hhome] at hb
    cases hb
    exact ⟨rfl, rfl, rfl, rfl, drawn, hcomp, hafter⟩

/-- Ten of twelve peers, after two of them have earned trust, one of them without end, and the trust in
a third one is not a number. -/
theorem visit_composes_twelve :
    let peers := ["a", "b", "c", "d", "e", "f", "g", "h", "i", "j", "k", "l"].map Peer.named
    let c : Context := ⟨peers, .named "a", 0, .ofList [.named "b"], .defaults, by decide, by decide⟩
    let a : Assessment Float := ⟨c, ⟨[0, 0, 0, 0.25, 1 / 0, 0 / 0, 0, 0, 0, 0, 0, 0]⟩, rfl⟩
    let env : Environment Float :=
      { experiences := fun _ => .empty, roster := .ofList [], clock := .fixed ⟨9⟩,
        draws := .ofList [0.5, 2, -1], notices := [] }
    ∃ v own q drawn,
      visit 5 10 scripted c (⟨some (a, ⟨0⟩), .script⟩, [.ok a]) env = (v, own) ∧
      v.inquiries = [q] ∧ Truncation.Composes c (some a) 10 q.context.peers drawn ∧
      (v.after.source, q.env.draws) = Source.after drawn.length (.script, env.draws) := by
  intro peers c a env
  obtain ⟨v, own, hv⟩ : ∃ v own,
      visit 5 10 scripted c (⟨some (a, ⟨0⟩), .script⟩, [.ok a]) env = (v, own) := ⟨_, _, rfl⟩
  obtain ⟨q, hq, -, hlarge⟩ := visit_composes (by decide) scripted c
    (s := (⟨some (a, ⟨0⟩), .script⟩, [.ok a])) rfl hv
  obtain ⟨-, -, -, -, drawn, hcomp, hafter⟩ := hlarge (by decide)
  exact ⟨v, own, q, drawn, hv, hq, hcomp, hafter⟩

end Provider

end Reputation
