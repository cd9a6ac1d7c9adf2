import Reputation.Proofs.EigenTrust.Overflow
import Reputation.Proofs.Linear.Distribution

/-! # The order of the peers

Two functions `Agree` if they have equal values at peers of equal identity. Over two lists of the
same identities such functions have the same values in some order (`Peer.Agree.map_perm`), so all
that adds them up in exact arithmetic is equal. From one definition to the next this carries the
agreement through two contexts that are rearrangements of each other: from the pre-trust
(`PreTrusted.agree_share`) over the opinions, the credibility and the matrix (`Engine.agree_regard`)
to every step of the power iteration (`Engine.agree_trail`) and to where it stops
(`Engine.outcome_fresh_eq`). `Engine.compute_rearranged` puts it together. -/

namespace Reputation

open Number

namespace Peer

variable {β γ : Type}

/-- **The same values at the same peers**, whatever their endpoints. -/
def Agree (f g : Peer → β) : Prop := ∀ p q : Peer, p.id = q.id → f p = g q

/-- **The same peers in some order**, whatever their endpoints. -/
def Rearranged (ps qs : List Peer) : Prop := (ps.map Peer.id).Perm (qs.map Peer.id)

section Agree
variable {f g : Peer → β} (hf : Agree f g)
include hf

/-- Functions that agree are one function of the identity. -/
theorem Agree.exists_eq : ∃ F : String → β, f = F ∘ Peer.id ∧ g = F ∘ Peer.id := by
  refine ⟨fun s => g (named s), funext fun p => hf p _ rfl, funext fun q => ?_⟩
  exact (hf q q rfl).symm.trans (hf q (named q.id) rfl)

variable {ps qs : List Peer} (h : Rearranged ps qs)
include h

theorem Agree.map_perm : (ps.map f).Perm (qs.map g) := by
  obtain ⟨F, rfl, rfl⟩ := hf.exists_eq
  rw [← List.map_map, ← List.map_map]
  exact h.map F

/-- **Sums in any order**, of whatever may be swapped. -/
theorem Agree.foldl_eq (op : γ → β → γ) (hop : ∀ s x y, op (op s x) y = op (op s y) x) (s : γ) :
    ps.foldl (fun s p => op s (f p)) s = qs.foldl (fun s q => op s (g q)) s := by
  rw [← List.foldl_map (f := f) (g := op), ← List.foldl_map (f := g) (g := op)]
  exact (hf.map_perm h).foldl_eq' (fun x _ y _ s => hop s x y) s

end Agree

theorem Agree.filter {P Q : Peer → Bool} (hP : Agree P Q) {ps qs : List Peer}
    (h : Rearranged ps qs) : Rearranged (ps.filter P) (qs.filter Q) := by
  obtain ⟨F, rfl, rfl⟩ := hP.exists_eq
  unfold Rearranged
  rw [← List.filter_map, ← List.filter_map]
  exact h.filter F

theorem Agree.countP_eq {P Q : Peer → Bool} (hP : Agree P Q) {ps qs : List Peer}
    (h : Rearranged ps qs) : ps.countP P = qs.countP Q := by
  have hl := (hP.filter h).length_eq
  rwa [List.length_map, List.length_map, ← List.countP_eq_length_filter,
    ← List.countP_eq_length_filter] at hl

theorem Rearranged.length_eq {ps qs : List Peer} (h : Rearranged ps qs) :
    ps.length = qs.length := by
  simpa using List.Perm.length_eq h

theorem Agree.sum_eq {f g : Peer → ℚ} (hf : Agree f g) {ps qs : List Peer}
    (h : Rearranged ps qs) : Number.sum (ps.map f) = Number.sum (qs.map g) := by
  rw [sum_rat, sum_rat]
  exact (hf.map_perm h).sum_eq

end Peer

/-- **Rearrangements of a context**: the same peers in some order, and the same setting. The local
peer plays no part. -/
structure Context.Rearranges (c c' : Context) : Prop where
  peers : Peer.Rearranged c.peers c'.peers
  preTrusted : ∀ p, c.preTrusted.contains p = c'.preTrusted.contains p
  params : c.params = c'.params

/-! ### Scaling and distances -/

namespace Vec

variable {ps qs : List Peer} (h : Peer.Rearranged ps qs) {f f' g g' : Peer → ℚ}
include h

theorem agree_scaled (hf : Peer.Agree f f') : Peer.Agree (scaled ps f) (scaled qs f') := by
  intro p q hpq
  have ht : Number.sum (ps.map fun p => Number.abs (f p)) =
      Number.sum (qs.map fun q => Number.abs (f' q)) :=
    Peer.Agree.sum_eq (fun p q hpq => congrArg Number.abs (hf p q hpq)) h
  unfold scaled
  rw [ht, hf p q hpq]

theorem spread_eq (hf : Peer.Agree f f') (hg : Peer.Agree g g') :
    spread ps f g = spread qs f' g' :=
  Peer.Agree.sum_eq (fun p q hpq => by rw [hf p q hpq, hg p q hpq]) h

end Vec

theorem PowerIteration.agree_blend {ps qs : List Peer} (h : Peer.Rearranged ps qs)
    {M M' : Peer → Peer → ℚ} (hM : ∀ p q : Peer, p.id = q.id → Peer.Agree (M p) (M' q))
    {f f' t t' : Peer → ℚ} (hf : Peer.Agree f f') (alpha : ℚ) (ht : Peer.Agree t t') :
    Peer.Agree (blend ps M f alpha t) (blend qs M' f' alpha t') := by
  intro p q hpq
  have hin : Matrix.inflow ps t M p = Matrix.inflow qs t' M' q := by
    refine Peer.Agree.foldl_eq (f := fun i => (t i, M i p)) (g := fun i => (t' i, M' i q))
      (fun i j hij => ?_) h (fun s x => if eq x.1 zero then s else s + x.2 * x.1)
      (fun s x y => ?_) _
    · exact Prod.ext (ht i j hij) (hM i j hij p q hpq)
    · split_ifs <;> ring
  unfold blend
  rw [hin, hf p q hpq]

theorem Feedback.agree_discounted {ps qs : List Peer} (h : Peer.Rearranged ps qs) {p p' : Peer}
    (hp : p.id = p'.id) {f f' g g' : Peer → ℚ} (hf : Peer.Agree f f') (hg : Peer.Agree g g') :
    Peer.Agree (discounted ps p f g) (discounted qs p' f' g') := by
  have hw : Peer.Agree (weighted p f g) (weighted p' f' g') := by
    intro q q' hq
    unfold weighted
    rw [hf q q' hq, hg q q' hq, Peer.same_congr hq hp]
  have hother : Peer.Agree (fun r => !r.same p) fun r => !r.same p' :=
    fun r s hrs => congrArg _ (Peer.same_congr hrs hp)
  intro q q' hq
  unfold discounted
  rw [hw.sum_eq (hother.filter h), hf q q' hq, Vec.agree_scaled h hw q q' hq]

/-- Whether third parties can be counted does not depend on the order of the peers. -/
theorem Experiences.countable_rearranged {ps qs : List Peer} (h : Peer.Rearranged ps qs)
    {store store' : Experiences} (hs : store'.peek = store.peek) :
    store.Countable ps ↔ store'.Countable qs := by
  have hmono : ∀ {ps qs : List Peer} {store store' : Experiences}, Peer.Rearranged ps qs →
      store'.peek = store.peek → store.Countable ps → store'.Countable qs := by
    intro ps qs store store' h hs hc p hp q hq r hr hpq hrp hrq
    obtain ⟨p', hp', hpp⟩ := List.mem_map.mp (h.mem_iff.mpr (List.mem_map_of_mem hp))
    obtain ⟨q', hq', hqq⟩ := List.mem_map.mp (h.mem_iff.mpr (List.mem_map_of_mem hq))
    obtain ⟨r', hr', hrr⟩ := List.mem_map.mp (h.mem_iff.mpr (List.mem_map_of_mem hr))
    rw [hs, ← store.peek_congr hpp hrr]
    exact hc p' hp' q' hq' r' hr' (by rwa [hpp, hqq]) (by rwa [hrr, hpp]) (by rwa [hrr, hqq])
  exact ⟨hmono h hs, hmono h.symm hs.symm⟩

/-! ### The matrix -/

section Context
variable {c c' : Context} (h : c.Rearranges c')
include h

theorem PreTrusted.agree_share :
    Peer.Agree (c.preTrusted.share c.peers : Peer → ℚ) (c'.preTrusted.share c'.peers) := by
  have hcontains : Peer.Agree c.preTrusted.contains c'.preTrusted.contains :=
    fun p q hpq => (h.preTrusted p).trans (c'.preTrusted.contains_congr hpq)
  intro p q hpq
  exact share_congr h.peers.length_eq (hcontains.countP_eq h.peers) (hcontains p q hpq)

variable {store store' : Experiences} (hs : store'.peek = store.peek)
include hs

theorem LocalTrust.agree_opinion (s : Scoring ℚ) {o o' : Peer} (ho : o.id = o'.id) :
    Peer.Agree (opinion s store c o) (opinion s store' c' o') := by
  have hpeek : ∀ p q : Peer, p.id = q.id → store.peek o p = store'.peek o' q :=
    fun p q hpq => by rw [hs]; exact store.peek_congr ho hpq
  have hw : weight s store o c.peers = weight s store' o' c'.peers := by
    have hp : Peer.Agree (fun p => !p.same o) fun p => !p.same o' :=
      fun p q hpq => congrArg _ (Peer.same_congr hpq ho)
    exact Peer.Agree.foldl_eq (fun p q hpq => congrArg s.trust (hpeek p q hpq))
      (hp.filter h.peers) (· + ·) (fun s x y => add_right_comm s x y) _
  intro p q hpq
  unfold opinion
  rw [hw, PreTrusted.agree_share h p q hpq, Peer.same_congr hpq ho, hpeek p q hpq]

theorem Feedback.agree_credibility {p p' : Peer} (hp : p.id = p'.id) :
    Peer.Agree (credibility store c.peers p : Peer → ℚ) (credibility store' c'.peers p') := by
  intro q q' hq
  have hw : (witnesses store c.peers p q).Perm (witnesses store' c'.peers p' q') := by
    have hf : Peer.Agree (fun r => !r.same p && !r.same q) fun r => !r.same p' && !r.same q' :=
      fun r s hrs => by simp only [Peer.same_congr hrs hp, Peer.same_congr hrs hq]
    refine Peer.Agree.map_perm (fun r s hrs => ?_) (hf.filter h.peers)
    rw [hs, store.peek_congr hp hrs, store.peek_congr hq hrs]
  have ht : ∀ (x : ℚ × ℕ) e f, tally (tally x e) f = tally (tally x f) e := by
    intro x e f
    unfold tally
    split_ifs
    · exact Prod.ext (add_right_comm _ _ _) rfl
    all_goals rfl
  unfold credibility agreement
  rw [Peer.same_congr hq hp, hw.foldl_eq' fun e _ f _ x => ht x e f]

theorem Engine.agree_regard (e : Engine ℚ) {p p' : Peer} (hp : p.id = p'.id) :
    Peer.Agree (e.regard store c p) (e.regard store' c' p') := by
  have hf := Vec.agree_scaled h.peers (LocalTrust.agree_opinion h hs e.scoring hp)
  unfold regard
  split_ifs
  · exact Feedback.agree_discounted h.peers hp hf (Feedback.agree_credibility h hs hp)
  · exact hf

/-- **Every step of the power iteration gives every peer the same trust.** -/
theorem Engine.agree_trail (e : Engine ℚ) (k : ℕ) :
    Peer.Agree (e.trail store c k) (e.trail store' c' k) := by
  induction k with
  | zero => exact PreTrusted.agree_share h
  | succ k ih =>
    rw [trail_succ, trail_succ, h.params]
    exact PowerIteration.agree_blend h.peers (fun p q hpq => agree_regard h hs e hpq)
      (PreTrusted.agree_share h) _ ih

/-- **Both iterations stop after the same step**, and for the same reason. -/
theorem Engine.outcome_fresh_eq (e : Engine ℚ) {m m' : Matrix ℚ}
    (hm : m.Tabulates c.peers (e.regard store c))
    (hm' : m'.Tabulates c'.peers (e.regard store' c')) :
    (fresh c m hm.rows_eq hm.cols_eq).outcome = (fresh c' m' hm'.rows_eq hm'.cols_eq).outcome := by
  have hlimit : (fresh c m hm.rows_eq hm.cols_eq).limit =
      (fresh c' m' hm'.rows_eq hm'.cols_eq).limit :=
    congrArg (fun p => (tuning p : Tuning ℚ).limit) h.params
  refine PowerIteration.outcome_congr hlimit fun k => ?_
  have hepsilon : (fresh c m hm.rows_eq hm.cols_eq).epsilon =
      (fresh c' m' hm'.rows_eq hm'.cols_eq).epsilon :=
    congrArg (fun p => (tuning p : Tuning ℚ).epsilon) h.params
  have hchange : (fresh c m hm.rows_eq hm.cols_eq).change k =
      (fresh c' m' hm'.rows_eq hm'.cols_eq).change k := by
    rw [PowerIteration.change_tabulate hm (PreTrusted.distribution_eq _ _),
      PowerIteration.change_tabulate hm' (PreTrusted.distribution_eq _ _)]
    exact Vec.spread_eq h.peers (agree_trail h hs e (k + 1)) (agree_trail h hs e k)
  unfold PowerIteration.Settles
  rw [hepsilon, hchange]

end Context

namespace Engine

/-- **The order of the peers does not matter.** Over two contexts of the same peers in some order,
whatever is stored, both computations give every peer the same trust and the same notices, after the
same number of steps; or the calls of a peer with a third one overflow, and both stop. -/
theorem compute_rearranged (a : Algorithm) {c c' : Context} (h : c.Rearranges c')
    {store store' : Experiences} (hs : store'.peek = store.peek) (o o' : Opinions ℚ) :
    ((a = .eigenTrustPlusPlus → store.Countable c.peers) →
      ∃ r r' notices o₁ o₁' store₁ store₁' n,
        (ofAlgorithm a).compute c o store = .ok ((r, notices), o₁, store₁) ∧
        (ofAlgorithm a).compute c' o' store' = .ok ((r', notices), o₁', store₁') ∧
        r.context = c ∧ r'.context = c' ∧
        (r.toList.map fun x => (x.1.id, x.2)).Perm (r'.toList.map fun x => (x.1.id, x.2)) ∧
        (ofAlgorithm a).steps c o store = .ok n ∧ (ofAlgorithm a).steps c' o' store' = .ok n) ∧
    (¬ (a = .eigenTrustPlusPlus → store.Countable c.peers) →
      (ofAlgorithm a).compute c o store = .error (.fault .counterOverflow) ∧
      (ofAlgorithm a).compute c' o' store' = .error (.fault .counterOverflow)) := by
  have hcount := Experiences.countable_rearranged h.peers hs
  refine ⟨fun hc => ?_, fun hc => ?_⟩
  · obtain ⟨m, hm, p, o₁, store₁, h₁, -, hl, hn, hv⟩ := settle_spec a c o store hc
    obtain ⟨m', hm', p', o₁', store₁', h₁', -, hl', hn', hv'⟩ :=
      settle_spec a c' o' store' fun ha => hcount.mp (hc ha)
    have hout := outcome_fresh_eq h hs (ofAlgorithm a) hm hm'
    rw [← hout] at h₁' hn' hv'
    set k := (fresh c m hm.rows_eq hm.cols_eq).outcome.2
    have hreport : report c' p' = report c p := by
      unfold report
      rw [hv', hv, hl', hl, h.params]
    have hagree := Vec.agree_scaled h.peers (agree_trail h hs (ofAlgorithm a) k)
    have hr := compute_of_settle h₁ (Vec.size_tabulate _ _)
    have hr' := compute_of_settle h₁' (Vec.size_tabulate _ _)
    rw [hreport] at hr'
    refine ⟨_, _, _, _, _, _, _, k, hr, hr', rfl, rfl, ?_, ?_, ?_⟩
    · rw [Assessment.toList_eq rfl, Assessment.toList_eq rfl, List.map_map, List.map_map]
      exact Peer.Agree.map_perm (fun p q hpq => Prod.ext hpq (hagree p q hpq)) h.peers
    · unfold steps
      rw [h₁, ← hn]
      rfl
    · unfold steps
      rw [h₁', ← hn']
      rfl
  · obtain ⟨ha, hn⟩ := Classical.not_imp.mp hc
    subst ha
    exact ⟨compute_eq_error c o hn, compute_eq_error c' o' (mt hcount.mpr hn)⟩

/-- Three peers in two orders, of which the second has another local peer. -/
theorem compute_rearranged_trio :
    let c := Context.trio .defaults
    let c' : Context := ⟨[.named "m", .named "a", .named "b"], .named "m", 0,
      .ofList [.named "a"], .defaults, by decide, by decide⟩
    let store := (Experiences.empty.put (.named "a") (.named "b") ⟨3, 1, .zero⟩).put
      (.named "b") (.named "m") ⟨2, 5, .zero⟩
    c.Rearranges c' ∧ store.Countable c.peers ∧
      ∃ r r' notices o₁ o₁' store₁ store₁' n,
        (ofAlgorithm .eigenTrustPlusPlus).compute c .empty store =
          .ok ((r, notices), o₁, store₁) ∧
        (ofAlgorithm .eigenTrustPlusPlus).compute c' .empty store =
          .ok ((r', notices), o₁', store₁') ∧
        (r.toList.map fun x => (x.1.id, (x.2 : ℚ))).Perm
          (r'.toList.map fun x => (x.1.id, x.2)) ∧
        (ofAlgorithm .eigenTrustPlusPlus).steps c (.empty : Opinions ℚ) store = .ok n ∧
        (ofAlgorithm .eigenTrustPlusPlus).steps c' (.empty : Opinions ℚ) store = .ok n := by
  intro c c' store
  have h : c.Rearranges c' := ⟨by unfold Peer.Rearranged; decide, fun _ => rfl, rfl⟩
  have hs : store.Countable c.peers := Experiences.countable_of_fits (Experiences.fits_put
    (Experiences.fits_put Experiences.fits_empty (by decide) _ _) (by decide) _ _) _
  obtain ⟨r, r', notices, o₁, o₁', store₁, store₁', n, hr, hr', -, -, hp, hn, hn'⟩ :=
    (compute_rearranged .eigenTrustPlusPlus h (rfl : store.peek = store.peek) .empty .empty).1
      fun _ => hs
  exact ⟨h, hs, r, r', notices, o₁, o₁', store₁, store₁', n, hr, hr', hp, hn, hn'⟩

end Engine

end Reputation
