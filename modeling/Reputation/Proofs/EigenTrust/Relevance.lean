import Reputation.Proofs.EigenTrust.Engine
import Reputation.Proofs.Number.Exact

/-! # What a computation reads

Two lists of peers are `Aligned` if they have the same identities in the same order. Functions that
`AgreeOn` them have the same values there in the same order (`Peer.AgreeOn.map_eq`), so every sum
over the one list is the sum over the other, rounding included. A computation of trust reads of a
context the identities, which of its peers are pre-trusted and three parameters, and of the store how
much trust an experience earns (`Algorithm.Alike`), for two different peers of the context only. Two
questions that have all this in common are `Engine.Indistinct`: the same opinions
(`LocalTrust.agreeOn_opinion`), the same matrix (`Engine.agreeOn_regard`) and the same steps
(`Engine.agreeOn_trail`) make the same trust, `Engine.compute_indistinct`. -/

namespace Reputation

open Number

/-! ### Aligned lists -/

namespace Peer

variable {β γ : Type}

/-- The same identities in the same order. -/
def Aligned (ps qs : List Peer) : Prop := ps.map Peer.id = qs.map Peer.id

/-- **The same values at the same peers** of two lists. -/
def AgreeOn (ps qs : List Peer) (f g : Peer → β) : Prop :=
  ∀ p ∈ ps, ∀ q ∈ qs, p.id = q.id → f p = g q

section Aligned
variable {ps qs : List Peer} (h : Aligned ps qs)
include h

theorem Aligned.length_eq : ps.length = qs.length := by
  have hl := congrArg List.length h
  rwa [List.length_map, List.length_map] at hl

theorem AgreeOn.map_eq {f g : Peer → β} (hf : AgreeOn ps qs f g) : ps.map f = qs.map g := by
  refine List.ext_getElem (by simpa using h.length_eq) fun i hi hi' => ?_
  rw [List.length_map] at hi hi'
  have hid : (ps.map Peer.id)[i]? = (qs.map Peer.id)[i]? := congrArg (·[i]?) h
  rw [List.getElem?_map, List.getElem?_map, List.getElem?_eq_getElem hi,
    List.getElem?_eq_getElem hi', Option.map_some, Option.map_some, Option.some.injEq] at hid
  rw [List.getElem_map, List.getElem_map]
  exact hf _ (List.getElem_mem hi) _ (List.getElem_mem hi') hid

/-- **Sums in one order**, whatever is added up. -/
theorem AgreeOn.foldl_eq {f g : Peer → β} (hf : AgreeOn ps qs f g) (op : γ → β → γ) (s : γ) :
    ps.foldl (fun s p => op s (f p)) s = qs.foldl (fun s q => op s (g q)) s := by
  rw [← List.foldl_map (f := f) (g := op), ← List.foldl_map (f := g) (g := op), hf.map_eq h]

theorem AgreeOn.countP_eq {P Q : Peer → Bool} (hP : AgreeOn ps qs P Q) :
    ps.countP P = qs.countP Q := by
  have hc : ∀ (R : Peer → Bool) (rs : List Peer), rs.countP R = (rs.map R).countP (· = true) := by
    intro R rs
    rw [List.countP_map]
    exact List.countP_congr fun r _ => by simp
  rw [hc P, hc Q, hP.map_eq h]

theorem AgreeOn.filter {P Q : Peer → Bool} (hP : AgreeOn ps qs P Q) :
    Aligned (ps.filter P) (qs.filter Q) := by
  have hf : ∀ (R : Peer → Bool) (rs : List Peer), (rs.filter R).map Peer.id =
      ((rs.map fun r => (R r, r.id)).filter Prod.fst).map Prod.snd := by
    intro R rs
    rw [List.filter_map, List.map_map]
    rfl
  have hm : ps.map (fun p => (P p, p.id)) = qs.map fun q => (Q q, q.id) :=
    AgreeOn.map_eq h fun p hp q hq hpq => Prod.ext (hP p hp q hq hpq) hpq
  unfold Aligned
  rw [hf P, hf Q, hm]

end Aligned

theorem AgreeOn.mono {ps qs ps' qs' : List Peer} {f g : Peer → β} (hf : AgreeOn ps qs f g)
    (hp : ps' ⊆ ps) (hq : qs' ⊆ qs) : AgreeOn ps' qs' f g :=
  fun p hps q hqs => hf p (hp hps) q (hq hqs)

end Peer

/-! ### Operations on functions that agree -/

section Operations
variable {K : Type} [Number K] {ps qs : List Peer} (h : Peer.Aligned ps qs)
include h

theorem Vec.agreeOn_scaled {f g : Peer → K} (hf : Peer.AgreeOn ps qs f g) :
    Peer.AgreeOn ps qs (scaled ps f) (scaled qs g) := by
  have ht : (ps.map fun p => Number.abs (f p)) = qs.map fun q => Number.abs (g q) :=
    Peer.AgreeOn.map_eq h fun p hp q hq hpq => congrArg Number.abs (hf p hp q hq hpq)
  intro p hp q hq hpq
  unfold scaled
  rw [ht, hf p hp q hq hpq]

theorem Vec.spread_eq_of_agreeOn {f f' g g' : Peer → K} (hf : Peer.AgreeOn ps qs f f')
    (hg : Peer.AgreeOn ps qs g g') : spread ps f g = spread qs f' g' := by
  unfold spread
  refine congrArg Number.sum (Peer.AgreeOn.map_eq h fun p hp q hq hpq => ?_)
  rw [hf p hp q hq hpq, hg p hp q hq hpq]

theorem PowerIteration.agreeOn_blend {M M' : Peer → Peer → K}
    (hM : ∀ p ∈ ps, ∀ q ∈ qs, p.id = q.id → Peer.AgreeOn ps qs (M p) (M' q)) {f f' t t' : Peer → K}
    (hf : Peer.AgreeOn ps qs f f') (alpha : K) (ht : Peer.AgreeOn ps qs t t') :
    Peer.AgreeOn ps qs (blend ps M f alpha t) (blend qs M' f' alpha t') := by
  intro p hp q hq hpq
  have hin : Matrix.inflow ps t M p = Matrix.inflow qs t' M' q := by
    refine Peer.AgreeOn.foldl_eq h (f := fun i => (t i, M i p)) (g := fun j => (t' j, M' j q))
      (fun i hi j hj hij => ?_) (fun s x => if eq x.1 zero then s else s + x.2 * x.1) _
    exact Prod.ext (ht i hi j hj hij) (hM i hi j hj hij p hp q hq hpq)
  unfold blend
  rw [hin, hf p hp q hq hpq]

theorem Feedback.agreeOn_discounted {p p' : Peer} (hp : p.id = p'.id) {f f' g g' : Peer → K}
    (hf : Peer.AgreeOn ps qs f f') (hg : Peer.AgreeOn ps qs g g') :
    Peer.AgreeOn ps qs (discounted ps p f g) (discounted qs p' f' g') := by
  have hs : ∀ q q' : Peer, q.id = q'.id → q.same p = q'.same p' :=
    fun q q' hq => Peer.same_congr hq hp
  have hw : Peer.AgreeOn ps qs (weighted p f g) (weighted p' f' g') := by
    intro q hq q' hq' hqq
    unfold weighted
    rw [hf q hq q' hq' hqq, hg q hq q' hq' hqq, hs q q' hqq]
  have hothers : Peer.Aligned (ps.filter fun r => !r.same p) (qs.filter fun r => !r.same p') :=
    Peer.AgreeOn.filter h fun q _ q' _ hqq => congrArg _ (hs q q' hqq)
  have hsum := Peer.AgreeOn.map_eq hothers
    (hw.mono (List.filter_subset_self _) (List.filter_subset_self _))
  intro q hq q' hq' hqq
  unfold discounted
  rw [hsum, hf q hq q' hq' hqq, Vec.agreeOn_scaled h hw q hq q' hq' hqq]

end Operations

/-! ### What an algorithm reads of an experience -/

namespace Algorithm

/-- **Experiences that an algorithm cannot tell apart.** The first one reads how many more successes
there are than failures, if there are more; the second one the successes, and whether there was a
call. -/
def Alike : Algorithm → Experience → Experience → Prop
  | .eigenTrust, e, f =>
    e.successes.toNat - e.failures.toNat = f.successes.toNat - f.failures.toNat
  | .eigenTrustPlusPlus, e, f => e.successes = f.successes ∧ e.used = f.used

instance (a : Algorithm) (e f : Experience) : Decidable (a.Alike e f) := by
  cases a <;> unfold Alike <;> infer_instance

variable {K : Type} [Number K] {e f : Experience}

theorem Alike.trust_eq {a : Algorithm} (h : a.Alike e f) :
    (Engine.ofAlgorithm a : Engine K).scoring.trust e =
      (Engine.ofAlgorithm a : Engine K).scoring.trust f := by
  cases a with
  | eigenTrust =>
    change (Number.ofNat (e.successes.toNat - e.failures.toNat) : K) =
      Number.ofNat (f.successes.toNat - f.failures.toNat)
    exact congrArg Number.ofNat h
  | eigenTrustPlusPlus =>
    change (Number.ofNat e.successes.toNat : K) = Number.ofNat f.successes.toNat
    rw [h.1]

theorem Alike.tally_eq {e' f' : Experience} (h : eigenTrustPlusPlus.Alike e f)
    (h' : eigenTrustPlusPlus.Alike e' f') :
    (fun x : K × ℕ => Feedback.tally x (e, e')) = fun x => Feedback.tally x (f, f') := by
  funext x
  unfold Feedback.tally
  simp only [h.1, h.2, h'.1, h'.2]

end Algorithm

/-! ### Two questions -/

/-- **Questions that no computation can tell apart**: the same peers in the same order, of whom the
same are pre-trusted, the same values of the three parameters, and for every two different peers
experiences that are alike. -/
structure Engine.Indistinct (K : Type) [Number K] (a : Algorithm) (c c' : Context)
    (store store' : Experiences) : Prop where
  peers : Peer.Aligned c.peers c'.peers
  preTrusted : ∀ p ∈ c.peers, c.preTrusted.contains p = c'.preTrusted.contains p
  limit : (tuning c.params : Tuning K).limit = (tuning c'.params : Tuning K).limit
  alpha : (tuning c.params : Tuning K).alpha = (tuning c'.params : Tuning K).alpha
  epsilon : (tuning c.params : Tuning K).epsilon = (tuning c'.params : Tuning K).epsilon
  alike : ∀ p ∈ c.peers, ∀ q ∈ c.peers, p.id ≠ q.id → a.Alike (store.peek p q) (store'.peek p q)

section Indistinct
variable {K : Type} [Number K] {a : Algorithm} {c c' : Context} {store store' : Experiences}
  (h : Engine.Indistinct K a c c' store store')
include h

theorem PreTrusted.agreeOn_share :
    Peer.AgreeOn c.peers c'.peers (c.preTrusted.share c.peers : Peer → K)
      (c'.preTrusted.share c'.peers) := by
  have hc : Peer.AgreeOn c.peers c'.peers c.preTrusted.contains c'.preTrusted.contains :=
    fun p hp q _ hpq => (h.preTrusted p hp).trans (c'.preTrusted.contains_congr hpq)
  intro p hp q hq hpq
  exact share_congr h.peers.length_eq (hc.countP_eq h.peers) (hc p hp q hq hpq)

section Observer
variable {o o' : Peer} (hoc : o ∈ c.peers) (ho : o.id = o'.id)
include hoc ho

/-- Two peers of the first context and their doubles in the second one. -/
theorem Engine.Indistinct.alike_peek {p q : Peer} (hp : p ∈ c.peers) (hpo : p.id ≠ o.id)
    (hpq : p.id = q.id) : a.Alike (store.peek o p) (store'.peek o' q) := by
  rw [← store'.peek_congr ho hpq]
  exact h.alike o hoc p hp (Ne.symm hpo)

omit h hoc in
theorem Peer.agreeOn_others (ps qs : List Peer) :
    Peer.AgreeOn ps qs (fun p => !p.same o) fun q => !q.same o' :=
  fun _ _ _ _ hpq => congrArg _ (Peer.same_congr hpq ho)

theorem LocalTrust.weight_eq_of_indistinct :
    (weight (Engine.ofAlgorithm a).scoring store o c.peers : K) =
      weight (Engine.ofAlgorithm a).scoring store' o' c'.peers := by
  refine Peer.AgreeOn.foldl_eq ((Peer.agreeOn_others ho _ _).filter h.peers)
    (fun p hp q _ hpq => ?_) (· + ·) _
  obtain ⟨hp, hpo⟩ := List.mem_filter.mp hp
  simp only [Bool.not_eq_true', Bool.eq_false_iff, ne_eq, Peer.same_iff] at hpo
  exact (h.alike_peek hoc ho hp hpo hpq).trust_eq

theorem LocalTrust.agreeOn_opinion :
    Peer.AgreeOn c.peers c'.peers (opinion (Engine.ofAlgorithm a).scoring store c o : Peer → K)
      (opinion (Engine.ofAlgorithm a).scoring store' c' o') := by
  intro p hp q hq hpq
  have hs : p.same o = q.same o' := Peer.same_congr hpq ho
  unfold opinion
  rw [weight_eq_of_indistinct h hoc ho, PreTrusted.agreeOn_share h p hp q hq hpq, ← hs]
  cases hpo : p.same o with
  | true => rfl
  | false =>
    have hne : p.id ≠ o.id := fun he => Bool.false_ne_true (hpo ▸ Peer.same_iff.mpr he)
    rw [(h.alike_peek hoc ho hp hne hpq).trust_eq]

end Observer

theorem Feedback.agreeOn_credibility (ha : a = .eigenTrustPlusPlus) {p p' : Peer}
    (hpc : p ∈ c.peers) (hp : p.id = p'.id) :
    Peer.AgreeOn c.peers c'.peers (credibility store c.peers p : Peer → K)
      (credibility store' c'.peers p') := by
  subst ha
  intro q hqc q' _ hq
  have hthird : Peer.AgreeOn c.peers c'.peers (fun r => !r.same p && !r.same q)
      fun r => !r.same p' && !r.same q' :=
    fun r _ r' _ hr => by simp only [Peer.same_congr hr hp, Peer.same_congr hr hq]
  -- each third peer changes the tally in the same way
  have htally : Peer.AgreeOn (c.peers.filter fun r => !r.same p && !r.same q)
      (c'.peers.filter fun r => !r.same p' && !r.same q')
      (fun r => fun x : K × ℕ => tally x (store.peek p r, store.peek q r))
      fun r => fun x => tally x (store'.peek p' r, store'.peek q' r) := by
    intro r hr r' _ hrr
    obtain ⟨hr, hne⟩ := List.mem_filter.mp hr
    simp only [Bool.and_eq_true, Bool.not_eq_true', Bool.eq_false_iff, ne_eq, Peer.same_iff] at hne
    exact (h.alike_peek hpc hp hr hne.1 hrr).tally_eq (h.alike_peek hqc hq hr hne.2 hrr)
  have hfold := htally.foldl_eq (hthird.filter h.peers) (fun x g => g x) (zero, 0)
  unfold credibility agreement witnesses
  rw [Peer.same_congr hq hp, List.foldl_map, List.foldl_map, hfold]

namespace Engine

/-- **The same matrix**, cell by cell. -/
theorem agreeOn_regard {p p' : Peer} (hpc : p ∈ c.peers) (hp : p.id = p'.id) :
    Peer.AgreeOn c.peers c'.peers ((ofAlgorithm a : Engine K).regard store c p)
      ((ofAlgorithm a).regard store' c' p') := by
  have hf := Vec.agreeOn_scaled h.peers (LocalTrust.agreeOn_opinion (K := K) h hpc hp)
  cases ha : a with
  | eigenTrust => rw [ha] at hf; exact hf
  | eigenTrustPlusPlus =>
    have hg := Feedback.agreeOn_credibility (K := K) h ha hpc hp
    rw [ha] at hf
    exact Feedback.agreeOn_discounted h.peers hp hf hg

/-- **The same trust after every step.** -/
theorem agreeOn_trail (k : ℕ) :
    Peer.AgreeOn c.peers c'.peers ((ofAlgorithm a : Engine K).trail store c k)
      ((ofAlgorithm a).trail store' c' k) := by
  induction k with
  | zero => exact PreTrusted.agreeOn_share h
  | succ k ih =>
    rw [trail_succ, trail_succ, h.alpha]
    exact PowerIteration.agreeOn_blend h.peers (fun p hp q _ hpq => agreeOn_regard h hp hpq)
      (PreTrusted.agreeOn_share h) _ ih

/-- **The same last step.** -/
theorem outcome_eq_of_indistinct {m m' : Matrix K}
    (hm : m.Tabulates c.peers ((ofAlgorithm a).regard store c))
    (hm' : m'.Tabulates c'.peers ((ofAlgorithm a).regard store' c')) :
    (fresh c m hm.rows_eq hm.cols_eq).outcome = (fresh c' m' hm'.rows_eq hm'.cols_eq).outcome := by
  refine PowerIteration.outcome_congr h.limit fun k => ?_
  have hepsilon : (fresh c m hm.rows_eq hm.cols_eq).epsilon =
      (fresh c' m' hm'.rows_eq hm'.cols_eq).epsilon := h.epsilon
  have hchange : (fresh c m hm.rows_eq hm.cols_eq).change k =
      (fresh c' m' hm'.rows_eq hm'.cols_eq).change k := by
    rw [PowerIteration.change_tabulate hm (PreTrusted.distribution_eq _ _),
      PowerIteration.change_tabulate hm' (PreTrusted.distribution_eq _ _)]
    exact Vec.spread_eq_of_agreeOn h.peers (agreeOn_trail h (k + 1)) (agreeOn_trail h k)
  unfold PowerIteration.Settles
  rw [hepsilon, hchange]

end Engine

end Indistinct

namespace Engine

variable {K : Type} [Number K]

/-- **What is not read has no influence.** Two questions that agree in what the algorithm reads have
the same trust values as their answers, in any arithmetic and whatever was computed before. What a
peer has seen of itself or of peers outside of the context, the times of the experiences, further
failures, endpoints, the local peer and pre-trusted peers outside of the context are not read. -/
theorem compute_indistinct (a : Algorithm) {c c' : Context} {store store' : Experiences}
    (h : Indistinct K a c c' store store')
    (hs : a = .eigenTrustPlusPlus → store.Countable c.peers)
    (hs' : a = .eigenTrustPlusPlus → store'.Countable c'.peers) (o o' : Opinions K) :
    ∃ r r' notices notices' o₁ o₁' store₁ store₁',
      (ofAlgorithm a).compute c o store = .ok ((r, notices), o₁, store₁) ∧
      (ofAlgorithm a).compute c' o' store' = .ok ((r', notices'), o₁', store₁') ∧
      r.context = c ∧ r'.context = c' ∧ r.trust = r'.trust := by
  obtain ⟨m, hm, p, o₁, store₁, h₁, -⟩ := settle_spec a c o store hs
  obtain ⟨m', hm', p', o₁', store₁', h₁', -⟩ := settle_spec a c' o' store' hs'
  rw [← outcome_eq_of_indistinct h hm hm'] at h₁'
  have hr := compute_of_settle h₁ (Vec.size_tabulate _ _)
  have hr' := compute_of_settle h₁' (Vec.size_tabulate _ _)
  refine ⟨_, _, _, _, o₁, o₁', store₁, store₁', hr, hr', rfl, rfl, ?_⟩
  have hvalues := Peer.AgreeOn.map_eq h.peers (Vec.agreeOn_scaled h.peers
    (agreeOn_trail h (fresh c m hm.rows_eq hm.cols_eq).outcome.2))
  exact congrArg Vec.mk hvalues

/-- The same three peers at other endpoints, with another local peer, a pre-trusted peer from
outside, more failures and later times, and a peer who praises itself. -/
theorem compute_indistinct_trio :
    let c := Context.trio .defaults
    let c' : Context := ⟨[⟨"a", some "x:1"⟩, .named "b", ⟨"m", some "y:2"⟩], .named "m", 0,
      .ofList [.named "z", .named "a"], .defaults, by decide, by decide⟩
    let store := (Experiences.empty.put (.named "a") (.named "b") ⟨3, 1, .zero⟩).put
      (.named "b") (.named "m") ⟨0, 5, .zero⟩
    let store' := (((Experiences.empty.put (.named "a") (.named "b") ⟨3, 9, ⟨70⟩⟩).put
      (.named "b") (.named "m") ⟨0, 1, ⟨80⟩⟩).put (.named "m") (.named "m") ⟨50, 0, .zero⟩).put
      (.named "z") (.named "m") ⟨50, 0, .zero⟩
    Indistinct ℚ .eigenTrustPlusPlus c c' store store' ∧ store.Countable c.peers ∧
      store'.Countable c'.peers ∧ ∃ r r' notices notices' o₁ o₁' store₁ store₁',
        (ofAlgorithm .eigenTrustPlusPlus).compute c (.empty : Opinions ℚ) store =
          .ok ((r, notices), o₁, store₁) ∧
        (ofAlgorithm .eigenTrustPlusPlus).compute c' (.empty : Opinions ℚ) store' =
          .ok ((r', notices'), o₁', store₁') ∧ r.trust = r'.trust := by
  intro c c' store store'
  have hs : ∀ p q, (store.peek p q).Fits := Experiences.fits_put
    (Experiences.fits_put Experiences.fits_empty (by decide) _ _) (by decide) _ _
  have hs' : ∀ p q, (store'.peek p q).Fits := Experiences.fits_put (Experiences.fits_put
    (Experiences.fits_put (Experiences.fits_put Experiences.fits_empty (by decide) _ _)
      (by decide) _ _) (by decide) _ _) (by decide) _ _
  have h : Indistinct ℚ .eigenTrustPlusPlus c c' store store' := by
    refine ⟨?_, ?_, rfl, rfl, rfl, ?_⟩
    · unfold Peer.Aligned
      decide
    · have hi : ∀ p ∈ [Peer.named "a", .named "b", .named "m"],
          (PreTrusted.ofList [.named "a"]).contains p =
            (PreTrusted.ofList [.named "z", .named "a"]).contains p := by decide
      exact hi
    · simp only [store, store', Experiences.peek_put, Experiences.peek_empty]
      have hi : ∀ p ∈ [Peer.named "a", .named "b", .named "m"],
          ∀ q ∈ [Peer.named "a", .named "b", .named "m"], p.id ≠ q.id →
          Algorithm.eigenTrustPlusPlus.Alike
            (if "b" = p.id ∧ "m" = q.id then ⟨0, 5, .zero⟩
              else if "a" = p.id ∧ "b" = q.id then ⟨3, 1, .zero⟩ else .none)
            (if "z" = p.id ∧ "m" = q.id then ⟨50, 0, .zero⟩
              else if "m" = p.id ∧ "m" = q.id then ⟨50, 0, .zero⟩
              else if "b" = p.id ∧ "m" = q.id then ⟨0, 1, ⟨80⟩⟩
              else if "a" = p.id ∧ "b" = q.id then ⟨3, 9, ⟨70⟩⟩ else .none) := by decide
      exact hi
  have hc := Experiences.countable_of_fits hs c.peers
  have hc' := Experiences.countable_of_fits hs' c'.peers
  obtain ⟨r, r', notices, notices', o₁, o₁', store₁, store₁', hr, hr', -, -, ht⟩ :=
    compute_indistinct .eigenTrustPlusPlus h (fun _ => hc) (fun _ => hc') .empty .empty
  exact ⟨h, hc, hc', r, r', notices, notices', o₁, o₁', store₁, store₁', hr, hr', ht⟩

end Engine

end Reputation
