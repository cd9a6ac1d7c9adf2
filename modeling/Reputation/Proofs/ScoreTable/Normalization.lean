import Mathlib.Data.List.Perm.Basic
import Mathlib.Data.Rat.Init
import Reputation.Proofs.ScoreTable

/-! # Normalization row by row

A table is normalized observer by observer: a row is read, scaled and written back before the next one
is read. No row is written before it is read, since a write belongs to one observer, so each observer
writes its row of the table before the normalization (`ScoreTable.normalizeBy_eq`). The rows of two
observers can be written in either order (`ScoreTable.setRow_comm`), which makes the order of the
observers irrelevant, and the written rows are those of the matrix whose rows are scaled at once:
`ScoreTable.normalize_agrees`. Nothing is assumed of the numbers, so this holds in binary64. -/

namespace Reputation

namespace Matrix

variable {ι K : Type} {m m' : Matrix K} {is : List ι} {M : ι → ι → K}

/-- A matrix is determined by what it tabulates. -/
theorem Tabulates.unique (h : m.Tabulates is M) (h' : m'.Tabulates is M) : m = m' := by
  ext1
  · rw [h.rows_eq, h'.rows_eq]
  · rw [h.cols_eq, h'.cols_eq]
  · rw [← m.flatten_toRows, ← m'.flatten_toRows, h.toRows_eq, h'.toRows_eq]

end Matrix

namespace ScoreTable

variable {K : Type} {o o' p p' : Peer} {ps : List Peer}

/-! ### Rows of different observers -/

theorem set_comm (t : ScoreTable K) (h : o.id ≠ o'.id) (x y : K) :
    (t.set o p x).set o' p' y = (t.set o' p' y).set o p x := by
  have hscores : ((t.set o p x).set o' p' y).scores = ((t.set o' p' y).set o p x).scores := by
    refine Std.ExtTreeMap.ext_getElem? fun k => ?_
    simp only [getElem?_scores_set]
    split_ifs with h' ho
    · exact absurd (congrArg Pair.observer (ho.trans h'.symm)) h
    · rfl
    · rfl
    · rfl
  exact congrArg (ScoreTable.mk t.initial · t.weights) hscores

theorem setRow_set (t : ScoreTable K) (h : o.id ≠ o'.id) (x : K) (ps : List Peer) (g : Peer → K) :
    (t.set o p x).setRow o' ps g = (t.setRow o' ps g).set o p x := by
  induction ps generalizing t with
  | nil => rfl
  | cons q ps ih =>
    change ((t.set o p x).set o' q (g q)).setRow o' ps g =
      ((t.set o' q (g q)).setRow o' ps g).set o p x
    rw [set_comm t h, ih]

/-- **The rows of two observers are written in either order.** -/
theorem setRow_comm (t : ScoreTable K) (h : o.id ≠ o'.id) (ps qs : List Peer) (f g : Peer → K) :
    (t.setRow o ps f).setRow o' qs g = (t.setRow o' qs g).setRow o ps f := by
  induction ps generalizing t with
  | nil => rfl
  | cons p ps ih =>
    change ((t.set o p (f p)).setRow o ps f).setRow o' qs g =
      ((t.setRow o' qs g).set o p (f p)).setRow o ps f
    rw [ih, setRow_set t h]

/-- **Distinct observers write their rows in any order.** -/
theorem setRows_perm (t : ScoreTable K) {order order' : List Peer} (hp : order.Perm order')
    (hd : Peer.Distinct order) (f : Peer → Peer → K) :
    t.setRows order f ps = t.setRows order' f ps := by
  refine hp.foldl_eq' (fun o ho o' ho' t => ?_) t
  by_cases h : o.id = o'.id
  · rw [hd.eq_of_id_eq ho ho' h]
  · exact setRow_comm t h ps ps (f o) (f o')

/-! ### Normalization -/

variable [Number K]

/-- **Normalization in an order of the observers**, each of whom scales its row of some peers. -/
def normalizeBy (t : ScoreTable K) (order ps : List Peer) : Except TrustError (ScoreTable K) :=
  order.foldlM (fun t o => t.setVector o ps (t.vector o ps).normalize) t

theorem setVector_normalize (t : ScoreTable K) (o : Peer) (ps : List Peer) :
    t.setVector o ps (t.vector o ps).normalize =
      .ok (t.setRow o ps (Vec.scaled ps (t.score o))) := by
  have hv : t.vector o ps = Vec.tabulate ps (t.score o) := rfl
  rw [hv, Vec.normalize_tabulate, setVector_tabulate]

/-- **Every observer scales the row that the table had at the start**, since no other one writes to
it. -/
theorem normalizeBy_eq (t : ScoreTable K) {order : List Peer} (ho : Peer.Distinct order)
    (ps : List Peer) :
    t.normalizeBy order ps = .ok (t.setRows order (fun o => Vec.scaled ps (t.score o)) ps) := by
  suffices ∀ u : ScoreTable K, (∀ o ∈ order, u.score o = t.score o) →
      u.normalizeBy order ps = .ok (u.setRows order (fun o => Vec.scaled ps (t.score o)) ps) from
    this t fun _ _ => rfl
  induction order with
  | nil => exact fun _ _ => rfl
  | cons o order ih =>
    intro u hu
    obtain ⟨hno, ho⟩ := List.nodup_cons.mp ho
    have hlater : ∀ q ∈ order,
        (u.setRow o ps (Vec.scaled ps (t.score o))).score q = t.score q := by
      intro q hq
      have hqo : q.id ≠ o.id := fun h => hno (h ▸ List.mem_map_of_mem hq)
      rw [← hu q (List.mem_cons_of_mem o hq)]
      exact funext (score_setRow_of_ne u ps _ hqo)
    have hstep : u.setVector o ps (u.vector o ps).normalize =
        .ok (u.setRow o ps (Vec.scaled ps (t.score o))) := by
      rw [setVector_normalize, hu o List.mem_cons_self]
    unfold normalizeBy
    rw [List.foldlM_cons, hstep]
    exact ih ho _ hlater

/-- **A normalized table**: its matrix is that of the table before with scaled rows, and nothing else
is changed. -/
structure Normalizes (t t' : ScoreTable K) (ps : List Peer) : Prop where
  matrix_eq : ∃ m, t.matrix ps = .ok m ∧ t'.matrix ps = .ok m.normalizeRows
  score_eq : ∀ o p : Peer, ¬ (o.id ∈ ps.map Peer.id ∧ p.id ∈ ps.map Peer.id) →
    t'.score o p = t.score o p
  stored_eq : ∀ k : Pair, ¬ (k.observer ∈ ps.map Peer.id ∧ k.partner ∈ ps.map Peer.id) →
    t'.scores[k]? = t.scores[k]?
  initial_eq : t'.initial = t.initial
  weights_eq : t'.weights = t.weights

theorem normalizes_setRows (t : ScoreTable K) {ps : List Peer} (hd : Peer.Distinct ps) :
    t.Normalizes (t.setRows ps (fun o => Vec.scaled ps (t.score o)) ps) ps where
  matrix_eq := by
    obtain ⟨m, hm, htab⟩ := t.matrix_eq ps
    obtain ⟨m', hm', htab'⟩ := matrix_eq (t.setRows ps (fun o => Vec.scaled ps (t.score o)) ps) ps
    have hscaled : m'.Tabulates ps fun o => Vec.scaled ps (t.score o) :=
      htab'.congr fun p hp q hq => score_setRows t _ hd hd hp hq
    exact ⟨m, hm, by rw [hm', hscaled.unique htab.normalizeRows]⟩
  score_eq o p h := score_setRows_of_not_mem t _ h
  stored_eq k h := getElem?_scores_setRows t _ h
  initial_eq := t.initial_setRows ps ps _
  weights_eq := t.weights_setRows ps ps _

/-- **Normalizing a table normalizes its matrix**, and the order in which the observers come does not
matter. -/
theorem normalize_agrees (t : ScoreTable K) {ps : List Peer} (hd : Peer.Distinct ps) :
    ∃ t', t.normalize ps = .ok t' ∧ t.Normalizes t' ps ∧
      ∀ order : List Peer, order.Perm ps → t.normalizeBy order ps = .ok t' := by
  refine ⟨_, t.normalizeBy_eq hd ps, t.normalizes_setRows hd, fun order ho => ?_⟩
  have hdo : Peer.Distinct order := (ho.map Peer.id).nodup_iff.mpr hd
  rw [t.normalizeBy_eq hdo ps, t.setRows_perm ho hdo]

/-- Two peers in binary64, one of whom has a score for a third one too. -/
theorem normalize_agrees_pair :
    let ps := ["a", "b"].map Peer.named
    let t : ScoreTable Float :=
      ((empty 1).set (.named "a") (.named "b") 3).set (.named "a") (.named "m") 5
    Peer.Distinct ps ∧ ∃ t', t.normalize ps = .ok t' ∧ t.Normalizes t' ps ∧
      t.normalizeBy ps.reverse ps = .ok t' ∧
      t'.score (.named "a") (.named "b") = 0.75 ∧ t'.score (.named "b") (.named "a") = 0.5 ∧
      t'.score (.named "a") (.named "m") = 5 := by
  intro ps t
  have hd : Peer.Distinct ps := by decide
  obtain ⟨t', ht, hn, hby⟩ := normalize_agrees t hd
  have hvalues : (t.normalize ps).toOption.map (fun t' : ScoreTable Float =>
      [t'.score (.named "a") (.named "b"), t'.score (.named "b") (.named "a"),
        t'.score (.named "a") (.named "m")]) = some [0.75, 0.5, 5] := by decide +kernel
  rw [ht] at hvalues
  exact ⟨hd, t', ht, hn, hby _ ps.reverse_perm, by simpa using Option.some.inj hvalues⟩

end ScoreTable

end Reputation
