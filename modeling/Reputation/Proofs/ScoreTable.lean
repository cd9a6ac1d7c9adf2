import Mathlib.Data.List.ProdSigma
import Mathlib.Tactic.Tauto
import Reputation.Proofs.Linear.Tabulated
import Reputation.Proofs.Peer
import Reputation.ScoreTable

/-! # Rows of a score table

A table is read through `ScoreTable.score`. Writing a row of values sets the scores of its observer
with the listed peers and leaves all other scores as they are (`score_setRow_of_mem`,
`getElem?_scores_setRow`), so the rows of several observers do not disturb each other:
`score_setRows`. Rows that are written into an emptied table are all that it stores:
`mem_scores_foldl`, `Covers`. -/

namespace Reputation

namespace ScoreTable

variable {K : Type}

/-! ### One row -/

theorem getElem?_scores_set (t : ScoreTable K) (o p : Peer) (x : K) (k : Pair) :
    (t.set o p x).scores[k]? = if ⟨o.id, p.id⟩ = k then some x else t.scores[k]? := by
  unfold set
  rw [Std.ExtTreeMap.getElem?_insert]
  simp only [Std.LawfulEqCmp.compare_eq_iff_eq]

theorem score_set (t : ScoreTable K) (o p o' p' : Peer) (x : K) :
    (t.set o p x).score o' p' = if o.id = o'.id ∧ p.id = p'.id then x else t.score o' p' := by
  unfold score
  simp only [getElem?_scores_set, Pair.mk.injEq]
  split <;> rfl

/-- The table with the values of `f` as the scores of some peers with an observer. -/
def setRow (t : ScoreTable K) (o : Peer) (ps : List Peer) (f : Peer → K) : ScoreTable K :=
  ps.foldl (fun t p => t.set o p (f p)) t

@[simp] theorem initial_setRow (t : ScoreTable K) (o : Peer) (ps : List Peer) (f : Peer → K) :
    (t.setRow o ps f).initial = t.initial :=
  List.foldlRecOn (motive := fun u : ScoreTable K => u.initial = t.initial) ps _ rfl
    fun _ hu _ _ => hu

@[simp] theorem weights_setRow (t : ScoreTable K) (o : Peer) (ps : List Peer) (f : Peer → K) :
    (t.setRow o ps f).weights = t.weights :=
  List.foldlRecOn (motive := fun u : ScoreTable K => u.weights = t.weights) ps _ rfl
    fun _ hu _ _ => hu

/-- **A row that is written** changes nothing else. -/
theorem getElem?_scores_setRow (t : ScoreTable K) {o : Peer} {ps : List Peer} (f : Peer → K)
    {k : Pair} (h : ¬ (k.observer = o.id ∧ k.partner ∈ ps.map Peer.id)) :
    (t.setRow o ps f).scores[k]? = t.scores[k]? := by
  refine List.foldlRecOn (motive := fun u : ScoreTable K => u.scores[k]? = t.scores[k]?) ps _ rfl
    fun u hu p hp => ?_
  rw [getElem?_scores_set, if_neg, hu]
  rintro rfl
  exact h ⟨rfl, List.mem_map_of_mem hp⟩

theorem setVector_tabulate (t : ScoreTable K) (o : Peer) (ps : List Peer) (f : Peer → K) :
    t.setVector o ps (Vec.tabulate ps f) = .ok (t.setRow o ps f) := by
  unfold setVector setRow
  rw [if_pos (by simp), Vec.entries_tabulate, List.zip_map_right, List.foldl_map]
  simp only [Except.ok.injEq]
  induction ps generalizing t with
  | nil => rfl
  | cons p ps ih => exact ih _

theorem score_setRow_of_ne (t : ScoreTable K) {o o' : Peer} (ps : List Peer) (f : Peer → K)
    (h : o'.id ≠ o.id) (p : Peer) : (t.setRow o ps f).score o' p = t.score o' p := by
  unfold score
  rw [getElem?_scores_setRow t f fun hk => h hk.1, initial_setRow]

theorem score_setRow_of_not_mem (t : ScoreTable K) (o o' : Peer) {ps : List Peer} (f : Peer → K)
    {p : Peer} (h : p.id ∉ ps.map Peer.id) : (t.setRow o ps f).score o' p = t.score o' p := by
  unfold score
  rw [getElem?_scores_setRow t f fun hk => h hk.2, initial_setRow]

theorem score_setRow_of_mem (t : ScoreTable K) {o o' : Peer} {ps : List Peer} (f : Peer → K)
    (hd : Peer.Distinct ps) (ho : o'.id = o.id) {p : Peer} (hp : p ∈ ps) :
    (t.setRow o ps f).score o' p = f p := by
  induction ps generalizing t with
  | nil => cases hp
  | cons q ps ih =>
    obtain ⟨hq, hd⟩ := List.nodup_cons.mp hd
    change ((t.set o q (f q)).setRow o ps f).score o' p = f p
    rcases List.mem_cons.mp hp with rfl | hp
    · rw [score_setRow_of_not_mem _ _ _ _ hq, score_set, if_pos ⟨ho.symm, rfl⟩]
    · exact ih _ hd hp

/-! ### Rows one after the other -/

/-- The table with the rows of some observers written one after the other. -/
def setRows (t : ScoreTable K) (order : List Peer) (f : Peer → Peer → K) (ps : List Peer) :
    ScoreTable K :=
  order.foldl (fun t o => t.setRow o ps (f o)) t

theorem initial_setRows (t : ScoreTable K) (order ps : List Peer) (f : Peer → Peer → K) :
    (t.setRows order f ps).initial = t.initial :=
  List.foldlRecOn (motive := fun u : ScoreTable K => u.initial = t.initial) order _ rfl
    fun u hu o _ => (u.initial_setRow o ps (f o)).trans hu

theorem weights_setRows (t : ScoreTable K) (order ps : List Peer) (f : Peer → Peer → K) :
    (t.setRows order f ps).weights = t.weights :=
  List.foldlRecOn (motive := fun u : ScoreTable K => u.weights = t.weights) order _ rfl
    fun u hu o _ => (u.weights_setRow o ps (f o)).trans hu

theorem getElem?_scores_setRows (t : ScoreTable K) {order ps : List Peer} (f : Peer → Peer → K)
    {k : Pair} (h : ¬ (k.observer ∈ order.map Peer.id ∧ k.partner ∈ ps.map Peer.id)) :
    (t.setRows order f ps).scores[k]? = t.scores[k]? := by
  refine List.foldlRecOn (motive := fun u : ScoreTable K => u.scores[k]? = t.scores[k]?) order _ rfl
    fun u hu o ho => ?_
  have hrow : ¬ (k.observer = o.id ∧ k.partner ∈ ps.map Peer.id) := fun hk =>
    h ⟨hk.1 ▸ List.mem_map_of_mem ho, hk.2⟩
  rw [u.getElem?_scores_setRow (f o) hrow, hu]

theorem score_setRows_of_not_mem (t : ScoreTable K) {order ps : List Peer} (f : Peer → Peer → K)
    {p q : Peer} (h : ¬ (p.id ∈ order.map Peer.id ∧ q.id ∈ ps.map Peer.id)) :
    (t.setRows order f ps).score p q = t.score p q := by
  unfold score
  rw [getElem?_scores_setRows t f h, initial_setRows]

/-- **The rows of distinct observers** stay as they were written. -/
theorem score_setRows (t : ScoreTable K) {order ps : List Peer} (f : Peer → Peer → K)
    (ho : Peer.Distinct order) (hd : Peer.Distinct ps) {p q : Peer} (hp : p ∈ order) (hq : q ∈ ps) :
    (t.setRows order f ps).score p q = f p q := by
  induction order generalizing t with
  | nil => cases hp
  | cons o order ih =>
    obtain ⟨hno, ho⟩ := List.nodup_cons.mp ho
    change ((t.setRow o ps (f o)).setRows order f ps).score p q = f p q
    rcases List.mem_cons.mp hp with rfl | hp
    · rw [score_setRows_of_not_mem _ f fun hk => hno hk.1, score_setRow_of_mem _ _ hd rfl hq]
    · exact ih _ ho hp

/-! ### The matrix of a table -/

theorem matrix_eq (t : ScoreTable K) (ps : List Peer) :
    ∃ m, t.matrix ps = .ok m ∧ m.Tabulates ps t.score :=
  Matrix.ofRows_tabulate ps t.score

/-- Only the scores between the listed peers are read. -/
theorem matrix_congr {t t' : ScoreTable K} {ps : List Peer}
    (h : ∀ p ∈ ps, ∀ q ∈ ps, t.score p q = t'.score p q) : t.matrix ps = t'.matrix ps := by
  unfold matrix
  exact congrArg Matrix.ofRows (List.map_congr_left fun p hp => Vec.tabulate_congr (h p hp))

/-! ### What is stored -/

theorem mem_scores_set (t : ScoreTable K) (o p : Peer) (x : K) (k : Pair) :
    k ∈ (t.set o p x).scores ↔ (k.observer = o.id ∧ k.partner = p.id) ∨ k ∈ t.scores := by
  obtain ⟨i, j⟩ := k
  unfold set
  rw [Std.ExtTreeMap.mem_insert, Std.LawfulEqCmp.compare_eq_iff_eq, eq_comm, Pair.mk.injEq]

theorem mem_scores_setRow (t : ScoreTable K) (o : Peer) (ps : List Peer) (f : Peer → K) (k : Pair) :
    k ∈ (t.setRow o ps f).scores ↔
      (k.observer = o.id ∧ k.partner ∈ ps.map Peer.id) ∨ k ∈ t.scores := by
  induction ps generalizing t with
  | nil => simp [setRow]
  | cons p ps ih =>
    change k ∈ ((t.set o p (f p)).setRow o ps f).scores ↔ _
    rw [ih, mem_scores_set, List.map_cons, List.mem_cons]
    tauto

theorem mem_weights_setWeight (t : ScoreTable K) (o : Peer) (x : K) (id : String) :
    id ∈ (t.setWeight o x).weights ↔ id = o.id ∨ id ∈ t.weights := by
  unfold setWeight
  rw [Std.ExtTreeMap.mem_insert, Std.LawfulEqCmp.compare_eq_iff_eq, eq_comm]

/-- Writing one row after the other stores what is in the rows. -/
theorem mem_scores_foldl {g : ScoreTable K → Peer → ScoreTable K} {ps : List Peer}
    (hg : ∀ t p k, k ∈ (g t p).scores ↔
      (k.observer = p.id ∧ k.partner ∈ ps.map Peer.id) ∨ k ∈ t.scores)
    (order : List Peer) (t : ScoreTable K) (k : Pair) :
    k ∈ (order.foldl g t).scores ↔
      (k.observer ∈ order.map Peer.id ∧ k.partner ∈ ps.map Peer.id) ∨ k ∈ t.scores := by
  induction order generalizing t with
  | nil => simp
  | cons o order ih =>
    rw [List.foldl_cons, ih, hg, List.map_cons, List.mem_cons]
    tauto

theorem not_mem_scores_clear (t : ScoreTable K) (k : Pair) : k ∉ t.clear.scores :=
  Std.ExtTreeMap.not_mem_empty

theorem not_mem_weights_clear (t : ScoreTable K) (id : String) : id ∉ t.clear.weights :=
  Std.ExtTreeMap.not_mem_empty

/-- **A table of exactly some peers**: every two of them have a score, and there is no other. -/
structure Covers (t : ScoreTable K) (ps : List Peer) : Prop where
  mem_iff : ∀ k, k ∈ t.scores ↔ k.observer ∈ ps.map Peer.id ∧ k.partner ∈ ps.map Peer.id
  size_eq : t.size = ps.length * ps.length

theorem covers_of_mem_iff {t : ScoreTable K} {ps : List Peer} (hd : Peer.Distinct ps)
    (h : ∀ k, k ∈ t.scores ↔ k.observer ∈ ps.map Peer.id ∧ k.partner ∈ ps.map Peer.id) :
    t.Covers ps := by
  have hinj : Function.Injective fun x : String × String => Pair.mk x.1 x.2 := by
    rintro ⟨i, j⟩ ⟨i', j'⟩ hij
    cases hij
    rfl
  have hn : ((ps.map Peer.id ×ˢ ps.map Peer.id).map fun x => Pair.mk x.1 x.2).Nodup :=
    (hd.product hd).map hinj
  have hp : t.scores.keys.Perm
      ((ps.map Peer.id ×ˢ ps.map Peer.id).map fun x => Pair.mk x.1 x.2) := by
    refine (List.perm_ext_iff_of_nodup Std.ExtTreeMap.nodup_keys hn).mpr fun k => ?_
    rw [Std.ExtTreeMap.mem_keys, h]
    constructor
    · intro hk
      exact List.mem_map.mpr ⟨(k.observer, k.partner), List.mem_product.mpr hk, rfl⟩
    · intro hk
      obtain ⟨x, hx, rfl⟩ := List.mem_map.mp hk
      exact List.mem_product.mp hx
  refine ⟨h, ?_⟩
  unfold size
  rw [← Std.ExtTreeMap.length_keys, hp.length_eq, List.length_map, List.length_product,
    List.length_map]

/-- **Rows of all peers**, written into an emptied table. -/
theorem covers_foldl {g : ScoreTable K → Peer → ScoreTable K} {ps : List Peer}
    (hd : Peer.Distinct ps) (hg : ∀ t p k, k ∈ (g t p).scores ↔
      (k.observer = p.id ∧ k.partner ∈ ps.map Peer.id) ∨ k ∈ t.scores)
    (t : ScoreTable K) : (ps.foldl g t.clear).Covers ps := by
  refine covers_of_mem_iff hd fun k => ?_
  rw [mem_scores_foldl hg, or_iff_left (t.not_mem_scores_clear k)]

end ScoreTable

end Reputation
