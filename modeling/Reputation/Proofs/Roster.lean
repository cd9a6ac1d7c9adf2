import Mathlib.Data.List.Nodup
import Reputation.Proofs.Latest
import Reputation.Records

/-! # The roster after updates

A roster holds the last update of each identity (`Roster.mem_toList_ofList`), in ascending order
(`Roster.pairwise_toList`). So its listing names everyone once, as the latest instance
(`Roster.lists_ofList`), and the lists of the statuses divide it (`Roster.divides_ofList`). The
records of a roster forget the endpoints and nothing else, and of any records the roster keeps the
last one of each peer (`StatusRecord.ofRoster_toRoster`). -/

namespace Reputation

theorem Status.mem_all (s : Status) : s ∈ Status.all := by
  cases s <;> decide

namespace Roster

/-- The identity that an update is about. -/
def subject (u : Peer × Status) : String := u.1.id

variable {us : List (Peer × Status)} {u v : Peer × Status} {p : Peer}

/-! ### What is held -/

theorem entries_ofList (us : List (Peer × Status)) : (ofList us).entries =
    Std.ExtTreeMap.ofList (us.map fun u => (subject u, u)) := by
  have hfold : us.foldl (fun t u => t.insert (subject u) u) empty.entries =
      (us.foldl (fun r u => r.update u.1 u.2) empty).entries :=
    List.foldl_hom entries fun _ _ => rfl
  rw [Std.ExtTreeMap.ofList_eq_insertMany_empty, Std.ExtTreeMap.insertMany_list_eq_foldl,
    List.foldl_map]
  exact hfold.symm

theorem getElem?_entries_ofList {id : String} : (ofList us).entries[id]? = some u ↔
    u ∈ latest subject us ∧ u.1.id = id := by
  rw [entries_ofList, getElem?_ofList_eq_some]
  constructor
  · rintro ⟨v, hv, hid, rfl⟩
    exact ⟨hv, hid⟩
  · exact fun h => ⟨u, h.1, h.2, rfl⟩

/-- **A roster lists the last update of each identity in order.** -/
theorem toList_ofList (us : List (Peer × Status)) :
    (ofList us).toList = sortByKey subject (latest subject us) := by
  have hlist : (ofList us).entries.toList =
      (sortByKey subject (latest subject us)).map fun u => (subject u, u) := by
    rw [entries_ofList]
    exact Reputation.toList_ofList us
  unfold toList
  rw [hlist, List.map_map]
  exact List.map_id _

theorem mem_toList_ofList : u ∈ (ofList us).toList ↔ u ∈ latest subject us := by
  rw [toList_ofList]
  exact List.mem_mergeSort

theorem pairwise_toList (us : List (Peer × Status)) :
    (ofList us).toList.Pairwise fun u v => u.1.order v.1 = .lt := by
  rw [toList_ofList]
  exact pairwise_sortByKey (pairwise_latest us)

/-- Nobody is listed twice. -/
theorem eq_of_mem_toList (hu : u ∈ (ofList us).toList) (hv : v ∈ (ofList us).toList)
    (h : u.1.id = v.1.id) : u = v := by
  have hentry := getElem?_entries_ofList.mpr ⟨mem_toList_ofList.mp hu, h⟩
  have hentry' := getElem?_entries_ofList.mpr ⟨mem_toList_ofList.mp hv, rfl⟩
  exact Option.some.inj (hentry.symm.trans hentry')

theorem status_of_mem_toList (hu : u ∈ (ofList us).toList) (hp : p.id = u.1.id) :
    (ofList us).status p = u.2 := by
  unfold status
  rw [hp, getElem?_entries_ofList.mpr ⟨mem_toList_ofList.mp hu, rfl⟩]

theorem status_of_forall_ne (h : ∀ u ∈ (ofList us).toList, u.1.id ≠ p.id) :
    (ofList us).status p = .unknown := by
  unfold status
  cases hentry : (ofList us).entries[p.id]? with
  | none => rfl
  | some u =>
    obtain ⟨hu, hid⟩ := getElem?_entries_ofList.mp hentry
    exact absurd hid (h u (mem_toList_ofList.mpr hu))

/-! ### Who is listed -/

/-- **What a roster tells of some updates**: the status of the last one of an identity, and everyone
once, in ascending order and as in the last update. -/
structure Lists (r : Roster) (us : List (Peer × Status)) : Prop where
  status_last : ∀ u ∈ latest subject us, ∀ p : Peer, p.id = u.1.id → r.status p = u.2
  status_unknown : ∀ p : Peer, (∀ u ∈ us, u.1.id ≠ p.id) → r.status p = .unknown
  ascending : r.peers.Pairwise fun p q => p.order q = .lt
  mem_peers : ∀ p, p ∈ r.peers ↔ ∃ s, (p, s) ∈ latest subject us
  mem_ids : ∀ id, id ∈ r.peers.map Peer.id ↔ ∃ u ∈ us, u.1.id = id

theorem lists_ofList (us : List (Peer × Status)) : (ofList us).Lists us where
  status_last _ hu _ hp := status_of_mem_toList (mem_toList_ofList.mpr hu) hp
  status_unknown _ h :=
    status_of_forall_ne fun u hu => h u (mem_of_mem_latest (mem_toList_ofList.mp hu))
  ascending := List.pairwise_map.mpr (pairwise_toList us)
  mem_peers p := by
    unfold peers
    simp only [List.mem_map, mem_toList_ofList]
    constructor
    · rintro ⟨⟨q, s⟩, hu, rfl⟩
      exact ⟨s, hu⟩
    · rintro ⟨s, h⟩
      exact ⟨(p, s), h, rfl⟩
  mem_ids id := by
    have hids : (ofList us).peers.map Peer.id =
        (sortByKey subject (latest subject us)).map subject := by
      unfold peers
      rw [toList_ofList, List.map_map]
      rfl
    rw [hids]
    exact ((List.mergeSort_perm _ _).map subject).mem_iff.trans (mem_map_latest.trans List.mem_map)

/-! ### The lists of the statuses -/

/-- **The lists of the statuses divide the roster**: each is ascending and has the peers of its
status, no two of them share an identity, and together they are everyone. -/
structure Divides (r : Roster) : Prop where
  ascending : ∀ s, (r.withStatus s).Pairwise fun p q => p.order q = .lt
  status_eq : ∀ s, ∀ p ∈ r.withStatus s, r.status p = s
  disjoint : ∀ s s', s ≠ s' → ∀ p ∈ r.withStatus s, ∀ q ∈ r.withStatus s', p.id ≠ q.id
  perm : (Status.all.flatMap r.withStatus).Perm r.peers
  size_eq : (Status.all.flatMap r.withStatus).length = r.size

theorem mem_withStatus (r : Roster) {s : Status} : p ∈ r.withStatus s ↔ (p, s) ∈ r.toList := by
  unfold withStatus
  simp only [List.mem_map, List.mem_filter, beq_iff_eq]
  constructor
  · rintro ⟨⟨q, s'⟩, ⟨hu, rfl⟩, rfl⟩
    exact hu
  · exact fun h => ⟨(p, s), ⟨h, rfl⟩, rfl⟩

theorem length_peers (r : Roster) : r.peers.length = r.size := by
  unfold peers toList size
  rw [List.length_map, List.length_map, Std.ExtTreeMap.length_toList]

theorem nodup_of_ascending {ps : List Peer} (h : ps.Pairwise fun p q => p.order q = .lt) :
    ps.Nodup := by
  have hids : ps.Pairwise fun p q => compare p.id q.id = .lt := h
  exact nodup_of_pairwise_lt hids

theorem divides_ofList (us : List (Peer × Status)) : (ofList us).Divides := by
  have hascending : ∀ s, ((ofList us).withStatus s).Pairwise fun p q => p.order q = .lt := by
    intro s
    unfold withStatus
    exact List.pairwise_map.mpr ((pairwise_toList us).filter _)
  have hdisjoint : ∀ s s', s ≠ s' → ∀ p ∈ (ofList us).withStatus s,
      ∀ q ∈ (ofList us).withStatus s', p.id ≠ q.id := by
    intro s s' hs p hp q hq hpq
    have heq := eq_of_mem_toList ((mem_withStatus _).mp hp) ((mem_withStatus _).mp hq) hpq
    exact hs (congrArg Prod.snd heq)
  have hperm : (Status.all.flatMap (ofList us).withStatus).Perm (ofList us).peers := by
    have hnodup : (Status.all.flatMap (ofList us).withStatus).Nodup := by
      refine List.nodup_flatMap.mpr ⟨fun s _ => nodup_of_ascending (hascending s), ?_⟩
      have hall : Status.all.Pairwise fun s s' => s ≠ s' := by decide
      refine hall.imp fun {s s'} hs p hp hq => ?_
      exact hdisjoint s s' hs p hp p hq rfl
    refine (List.perm_ext_iff_of_nodup hnodup
      (nodup_of_ascending (lists_ofList us).ascending)).mpr fun p => ?_
    unfold peers
    simp only [List.mem_flatMap, mem_withStatus, List.mem_map]
    constructor
    · rintro ⟨s, -, h⟩
      exact ⟨(p, s), h, rfl⟩
    · rintro ⟨⟨q, s⟩, hu, rfl⟩
      exact ⟨s, Status.mem_all s, hu⟩
  refine ⟨hascending, fun s p hp => ?_, hdisjoint, hperm, ?_⟩
  · exact status_of_mem_toList ((mem_withStatus _).mp hp) rfl
  · rw [hperm.length_eq, length_peers]

end Roster

/-! ### Records -/

namespace StatusRecord

/-- The update that a record stands for. -/
def update (r : StatusRecord) : Peer × Status := (.named r.peer, r.status)

theorem toRoster_eq (rs : List StatusRecord) : toRoster rs = Roster.ofList (rs.map update) := by
  unfold toRoster Roster.ofList
  rw [List.foldl_map]
  rfl

/-- **A roster of records lists everyone who has a record.** -/
theorem mem_peers_toRoster {rs : List StatusRecord} {id : String} :
    id ∈ (toRoster rs).peers.map Peer.id ↔ id ∈ rs.map peer := by
  rw [toRoster_eq, (Roster.lists_ofList _).mem_ids, List.mem_map]
  simp only [List.mem_map, exists_exists_and_eq_and]
  rfl

/-- **Records of a roster of records** are the last ones of each peer, in order. -/
theorem ofRoster_toRoster (rs : List StatusRecord) :
    ofRoster (toRoster rs) = sortByKey peer (latest peer rs) := by
  rw [toRoster_eq]
  unfold ofRoster
  rw [Roster.toList_ofList, latest_map, sortByKey_map, List.map_map]
  exact List.map_id _

/-- A roster of the records of a roster lists everyone again, at an unknown endpoint. -/
theorem toList_toRoster_ofRoster (us : List (Peer × Status)) :
    (toRoster (ofRoster (Roster.ofList us))).toList =
      (Roster.ofList us).toList.map fun u => (.named u.1.id, u.2) := by
  have hrecords : (ofRoster (Roster.ofList us)).map update =
      (Roster.ofList us).toList.map fun u => (.named u.1.id, u.2) := by
    unfold ofRoster
    rw [List.map_map]
    rfl
  have hordered : ((ofRoster (Roster.ofList us)).map update).Pairwise
      fun u v => compare (Roster.subject u) (Roster.subject v) = .lt := by
    rw [hrecords]
    exact List.pairwise_map.mpr (Roster.pairwise_toList us)
  have hdistinct := pairwise_ne_of_pairwise_lt hordered
  rw [toRoster_eq, Roster.toList_ofList, latest_eq_self hdistinct,
    sortByKey_eq hdistinct hordered (.refl _), hrecords]

theorem status_toRoster_ofRoster (us : List (Peer × Status)) (p : Peer) :
    (toRoster (ofRoster (Roster.ofList us))).status p = (Roster.ofList us).status p := by
  have hlist := toList_toRoster_ofRoster us
  rw [toRoster_eq] at hlist ⊢
  by_cases hp : ∃ u ∈ (Roster.ofList us).toList, u.1.id = p.id
  · obtain ⟨u, hu, hid⟩ := hp
    have hu' : ((.named u.1.id, u.2) : Peer × Status) ∈
        (Roster.ofList ((ofRoster (Roster.ofList us)).map update)).toList :=
      hlist ▸ List.mem_map.mpr ⟨u, hu, rfl⟩
    rw [Roster.status_of_mem_toList hu hid.symm, Roster.status_of_mem_toList hu' hid.symm]
  · have hnone : ∀ u ∈ (Roster.ofList us).toList, u.1.id ≠ p.id :=
      fun u hu hid => hp ⟨u, hu, hid⟩
    have hnone' : ∀ u ∈ (Roster.ofList ((ofRoster (Roster.ofList us)).map update)).toList,
        u.1.id ≠ p.id := by
      rw [hlist]
      exact List.forall_mem_map.mpr hnone
    rw [Roster.status_of_forall_ne hnone, Roster.status_of_forall_ne hnone']

theorem ids_toRoster_ofRoster (us : List (Peer × Status)) :
    (toRoster (ofRoster (Roster.ofList us))).peers.map Peer.id =
      (Roster.ofList us).peers.map Peer.id := by
  unfold Roster.peers
  rw [toList_toRoster_ofRoster, List.map_map, List.map_map, List.map_map]
  rfl

end StatusRecord

/-- **Rosters over whole runs of updates.** A roster tells the last status of each identity and
lists everyone once, in ascending order and as in the last update; the lists of the statuses divide
it. A roster that is made of its records has the same statuses and identities, and the records of a
roster of any records are the last ones of each peer, in order. -/
theorem Roster.updates_listed :
    (∀ us : List (Peer × Status), (ofList us).Lists us ∧ (ofList us).Divides ∧
      (∀ p, (StatusRecord.toRoster (StatusRecord.ofRoster (ofList us))).status p =
        (ofList us).status p) ∧
      (StatusRecord.toRoster (StatusRecord.ofRoster (ofList us))).peers.map Peer.id =
        (ofList us).peers.map Peer.id) ∧
    ∀ rs : List StatusRecord, StatusRecord.ofRoster (StatusRecord.toRoster rs) =
      sortByKey StatusRecord.peer (latest StatusRecord.peer rs) :=
  ⟨fun us => ⟨lists_ofList us, divides_ofList us, StatusRecord.status_toRoster_ofRoster us,
    StatusRecord.ids_toRoster_ofRoster us⟩, StatusRecord.ofRoster_toRoster⟩

end Reputation
