import Reputation.Proofs.Document.Codec
import Reputation.Proofs.Place

/-! # Configurations in files

A configuration that is written to a file is loaded from it again. If only some of its members are
in the file, in any order and printed in any way, what is loaded has the values of these and the
defaults of the others (`Config.reload_kept`). -/

namespace Reputation

open Document

/-- **Writes a value to a place, and loads what the file holds then.** -/
def Codec.reload {α : Type} (c : Codec α) (p : Place) (x : α) : Except TrustError α := do
  let p ← p.writeDocument (c.save x)
  c.load (← p.read)

namespace Config

/-- **The members of a written configuration**: its fields by their names. -/
def members (c : Config) : List (String × Document) :=
  List.zip Codec.configFields
    [Codec.text.encode c.home, (Codec.list Codec.text).encode c.preTrusted,
      Codec.algorithm.encode c.algorithm, Codec.word.encode c.cacheInterval,
      Codec.halfWord.encode c.boostWeight, Codec.word.encode c.minCommunication,
      Codec.word.encode c.maxMatrixSize, Codec.word.encode c.maxSelected,
      Codec.params.encode c.params]

/-- **A configuration with some of its fields**, and the defaults for the others. -/
def keeping (c : Config) (keep : String → Bool) : Config where
  home := if keep "local_node" then c.home else default.home
  preTrusted := if keep "pre_trusted_nodes" then c.preTrusted else default.preTrusted
  algorithm := if keep "algorithm" then c.algorithm else default.algorithm
  cacheInterval := if keep "cache_interval" then c.cacheInterval else default.cacheInterval
  boostWeight := if keep "low_com_weight" then c.boostWeight else default.boostWeight
  minCommunication :=
    if keep "min_communication" then c.minCommunication else default.minCommunication
  maxMatrixSize := if keep "max_matrix_size" then c.maxMatrixSize else default.maxMatrixSize
  maxSelected := if keep "max_selected_nodes" then c.maxSelected else default.maxSelected
  params := if keep "params" then c.params else default.params

theorem encode_eq (c : Config) : Codec.config.encode c = ofMembers c.members := rfl

theorem plain_of_mem_members {c : Config} {m : String × Document} (hm : m ∈ c.members) :
    Plain m.2 := by
  have hm := (List.of_mem_zip (a := m.1) (b := m.2) hm).2
  simp only [List.mem_cons, List.not_mem_nil, or_false] at hm
  rcases hm with h | h | h | h | h | h | h | h | h
  all_goals rw [h]
  · exact Codec.lawful_text.plain _
  · exact (Codec.lawful_list Codec.lawful_text).plain _
  · exact Codec.lawful_algorithm.plain _
  · exact Codec.lawful_word.plain _
  · exact Codec.lawful_halfWord.plain _
  · exact Codec.lawful_word.plain _
  · exact Codec.lawful_word.plain _
  · exact Codec.lawful_word.plain _
  · exact Codec.lawful_params.plain _

theorem decode?_kept (c : Config) (keep : String → Bool) {ms : List (String × Document)}
    (hms : ms.Perm (c.members.filter fun m => keep m.1)) :
    Codec.config.decode? (ofMembers ms) = some (c.keeping keep) := by
  have hnames : c.members.map Prod.fst = Codec.configFields := rfl
  have hn : Codec.configFields.Nodup := by decide +kernel
  have hfields := Codec.fields?_kept (hnames ▸ hn) hms true
  rw [hnames] at hfields
  have hhome : text? (Codec.text.encode c.home) = some c.home :=
    Codec.lawful_text.decode?_encode c.home
  have hnodes : list? text? ((Codec.list Codec.text).encode c.preTrusted) = some c.preTrusted :=
    (Codec.lawful_list Codec.lawful_text).decode?_encode c.preTrusted
  have hmethod := Codec.lawful_algorithm.decode?_encode c.algorithm
  have hword : ∀ n, word? (Codec.word.encode n) = some n := Codec.lawful_word.decode?_encode
  have hweight : halfWord? (Codec.halfWord.encode c.boostWeight) = some c.boostWeight :=
    Codec.lawful_halfWord.decode?_encode c.boostWeight
  have hparams := Codec.lawful_params.decode?_encode c.params
  unfold Codec.config
  dsimp only
  rw [hfields]
  simp only [members, Codec.configFields, List.zip_cons_cons, List.zip_nil_left, List.map_cons,
    List.map_nil, Option.bind_eq_bind, Option.bind_some, Codec.orDefault?_kept hhome,
    Codec.orDefault?_kept hnodes, Codec.orDefault?_kept hmethod, Codec.orDefault?_kept (hword _),
    Codec.orDefault?_kept hweight, Codec.orDefault?_kept hparams]
  rfl

theorem keeping_all (c : Config) : c.keeping (fun _ => true) = c := rfl

theorem lawful : Codec.config.Lawful where
  plain c := Codec.plain_ofMembers fun _ => plain_of_mem_members
  decode?_encode c := by
    have hall : c.members.Perm (c.members.filter fun m => (fun _ => true) m.1) := by
      rw [List.filter_true]
    exact (decode?_kept c (fun _ => true) hall).trans (congrArg some (keeping_all c))

/-- **What is saved is loaded again**, and what is taken away takes its default. The first part is
about the file that is written, the second about every text of an object that keeps some of its
members. -/
theorem reload_kept (c : Config) :
    (∀ p : Place, Codec.config.reload p c =
      if p = .nowhere then .error .unwritableFile else .ok c) ∧
    Codec.config.encode c = ofMembers c.members ∧
    ∀ (keep : String → Bool) (ms : List (String × Document)),
      ms.Perm (c.members.filter fun m => keep m.1) →
        (∀ level, read? (write level (ofMembers ms)) = some (ofMembers ms)) ∧
        ∀ s, read? s = some (ofMembers ms) → Codec.config.load s = .ok (c.keeping keep) := by
  refine ⟨fun p => ?_, encode_eq c, fun keep ms hms => ⟨fun level => ?_, fun s hs => ?_⟩⟩
  · have hfile := p.write_bind_read .unwritableFile (Codec.config.save c) Codec.config.load
    rw [lawful.load_save] at hfile
    exact hfile
  · refine read?_write (Codec.plain_ofMembers fun m hm => ?_) level
    exact plain_of_mem_members (List.mem_of_mem_filter (hms.mem_iff.mp hm))
  · unfold Codec.load
    rw [hs, Option.bind_some, decode?_kept c keep hms]

theorem reload_kept_partly :
    Codec.config.load (Bytes.ofString
        "\x7b \"params\" : \x7b\x7d, \"local_node\":\"\\u00e9\\/\\\"\" \x7d") =
      .ok { default with home := "é/\"", params := .empty } := by
  let c : Config := { default with home := "é/\"", cacheInterval := 7, params := .empty }
  have h := (reload_kept c).2.2 (fun name => name == "local_node" || name == "params")
    [("params", ofMembers []), ("local_node", Document.ofString "é/\"")] (.swap _ _ _)
  exact h.2 _ rfl

end Config

end Reputation
