import Reputation.Config
import Reputation.Text.Quoted

/-!
# Descriptions of configurations

`Config.describe` shows a configuration in full, with each field and each entry in a line of its own.
-/

namespace Reputation

namespace Config

/-- Lines one level further in. -/
def indent (lines : List String) : List String := lines.map ("    " ++ ·)

/-- A block of lines between brackets; nothing between them stays in one line. -/
def block (left right : String) (lines : List String) : List String :=
  match lines with
  | [] => [left ++ right]
  | lines => [left] ++ indent lines ++ [right]

/-- Puts a text before the first of some lines and a comma after the last. -/
def entry (label : String) (lines : List String) : List String :=
  match lines with
  | [] => []
  | first :: rest =>
    let all := (label ++ first) :: rest
    all.dropLast ++ (all.getLast?.map (· ++ ",")).toList

/-- A field with its value. -/
def field (name : String) (lines : List String) : List String := entry (name ++ ": ") lines

/-- The lines of the parameters. -/
def describeParams (p : Params) : List String :=
  let entries := p.toList.flatMap fun (k, v) => entry (Text.quoted k ++ ": ") [Text.quoted v]
  block "TrustParameters \x7b" "\x7d" (field "values" (block "\x7b" "\x7d" entries))

/-- **A configuration in full.** -/
def describe (c : Config) : String :=
  let lines := block "TrustConfig \x7b" "\x7d" <|
    field "local_node" [Text.quoted c.home] ++
    field "pre_trusted_nodes" (block "[" "]" (c.preTrusted.flatMap fun id =>
      entry "" [Text.quoted id])) ++
    field "algorithm" [c.algorithm.title] ++
    field "cache_interval" [toString c.cacheInterval] ++
    field "low_com_weight" [toString c.boostWeight] ++
    field "min_communication" [toString c.minCommunication] ++
    field "max_matrix_size" [toString c.maxMatrixSize] ++
    field "max_selected_nodes" [toString c.maxSelected] ++
    field "params" (describeParams c.params)
  "\n".intercalate lines

end Config

end Reputation
