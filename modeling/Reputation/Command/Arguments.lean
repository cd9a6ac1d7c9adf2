import Reputation.Failure

/-!
# Commands and their arguments

`Command.parse?` reads the arguments of a run: the name of a command and options, each with a value,
in any order. Whatever else is given refuses the whole line, and so does an option that is unknown,
repeated or left without a value.
-/

namespace Reputation

/-- The options for recording an interaction. -/
structure RecordOptions where
  observer : Option String
  partner : Option String
  outcome : Option String
deriving Repr, DecidableEq, Inhabited

/-- The options for setting a status. -/
structure StatusOptions where
  peer : Option String
  status : Option String
deriving Repr, DecidableEq, Inhabited

/-- The options for changing the configuration. -/
structure UpdateOptions where
  home : Option String
  preTrusted : Option String
  algorithm : Option String
  alpha : Option String
  epsilon : Option String
  maxIterations : Option String
  cacheInterval : Option String
  boostWeight : Option String
deriving Repr, DecidableEq, Inhabited

/-- **A command.** -/
inductive Command where
  | record (options : RecordOptions)
  | scores
  | select
  | describe
  | status (options : StatusOptions)
  | update (options : UpdateOptions)
deriving Repr, DecidableEq, Inhabited

namespace Command

/-! ### Options -/

/-- A long option: its name, and its value if that stands after an equals sign. -/
def longOption? (arg : String) : Option (String × Option String) :=
  match arg.toList with
  | '-' :: '-' :: body =>
    let name := String.ofList (body.takeWhile (· != '='))
    match body.dropWhile (· != '=') with
    | [] => some (name, none)
    | _ :: value => some (name, some (String.ofList value))
  | _ => none

/-- May an argument be the value of the option before it? Only a lone dash may start with a dash. -/
def isValue (arg : String) : Bool :=
  match arg.toList with
  | '-' :: _ :: _ => false
  | _ => true

/-- The options of a line, with their values. A lone `--` may end it. -/
def options? : List String → Option (List (String × String))
  | [] => some []
  | ["--"] => some []
  | arg :: args =>
    match longOption? arg with
    | none => none
    | some (name, some value) => (options? args).map ((name, value) :: ·)
    | some (name, none) =>
      match args with
      | [] => none
      | value :: args => if isValue value then (options? args).map ((name, value) :: ·) else none

/-- Are the given names all known, and none of them given twice? -/
def accepts (known : List String) (given : List (String × String)) : Bool :=
  let names := given.map Prod.fst
  names.all known.contains && decide names.Nodup

/-- The value of an option. -/
def value? (given : List (String × String)) (name : String) : Option String := given.lookup name

/-! ### Commands -/

/-- The options of each command. -/
def knownOptions : String → List String
  | "record" => ["from", "to", "result"]
  | "status" => ["node", "status"]
  | "update" => ["local-node", "pre-trusted", "algorithm", "alpha", "epsilon", "max-iterations",
      "cache-interval", "low-com-weight"]
  | _ => []

/-- A command with some options. -/
def ofName? (name : String) (given : List (String × String)) : Option Command :=
  let value := value? given
  match name with
  | "record" => some (.record ⟨value "from", value "to", value "result"⟩)
  | "scores" => some .scores
  | "select" => some .select
  | "show" => some .describe
  | "status" => some (.status ⟨value "node", value "status"⟩)
  | "update" => some (.update ⟨value "local-node", value "pre-trusted", value "algorithm",
      value "alpha", value "epsilon", value "max-iterations", value "cache-interval",
      value "low-com-weight"⟩)
  | _ => none

/-- **The command of a line of arguments.** -/
def parse? : List String → Option Command
  | [] => none
  | name :: args => do
    let given ← options? args
    if accepts (knownOptions name) given then ofName? name given else none

end Command

end Reputation
