import Reputation.EigenTrust.Engine
import Reputation.Params
import Reputation.Provider.Boosted
import Reputation.Provider.Cached

/-!
# Configuration

The settings of a trust pipeline and what they have to satisfy. `Config.validate` refuses settings
that a pipeline cannot work with; `Config.context` makes the context of a computation from any list
of peers.
-/

namespace Reputation

open Number

/-- **The settings of a pipeline.** -/
structure Config where
  home : String
  preTrusted : List String
  algorithm : Algorithm
  /-- The seconds for which trust is not computed again. -/
  cacheInterval : UInt64
  /-- The boost of rarely contacted peers, in percent. -/
  boostWeight : UInt32
  /-- The successful calls from which on a peer gets no boost. -/
  minCommunication : UInt64
  maxMatrixSize : UInt64
  maxSelected : UInt64
  params : Params

namespace Config

/-- The default settings, in which the local peer has no name yet. -/
def default : Config where
  home := ""
  preTrusted := []
  algorithm := .eigenTrustPlusPlus
  cacheInterval := 900
  boostWeight := 30
  minCommunication := Provider.defaultCommunication
  maxMatrixSize := UInt64.ofNat Provider.defaultSize
  maxSelected := 10
  params := .defaults

instance : Inhabited Config := ⟨default⟩

/-- The default settings of a local peer. -/
def ofHome (home : String) : Config := { default with home }

/-! ### Validation -/

/-- A refused parameter, as a refused setting. -/
def settingError : TrustError → TrustError
  | .malformedParameter name value => .malformedSetting name value
  | e => e

/-- Checks a parameter, if it is there, by its value. -/
def checkParam {α : Type} (p : Params) (name : String)
    (read : String → Except TrustError α) (check : α → Except TrustError Unit) :
    Except TrustError Unit :=
  if p.contains name then (read name).mapError settingError >>= check else .ok ()

/-- A weight has to be within zero and one. -/
def checkAlpha {K : Type} [Number K] (x : K) : Except TrustError Unit :=
  if le zero x && le x one then .ok () else .error (.alphaOutOfRange Params.alpha (format .plain x))

/-- A change must not be zero or below. -/
def checkEpsilon {K : Type} [Number K] (x : K) : Except TrustError Unit :=
  if le x zero then .error (.epsilonNotPositive Params.epsilon (format .plain x)) else .ok ()

/-- **Checks the settings**, with the numbers among the parameters read in `K`. -/
def validate (K : Type) [Number K] (c : Config) : Except TrustError Unit := do
  if (Text.trim c.home).isEmpty then throw .emptyLocalPeer
  if c.maxMatrixSize < 2 then throw .matrixTooSmall
  if c.maxSelected = 0 then throw .selectionTooSmall
  checkParam c.params Params.alpha (c.params.number (K := K)) checkAlpha
  checkParam c.params Params.epsilon (c.params.number (K := K)) checkEpsilon
  checkParam c.params Params.maxIterations c.params.integer fun _ => .ok ()

/-! ### Contexts -/

/-- The local peer. -/
def homePeer (c : Config) : Peer := .named c.home

/-- The pre-trusted peers. -/
def preTrustedPeers (c : Config) : PreTrusted := .ofList (c.preTrusted.map Peer.named)

/-- The first peer of every identity but the local one, and the local peer at the end. -/
def contextPeers (c : Config) (peers : List Peer) : List Peer :=
  Peer.newcomers [c.home] peers ++ [c.homePeer]

/-- **The context** over some peers and the local one, with a store. -/
def context (c : Config) (peers : List Peer) (store : StoreId) : Except TrustError Context :=
  Context.build (c.contextPeers peers) c.homePeer store c.preTrustedPeers c.params

end Config

end Reputation
