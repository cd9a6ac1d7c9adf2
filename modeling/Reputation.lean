import Reputation.Linear.Room
import Reputation.Main
import Reputation.Proofs.EigenTrust.Containment
import Reputation.Proofs.EigenTrust.Rearrangement
import Reputation.Proofs.EigenTrust.Renewal
import Reputation.Proofs.Pipeline
import Reputation.Proofs.Provider.Composition
import Reputation.Proofs.Provider.Tuning
import Reputation.Proofs.Provider.Instances
import Reputation.Proofs.EigenTrust.Relevance
import Reputation.Proofs.Experience.Listing
import Reputation.Proofs.Experience.History
import Reputation.Proofs.Selector.Weighted
import Reputation.Proofs.Provider.Yielding
import Reputation.Proofs.Selector.Bootstrap
import Reputation.Proofs.Selection
import Reputation.Proofs.Number.Numeral
import Reputation.Proofs.Table.Basic
import Reputation.Proofs.Table.Schema
import Reputation.Proofs.Command.Recording
import Reputation.Proofs.Command.Overflow
import Reputation.Proofs.Experience.Rows
import Reputation.Proofs.Table.Storage
import Reputation.Proofs.Document.Config
import Reputation.Proofs.Command.Frame
import Reputation.Proofs.Linear.Transposed
import Reputation.Proofs.PowerIteration.Accuracy
import Reputation.Proofs.PowerIteration.Calls
import Reputation.Proofs.EigenTrust.Silence
import Reputation.Proofs.Command.Coverage
import Reputation.Proofs.Selector.Replacement
import Reputation.Proofs.Selector.Proportion
import Reputation.Proofs.EigenTrust.Symmetry
import Reputation.Proofs.EigenTrust.Retelling
import Reputation.Proofs.Provider.Shares
import Reputation.Proofs.Provider.Lifted
import Reputation.Proofs.Provider.Lottery
import Reputation.Proofs.ScoreTable.Normalization
import Reputation.Proofs.Experience.Retention
import Reputation.Proofs.Experience.Introduction
import Reputation.Proofs.Roster
import Reputation.Proofs.Command.Update
