import Statechart.Text
import Statechart.Graph.Basic
import Statechart.Graph.Search
import Statechart.Json.Record
import Statechart.Json.Printer
import Statechart.Json.Parser
import Statechart.Locator
import Statechart.Options
import Statechart.Model.Query
import Statechart.Model.Build
import Statechart.Model.Equality
import Statechart.Model.Sharing
import Statechart.Model.Reader
import Statechart.Model.Writer
import Statechart.Finding.Report
import Statechart.Context
import Statechart.Wellformed.Tree
import Statechart.Element
import Statechart.Validation
import Statechart.Entity
import Statechart.Proofs.Graph.CycleKey
import Statechart.Proofs.Graph.Insertion
import Statechart.Proofs.Graph.SearchOutcome
import Statechart.Proofs.Graph.SearchDecision
import Statechart.Proofs.Graph.SearchOrder
import Statechart.Proofs.Graph.SearchCost
import Statechart.Proofs.Integrity.CycleReport
import Statechart.Proofs.Integrity.Recursion
import Statechart.Proofs.Integrity.Descent
import Statechart.Proofs.Integrity.Ceiling
import Statechart.Proofs.Integrity.Limit
import Statechart.Proofs.Wellformed.Facade
import Statechart.Proofs.Wellformed.Advice
import Statechart.Proofs.Wellformed.Assembly
import Statechart.Proofs.Reading.RoundTrip
import Statechart.Proofs.Reading.Reloaded
import Statechart.Proofs.Acceptance.Exact
import Statechart.Proofs.Survey.Sharing
import Statechart.Proofs.Survey.Listing
import Statechart.Proofs.Survey.Arrival
import Statechart.Proofs.Integrity.Uniqueness
import Statechart.Proofs.Integrity.Duplicates
import Statechart.Proofs.Integrity.Return
import Statechart.Proofs.Integrity.Resolution
import Statechart.Proofs.Location.Filter
import Statechart.Proofs.Location.Findings
import Statechart.Proofs.Agreement.Gap
import Statechart.Proofs.Agreement.Layers
import Statechart.Proofs.Agreement.Ends
import Statechart.Proofs.Agreement.Missing
import Statechart.Proofs.Agreement.BlankEnds
import Statechart.Proofs.Agreement.Points
import Statechart.Proofs.Renaming.Relocation
import Statechart.Proofs.Reorder.Verdict
import Statechart.Proofs.Likeness.Exchange
import Statechart.Proofs.Likeness.Skeleton
