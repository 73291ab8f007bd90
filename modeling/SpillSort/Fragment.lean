import SpillSort.Identifier
import SpillSort.Profile

/-!
# Fragments

What the operators of one query fragment share: a tracker below the query's, a profile, and the
first error any of them reports.
-/

namespace SpillSort

/-- One running fragment of a query. -/
structure Fragment where
  query : Identifier
  instanceId : Identifier
  tracker : Memory.TrackerId
  profile : Profile
  /-- The first error reported. -/
  error : Option String := none

namespace Fragment

/-- A fragment on a tracker that exists already. -/
def onTracker (query instanceId : Identifier) (tracker : Memory.TrackerId) : Fragment :=
  { query, instanceId, tracker, profile := .empty s!"Fragment {instanceId.display}" }

/-- A fragment with a tracker of its own, below one for its query. A negative limit means none. -/
def below (ledger : Memory.Ledger) (queryTracker : Memory.TrackerId) (query instanceId : Identifier)
    (limit : Int64) : Fragment × Memory.Ledger :=
  let (t, ledger) := ledger.addChild s!"fragment_{instanceId.label}" limit queryTracker
  (onTracker query instanceId t, ledger)

/-- The label of the tracker of a query. -/
def queryLabel (query : Identifier) : String := s!"query_{query.label}"

/-- A fragment of a new process, with trackers for process, query and fragment. -/
def start (query instanceId : Identifier) (limit : Int64) : Fragment × Memory.Ledger :=
  let (process, ledger) := ({} : Memory.Ledger).addRoot "process" (-1)
  let (q, ledger) := ledger.addChild (queryLabel query) (-1) process
  below ledger q query instanceId limit

/-- A fragment of a query that has a limit of its own and no process. -/
def startLimited (queryLimit : Int64) (query instanceId : Identifier) (limit : Int64) :
    Fragment × Memory.Ledger :=
  let (q, ledger) := ({} : Memory.Ledger).addRoot (queryLabel query) queryLimit
  below ledger q query instanceId limit

/-- Records an error; the first one stays. -/
def report (text : String) (f : Fragment) : Fragment :=
  { f with error := f.error.or (some text) }

end Fragment

end SpillSort
