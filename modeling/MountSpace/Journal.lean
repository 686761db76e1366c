import MountSpace.Path.Basic

/-!
# The journal

What an operation reports besides its answer.

## Main definitions

* `Event` — the reports.
* `Event.message` — their wording.
* `Event.isWarning` — whether a report tells of something that went wrong.
-/

namespace MountSpace

/-- A report. -/
inductive Event
  /-- A store was mounted. -/
  | mounted (label : String)
  /-- A store was unmounted. -/
  | unmounted (label : String)
  /-- A store could not be closed. -/
  | closeFailed (label : String)
  /-- A link was followed; the walk went on at `onward`. -/
  | followed (link onward : Path)
  /-- A link was made. -/
  | linked (link target : Path)
  /-- Times were not set, since the store does not keep them. -/
  | timesIgnored (path : Path)
  /-- An entry of a table was moved. -/
  | moved (src dest : String)
  deriving DecidableEq, Repr

namespace Event

/-- The report in words. -/
def message : Event → String
  | .mounted label => "Mounted " ++ label
  | .unmounted label => "Unmounted " ++ label
  | .closeFailed label => "Backend close failed for " ++ label
  | .followed link onward => "Link " ++ link.text ++ " -> " ++ onward.text
  | .linked link target => "Created link " ++ link.text ++ " -> " ++ target.text
  | .timesIgnored path => "Ignoring set_times on " ++ path.text ++ ": timestamps not honored"
  | .moved src dest => "Renamed " ++ src ++ " to " ++ dest

/-- Whether the report tells of something that went wrong. -/
def isWarning : Event → Bool
  | .closeFailed _ => true
  | _ => false

end Event

end MountSpace
