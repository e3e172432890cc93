import BundleGraph.Json.Codec
import BundleGraph.OrderedMap

/-!
# File changes

Change events and the sets they fold into. A deletion overrides what was
recorded of its path; a path that is recorded as added stays so when it is
modified.
-/

namespace BundleGraph

open Json (Encode Decode encode decode?)

inductive ChangeEvent where
  | added (path : String)
  | modified (path : String)
  | deleted (path : String)
  deriving DecidableEq, Repr

namespace ChangeEvent

def path : ChangeEvent → String
  | added path | modified path | deleted path => path

instance : Encode ChangeEvent where
  encode
    | added path => .object [("Added", .string path)]
    | modified path => .object [("Modified", .string path)]
    | deleted path => .object [("Deleted", .string path)]

instance : Decode ChangeEvent where
  decode? t := do
    match ← t.choice? with
    | ("Added", some t) => return .added (← decode? t)
    | ("Modified", some t) => return .modified (← decode? t)
    | ("Deleted", some t) => return .deleted (← decode? t)
    | _ => none

end ChangeEvent

/-- Changes since the last delta. Once events were lost, the sets are
overflowed, and only a full build can be trusted. -/
structure ChangeSets where
  added : OrderedSet String := ∅
  modified : OrderedSet String := ∅
  deleted : OrderedSet String := ∅
  overflowed : Bool := false
  deriving Inhabited

namespace ChangeSets

def isEmpty (s : ChangeSets) : Bool :=
  s.added.isEmpty && s.modified.isEmpty && s.deleted.isEmpty && !s.overflowed

def record (s : ChangeSets) : ChangeEvent → ChangeSets
  | .deleted path =>
    { s with
      added := s.added.erase path
      modified := s.modified.erase path
      deleted := s.deleted.insert path }
  | .added path =>
    { s with
      deleted := s.deleted.erase path
      added := s.added.insert path }
  | .modified path =>
    if s.added.contains path then s
    else
      { s with
        deleted := s.deleted.erase path
        modified := s.modified.insert path }

def recordAll (s : ChangeSets) (events : List ChangeEvent) : ChangeSets := events.foldl record s

/-- The recorded changes as events: deletions, additions, modifications. -/
def events (s : ChangeSets) : List ChangeEvent :=
  s.deleted.toList.map .deleted ++ s.added.toList.map .added ++ s.modified.toList.map .modified

/-- Puts back changes that a failed delta had taken. The newer ones win. -/
def restore (newer older : ChangeSets) : ChangeSets :=
  { older with overflowed := older.overflowed || newer.overflowed }.recordAll newer.events

end ChangeSets

end BundleGraph
