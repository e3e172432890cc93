import BundleGraph.Transform

/-!
# Build errors

Every way in which a build step fails, with its message. A failure that
several waiters of one load observe is wrapped as shared; the wrapping shows
neither in the message nor in the cause.
-/

namespace BundleGraph

/-- A reference that could not be mapped to a file; without a reason it was
not found. -/
structure ResolutionError where
  origin : Option String
  reference : String
  location : Option SourceLocation := none
  reason : Option String := none
  deriving DecidableEq, Repr

namespace ResolutionError

def isNotFound (e : ResolutionError) : Bool := e.reason.isNone

/-- Adds a location unless there is one. -/
def withLocation (e : ResolutionError) (location : Option SourceLocation) : ResolutionError :=
  { e with location := e.location <|> location }

def message (e : ResolutionError) : String :=
  let place := match e.location with
    | some l => ":" ++ toString l.line.toNat ++ ":" ++ toString l.column.toNat
    | none => ""
  let reason := match e.reason with
    | some reason => ": " ++ reason
    | none => ""
  "Unable to resolve module `" ++ e.reference ++ "` from " ++ e.origin.getD "<entry>" ++ place ++
    reason

end ResolutionError

/-- A failure of the operating system. -/
structure IoError where
  message : String
  isNotFound : Bool
  deriving DecidableEq, Repr

inductive BuildError where
  | io (e : IoError)
  | malformedEntry
  | resolution (e : ResolutionError)
  | transform (e : Transform.Error)
  | cacheRead (reason : String)
  | cacheWrite (reason : String)
  | worker (reason : String)
  | duplicateKey (origin key : String)
  | graphNotFound (id : String)
  | config (reason : String)
  | watch (reason : String)
  | invalidOperation (reason : String)
  | budgetSpent
  | shared (e : BuildError)
  deriving DecidableEq, Repr

namespace BuildError

/-- The error behind any number of shared wrappers. -/
def cause : BuildError → BuildError
  | shared e => e.cause
  | e => e

def isShared : BuildError → Bool
  | shared _ => true
  | _ => false

def isNotFound (e : BuildError) : Bool :=
  match e.cause with
  | resolution e => e.isNotFound
  | io e => e.isNotFound
  | _ => false

def message : BuildError → String
  | io e => "IO error: " ++ e.message
  | malformedEntry => "Serialization error"
  | resolution e => e.message
  | transform e => e.message
  | cacheRead reason => "Cache read failed: " ++ reason
  | cacheWrite reason => "Cache write failed: " ++ reason
  | worker reason => "Worker error: " ++ reason
  | duplicateKey origin key => "Duplicate dependency key `" ++ key ++ "` in " ++ origin
  | graphNotFound id => "Graph not found: " ++ id
  | config reason => "Config error: " ++ reason
  | watch reason => "Watch error: " ++ reason
  | invalidOperation reason => "Invalid operation: " ++ reason
  | budgetSpent => "Step budget spent"
  | shared e => e.message

@[simp] theorem cause_shared (e : BuildError) : (shared e).cause = e.cause := rfl

@[simp] theorem message_shared (e : BuildError) : (shared e).message = e.message := rfl

theorem message_cause (e : BuildError) : e.cause.message = e.message := by
  induction e with
  | shared e ih => exact ih
  | _ => rfl

@[simp] theorem isNotFound_shared (e : BuildError) : (shared e).isNotFound = e.isNotFound := rfl

end BuildError

end BundleGraph
