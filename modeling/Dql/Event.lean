import Dql.Category

/-!
# Events

What is reported while functions are registered and expressions are compiled.

* `Event`, `Event.level`, `Event.message` - the events and how a log presents them.
-/

namespace Dql

/-- Something worth reporting. -/
inductive Event where
  /-- a catalog took a function; the name is the one given -/
  | registered (name : String) (category : Category) (replaced : Bool)
  /-- a call of a registered function was found; the name is the one written -/
  | dispatching (name : String) (position : Nat)
  /-- an expression was compiled -/
  | compiled (text sql : String)
  deriving DecidableEq

/-- How much an event matters. -/
inductive Level where
  | debug
  | trace
  deriving DecidableEq

/-- Calls are found often, so they are only traced. -/
def Event.level : Event → Level
  | registered .. => .debug
  | dispatching .. => .trace
  | compiled .. => .debug

/-- The line that a log shows for an event. -/
def Event.message : Event → String
  | registered .. => "registered custom DQL function"
  | dispatching .. => "dispatching to custom function"
  | compiled .. => "compiled expression"

end Dql
