import LetPoly.Inference.Context
import LetPoly.Log.Basic

/-!
# The log of an inference pass

While debugging is on for the section `unify`, every equation that unification finds is logged;
while it is on for `infer`, so is every scheme that a binding is given. Schemes are sent to a logger
that the caller may replace; equations are always sent to the shared one.

## Main definitions

* `Log.bindRecord`, `Log.generalizeRecord`: the records.
* `Log.TraceLines`, `Log.traceLines`: the lines of a pass, apart for each logger.
-/

namespace LetPoly.Log

/-- The record of an equation. -/
def bindRecord (e : Equation) : Record :=
  ⟨Level.debug, "bind",
    [⟨sectionKey, "unify"⟩, ⟨"var", (Ty.var e.var).render⟩, ⟨"type", e.type.render⟩]⟩

/-- The record of a binding and its scheme. -/
def generalizeRecord (name : String) (σ : Scheme) : Record :=
  ⟨Level.debug, "generalize", [⟨"name", name⟩, ⟨"scheme", σ.render⟩]⟩

/-- The logger for schemes, unless the caller brings one. -/
def inferLogger : Logger :=
  shared.withAttrs [⟨sectionKey, "infer"⟩]

/-- The lines of a pass. -/
structure TraceLines where
  /-- What the shared logger wrote. -/
  shared : List String
  /-- What the caller's logger wrote. -/
  custom : List String

/-- The line of one event on the shared logger; `schemes` tells whether schemes are sent there. -/
def sharedLine? (s : Settings) (schemes : Bool) : Event → Option String
  | .bound e => if s.enabled "unify" then shared.emit? s (bindRecord e) else none
  | .generalized name σ =>
    if schemes && s.enabled "infer" then inferLogger.emit? s (generalizeRecord name σ) else none
  | .drawn _ | .refreshed _ _ => none

/-- The line of one event on the caller's logger. -/
def customLine? (s : Settings) (logger : Logger) : Event → Option String
  | .generalized name σ =>
    if s.enabled "infer" then logger.emit? s (generalizeRecord name σ) else none
  | _ => none

/-- The lines of a pass with the given events, where `custom` is the logger the caller brings. -/
def traceLines (s : Settings) (custom : Option Logger) (events : List Event) : TraceLines where
  shared := events.filterMap (sharedLine? s custom.isNone)
  custom := match custom with
    | some logger => events.filterMap (customLine? s logger)
    | none => []

end LetPoly.Log
