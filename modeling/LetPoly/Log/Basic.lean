import LetPoly.Text.Quoted

/-!
# Logging

A record has a level, a message and attributes. A logger writes it as one line of keys and values,
or drops it: records below the set level are dropped, and records below `Level.warn` are dropped
too unless a `section` attribute, of the record or of the logger, starts with the name of an
enabled section. A logger may carry attributes of its own and may put what follows into named
groups.

## Main definitions

* `Log.Level`: the levels, with their names.
* `Log.Settings`: the set level and the enabled sections; `Settings.enabled` asks whether debugging
  is on for a section.
* `Log.Record`, `Log.Logger`: what is logged, and by whom.
* `Logger.withAttrs`, `Logger.group`: loggers that carry more.
* `Logger.emit?`: the line for a record, if it is written.
-/

namespace LetPoly.Log

/-! ### Levels -/

/-- How serious a record is: the larger the more. -/
abbrev Level := Int

namespace Level

def debug : Level := -4

def info : Level := 0

def warn : Level := 4

def error : Level := 8

/-- A level as the nearest named level below it and the distance from there. -/
def render (l : Level) : String :=
  let named (name : String) (base : Level) : String :=
    if l = base then name
    else if l < base then name ++ toString (l - base)
    else name ++ "+" ++ toString (l - base)
  if l < info then named "DEBUG" debug
  else if l < warn then named "INFO" info
  else if l < error then named "WARN" warn
  else named "ERROR" error

end Level

/-! ### Settings -/

/-- What is to be logged. -/
structure Settings where
  level : Level := Level.error
  sections : List String := ["infer", "unify"]

namespace Settings

/-- Does the section start with the name of an enabled one? -/
def allows (s : Settings) (name : String) : Bool :=
  s.sections.any fun enabled => enabled.toList.isPrefixOf name.toList

/-- Would a debug record for this section be written? -/
def enabled (s : Settings) (name : String) : Bool :=
  s.level ≤ Level.debug && s.allows name

end Settings

/-! ### Records and loggers -/

/-- A key and its value. -/
structure Attr where
  key : String
  value : String
  deriving DecidableEq

/-- Something to be logged. -/
structure Record where
  level : Level
  message : String
  attrs : List Attr

/-- A logger with what it carries. -/
structure Logger where
  /-- Are records below `Level.warn` held to the enabled sections? -/
  filtered : Bool := true
  /-- The sections the logger has been given so far. -/
  sections : List String := []
  /-- The names of the groups that are open, outermost first. -/
  groups : List String := []
  /-- The attributes carried so far, as they are written. -/
  carried : List String := []

/-- The key whose values name sections. -/
def sectionKey : String := "section"

/-- The sections that a list of attributes names. -/
def sectionsOf (attrs : List Attr) : List String :=
  (attrs.filter fun a => a.key == sectionKey).map (·.value)

/-- An attribute inside groups as it is written; one with the key `time` is not written. -/
def renderAttr? (groups : List String) (a : Attr) : Option String :=
  if a.key == "time" then none
  else
    let path := String.join (groups.map (· ++ "."))
    let key :=
      if path.isEmpty then Text.quoteIfNeeded a.key
      else if Text.needsQuotes path || Text.needsQuotes a.key then Text.quote (path ++ a.key)
      else path ++ a.key
    some (key ++ "=" ++ Text.quoteIfNeeded a.value)

namespace Logger

/-- The logger that also carries the given attributes. -/
def withAttrs (l : Logger) (attrs : List Attr) : Logger :=
  { l with
    sections := l.sections ++ sectionsOf attrs
    carried := l.carried ++ attrs.filterMap (renderAttr? l.groups) }

/-- The logger that puts all further attributes into a group. A group without a name is none. -/
def group (l : Logger) (name : String) : Logger :=
  if name.isEmpty then l else { l with groups := l.groups ++ [name] }

/-- Is the record to be written? -/
def accepts (l : Logger) (s : Settings) (r : Record) : Bool :=
  s.level ≤ r.level &&
    (!l.filtered || Level.warn ≤ r.level || l.sections.any s.allows ||
      (sectionsOf r.attrs).any s.allows)

/-- The line for a record. -/
def line (l : Logger) (r : Record) : String :=
  " ".intercalate
    (["level=" ++ r.level.render, "msg=" ++ Text.quoteIfNeeded r.message] ++ l.carried ++
      r.attrs.filterMap (renderAttr? l.groups))

/-- The line for a record, if it is to be written. -/
def emit? (l : Logger) (s : Settings) (r : Record) : Option String :=
  if l.accepts s r then some (l.line r) else none

end Logger

/-- The logger that everybody shares: it carries nothing and is held to the enabled sections. -/
def shared : Logger := {}

/-- A logger that is held to the set level only. -/
def plain : Logger := { filtered := false }

end LetPoly.Log
