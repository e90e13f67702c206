import GraphTable.Text.Basic

/-!
# Configuration

Settings of queries. Every setting has a default, which the environment of the process may
override, and the properties of a single query may override both. What results is checked as a
whole: no setting alone is wrong because of another one that is overridden later.
-/

namespace GraphTable

/-- How the edges of a graph are to be followed. -/
inductive FetchType
  | serial
  | parallel
  deriving DecidableEq, Repr

namespace FetchType

/-- The name of a way to follow edges. -/
def name : FetchType → String
  | serial => "serial"
  | parallel => "parallel"

/-- Reads a name; blanks around it do not count, nor does the case of its letters. -/
def read? (text : String) : Option FetchType :=
  let name := (Text.trim text).toLower
  if name = "serial" then some serial
  else if name = "parallel" then some parallel
  else none

end FetchType

/-- The settings of queries. -/
structure Config where
  fetchType : FetchType
  poolMin : Nat
  poolMax : Nat
  /-- How many hops edges are followed in parallel. -/
  threadDepth : Nat
  /-- How many handles of tables are kept. -/
  cacheSize : Nat
  /-- For how many seconds a handle is kept. -/
  cacheTimeout : Nat
  /-- What separates the members of lists that name no delimiter of their own. -/
  delimiter : String
  deriving DecidableEq, Repr

/-- A setting that can be overridden. -/
inductive Setting
  | fetchType
  | poolMin
  | poolMax
  | threadDepth
  | cacheSize
  | cacheTimeout
  | delimiter
  deriving DecidableEq, Repr

/-- Where a setting is overridden. -/
inductive ConfigScope
  | system
  | query
  deriving DecidableEq, Repr

/-- Why settings are refused. -/
inductive ConfigFault
  | unknown (scope : ConfigScope) (setting : Setting) (value : String)
  | invalid (scope : ConfigScope) (setting : Setting) (value : String)
  | pool (min max : Nat)
  | noCache
  | noDelimiter
  deriving DecidableEq, Repr

namespace Setting

/-- All settings, in the order in which they are overridden. -/
def all : List Setting :=
  [fetchType, poolMin, poolMax, threadDepth, cacheSize, cacheTimeout, delimiter]

/-- The property that overrides a setting. -/
def property : Setting → String
  | fetchType => "cellgraph.query.fetchtype"
  | poolMin => "cellgraph.query.threadpool.size.min"
  | poolMax => "cellgraph.query.threadpool.size.max"
  | threadDepth => "cellgraph.query.thread.depth.max"
  | cacheSize => "cellgraph.query.tablecache.size"
  | cacheTimeout => "cellgraph.query.tablecache.timeout"
  | delimiter => "cellgraph.query.in.delimiter"

end Setting

/-- The wording of a scope. -/
def ConfigScope.name : ConfigScope → String
  | system => "system"
  | query => "query"

/-- The wording of a fault. -/
def ConfigFault.message : ConfigFault → String
  | unknown scope setting value =>
    "unknown " ++ scope.name ++ s!" query configuration value '{value}' for property, " ++
      setting.property
  | invalid scope setting value =>
    "invalid " ++ scope.name ++ s!" query configuration value '{value}' for property, " ++
      setting.property
  | pool min max => s!"thread pool size min {min} must not exceed max {max} (max > 0)"
  | noCache => "table cache size must be positive"
  | noDelimiter => "IN/NOT_IN delimiter must not be empty"

namespace Config

/-- The settings without any override. -/
def default : Config where
  fetchType := .serial
  poolMin := 10
  poolMax := 10
  threadDepth := 3
  cacheSize := 64
  cacheTimeout := 300
  delimiter := " "

/-- The environment variable that overrides what a property overrides. -/
def variableName (property : String) : String :=
  (property.map fun c => if c = '.' then '_' else c).toUpper

/-- Where overrides are looked up, by the name of a property. -/
abbrev Overrides := String → Option String

/-- A whole number of 64 bits without sign; blanks around it do not count. -/
def readNumber (scope : ConfigScope) (setting : Setting) (text : String) :
    Except ConfigFault Nat :=
  match Text.count? (Text.trimChars text.toList) with
  | some n => .ok n.toNat
  | none => .error (.invalid scope setting text)

/-- Sets a setting from its text. Blanks in a delimiter are part of it. -/
def set (scope : ConfigScope) (c : Config) (setting : Setting) (text : String) :
    Except ConfigFault Config :=
  match setting with
  | .fetchType =>
    match FetchType.read? text with
    | some t => .ok { c with fetchType := t }
    | none => .error (.unknown scope .fetchType text)
  | .poolMin => do return { c with poolMin := ← readNumber scope setting text }
  | .poolMax => do return { c with poolMax := ← readNumber scope setting text }
  | .threadDepth => do return { c with threadDepth := ← readNumber scope setting text }
  | .cacheSize => do return { c with cacheSize := ← readNumber scope setting text }
  | .cacheTimeout => do return { c with cacheTimeout := ← readNumber scope setting text }
  | .delimiter => .ok { c with delimiter := text }

/-- Overrides one setting, if there is an override for it. -/
def overrideOne (scope : ConfigScope) (overrides : Overrides) (c : Config) (setting : Setting) :
    Except ConfigFault Config :=
  match overrides setting.property with
  | none => .ok c
  | some text => c.set scope setting text

/-- Overrides settings, without a check of the result. -/
def override (scope : ConfigScope) (overrides : Overrides) (c : Config) :
    Except ConfigFault Config :=
  Setting.all.foldlM (overrideOne scope overrides) c

/-- Checks settings as a whole. -/
def check (c : Config) : Except ConfigFault Config :=
  if c.poolMax = 0 ∨ c.poolMax < c.poolMin then .error (.pool c.poolMin c.poolMax)
  else if c.cacheSize = 0 then .error .noCache
  else if c.delimiter = "" then .error .noDelimiter
  else .ok c

/-- The settings of an environment and of properties that override it. -/
def resolve (environment properties : Overrides) : Except ConfigFault Config := do
  let c ← default.override .system fun property => environment (variableName property)
  check (← c.override .query properties)

/-- Settings after the properties of a query have overridden them. -/
def withProperties (c : Config) (properties : Overrides) : Except ConfigFault Config := do
  check (← c.override .query properties)

end Config

end GraphTable
