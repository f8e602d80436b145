/-!
# MetadataProjection.Config

The choices that change how types are resolved and how constructors find their factory methods.

* `Config`: all choices; `Config.compatible`, `Config.strict`, `Config.uncached` are presets.
-/

namespace MetadataProjection

inductive FactoryMatching where
  /-- The first method with as many parameters. -/
  | parameterCount
  /-- The first method with as many parameters, whose types agree. -/
  | parameterTypes
deriving DecidableEq, Repr

structure Config where
  matching : FactoryMatching := .parameterCount
  /-- How deep a resolution may nest: it fails at this level. -/
  maxDepth : Nat := 100
  remember : Bool := true
deriving DecidableEq, Repr

namespace Config

def compatible : Config := {}

def strict : Config := { matching := .parameterTypes }

def uncached : Config := { remember := false }

end Config

end MetadataProjection
