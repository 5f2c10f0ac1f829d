import StateSync.Store.Policy
import StateSync.Word

/-! The configuration of node store and branch cache, and its settings as text. -/

namespace StateSync.Store

namespace Config

def defaultBranchCacheSize : UInt64 := 128

def defaultPersistInterval : UInt64 := 64

def bytesPerMebibyte : Nat := 1024 * 1024

/-- Half a gibibyte. -/
def defaultMemoryLimit : Nat := 512 * bytesPerMebibyte

end Config

structure Config where
  /-- How far the newest tracked block may be ahead of the base of the branch cache. -/
  branchCacheSize : UInt64 := Config.defaultBranchCacheSize
  persistence : Persistence := .interval Config.defaultPersistInterval
  pruning : Pruning := .memoryLimit Config.defaultMemoryLimit
deriving DecidableEq

/-- Settings as text, as an environment supplies them. -/
structure Settings where
  branchCacheSize : Option String := none
  persistInterval : Option String := none
  memoryLimitMebibytes : Option String := none

namespace Config

/-- An interval of zero turns flushing off. -/
def persistenceOfInterval (interval : UInt64) : Persistence :=
  if interval = 0 then .never else if interval = 1 then .archive else .interval interval

/-- A limit of zero turns pruning off. -/
def pruningOfMebibytes (limit : UInt64) : Pruning :=
  if limit = 0 then .disabled else .memoryLimit (limit.toNat * bytesPerMebibyte)

/-- The default configuration with every setting that reads as a number in place of its default. -/
def ofSettings (settings : Settings) : Config :=
  let default : Config := {}
  { branchCacheSize := (settings.branchCacheSize.bind Word.ofText?).getD default.branchCacheSize
    persistence := ((settings.persistInterval.bind Word.ofText?).map
      persistenceOfInterval).getD default.persistence
    pruning := ((settings.memoryLimitMebibytes.bind Word.ofText?).map
      pruningOfMebibytes).getD default.pruning }

end Config

end StateSync.Store
