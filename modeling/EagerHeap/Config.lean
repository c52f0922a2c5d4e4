import EagerHeap.Size.Capacity
/-!
# Configuration of a heap

A `Config` fixes the size of the arena, the limits of eager free, the allocation volume after which
a collection is due and the budgets of the steps of a collection. `Config.check` accepts exactly the
configurations that a heap can run with, and names the first condition that fails.
-/

namespace EagerHeap

/-- The parameters of a heap. -/
structure Config where
  /-- Bytes of the arena. -/
  arenaSize : Nat
  /-- Eager free declines smaller objects. -/
  minFreeSize : Nat
  /-- Eager free declines larger objects. -/
  maxFreeSize : Nat
  /-- Whether eager free is on. -/
  eagerFree : Bool
  /-- A collection is due after this many bytes of slow allocation. -/
  triggerBytes : Nat
  /-- Gray objects that one marking step of a whole cycle blackens. -/
  markBudget : Nat
  /-- Blocks that one sweeping step of a whole cycle visits. -/
  sweepBudget : Nat
deriving DecidableEq, Repr

/-- A budget of the collector. -/
inductive Budget where
  /-- The budget of a marking step. -/
  | mark
  /-- The budget of a sweeping step. -/
  | sweep
deriving DecidableEq, Repr

/-- The name of the parameter that holds the budget. -/
def Budget.name : Budget → String
  | mark => "mark_budget"
  | sweep => "sweep_budget"

/-- Why a configuration is refused. -/
inductive ConfigError where
  /-- The arena is empty or no whole number of blocks. -/
  | arenaSize (size blockSize : Nat)
  /-- The limits of eager free are in the wrong order. -/
  | invertedFreeBounds (min max : Nat)
  /-- Eager free would accept objects that are not small. -/
  | maxFreeTooLarge (max limit : Nat)
  /-- A step of the collector would make no progress. -/
  | zeroBudget (budget : Budget)
deriving DecidableEq, Repr

namespace ConfigError

/-- The sentence that tells a person what is wrong. -/
def message : ConfigError → String
  | arenaSize size blockSize =>
    "arena size " ++ toString size ++ " must be a non-zero multiple of " ++ toString blockSize ++
      " bytes"
  | invertedFreeBounds min max =>
    "min_free_size (" ++ toString min ++ ") exceeds max_free_size (" ++ toString max ++ ")"
  | maxFreeTooLarge max limit =>
    "max_free_size (" ++ toString max ++ ") exceeds the largest size class (" ++ toString limit ++
      ")"
  | zeroBudget budget => budget.name ++ " must be greater than zero"

/-- The name of the condition that fails. -/
def name : ConfigError → String
  | arenaSize .. => "ArenaSize"
  | invertedFreeBounds .. => "InvertedFreeBounds"
  | maxFreeTooLarge .. => "MaxFreeTooLarge"
  | zeroBudget .. => "ZeroBudget"

/-- The error as a record with named fields. -/
def describe : ConfigError → String
  | arenaSize size blockSize =>
    "ArenaSize \x7b size: " ++ toString size ++ ", block_size: " ++ toString blockSize ++ " \x7d"
  | invertedFreeBounds min max =>
    "InvertedFreeBounds \x7b min: " ++ toString min ++ ", max: " ++ toString max ++ " \x7d"
  | maxFreeTooLarge max limit =>
    "MaxFreeTooLarge \x7b max: " ++ toString max ++ ", limit: " ++ toString limit ++ " \x7d"
  | zeroBudget budget => "ZeroBudget \x7b name: \"" ++ budget.name ++ "\" \x7d"

end ConfigError

namespace Config

/-- The configuration of a heap for which nothing is said: an arena of 64 MiB, eager free for every
small object, a collection after 4 MiB. -/
def standard : Config where
  arenaSize := 67108864
  minFreeSize := 16
  maxFreeSize := SizeClass.greatest
  eagerFree := true
  triggerBytes := 4194304
  markBudget := 256
  sweepBudget := 32

/-- The pause between two looks of a background collector, in microseconds. -/
def intervalMicroseconds : Nat := 1000

/-- The number of blocks of the arena. -/
def arenaBlocks (c : Config) : Nat := c.arenaSize / blockSize

/-- Accepts a configuration, or names the first condition that it fails. -/
def check (c : Config) : Except ConfigError Unit :=
  if c.arenaSize = 0 ∨ c.arenaSize % blockSize ≠ 0 then .error (.arenaSize c.arenaSize blockSize)
  else if c.maxFreeSize < c.minFreeSize then
    .error (.invertedFreeBounds c.minFreeSize c.maxFreeSize)
  else if SizeClass.greatest < c.maxFreeSize then
    .error (.maxFreeTooLarge c.maxFreeSize SizeClass.greatest)
  else if c.markBudget = 0 then .error (.zeroBudget .mark)
  else if c.sweepBudget = 0 then .error (.zeroBudget .sweep)
  else .ok ()

/-- The greatest arena that can be asked for. -/
def greatestArena : Nat := Word.signedGreatest - (blockSize - 1)

end Config

end EagerHeap
