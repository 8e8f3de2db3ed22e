namespace GuardElision

structure EliminationConfig where
  /-- The most walks over the graph; at least one is made. -/
  maxWalks : Nat := 4
  foldBranches : Bool := true
  strengthenGuards : Bool := true
  /-- Canonicalize the whole graph after the last walk. -/
  finalCleanup : Bool := true
  /-- Check the structure of the graph after every walk. -/
  checkStructure : Bool := false
  /-- Check the placement of floating nodes after every walk. -/
  checkPlacement : Bool := false
deriving DecidableEq

namespace EliminationConfig

def guardsOnly : EliminationConfig where
  maxWalks := 1
  foldBranches := false
  strengthenGuards := false
  finalCleanup := false

def checked : EliminationConfig where
  checkStructure := true
  checkPlacement := true

def changesControlFlow (c : EliminationConfig) : Bool :=
  c.foldBranches || c.strengthenGuards

end EliminationConfig

end GuardElision
