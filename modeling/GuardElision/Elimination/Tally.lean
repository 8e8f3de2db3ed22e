namespace GuardElision

structure Tally where
  guardsEliminated : Nat := 0
  guardsStrengthened : Nat := 0
  branchesFolded : Nat := 0
  /-- Arms whose branch fact contradicts what is known. -/
  deadArms : Nat := 0
  rebuilds : Nat := 0
  walks : Nat := 0
  /-- Nodes changed by the final cleanup. -/
  nodesCanonicalized : Nat := 0
deriving DecidableEq

namespace Tally

def changed (t : Tally) : Bool :=
  0 < t.guardsEliminated + t.guardsStrengthened + t.branchesFolded + t.nodesCanonicalized

def text (t : Tally) : String :=
  let e := t.guardsEliminated
  let s := t.guardsStrengthened
  let b := t.branchesFolded
  let d := t.deadArms
  let r := t.rebuilds
  let w := t.walks
  s!"{e} guards eliminated, {s} strengthened, {b} branches folded, {d} dead arms, {r} rebuilds in {w} walks"

end Tally

end GuardElision
