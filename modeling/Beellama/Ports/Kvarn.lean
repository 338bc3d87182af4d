import Mathlib.Data.Finset.Sort
import Mathlib.Algebra.Order.Ring.Int

/-!
# KVarN group arithmetic (`llama-kvarn.cpp`)

A KVarN cache quantizes the cells of a stream in groups of 128.  An incomplete group lives in an F16
stage of a few slots: group zero owns slot zero, the later groups take turns in the remaining ones.
Positions are integers; every quotient below is taken of a non-negative one.
-/

namespace Beellama.Ports

/-- `KVAR_N_GROUP`. -/
def kvarnGroup : Nat := 128

/-- The largest `llama_pos`. -/
def llamaPosMax : Int := 2 ^ 31 - 1

/-- `llama_kvarn_non_swa_tail_groups`: the transient stage slots of one
sequence. -/
def kvarnNonSwaTailGroups : Nat := 2

/-- `llama_kvarn_can_remove_range`. -/
def kvarnCanRemoveRange (posMax p0 p1 : Int) (group : Nat) : Bool :=
  if posMax < 0 then true
  else
    let begin := max p0 0
    let «end» := if p1 < 0 then llamaPosMax else p1
    if begin = 0 ∧ posMax < «end» then true
    else if «end» ≤ posMax then false
    else
      let liveGroup := posMax / group
      let earliestExact := max 0 (liveGroup - 1) * group
      decide (earliestExact ≤ begin)

/-- `llama_kvarn_plan_remove_range`: the range itself, or the suffix widened to a group boundary for
a stream of one owner. -/
def kvarnPlanRemoveRange (posMax p0 p1 : Int) (group : Nat) (streamOwned : Bool) :
    Option (Int × Int) :=
  if kvarnCanRemoveRange posMax p0 p1 group then some (p0, p1)
  else if !streamOwned ∨ p0 ≤ 0 ∨ 0 ≤ p1 then none
  else some (p0.tdiv group * group, -1)

/-- The stage slot of a group of a stream that keeps group zero as its sink. -/
def kvarnStageSlot (tailGroups group : Nat) : Nat :=
  if group = 0 then 0 else 1 + (group - 1) % tailGroups

/-- The stage row of a cell. -/
def kvarnStageRow (tailGroups cell : Nat) : Nat :=
  kvarnStageSlot tailGroups (cell / kvarnGroup) * kvarnGroup + cell % kvarnGroup

end Beellama.Ports
