import Rulewright.Flag.Check
import Rulewright.Flag.Function
import Rulewright.Flag.Simplify

/-!
The whole clean-up: checks become literals, then rounds of simplification and pruning run until a
round changes nothing or the limit of rounds is reached, and at last the marks are taken off.
-/

namespace Rulewright.Flag

def withTable (analysis : Value → Except Fault Table) (pass : Table → Value → Outcome Value)
    (tree : Value) : Outcome Value :=
  match analysis tree with
  | .ok t => pass t tree
  | .error fault => .stop tree fault

def eliminateVariables (keepComments : Bool) : Value → Outcome Value :=
  withTable redundantVariables (pruneVariables keepComments)

def eliminateFunctions (keepComments : Bool) : Value → Outcome Value :=
  withTable (fun tree => do redundantFunctions (← singleReturns tree) tree) (pruneFunctions keepComments)

def round (keepComments : Bool) (tree : Value) : Outcome Value :=
  (((simplifyOperators tree).andThen (reduceConditionals keepComments)).andThen
    (eliminateVariables keepComments)).andThen (eliminateFunctions keepComments)

structure Rounds where
  tree : Value
  count : Nat
  changed : Bool
  fault : Option Fault := none

def rounds (keepComments : Bool) : Nat → Rounds → Rounds
  | 0, r => r
  | limit + 1, r =>
    if r.changed && r.fault.isNone then
      let o := round keepComments r.tree
      rounds keepComments limit
        { tree := o.value
          count := if o.fault.isNone then r.count + 1 else r.count
          changed := o.changed
          fault := o.fault }
    else r

structure Finished where
  tree : Value
  changed : Bool
  fault : Option Fault := none
  said : List String := []

def passes (n : Nat) : String := toString n ++ (if n == 1 then " pass" else " passes")

def report (s : Settings) (r : Rounds) : List String :=
  if truthy s.print then
    if r.changed then ["Terminated before fixed point in " ++ passes r.count ++ " over the code."]
    else if r.count == 1 && !isSingleRound s.maxSteps then
      ["Piranha did not make any changes to " ++ display s.filename ++ " to cleanup " ++ displayOr s.flag]
    else ["Took " ++ passes r.count ++ " over the code to reach fixed point."]
  else []

def cleanupRounds (s : Settings) (tree : Value) : Rounds :=
  let o := replaceChecks s tree
  rounds s.keepComments (roundLimit s.maxSteps) { tree := o.value, count := 0, changed := true, fault := o.fault }

def cleanup (s : Settings) (tree : Value) : Finished :=
  let r := cleanupRounds s tree
  match r.fault with
  | some fault => { tree := r.tree, changed := r.changed, fault := some fault }
  | none =>
    let o := unmark.run r.tree
    match o.fault with
    | some fault => { tree := o.value, changed := r.changed, fault := some fault }
    | none => { tree := o.value, changed := r.changed, said := report s r }

end Rulewright.Flag
