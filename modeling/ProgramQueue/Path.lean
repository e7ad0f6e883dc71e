import ProgramQueue.Effect

/-!
# Places in an effect tree

A place is the way to it from the root, branch by branch.  Its text joins the
branches with points; the root has the empty text.
-/

namespace ProgramQueue

/-- One turn on the way to a place. -/
inductive Branch where
  | seq (index : Nat)
  | par (index : Nat)
deriving DecidableEq, Repr

/-- The way from the root to a place. -/
abbrev Path := List Branch

namespace Branch

def text : Branch → String
  | seq index => s!"seq_{index}"
  | par index => s!"par_{index}"

end Branch

namespace Path

/-- Joins the text of a place and the text of one below it. -/
def join (base segment : String) : String :=
  if base.isEmpty then segment
  else if segment.isEmpty then base
  else base ++ "." ++ segment

def text : Path → String
  | [] => ""
  | branch :: rest => join branch.text (text rest)

end Path

namespace Effect

mutual

/-- The leaves that are still outstanding, in the order of the tree, with their
places.  One that has not been started counts; what is over does not. -/
def pendingLeaves : Effect → List (Path × Effect)
  | seq index child =>
      (pendingLeaves child).map fun (path, leaf) => (.seq index :: path, leaf)
  | par children => pendingLeavesFrom 0 children
  | await condition => [([], await condition)]
  | init => [([], init)]
  | done _ _ => []

/-- The outstanding leaves of parallel children, numbered from an index. -/
def pendingLeavesFrom (index : Nat) : List Effect → List (Path × Effect)
  | [] => []
  | child :: rest =>
      (pendingLeaves child).map (fun (path, leaf) => (.par index :: path, leaf)) ++
        pendingLeavesFrom (index + 1) rest

end

end Effect

end ProgramQueue
