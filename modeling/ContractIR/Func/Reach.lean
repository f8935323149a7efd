import ContractIR.Func

/-!
# ContractIR.Func.Reach — the blocks that control can reach
-/

namespace ContractIR.Func

/-- The blocks in `seen` together with all that can be reached from those in `work`. -/
def reach (f : Func) (seen work : List BlockId) : List BlockId :=
  match work with
  | [] => seen
  | next :: rest =>
    if next ∈ seen then f.reach seen rest
    else
      match _ : f.blocks.get? next with
      | none => f.reach seen rest
      | some b => f.reach (next :: seen) (b.successors ++ rest)
termination_by ((f.unseen seen).length, work.length)
decreasing_by
  · exact Prod.Lex.right _ (by simp)
  · exact Prod.Lex.right _ (by simp)
  · exact Prod.Lex.left _ _ (length_unseen_cons_lt ‹_› ‹_›)

/-- The blocks that control can reach from the entry. -/
def reachable (f : Func) : List BlockId := f.reach [] [f.entry]

/-- The blocks that control cannot reach, in the order in which they were added. -/
def unreachable (f : Func) : List BlockId := f.unseen f.reachable

end ContractIR.Func
