import ContractIR.Func

/-!
# ContractIR.Func.Order — the order in which blocks are printed

Blocks are printed in reverse post-order of a depth-first walk from the entry, followed by the
blocks that the walk does not reach, in the order in which they were added.  The walk visits the
successors of a block from last to first, so that reversing it keeps them in order.

The walk keeps its own stack.  It terminates because every step either sees a new block or shortens
what is left to do.
-/

namespace ContractIR.Func

/-- A block that the walk has entered, and those of its successors that it has yet to look at. -/
structure Frame where
  id : BlockId
  pending : List BlockId

/-- The frame with which the walk enters a block. -/
def Frame.enter (id : BlockId) (b : Block) : Frame := ⟨id, b.successors.reverse⟩

/-- How many steps the frames take if no further block is entered. -/
def backlog (stack : List Frame) : Nat := stack.foldr (fun fr n => fr.pending.length + 1 + n) 0

/-- The walk, from a stack of frames: `seen` are the blocks entered so far, and `order` those
already left, the last one first.  A successor under which there is no block is passed over and not
taken into `seen`; it would be passed over there as well. -/
def walk (f : Func) (seen : List BlockId) (stack : List Frame) (order : List BlockId) :
    List BlockId × List BlockId :=
  match stack with
  | [] => (seen, order)
  | ⟨id, []⟩ :: rest => walk f seen rest (id :: order)
  | ⟨id, next :: pending⟩ :: rest =>
    if next ∈ seen then walk f seen (⟨id, pending⟩ :: rest) order
    else
      match _ : f.blocks.get? next with
      | none => walk f seen (⟨id, pending⟩ :: rest) order
      | some b => walk f (next :: seen) (.enter next b :: ⟨id, pending⟩ :: rest) order
termination_by ((f.unseen seen).length, backlog stack)
decreasing_by
  · exact Prod.Lex.right _ (by simp [backlog])
  · exact Prod.Lex.right _ (by simp [backlog])
  · exact Prod.Lex.right _ (by simp [backlog])
  · exact Prod.Lex.left _ _ (length_unseen_cons_lt ‹_› ‹_›)

/-- The walk from the entry; it sees nothing if there is no such block. -/
def walkFromEntry (f : Func) : List BlockId × List BlockId :=
  match f.blocks.get? f.entry with
  | none => ([], [])
  | some b => f.walk [f.entry] [.enter f.entry b] []

/-- The order in which the blocks are printed. -/
def printOrder (f : Func) : List BlockId := f.walkFromEntry.2 ++ f.unseen f.walkFromEntry.1

end ContractIR.Func
