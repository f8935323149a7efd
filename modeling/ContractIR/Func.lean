import ContractIR.Block
import ContractIR.IdMap
import ContractIR.Target
import ContractIR.VarTable

/-!
# ContractIR.Func — functions and modules

A function is a set of numbered blocks with an entry, together with the table of its variables.  A
module is a set of numbered functions for one target.  Blocks and functions keep the order in which
they were added.
-/

namespace ContractIR

/-- A function in the form of basic blocks. -/
structure Func where
  id : FuncId
  name : String
  params : List Ty
  returns : List Ty
  entry : BlockId
  blocks : IdMap Block
  table : VarTable
deriving DecidableEq, Inhabited

namespace Func

/-- The blocks to which control may go from the block under `id`; none if there is no such block. -/
def successors (f : Func) (id : BlockId) : List BlockId :=
  ((f.blocks.get? id).map Block.successors).getD []

/-- The blocks whose terminator names `id` as a successor, in the order in which they were added. -/
def predecessors (f : Func) (id : BlockId) : List BlockId :=
  (f.blocks.entries.filter fun e => id ∈ e.2.successors).map Prod.fst

/-- The variables that the function defines, in order and with repetitions. -/
def definitions (f : Func) : List VarId := f.blocks.values.flatMap Block.definitions

/-- The blocks that are not in `seen`, in the order in which they were added. -/
def unseen (f : Func) (seen : List BlockId) : List BlockId := f.blocks.keys.filter (· ∉ seen)

/-- Seeing one more block leaves fewer unseen. -/
theorem length_unseen_cons_lt {f : Func} {seen : List BlockId} {id : BlockId} {b : Block}
    (hb : f.blocks.get? id = some b) (h : id ∉ seen) :
    (f.unseen (id :: seen)).length < (f.unseen seen).length := by
  have hk : id ∈ f.unseen seen := by simpa [unseen, h] using IdMap.mem_keys_of_get? hb
  have he : f.unseen (id :: seen) = (f.unseen seen).filter (· ≠ id) := by
    simp only [unseen, List.filter_filter]
    apply List.filter_congr
    intro x _
    simp
  rw [he]
  exact List.length_filter_lt_length_iff_exists.2 ⟨id, hk, by simp⟩

end Func

/-- The version of the library, as tools report it. -/
def version : String := "0.1.0"

/-- The functions of one compilation unit, all for the same target. -/
structure Module where
  name : String
  target : Target
  functions : IdMap Func

end ContractIR
