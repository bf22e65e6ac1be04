import Mathlib.Data.Nat.Notation

/-!
The collective calls of the drivers.

A call names a communicator, the world or the subcommunicator of a color, and an operation.
-/

namespace Icesee.Mpi

/-- The communicators: the world, and the subcommunicators by color. -/
inductive Comm
  | world
  | sub (color : ℕ)
  deriving DecidableEq, Repr

/-- The collective operations: `gather` sends objects, `gatherBuffer` is `Gather`, which
sends buffers of one size, and `gathervBuffer` is `Gatherv`. All others are given by name. -/
inductive Collective
  | barrier
  | bcast (root : ℕ)
  | gather (root : ℕ)
  | gatherBuffer (root : ℕ)
  | gathervBuffer (root : ℕ)
  | allreduceSum
  | allreduceMax
  | other (name : String)
  deriving DecidableEq, Repr

/-- A call names the communicator and the operation. -/
structure Call where
  comm : Comm
  collective : Collective
  deriving DecidableEq, Repr

/-- `comm_world.Barrier()`. -/
def barrier : Call := ⟨.world, .barrier⟩

/-- `comm_world.bcast(_, root=0)`. -/
def bcast : Call := ⟨.world, .bcast 0⟩

/-- The calls on the world. -/
def onWorld (op : Call) : Bool := op.comm = .world

end Icesee.Mpi
