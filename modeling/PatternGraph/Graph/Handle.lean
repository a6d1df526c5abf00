/-
  PatternGraph.Graph.Handle

  Handles of the nodes and edges of one graph.  A handle is the number of a
  slot; it means something only in the graph that issued it.  The numbers that
  a graph issues are words of 32 bits, so there is an end to them.
-/

namespace PatternGraph

/-- The last word of 32 bits.  No slot has this number: it is kept for an end of an edge that is
nowhere, and numbers are given out below it. -/
def slotLimit : Nat := UInt32.size - 1

/-- Handle of a node. -/
@[ext] structure NodeId where
  index : Nat
deriving DecidableEq

/-- Handle of an edge. -/
@[ext] structure EdgeId where
  index : Nat
deriving DecidableEq

/-- The handle that no node ever has. -/
def NodeId.dangling : NodeId := ⟨slotLimit⟩

instance : ToString NodeId := ⟨fun id => "n" ++ toString id.index⟩

instance : ToString EdgeId := ⟨fun id => "e" ++ toString id.index⟩

/-- A number below the limit is the same as a word. -/
theorem toNat_ofNat_of_lt_slotLimit {size : Nat} (h : size < slotLimit) :
    (UInt32.ofNat size).toNat = size :=
  UInt32.toNat_ofNat_of_lt' (Nat.lt_of_lt_of_le h (Nat.sub_le _ _))

end PatternGraph
