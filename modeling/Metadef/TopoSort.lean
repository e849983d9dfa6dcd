import Metadef.Lib.Kahn
import Metadef.Lib.UnstableSort
import Metadef.ComputeGraph

/-!
# Topological sorting

`TopologicalSortingGraph` and the functions it calls. The counters of missing inputs are of type `uint32_t` and wrap. The
option of the run mode is that of the context, none when it is unset or empty.
-/

namespace Metadef

/-- `map_in_edge_num`: the inputs each node still waits for. -/
abbrev InEdgeNum := NodeId → Option Nat

/-- The values of a `uint32_t`. -/
def uint32Size : Nat := 2 ^ 32

/-- The run mode of training. -/
def GraphRunMode.train : Int := 1

namespace Node

variable (h : Heap) (n : NodeId)

/-- The types of the nodes that close a loop. -/
def isNextIteration : Bool := getType h n = "NextIteration" || getType h n = "RefNextIteration"

/-- The types of the nodes a graph is fed through. -/
def isDataType : Bool :=
  getType h n = "Data" || getType h n = "AippData" || getType h n = "Input" || getType h n = "AnnData"

end Node

namespace ComputeGraph

variable (h : Heap)

/-! ## Counting edges -/

/-- Whether the first peer of an input is a data output of a node that closes a loop. -/
def closesLoop (a : AnchorId) : Bool :=
  match InDataAnchor.getPeerOutAnchor h a with
  | none => false
  | some out => Node.isNextIteration h (h.owner out)

/-- Adds the edges into data inputs to a count, an edge that closes a loop taken off. None is the return of the loop when
there is nothing to take it off. -/
def addInDataEdges : List AnchorId → Nat → Option Nat
  | [], size => some size
  | a :: l, size =>
    let size := size + (h.peers a).length
    if closesLoop h a then
      if size = 0 then none else addInDataEdges l (size - 1)
    else addInDataEdges l size

def getInEdgeSize (n : NodeId) : Nat :=
  match addInDataEdges h (h.node n).inDataAnchors 0 with
  | none => 0
  | some size => size + (h.peers (h.node n).inControlAnchor).length

def getOutEdgeSize (n : NodeId) : Nat :=
  let data := if Node.isNextIteration h n then 0 else ((h.node n).outDataAnchors.map fun a => (h.peers a).length).sum
  let control := (h.peers (h.node n).outControlAnchor).length
  if 2 ^ 64 - 1 - control < data then 0 else data + control

/-! ## Where sorting starts -/

/-- The stack of the nodes without inputs, how many of them are no data nodes, and the counters. -/
structure SortStack where
  stack : List NodeId := []
  specNodeSize : Nat := 0
  mapInEdgeNum : InEdgeNum := fun _ => none

/-- Enters a node: a node without inputs goes to the front, a data node behind those that are none. An isolated node fails
the sort when that is asked for. -/
def enterNode (verifyIsolated : Bool) (s : SortStack) (node : NodeId) : Option SortStack :=
  let num := getInEdgeSize h node % uint32Size
  let s := { s with mapInEdgeNum := Function.update s.mapInEdgeNum node (some num) }
  if num = 0 then
    if !Node.isDataType h node then
      if verifyIsolated && getOutEdgeSize h node = 0 then none
      else some { s with stack := node :: s.stack, specNodeSize := s.specNodeSize + 1 }
    else some { s with stack := s.stack.insertIdx s.specNodeSize node }
  else some s

/-- Where the order of inputs the user asked for has a node. -/
def inputsOrderIndex (g : GraphId) (n : NodeId) : Option Nat :=
  (h.graph g).inputsOrder.findIdx? (· = Node.getName h n)

/-- `std::swap` of two items. -/
def swapAt (l : List NodeId) (i j : Nat) : List NodeId :=
  match l[i]?, l[j]? with
  | some a, some b => (l.set i b).set j a
  | _, _ => l

/-- The inner loop: swaps the item at a position with the later ones that stand behind its first one in the order. -/
def swapLater (g : GraphId) (i inxI : Nat) (stack : List NodeId) (j : Nat) : List NodeId :=
  match stack[j]?.bind (inputsOrderIndex h g) with
  | none => stack
  | some inxJ => if inxI < inxJ then swapAt stack i j else stack

/-- One round of the outer loop. -/
def orderInputsAt (g : GraphId) (stack : List NodeId) (i : Nat) : List NodeId :=
  match stack[i]?.bind (inputsOrderIndex h g) with
  | none => stack
  | some inxI => (List.range' (i + 1) (stack.length - (i + 1))).foldl (swapLater h g i inxI) stack

/-- Whether the run mode asks for a check that no node is isolated. -/
def verifyIsolated (runMode : Option Int) : Bool := runMode.any (· < GraphRunMode.train)

def sortNodes (runMode : Option Int) (g : GraphId) : Option (List NodeId × InEdgeNum) :=
  ((h.graph g).nodes.foldlM (enterNode h (verifyIsolated runMode)) {}).map fun s =>
    ((List.range s.stack.length).foldl (orderInputsAt h g) s.stack, s.mapInEdgeNum)

/-! ## Visiting -/

/-- The owners of the peers an output is walked over, in the two loops over it. -/
def outDataBlocks (a : AnchorId) : List (List NodeId) :=
  [(OutDataAnchor.getPeerInDataAnchors h a).map h.owner, (OutDataAnchor.getPeerInControlAnchors h a).map h.owner]

/-- The owners of the peers a visit of a node walks over, loop by loop. -/
def outBlocks (n : NodeId) : List (List NodeId) :=
  (h.node n).outDataAnchors.flatMap (outDataBlocks h) ++ [(h.peers (h.node n).outControlAnchor).map h.owner]

/-- The loop that takes one off the counters of nodes and collects those left without inputs. -/
def countDown (num : InEdgeNum) (targets : List NodeId) : InEdgeNum × List NodeId := Kahn.release uint32Size num targets

/-- `stack_push`. -/
def stackPush (reverse : Bool) (stack outNodes : List NodeId) : List NodeId :=
  stack ++ if reverse then outNodes.reverse else outNodes

/-- One of the loops of a visit, and the push of what it collects. -/
def pushBlock (reverse : Bool) (s : InEdgeNum × List NodeId) (targets : List NodeId) : InEdgeNum × List NodeId :=
  let r := countDown s.1 targets
  (r.1, stackPush reverse s.2 r.2)

/-- One round of the depth-first loop: the last node of the stack is visited. -/
def dfsVisit (reverse : Bool) (s : Kahn.State NodeId) : Option (Kahn.State NodeId) :=
  match s.pending.getLast? with
  | none => none
  | some node =>
    let r := (outBlocks h node).foldl (pushBlock reverse) (s.counters, s.pending.dropLast)
    some { visited := s.visited ++ [node], pending := r.2, counters := r.1 }

/-- The state of the breadth-first loop. -/
structure BfsState where
  nodeVec : List NodeId := []
  stack : List NodeId := []
  stackInput : List NodeId
  mapInEdgeNum : InEdgeNum

/-- `CollectBreadthOutNode`: of the nodes of one name that are left without inputs the first is kept. -/
def collectBreadthOutNode (num : InEdgeNum) (node : NodeId) : InEdgeNum × OrderedMap String NodeId :=
  let r := countDown num (outBlocks h node).flatten
  (r.1, OrderedMap.insertAll (Node.getName h) [] r.2)

/-- The node the breadth-first loop visits next, with the stacks without it. -/
def BfsState.pop (s : BfsState) : Option (NodeId × List NodeId × List NodeId) :=
  match s.stack.getLast? with
  | some node => some (node, s.stack.dropLast, s.stackInput)
  | none => s.stackInput.getLast?.map fun node => (node, s.stack, s.stackInput.dropLast)

/-- One round of the breadth-first loop: what the visit collects is pushed to the front in the order of names. -/
def bfsVisit (s : BfsState) : Option BfsState :=
  match s.pop with
  | none => none
  | some (node, stack, stackInput) =>
    let r := collectBreadthOutNode h s.mapInEdgeNum node
    some { nodeVec := s.nodeVec ++ [node]
           stack := r.2.foldl (fun stack e => e.2 :: stack) stack
           stackInput
           mapInEdgeNum := r.1 }

/-! ## Sorting -/

/-- How many rounds a loop may take stands for whether it returns: with too few the outcome is none. The inner none is the
failure of `SortNodes`. -/
def dfsTopologicalSorting (fuel : Nat) (runMode : Option Int) (reverse : Bool) (g : GraphId) :
    Option (Option (List NodeId)) :=
  match sortNodes h runMode g with
  | none => some none
  | some (stack, num) => (Run.loop (dfsVisit h reverse) fuel ⟨[], stack, num⟩).map fun s => some s.visited

def bfsTopologicalSorting (fuel : Nat) (runMode : Option Int) (g : GraphId) : Option (Option (List NodeId)) :=
  match sortNodes h runMode g with
  | none => some none
  | some (stackInput, mapInEdgeNum) =>
    (Run.loop (bfsVisit h) fuel { stackInput, mapInEdgeNum }).map fun s => some s.nodeVec

/-- `IsUseBFS`. -/
def isUseBFS (runMode : Option Int) : Bool := runMode.any (GraphRunMode.train ≤ ·)

/-- The order one of the two loops finds. -/
def sortedNodes (fuel : Nat) (runMode : Option Int) (dfsReverse : Bool) (g : GraphId) : Option (Option (List NodeId)) :=
  if isUseBFS runMode then bfsTopologicalSorting h fuel runMode g
  else dfsTopologicalSorting h fuel runMode dfsReverse g

/-- Lists the nodes in a new order. -/
def listNodes (g : GraphId) (nodeVec : List NodeId) (h : Heap) : Heap :=
  h.setGraph g { h.graph g with nodes := nodeVec, directNodesSize := nodeVec.length, isValidFlag := true }

def topologicalSortingGraph (fuel : Nat) (runMode : Option Int) (dfsReverse : Bool) (this : GraphId) : Cmd Heap Bool := do
  let h ← get
  match sortedNodes h fuel runMode dfsReverse this with
  | none => Cmd.undef
  | some none => return false
  | some (some nodeVec) =>
    if nodeVec.length ≠ (h.graph this).directNodesSize then return false
    set (listNodes this nodeVec (setIds nodeVec 0 h))
    return true

/-- `TopologicalSorting` by a comparison, which `std::list::sort` wants to be a strict weak order. -/
def topologicalSortingBy (comp : NodeId → NodeId → Bool) (this : GraphId) : Cmd Heap Unit := do
  edit this fun g => { g with nodes := g.nodes.mergeSort fun a b => !comp b a }
  modify fun h => setIds (h.graph this).nodes 0 h

end ComputeGraph

/-!
## Sorting by name

`TopologicalSortingByName` sorts the front of the stack of source nodes by falling names and then goes through the graph from
its back, breadth first. Sizes are of type `size_t`. `std::sort` is any sort, since it may leave nodes of one name in any order.
-/

namespace GraphUtils

variable (h : Heap)

/-- `std::sort` by falling names. -/
abbrev NameSort := UnstableSort (Node.getName h)

/-- `non_user_input_index`: where the range that is sorted ends. -/
def nonUserInputIndex (g : GraphId) (stackInput : List NodeId) : Nat :=
  (stackInput.length.toUInt64 - (h.graph g).inputsOrder.length.toUInt64 - 1).toNat

/-- The stack with that range sorted. None is a range past the end of the stack, which is not defined. -/
def sortStackInput (sort : NameSort h) (g : GraphId) (stackInput : List NodeId) : Option (List NodeId) :=
  let i := nonUserInputIndex h g stackInput
  if i ≤ stackInput.length then some (sort.sort (stackInput.take i) ++ stackInput.drop i) else none

/-- The node the loop visits next, with the queue and the stack without it. -/
def frontByName (s : ComputeGraph.BfsState) : Option (NodeId × List NodeId × List NodeId) :=
  match s.stack with
  | curNode :: stack => some (curNode, stack, s.stackInput)
  | [] => s.stackInput.getLast?.map fun curNode => (curNode, [], s.stackInput.dropLast)

/-- One round of the loop. The names of what the visit collects are the keys of a map, in order already. -/
def visitByName (s : ComputeGraph.BfsState) : Option ComputeGraph.BfsState :=
  match frontByName s with
  | none => none
  | some (curNode, stack, stackInput) =>
    let r := ComputeGraph.collectBreadthOutNode h s.mapInEdgeNum curNode
    some { nodeVec := s.nodeVec ++ [curNode]
           stack := stack ++ r.2.map Prod.snd
           stackInput
           mapInEdgeNum := r.1 }

/-- The status and the nodes found. None is a sort of a range that is not defined, or too little fuel. -/
def topologicalSortingByName (sort : NameSort h) (fuel : Nat) (runMode : Option Int) (computeGraph : GraphId)
    (nodeVec : List NodeId) : Option (Bool × List NodeId) :=
  match ComputeGraph.sortNodes h runMode computeGraph with
  | none => some (false, nodeVec)
  | some (stackInput, mapInEdgeNum) => do
    let stackInput ← sortStackInput h sort computeGraph stackInput
    let s ← Run.loop (visitByName h) fuel { nodeVec, stackInput, mapInEdgeNum }
    return (s.nodeVec.length == (h.graph computeGraph).directNodesSize, s.nodeVec)

end GraphUtils

end Metadef
