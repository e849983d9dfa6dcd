import Metadef.Linking
import Metadef.FusionPass

/-!
# The index of nodes by their types

The functions of `graph_pass_util.h` that write the index of a graph, in which a node stands under its type and its name, and the
calls of those who keep it: nodes are added to the graph and to the index, and removed from the graph with or without the index.
-/

namespace Metadef

/-! ## Writing the index -/

namespace GraphPassUtil

variable (h : Heap) (map : NodeTypeMap) (opType : String) (node : Option NodeId)

/-- `AddNodeToNodeTypeMap`. What is entered under the name of the node stays. -/
def addNodeToNodeTypeMap : NodeTypeMap :=
  match node with
  | none => map
  | some n =>
    match map.find opType with
    | none => map.insert opType [(Node.getName h n, n)]
    | some nodes => map.assign opType (nodes.insert (Node.getName h n) n)

/-- `AddNodeFromOpTypeMap`: the node is entered under its type. -/
def addNodeFromOpTypeMap (originalType : OpId → String) : NodeTypeMap :=
  match node with
  | none => map
  | some n => addNodeToNodeTypeMap h map (NodeUtils.getNodeType originalType h n) (some n)

/-- `RemoveNodeFromNodeTypeMap`: whatever is entered under the name of the node goes. -/
def removeNodeFromNodeTypeMap : NodeTypeMap :=
  match node with
  | none => map
  | some n =>
    match map.find opType with
    | none => map
    | some nodes => map.assign opType (nodes.erase (Node.getName h n))

/-- `GetNodesFromNodeTypeMap`. -/
def getNodesFromNodeTypeMap : List NodeId := ((map.find opType).getD []).map Prod.snd

end GraphPassUtil

/-! ## Keeping the index -/

/-- A function that adds a node to a graph. -/
inductive NodeAdding where
  | addNode (node : Option NodeId)
  | addOpNode (op : Option OpId)
  | addOpNodeWithId (op : Option OpId) (id : Int)
  | addNodeFront (node : Option NodeId)
  | addOpNodeFront (op : Option OpId)

namespace NodeAdding

variable (h : Heap) (g : GraphId)

/-- The arguments are of the classes the function is declared for. -/
def wellTyped : NodeAdding → Bool
  | addNode node => LinkCall.isNode h node
  | addOpNode op => GraphCall.isOp h op
  | addOpNodeWithId op _ => GraphCall.isOp h op
  | addNodeFront node => LinkCall.isNode h node
  | addOpNodeFront op => GraphCall.isOp h op

/-- The function applied to the graph, and the node it returns. -/
def run : NodeAdding → Cmd Heap (Option NodeId)
  | addNode node => ComputeGraph.addNode g node
  | addOpNode op => ComputeGraph.addOpNode g op
  | addOpNodeWithId op id => ComputeGraph.addOpNodeWithId g op id
  | addNodeFront node => ComputeGraph.addNodeFront g node
  | addOpNodeFront op => ComputeGraph.addOpNodeFront g op

/-- The descriptor of the node that is added. -/
def opDesc : NodeAdding → Option OpId
  | addNode node => node.map fun n => (h.node n).op
  | addOpNode op => op
  | addOpNodeWithId op _ => op
  | addNodeFront node => node.map fun n => (h.node n).op
  | addOpNodeFront op => op

end NodeAdding

/-- A call on a graph that has an index. -/
inductive IndexCall where
  | newOp (op : OpDesc)
  | newNode (op : OpId)
  | edge (call : LinkCall)
  /-- A node is added and entered, by `AddNodeToNodeTypeMap` under a type or by `AddNodeFromOpTypeMap`. -/
  | add (adding : NodeAdding) (opType : Option String)
  /-- A node is removed and, with a type, taken out by `RemoveNodeFromNodeTypeMap`. -/
  | remove (node : NodeId) (opType : Option String)

namespace PassGraph

/-- A graph without nodes and an index without entries. -/
def indexed (g : GraphId) : PassGraph := { graph := g, nodeMapInfo := some {} }

/-- Writes the index, if there is one. -/
def editIndex (s : PassGraph) (f : NodeTypeMap → NodeTypeMap) : PassGraph :=
  { s with nodeMapInfo := s.nodeMapInfo.map fun info => { info with nodeTypeMap := f info.nodeTypeMap } }

/-- The graph without its index. -/
def withoutIndex (s : PassGraph) : PassGraph := { s with nodeMapInfo := none }

end PassGraph

namespace IndexCall

open GraphPassUtil

variable (originalType : OpId → String)

/-- The graph and its index after a call. -/
def step (s : PassGraph) : IndexCall → Option PassGraph
  | newOp op => (GraphCall.step s.graph s.heap (.newOp op)).map fun h => { s with heap := h }
  | newNode op => (GraphCall.step s.graph s.heap (.newNode op)).map fun h => { s with heap := h }
  | edge call => (GraphCall.step s.graph s.heap (.edge call)).map fun h => { s with heap := h }
  | add adding opType =>
    if adding.wellTyped s.heap then
      (adding.run s.graph s.heap).map fun r =>
        { s with heap := r.2 }.editIndex fun map =>
          match opType with
          | none => addNodeFromOpTypeMap r.2 map r.1 originalType
          | some opType => addNodeToNodeTypeMap r.2 map opType r.1
    else none
  | remove node opType =>
    if LinkCall.isNode s.heap (some node) then
      (ComputeGraph.removeNode s.graph (some node) s.heap).map fun r =>
        { s with heap := r.2 }.editIndex fun map =>
          match opType with
          | none => map
          | some opType => if r.1 then removeNodeFromNodeTypeMap r.2 map opType (some node) else map
    else none

end IndexCall

end Metadef
