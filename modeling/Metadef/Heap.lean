import Metadef.Lib.Cmd
import Metadef.OpDesc

/-!
# The objects of a graph

Descriptors, nodes, anchors and graphs are shared objects that hold pointers to one another. The heap maps each pointer
to its object. Objects stay reachable: the pointers a caller was handed keep them, so a weak pointer to an object always
finds it.
-/

namespace Metadef

open Function

/-- The pointers to the objects of each class. -/
abbrev OpId := Nat
abbrev NodeId := Nat
abbrev AnchorId := Nat
abbrev GraphId := Nat

/-! ## Objects -/

/-- The four classes of anchors. -/
inductive AnchorKind where
  | inData | outData | inControl | outControl
  deriving DecidableEq, Repr, Inhabited

/-- Whether links end at anchors of the class. -/
def AnchorKind.isIn : AnchorKind → Bool
  | .inData | .inControl => true
  | .outData | .outControl => false

/-- Whether the class carries tensors. -/
def AnchorKind.isData : AnchorKind → Bool
  | .inData | .outData => true
  | .inControl | .outControl => false

/-- An anchor: a place of its owner node, and the anchors it is linked to in the order of linking. -/
structure Anchor where
  kind : AnchorKind
  ownerNode : NodeId
  idx : Int
  peerAnchors : List AnchorId := []
  deriving DecidableEq, Repr, Inhabited

/-- A node. -/
structure Node where
  op : OpId
  ownerGraph : Option GraphId := none
  inDataAnchors : List AnchorId := []
  outDataAnchors : List AnchorId := []
  inControlAnchor : AnchorId
  outControlAnchor : AnchorId
  hostNode : Bool := false
  deriving DecidableEq, Repr, Inhabited

/-- A graph: its direct nodes with their number, the nodes it starts and ends at, the graphs registered in it, and whether
it has been sorted. -/
structure ComputeGraph where
  name : String := ""
  nodes : List NodeId := []
  directNodesSize : Nat := 0
  targetNodesInfo : List NodeId := []
  inputNodes : List NodeId := []
  inputsOrder : List String := []
  outputNodesInfo : List (NodeId × Int) := []
  subGraph : List GraphId := []
  namesToSubgraph : OrderedMap String GraphId := []
  parentGraph : Option GraphId := none
  parentNode : Option NodeId := none
  isValidFlag : Bool := false
  deriving DecidableEq, Repr, Inhabited

/-! ## The heap -/

/-- All objects, with how many of each class were made. -/
structure Heap where
  opCount : Nat := 0
  nodeCount : Nat := 0
  anchorCount : Nat := 0
  graphCount : Nat := 0
  op : OpId → OpDesc := fun _ => {}
  node : NodeId → Node := fun _ => default
  anchor : AnchorId → Anchor := fun _ => default
  graph : GraphId → ComputeGraph := fun _ => {}

namespace Heap

/-- The heap without objects. -/
def empty : Heap := {}

variable (h : Heap)

/-- Writes a descriptor. -/
def setOp (o : OpId) (x : OpDesc) : Heap := { h with op := Function.update h.op o x }

/-- Writes a node. -/
def setNode (n : NodeId) (x : Node) : Heap := { h with node := Function.update h.node n x }

/-- Writes an anchor. -/
def setAnchor (a : AnchorId) (x : Anchor) : Heap := { h with anchor := Function.update h.anchor a x }

/-- Writes a graph. -/
def setGraph (g : GraphId) (x : ComputeGraph) : Heap := { h with graph := Function.update h.graph g x }

/-- Writes the index of an anchor. -/
def setIdx (a : AnchorId) (i : Int) : Heap := h.setAnchor a { h.anchor a with idx := i }

/-- The anchors an anchor is linked to. -/
def peers (a : AnchorId) : List AnchorId := (h.anchor a).peerAnchors

/-- Replaces the anchors an anchor is linked to. -/
def setPeers (a : AnchorId) (l : List AnchorId) : Heap := h.setAnchor a { h.anchor a with peerAnchors := l }

/-- The class of an anchor. -/
def kind (a : AnchorId) : AnchorKind := (h.anchor a).kind

/-- The node an anchor belongs to. -/
def owner (a : AnchorId) : NodeId := (h.anchor a).ownerNode

/-- The descriptor of a node. -/
def desc (n : NodeId) : OpDesc := h.op (h.node n).op

/-- The anchors of a node of a class. -/
def anchorsOf (n : NodeId) : AnchorKind → List AnchorId
  | .inData => (h.node n).inDataAnchors
  | .outData => (h.node n).outDataAnchors
  | .inControl => [(h.node n).inControlAnchor]
  | .outControl => [(h.node n).outControlAnchor]

/-- Replaces the data anchors of a node of a class. -/
def setAnchorsOf (n : NodeId) (k : AnchorKind) (l : List AnchorId) : Heap :=
  match k with
  | .inData => h.setNode n { h.node n with inDataAnchors := l }
  | .outData => h.setNode n { h.node n with outDataAnchors := l }
  | _ => h

/-- A node holds an anchor when the anchor is one of its anchors of its class. -/
def Held (a : AnchorId) : Prop := h.owner a < h.nodeCount ∧ a ∈ h.anchorsOf (h.owner a) (h.kind a)

instance (a : AnchorId) : Decidable (h.Held a) := inferInstanceAs (Decidable (_ ∧ _))

/-! ## Reading after writing -/

section
variable (o o' : OpId) (n n' : NodeId) (a b : AnchorId) (g g' : GraphId)
variable (xo : OpDesc) (xn : Node) (xa : Anchor) (xg : ComputeGraph) (l : List AnchorId)

@[simp] theorem setOp_op : (h.setOp o xo).op o' = if o' = o then xo else h.op o' := update_apply ..
@[simp] theorem setOp_node : (h.setOp o xo).node = h.node := rfl
@[simp] theorem setOp_anchor : (h.setOp o xo).anchor = h.anchor := rfl
@[simp] theorem setOp_graph : (h.setOp o xo).graph = h.graph := rfl
@[simp] theorem setOp_nodeCount : (h.setOp o xo).nodeCount = h.nodeCount := rfl
@[simp] theorem setOp_anchorCount : (h.setOp o xo).anchorCount = h.anchorCount := rfl

@[simp] theorem setNode_node : (h.setNode n xn).node n' = if n' = n then xn else h.node n' := update_apply ..
@[simp] theorem setNode_op : (h.setNode n xn).op = h.op := rfl
@[simp] theorem setNode_anchor : (h.setNode n xn).anchor = h.anchor := rfl
@[simp] theorem setNode_graph : (h.setNode n xn).graph = h.graph := rfl
@[simp] theorem setNode_nodeCount : (h.setNode n xn).nodeCount = h.nodeCount := rfl
@[simp] theorem setNode_anchorCount : (h.setNode n xn).anchorCount = h.anchorCount := rfl

@[simp] theorem setAnchor_anchor : (h.setAnchor a xa).anchor b = if b = a then xa else h.anchor b :=
  update_apply ..
@[simp] theorem setAnchor_op : (h.setAnchor a xa).op = h.op := rfl
@[simp] theorem setAnchor_node : (h.setAnchor a xa).node = h.node := rfl
@[simp] theorem setAnchor_graph : (h.setAnchor a xa).graph = h.graph := rfl
@[simp] theorem setAnchor_nodeCount : (h.setAnchor a xa).nodeCount = h.nodeCount := rfl
@[simp] theorem setAnchor_anchorCount : (h.setAnchor a xa).anchorCount = h.anchorCount := rfl

@[simp] theorem setGraph_graph : (h.setGraph g xg).graph g' = if g' = g then xg else h.graph g' :=
  update_apply ..
@[simp] theorem setGraph_op : (h.setGraph g xg).op = h.op := rfl
@[simp] theorem setGraph_node : (h.setGraph g xg).node = h.node := rfl
@[simp] theorem setGraph_anchor : (h.setGraph g xg).anchor = h.anchor := rfl
@[simp] theorem setGraph_nodeCount : (h.setGraph g xg).nodeCount = h.nodeCount := rfl
@[simp] theorem setGraph_anchorCount : (h.setGraph g xg).anchorCount = h.anchorCount := rfl

@[simp] theorem setPeers_peers : (h.setPeers a l).peers b = if b = a then l else h.peers b := by
  unfold peers setPeers
  rw [setAnchor_anchor]
  split <;> rfl

@[simp] theorem setPeers_kind : (h.setPeers a l).kind b = h.kind b := by
  unfold kind setPeers
  rw [setAnchor_anchor]
  split <;> simp_all

@[simp] theorem setPeers_owner : (h.setPeers a l).owner b = h.owner b := by
  unfold owner setPeers
  rw [setAnchor_anchor]
  split <;> simp_all

@[simp] theorem setPeers_idx : ((h.setPeers a l).anchor b).idx = (h.anchor b).idx := by
  unfold setPeers
  rw [setAnchor_anchor]
  split <;> simp_all

@[simp] theorem setPeers_op : (h.setPeers a l).op = h.op := rfl
@[simp] theorem setPeers_node : (h.setPeers a l).node = h.node := rfl
@[simp] theorem setPeers_graph : (h.setPeers a l).graph = h.graph := rfl
@[simp] theorem setPeers_nodeCount : (h.setPeers a l).nodeCount = h.nodeCount := rfl
@[simp] theorem setPeers_anchorCount : (h.setPeers a l).anchorCount = h.anchorCount := rfl
@[simp] theorem setPeers_desc : (h.setPeers a l).desc n = h.desc n := rfl
@[simp] theorem setPeers_anchorsOf (k : AnchorKind) : (h.setPeers a l).anchorsOf n k = h.anchorsOf n k := rfl

end

end Heap

end Metadef
