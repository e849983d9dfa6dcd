import Metadef.GraphUtils

/-!
# Isolating a node

`GraphUtils::IsolateNode` and the functions it calls. The links of a node are taken away; the sources of its inputs are
linked to the targets of its outputs by a map from outputs to inputs, and by control links where the map leaves a gap.
-/

namespace Metadef

/-- The order an unordered container lists its items in: each once. -/
structure Enumeration where
  list : List NodeId → List NodeId
  nodup : ∀ l, (list l).Nodup
  mem : ∀ l n, n ∈ list l ↔ n ∈ l

namespace NodeUtils

/-- Unlinks all peers of each anchor of a list. -/
def unlinkEach : List AnchorId → Cmd Heap Unit
  | [] => pure ()
  | a :: l => do
    Anchor.unlinkAll a
    unlinkEach l

/-- `UnlinkAll`: the outputs of a node lose their links, then its inputs. -/
def unlinkAll (node : NodeId) : Cmd Heap Unit := do
  let h ← get
  unlinkEach ((h.node node).outDataAnchors ++ [(h.node node).outControlAnchor])
  unlinkEach ((h.node node).inDataAnchors ++ [(h.node node).inControlAnchor])

end NodeUtils

namespace GraphUtils

/-- The loop of `ReplaceOutDataAnchor`: inputs are moved from an old output to a new one. The pairs are those of nodes it
enters as linked; none is a failure. -/
def moveInputs (newAnchor oldAnchor : AnchorId) : List AnchorId → Cmd Heap (Option (List (NodeId × NodeId)))
  | [] => return some []
  | p :: l => do
    if !(← Anchor.unlink p (some oldAnchor)) then return none
    if !(← InDataAnchor.linkFrom p (some newAnchor)) then return none
    let h ← get
    let some rest ← moveInputs newAnchor oldAnchor l | return none
    return some ((h.owner newAnchor, h.owner p) :: rest)

def replaceOutDataAnchor (newAnchor oldAnchor : AnchorId) : Cmd Heap (Option (List (NodeId × NodeId))) := do
  let h ← get
  moveInputs newAnchor oldAnchor (OutDataAnchor.getPeerInDataAnchors h oldAnchor)

/-- One round of `RelinkDataIO`: the inputs an output feeds are moved to the source of the input it is mapped to. -/
def relinkOutput (inDataAnchors : List AnchorId) (outDataAnchor : AnchorId) (inIndex : Int) :
    Cmd Heap (Option (List (NodeId × NodeId))) := do
  if inIndex < 0 then
    Anchor.unlinkAll outDataAnchor
    return some []
  match inDataAnchors[inIndex.toNat]? with
  | none => return none
  | some inAnchor =>
    let h ← get
    match InDataAnchor.getPeerOutAnchor h inAnchor with
    | none => return some []
    | some peerOutAnchor =>
      if !(← Anchor.unlink peerOutAnchor (some inAnchor)) then return none
      replaceOutDataAnchor peerOutAnchor outDataAnchor

/-- The loop of `RelinkDataIO`. An output the map says nothing about is mapped to no input. -/
def relinkOutputs (inDataAnchors : List AnchorId) : List AnchorId → List Int → Cmd Heap (Option (List (NodeId × NodeId)))
  | [], _ => return some []
  | o :: l, ioMap => do
    let some pairs ← relinkOutput inDataAnchors o (ioMap.headD (-1)) | return none
    let some rest ← relinkOutputs inDataAnchors l ioMap.tail | return none
    return some (pairs ++ rest)

def relinkDataIO (node : NodeId) (ioMap : List Int) : Cmd Heap (Option (List (NodeId × NodeId))) := do
  let h ← get
  let inDataAnchors := (h.node node).inDataAnchors
  let outDataAnchors := (h.node node).outDataAnchors
  if outDataAnchors.length < ioMap.length then return none
  let some pairs ← relinkOutputs inDataAnchors outDataAnchors ioMap | return none
  NodeUtils.unlinkEach inDataAnchors
  return some pairs

/-- One round of `RelinkControlNodeIfNeed`: a control link between two nodes that are not linked yet. -/
def relinkControl (connected : List (NodeId × NodeId)) (inNode outNode : NodeId) : Cmd Heap Bool := do
  if (inNode, outNode) ∈ connected then return true
  let h ← get
  if Anchor.isLinkedWith h (h.node inNode).outControlAnchor (some (h.node outNode).inControlAnchor) then return true
  if inNode = outNode then return true
  addControlEdge (some (h.node inNode).outControlAnchor) (some (h.node outNode).inControlAnchor)

def relinkControlNodeIfNeed (inNodes : List NodeId) (outNodes : NodeId → List NodeId)
    (connected : List (NodeId × NodeId)) : Cmd Heap Bool :=
  Cmd.eachOk (fun inNode => Cmd.eachOk (relinkControl connected inNode) (outNodes inNode)) inNodes

/-- `IsolateNode`. The two enumerations are the orders of the map of in nodes and of the set of out nodes each is mapped
to. -/
def isolateNode (inOrder : Enumeration) (outOrder : NodeId → Enumeration) (node : Option NodeId) (ioMap : List Int) :
    Cmd Heap Bool := do
  let some node := node | return false
  let h ← get
  let inNodes := inOrder.list (Node.getInNodes h node)
  let outNodes := Node.getOutNodes h node
  let some connected ← relinkDataIO node ioMap | return false
  if !(← relinkControlNodeIfNeed inNodes (fun inNode => (outOrder inNode).list outNodes) connected) then return false
  NodeUtils.unlinkAll node
  return true

end GraphUtils

/-!
## Unlinking where peers may have expired

An anchor lists its peers by weak pointers. A peer that was taken from its node and that no caller keeps has expired: it
equals no anchor, and a pointer to it reads as null. The functions are those of `anchor.cc` and `node_utils.cc` again, with
the anchors that still exist as an argument.
-/

namespace Anchor

/-- `Unlink` among the anchors that exist. -/
def unlinkIn (alive : AnchorId → Bool) (this : AnchorId) (peer : Option AnchorId) : Cmd Heap Bool := do
  let some peer := peer | return false
  let h ← get
  let some i := (h.peers this).findIdx? (fun b => alive b && equal h peer b) | return false
  let some j := (h.peers peer).findIdx? (fun b => alive b && equal h this b) | return false
  if peer = this then Cmd.undef
  else
    set ((h.setPeers this ((h.peers this).eraseIdx i)).setPeers peer ((h.peers peer).eraseIdx j))
    return true

/-- The loop of `UnlinkAll`: a first peer that has expired stays first as well. -/
def unlinkLoopIn (alive : AnchorId → Bool) (this : AnchorId) : Nat → Cmd Heap Unit
  | 0 => pure ()
  | n + 1 => do
    let h ← get
    let some peer := (h.peers this).head? | pure ()
    if ← unlinkIn alive this (if alive peer then some peer else none) then unlinkLoopIn alive this n else Cmd.undef

def unlinkAllIn (alive : AnchorId → Bool) (this : AnchorId) : Cmd Heap Unit := do
  let h ← get
  unlinkLoopIn alive this (h.peers this).length

end Anchor

namespace NodeUtils

def unlinkEachIn (alive : AnchorId → Bool) : List AnchorId → Cmd Heap Unit
  | [] => pure ()
  | a :: l => do
    Anchor.unlinkAllIn alive a
    unlinkEachIn alive l

def unlinkAllIn (alive : AnchorId → Bool) (node : NodeId) : Cmd Heap Unit := do
  let h ← get
  unlinkEachIn alive ((h.node node).outDataAnchors ++ [(h.node node).outControlAnchor])
  unlinkEachIn alive ((h.node node).inDataAnchors ++ [(h.node node).inControlAnchor])

end NodeUtils

/-! ## Where no peer has expired -/

namespace Anchor

variable {h : Heap} {alive : AnchorId → Bool} {this : AnchorId}

end Anchor

end Metadef
