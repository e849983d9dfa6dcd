import Metadef.NodeUtils

/-!
# Edges

The functions of `graph_utils.cc` that add, remove and split single edges, and the tables of anchors that refer to one buffer.
-/

namespace Metadef

/-- The code of a tensor format. -/
abbrev Format := Nat

namespace Format

/-- The format an anchor or a descriptor is made with. -/
def nd : Format := 2

/-- The format that stands for none. -/
def reserved : Format := 40

end Format

namespace GraphUtils

/-- The body the overloads of `AddEdge` share: a source links to a destination. -/
def addEdgeBy (linkTo : AnchorId → Option AnchorId → Cmd Heap Bool) (src dst : Option AnchorId) : Cmd Heap Bool :=
  match src with
  | none => pure false
  | some src => linkTo src dst

def addDataEdge (src dst : Option AnchorId) : Cmd Heap Bool := addEdgeBy OutDataAnchor.linkTo src dst

def addControlEdge (src dst : Option AnchorId) : Cmd Heap Bool := addEdgeBy OutControlAnchor.linkTo src dst

def addDataControlEdge (src dst : Option AnchorId) : Cmd Heap Bool := addEdgeBy OutDataAnchor.linkToControl src dst

/-- The overload that sets formats: the edge stays when a format is refused. -/
def addDataEdgeWithFormat (src : Option AnchorId) (srcFormat : Format) (dst : Option AnchorId) (dstFormat : Format) :
    Cmd Heap Bool := do
  if !(← addDataEdge src dst) then return false
  return srcFormat ≠ Format.reserved && dstFormat ≠ Format.reserved

/-- The pointer as one to an anchor of a class, none when the anchor is of another. -/
def cast (h : Heap) (k : AnchorKind) (a : Option AnchorId) : Option AnchorId := a.filter fun a => h.kind a = k

/-- One attempt of `AddEdge` on anchors of any class. -/
def tryEdge (linkTo : AnchorId → Option AnchorId → Cmd Heap Bool) : Option AnchorId → Option AnchorId → Cmd Heap Bool
  | some src, some dst => linkTo src (some dst)
  | _, _ => pure false

/-- The overload on anchors of any class tries the four kinds of links in turn. -/
def addEdge (src dst : Option AnchorId) : Cmd Heap Bool := do
  let h ← get
  if ← tryEdge OutDataAnchor.linkTo (cast h .outData src) (cast h .inData dst) then return true
  if ← tryEdge OutDataAnchor.linkToControl (cast h .outData src) (cast h .inControl dst) then return true
  if ← tryEdge OutControlAnchor.linkTo (cast h .outControl src) (cast h .inControl dst) then return true
  if ← tryEdge OutControlAnchor.linkToData (cast h .outControl src) (cast h .inData dst) then return true
  return false

/-- The four overloads of `RemoveEdge` have one body. -/
def removeEdge (src dst : Option AnchorId) : Cmd Heap Bool :=
  match src with
  | none => pure false
  | some src => Anchor.unlink src dst

/-- The kinds of edges whose destination can be replaced. -/
inductive EdgeKind where
  | data | control
  deriving DecidableEq, Repr

namespace EdgeKind

/-- The class of the anchors edges of the kind leave by. -/
def source : EdgeKind → AnchorKind
  | data => .outData
  | control => .outControl

/-- The class of the anchors edges of the kind come in by. -/
def dest : EdgeKind → AnchorKind
  | data => .inData
  | control => .inControl

/-- The overload of `AddEdge` for edges of the kind. -/
def addEdge : EdgeKind → Option AnchorId → Option AnchorId → Cmd Heap Bool
  | data => addDataEdge
  | control => addControlEdge

end EdgeKind

/-- The body the overloads of `ReplaceEdgeDst` share: the old edge is removed before the new one is tried. -/
def replaceEdgeDst (k : EdgeKind) (src dst newDst : Option AnchorId) : Cmd Heap Bool := do
  if !(← removeEdge src dst) then return false
  k.addEdge src newDst

/-- Splits a data edge: the source then feeds the first input of a node, and its first output the destination. -/
def insertNodeBetweenDataAnchors (src dst : Option AnchorId) (newNode : Option NodeId) : Cmd Heap Bool := do
  let some src := src | return false
  let some dst := dst | return false
  let some newNode := newNode | return false
  let h ← get
  let some nodeInAnchor := Node.getInDataAnchor h newNode 0 | return false
  let some nodeOutAnchor := Node.getOutDataAnchor h newNode 0 | return false
  Anchor.replacePeer src (some dst) (some nodeInAnchor) (some nodeOutAnchor)

end GraphUtils

/-! ## Reference mapping -/

/-- `NodeIndexIO`: a data anchor of a node. -/
structure NodeIndexIO where
  nodeName : String
  index : Nat
  isOut : Bool
  deriving DecidableEq

/-- `ToString`. -/
def NodeIndexIO.value (info : NodeIndexIO) : String :=
  info.nodeName ++ (if info.isOut then "_out_" else "_in_") ++ toString info.index

/-- The tables of `GetRefMapping`. -/
structure RefTables where
  symbolToAnchors : OrderedMap String (List NodeIndexIO) := []
  anchorToSymbol : OrderedMap String String := []
  deriving DecidableEq

namespace RefTables

/-- The symbol of an anchor. -/
abbrev symbolOf (s : RefTables) (value : String) : Option String := s.anchorToSymbol.find value

/-- The list of a symbol. -/
abbrev listOf (s : RefTables) (symbol : String) : Option (List NodeIndexIO) := s.symbolToAnchors.find symbol

/-- An anchor is listed under a symbol, and has it if it had none. -/
def addAnchor (symbol : String) (cur : NodeIndexIO) (s : RefTables) : RefTables where
  symbolToAnchors := s.symbolToAnchors.assign symbol ((s.listOf symbol).getD [] ++ [cur])
  anchorToSymbol := s.anchorToSymbol.insert cur.value symbol

/-- `UpdateRefMapping`. -/
def updateRefMapping (cur exist : NodeIndexIO) (s : RefTables) : Option RefTables := do
  let symbol ← s.symbolOf exist.value
  let _ ← s.listOf symbol
  return addAnchor symbol cur s

/-- The symbols of the anchors that `UnionSymbolMapping` moves. -/
def moveAnchors (symbol : String) : List NodeIndexIO → OrderedMap String String → Option (OrderedMap String String)
  | [], m => some m
  | info :: infos, m => if m.contains info.value then moveAnchors symbol infos (m.assign info.value symbol) else none

/-- `UnionSymbolMapping` once it is known which symbol stays. -/
def moveSymbol (symbol minSymbol : String) (anchors minAnchors : List NodeIndexIO) (s : RefTables) : Option (String × RefTables) := do
  let anchorToSymbol ← moveAnchors symbol minAnchors s.anchorToSymbol
  return (symbol, { symbolToAnchors := (s.symbolToAnchors.assign symbol (anchors ++ minAnchors)).erase minSymbol, anchorToSymbol })

/-- `UnionSymbolMapping`, which enters an anchor it does not find under the empty symbol. -/
def unionSymbolMapping (value1 value2 : String) (s : RefTables) : Option (String × RefTables) := do
  let symbol1 := (s.symbolOf value1).getD ""
  let entered := s.anchorToSymbol.insert value1 ""
  let symbol2 := (entered.find value2).getD ""
  let s := { s with anchorToSymbol := entered.insert value2 "" }
  if symbol1 = symbol2 then return (symbol1, s)
  let anchors1 ← s.listOf symbol1
  let anchors2 ← s.listOf symbol2
  if anchors1.length > anchors2.length then moveSymbol symbol1 symbol2 anchors1 anchors2 s
  else moveSymbol symbol2 symbol1 anchors2 anchors1 s

/-- `UnionSymbolMapping` as it is called: an empty symbol is a failure. -/
def unionNamed (value1 value2 : String) (s : RefTables) : Option (String × RefTables) :=
  (unionSymbolMapping value1 value2 s).filter fun r => r.1 ≠ ""

end RefTables

/-- What the handlers find at an anchor. -/
inductive RefCall
  | inAnchor (cur : NodeIndexIO) (peer : Option NodeIndexIO)
  | outAnchor (cur : NodeIndexIO) (reused : Option NodeIndexIO)
  | subgraphOutput (peer parent cur : NodeIndexIO)

namespace RefTables

/-- What the loops of `HandleInAnchorMapping`, `HandleOutAnchorMapping` and `HandleSubgraphOutput` do. -/
def handle (s : RefTables) : RefCall → Option RefTables
  | .inAnchor cur none => some ⟨s.symbolToAnchors.assign cur.value [cur], s.anchorToSymbol.assign cur.value cur.value⟩
  | .inAnchor cur (some peer) => updateRefMapping cur peer s
  | .outAnchor cur reused =>
    if s.anchorToSymbol.contains cur.value then some s
    else
      match reused with
      | none => some ⟨s.symbolToAnchors.insert cur.value [cur], s.anchorToSymbol.insert cur.value cur.value⟩
      | some exist => updateRefMapping cur exist s
  | .subgraphOutput peer parent cur => do
    let (symbol, s) ← unionNamed peer.value parent.value s
    return addAnchor symbol cur s

end RefTables

end Metadef
