import Metadef.Heap

/-!
# Anchors

The functions of `anchor.cc`: comparing, linking and unlinking anchors, and reading the peers of a class. A null pointer
is `none`.
-/

namespace Metadef

namespace Anchor

/-! ## Comparing -/

/-- `Equal`: the same class and owner node and, for data anchors, the same index. -/
def equal (h : Heap) (a b : AnchorId) : Bool :=
  h.kind b = h.kind a && h.owner a = h.owner b && (!(h.kind a).isData || (h.anchor a).idx = (h.anchor b).idx)

/-- `IsLinkedWith`: some peer is equal to the given anchor. -/
def isLinkedWith (h : Heap) (a : AnchorId) (peer : Option AnchorId) : Bool :=
  match peer with
  | none => false
  | some peer => (h.peers a).any (equal h peer)

/-! ## Reading peers -/

/-- `GetFirstPeerAnchor`. -/
def getFirstPeerAnchor (h : Heap) (a : AnchorId) : Option AnchorId := (h.peers a).head?

/-- The peers of a class, in the order of linking. -/
def getPeersOf (h : Heap) (a : AnchorId) (k : AnchorKind) : List AnchorId := (h.peers a).filter fun b => h.kind b = k

end Anchor

/-- The first peer, when it is a data output. -/
def InDataAnchor.getPeerOutAnchor (h : Heap) (a : AnchorId) : Option AnchorId :=
  match h.peers a with
  | [] => none
  | b :: _ => if h.kind b = .outData then some b else none

namespace OutDataAnchor

def getPeerInDataAnchors (h : Heap) (a : AnchorId) : List AnchorId := Anchor.getPeersOf h a .inData

def getPeerInDataNodesSize (h : Heap) (a : AnchorId) : Nat := (getPeerInDataAnchors h a).length

def getPeerInControlAnchors (h : Heap) (a : AnchorId) : List AnchorId := Anchor.getPeersOf h a .inControl

end OutDataAnchor

namespace InControlAnchor

def getPeerOutControlAnchors (h : Heap) (a : AnchorId) : List AnchorId := Anchor.getPeersOf h a .outControl

def getPeerOutDataAnchors (h : Heap) (a : AnchorId) : List AnchorId := Anchor.getPeersOf h a .outData

end InControlAnchor

namespace OutControlAnchor

def getPeerInControlAnchors (h : Heap) (a : AnchorId) : List AnchorId := Anchor.getPeersOf h a .inControl

def getPeerInDataAnchors (h : Heap) (a : AnchorId) : List AnchorId := Anchor.getPeersOf h a .inData

end OutControlAnchor

/-! ## Linking -/

namespace Anchor

/-- The heap in which an anchor is linked to another: each is appended to the peers of the other. -/
def linked (h : Heap) (a b : AnchorId) : Heap :=
  let h := h.setPeers a (h.peers a ++ [b])
  h.setPeers b (h.peers b ++ [a])

/-- The body the linking functions share: a null pointer or a check that fails refuses the link. -/
def link (this : AnchorId) (other : Option AnchorId) (free : Heap → AnchorId → Bool) : Cmd Heap Bool := do
  let some other := other | return false
  let h ← get
  if !free h other then return false
  set (linked h this other)
  return true

end Anchor

/-- An input takes its first link only. -/
def InDataAnchor.linkFrom (this : AnchorId) (src : Option AnchorId) : Cmd Heap Bool :=
  Anchor.link this src fun h _ => (h.peers this).isEmpty

def InControlAnchor.linkFrom (this : AnchorId) (src : Option AnchorId) : Cmd Heap Bool :=
  Anchor.link this src fun _ _ => true

/-- A data output is linked to an input that has no link. -/
def OutDataAnchor.linkTo (this : AnchorId) (dest : Option AnchorId) : Cmd Heap Bool :=
  Anchor.link this dest fun h dest => (h.peers dest).isEmpty

def OutDataAnchor.linkToControl (this : AnchorId) (dest : Option AnchorId) : Cmd Heap Bool :=
  Anchor.link this dest fun _ _ => true

/-- A control output is linked to an input whatever links the input has. -/
def OutControlAnchor.linkToData (this : AnchorId) (dest : Option AnchorId) : Cmd Heap Bool :=
  Anchor.link this dest fun _ _ => true

def OutControlAnchor.linkTo (this : AnchorId) (dest : Option AnchorId) : Cmd Heap Bool :=
  Anchor.link this dest fun _ _ => true

/-! ## Unlinking -/

namespace Anchor

/-- `Unlink`: erases the first occurrence of each anchor among the peers of the other. When the peer is the anchor
itself, the two occurrences are one, and erasing it a second time is undefined. -/
def unlink (this : AnchorId) (peer : Option AnchorId) : Cmd Heap Bool := do
  let some peer := peer | return false
  let h ← get
  let some i := (h.peers this).findIdx? (equal h peer) | return false
  let some j := (h.peers peer).findIdx? (equal h this) | return false
  if peer = this then Cmd.undef
  else
    set ((h.setPeers this ((h.peers this).eraseIdx i)).setPeers peer ((h.peers peer).eraseIdx j))
    return true

/-- The loop of `UnlinkAll` over as many peers as there are. A first peer that cannot be unlinked stays first, and the
loop never ends. -/
def unlinkLoop (this : AnchorId) : Nat → Cmd Heap Unit
  | 0 => pure ()
  | n + 1 => do
    let h ← get
    let some peer := (h.peers this).head? | pure ()
    if ← unlink this (some peer) then unlinkLoop this n else Cmd.undef

def unlinkAll (this : AnchorId) : Cmd Heap Unit := do
  let h ← get
  unlinkLoop this (h.peers this).length

/-- `ReplacePeer`: the link between an anchor and its old peer becomes a link from the anchor to the first and one from
the old peer to the second. The first is appended to before the occurrence in the old peer is written, which is
undefined when they are one list. -/
def replacePeer (this : AnchorId) (oldPeer firstPeer secondPeer : Option AnchorId) : Cmd Heap Bool := do
  let some oldPeer := oldPeer | return false
  let some firstPeer := firstPeer | return false
  let some secondPeer := secondPeer | return false
  let h ← get
  let some i := (h.peers this).findIdx? (equal h oldPeer) | return false
  let some j := (h.peers oldPeer).findIdx? (equal h this) | return false
  if firstPeer = oldPeer then Cmd.undef
  else
    let h := h.setPeers this ((h.peers this).set i firstPeer)
    let h := h.setPeers firstPeer (h.peers firstPeer ++ [this])
    let h := h.setPeers oldPeer ((h.peers oldPeer).set j secondPeer)
    set (h.setPeers secondPeer (h.peers secondPeer ++ [oldPeer]))
    return true

end Anchor

end Metadef
