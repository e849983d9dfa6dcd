import Mathlib.Algebra.Group.Int.Defs
import Mathlib.Algebra.GroupWithZero.Nat
import Metadef.Lib.OrderedMap

/-!
# Scopes

The scope tree of `scope_graph.cc`. Each operator of an imported graph is filed under the directories its name spells; a scope is
one directory, with the operators in it, its sub scopes and how many operators of each type lie below it.
-/

namespace Metadef

/-! ## Names -/

namespace StringUtils

/-- The lines read by `getline` up to a delimiter, after the part of the first that is read already. A last line without
characters is not one. -/
def getlines (delim : Char) : List Char → List Char → List String
  | item, [] => if item = [] then [] else [String.ofList item]
  | item, c :: cs => if c = delim then String.ofList item :: getlines delim [] cs else getlines delim (item ++ [c]) cs

/-- `StringUtils::Split`. -/
def split (str : String) (delim : Char) : List String :=
  if str = "" then [""]
  else getlines delim [] str.toList ++ if str.toList.getLast? = some delim then [""] else []

end StringUtils

/-! ## Data -/

/-- The pointers to scopes. -/
abbrev ScopeId := Nat

/-- An operator to be filed: which one it is, its name and its type. -/
structure NodeDef where
  ptr : Nat
  name : String
  opType : String
  deriving DecidableEq, Repr

/-- A scope. Its counts of operators are 32 bits wide in the source; a graph has fewer nodes than they can count. -/
structure Scope where
  name : String := ""
  subType : String := ""
  fatherScope : Option ScopeId := none
  opNums : OrderedMap String Int := []
  subScopes : List (String × ScopeId) := []
  nodes : List NodeDef := []
  allSubScopes : List ScopeId := []
  deriving DecidableEq, Repr

/-- The scopes and the tree they make up. `next` is the scope allocated next. -/
structure ScopeTree where
  scope : ScopeId → Scope := fun _ => {}
  next : ScopeId := 0
  root : ScopeId := 0
  scopes : List ScopeId := []

/-- The order in which an unordered map is gone through: any, as long as each entry has its turn. -/
structure HashOrder where
  turns : List (String × ScopeId) → List (String × ScopeId)
  perm : ∀ m, (turns m).Perm m

/-! ## One scope -/

namespace Scope

variable (s : Scope)

/-- `AddNode`. -/
def addNode (nodeDef : NodeDef) : Scope := { s with nodes := s.nodes ++ [nodeDef] }

/-- `AddSubScope`: enters a scope under its name, in place of one that is there. -/
def addSubScope (name : String) (scope : ScopeId) : Scope :=
  { s with subScopes := s.subScopes.filter (fun e => e.1 ≠ name) ++ [(name, scope)] }

/-- `GetSubScope`. -/
def getSubScope (scopeName : String) : Option ScopeId := s.subScopes.lookup scopeName

/-- `GetOpTypeNum`. -/
def getOpTypeNum (opType : String) : Int :=
  match s.opNums.find opType with
  | some n => n
  | none => -1

/-- `OpsNumInc`. -/
def opsNumInc (opType : String) : Scope :=
  match s.opNums.find opType with
  | some n => { s with opNums := s.opNums.assign opType (n + 1) }
  | none => { s with opNums := s.opNums.assign opType 1 }

end Scope

/-! ## The tree -/

namespace ScopeTree

variable (t : ScopeTree)

/-- Writes a scope. -/
def setScope (s : ScopeId) (x : Scope) : ScopeTree := { t with scope := Function.update t.scope s x }

/-- Allocates a scope and gives it its name and its father. -/
def newScope (name : String) (father : Option ScopeId) : ScopeTree :=
  { t with
    scope := Function.update t.scope t.next { name := name, fatherScope := father }
    next := t.next + 1 }

/-- The loop of `SplitNodeName`, from the i-th piece of a name on. -/
def splitScopes (size : Nat) (delim : Char) : Nat → List String → String → List String
  | _, [], _ => []
  | i, item :: items, scope =>
    if item.length = 0 then splitScopes size delim (i + 1) items scope
    else
      let scope := if i = 0 then item else scope ++ item
      let scope := if i ≠ size - 1 then scope.push delim else scope
      scope :: splitScopes size delim (i + 1) items scope

/-- `SplitNodeName`: the scopes a name goes through, and last the name itself. -/
def splitNodeName (nodeName : String) (delim : Char) : List String :=
  if nodeName = "" then []
  else
    let items := StringUtils.split nodeName delim
    splitScopes items.length delim 0 items ""

/-- The loop of `AddNodeToScope`, from a scope down through those named. -/
def addBelow (nodeDef : NodeDef) : List String → ScopeId → ScopeTree → ScopeTree
  | [], _, t => t
  | [_], superScope, t => t.setScope superScope (((t.scope superScope).opsNumInc nodeDef.opType).addNode nodeDef)
  | name :: rest, superScope, t =>
    let t := t.setScope superScope ((t.scope superScope).opsNumInc nodeDef.opType)
    match (t.scope superScope).getSubScope name with
    | some subScope => addBelow nodeDef rest subScope t
    | none =>
      let subScope := t.next
      let t := t.newScope name (some superScope)
      let t := { t with scopes := t.scopes ++ [subScope] }
      addBelow nodeDef rest subScope (t.setScope superScope ((t.scope superScope).addSubScope name subScope))

/-- `AddNodeToScope`. -/
def addNodeToScope (nodeDef : Option NodeDef) : ScopeTree :=
  match nodeDef with
  | none => t
  | some nodeDef => addBelow nodeDef (splitNodeName nodeDef.name '/') t.root t

/-- `ScopeTreeImpl::Init`: the tree with a root and nothing else. -/
def init : ScopeTree :=
  let t : ScopeTree := {}
  { t.newScope "root" none with root := t.next, scopes := [t.next] }

/-- The tree after operators were added to an empty one. -/
def addAll (nodeDefs : List (Option NodeDef)) : ScopeTree := nodeDefs.foldl addNodeToScope init

/-! ## The scopes below one -/

variable (order : HashOrder)

/-- The sub scopes of a scope, in the order of its map. -/
def subsOf (s : ScopeId) : List ScopeId := (order.turns (t.scope s).subScopes).map Prod.snd

/-- The loop of `GetAllSubScopes` over its stack, the top first. -/
def descend : Nat → List ScopeId → List ScopeId → Option (List ScopeId)
  | _, [], allSubScopes => some allSubScopes
  | 0, _ :: _, _ => none
  | fuel + 1, scope :: scopes, allSubScopes =>
    descend fuel ((t.subsOf order scope).reverse ++ scopes) (allSubScopes ++ t.subsOf order scope)

/-- The loop of `GetAllSubScopes` over the sub scopes. -/
def descendEach (fuel : Nat) : List ScopeId → List ScopeId → Option (List ScopeId)
  | [], allSubScopes => some allSubScopes
  | scope :: scopes, allSubScopes => do
    let allSubScopes ← t.descend order fuel [scope] (allSubScopes ++ [scope])
    descendEach fuel scopes allSubScopes

/-- `GetAllSubScopes`, which keeps what it found. The fuel bounds the scopes taken off one stack. -/
def getAllSubScopes (fuel : Nat) (s : ScopeId) : Option (List ScopeId × ScopeTree) :=
  if (t.scope s).allSubScopes ≠ [] then some ((t.scope s).allSubScopes, t)
  else do
    let found ← t.descendEach order fuel (t.subsOf order s) []
    some (found, t.setScope s { t.scope s with allSubScopes := found })

end ScopeTree

/-!
## Inputs and outputs of fused scopes

A fused op has, under the names of ops inside its scopes, the indexes of their inputs and outputs among its own. `scope_graph.cc` looks
up the indexes of a node by the end of its name.
-/

def kFusionDisableIndex : Int := 99999

/-- The indexes a fused op has for the ops inside. -/
structure FusionScopesResult where
  inputs : OrderedMap String (List Int) := []
  outputs : OrderedMap String (List Int) := []
  deriving DecidableEq, Repr

namespace FusionScopesResult

variable (r : FusionScopesResult)

def insertInputs (innerOpName : String) (indexMap : List Int) : FusionScopesResult :=
  { r with inputs := r.inputs.insert innerOpName indexMap }

def insertOutputs (innerOpName : String) (indexMap : List Int) : FusionScopesResult :=
  { r with outputs := r.outputs.insert innerOpName indexMap }

end FusionScopesResult

/-- A call that gives a fused op indexes. -/
inductive FusionResultCall
  | insertInputs (innerOpName : String) (indexMap : List Int)
  | insertOutputs (innerOpName : String) (indexMap : List Int)
  deriving DecidableEq, Repr

namespace FusionResultCall

def run (r : FusionScopesResult) : FusionResultCall → FusionScopesResult
  | insertInputs innerOpName indexMap => r.insertInputs innerOpName indexMap
  | insertOutputs innerOpName indexMap => r.insertOutputs innerOpName indexMap

/-- A fused op after some calls. -/
def runAll (calls : List FusionResultCall) : FusionScopesResult := calls.foldl run {}

end FusionResultCall

/-- A node and the fused op it is asked of. -/
structure ScopeFusionOpInfo where
  nodeName : String
  fusionNodeName : String
  deriving DecidableEq, Repr

namespace ScopeGraph

-- the fused ops of a graph by their names
variable (fusionResults : OrderedMap String FusionScopesResult)

/-- The end of a name, the whole name if it is not longer. -/
def endOf (name : String) (size : Nat) : List Char :=
  if name.toList.length > size then name.toList.drop (name.toList.length - size) else name.toList

/-- `GetFusionResultInputOrOutput`: the indexes of the first entry whose name the name of the node ends with. -/
def getFusionResultInputOrOutput (info : ScopeFusionOpInfo) (input : Bool) : List Int :=
  match fusionResults.find info.fusionNodeName with
  | none => []
  | some fusionNode =>
    let inoutMap := if input then fusionNode.inputs else fusionNode.outputs
    ((inoutMap.find? fun e => e.1.toList = endOf info.nodeName e.1.toList.length).map Prod.snd).getD []

/-- `FusionOpChildIgnore`. -/
def fusionOpChildIgnore (info : ScopeFusionOpInfo) : Bool :=
  !(!(getFusionResultInputOrOutput fusionResults info true).isEmpty || !(getFusionResultInputOrOutput fusionResults info false).isEmpty)

/-- A size as a number of 32 bits. -/
def int32OfSize (size : Nat) : Int := (size : Int).bmod (2 ^ 32)

/-- `GetInputOrOutputIndex`. There is no result where an index is computed past the largest number or read outside the list. -/
def getInputOrOutputIndex (info : ScopeFusionOpInfo) (oldIndex : Int) (input : Bool) : Option Int :=
  if oldIndex = -1 then some (-1)
  else if oldIndex + 1 > 2 ^ 31 - 1 then none
  else
    let indexs := getFusionResultInputOrOutput fusionResults info input
    if int32OfSize indexs.length < oldIndex + 1 then some kFusionDisableIndex
    else if oldIndex < 0 then none
    else indexs[oldIndex.toNat]?

end ScopeGraph

end Metadef
