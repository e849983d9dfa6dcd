import Metadef.CopyGraph
import Metadef.ScopeGraph

/-!
# Outputs a user asks for

`SetUserDefOutput` and `GetOutput` of `compute_graph.cc`, over the map of a graph from names of nodes to indices of their outputs,
the functions on strings they call, and `SetOutputs` of `graph.cc` in its three forms.
-/

namespace Metadef

namespace StringUtils

/-- `isspace`. -/
def isSpace (c : Char) : Bool := c = ' ' || (9 ≤ c.toNat && c.toNat ≤ 13)

def ltrim (s : String) : String := String.ofList (s.toList.dropWhile isSpace)

def rtrim (s : String) : String := String.ofList (s.toList.reverse.dropWhile isSpace).reverse

def trim (s : String) : String := ltrim (rtrim s)

/-- The exceptions `stoi` throws. -/
inductive StoiError where
  | invalidArgument | outOfRange
  deriving DecidableEq, Repr

/-- `stoi`: white space, a sign and digits, what follows ignored. -/
def stoi (s : String) : Except StoiError Int :=
  let (negative, digits) := match s.toList.dropWhile isSpace with
    | '-' :: l => (true, l)
    | '+' :: l => (false, l)
    | l => (false, l)
  match digits with
  | [] => .error .invalidArgument
  | c :: _ =>
    if !c.isDigit then .error .invalidArgument
    else
      let value : Int := ModelSerializeImp.digitsValue 0 digits
      let value := if negative then -value else value
      if -(2 ^ 31) ≤ value ∧ value < 2 ^ 31 then .ok value else .error .outOfRange

end StringUtils

/-- `out_nodes_map_`: the outputs asked for, by the names of their nodes. -/
abbrev OutNodesMap := OrderedMap String (List Int)

namespace ComputeGraph

/-- The body of the loop of `SetUserDefOutput`: an item that is no name and index is passed over, an index listed already too. -/
def enterOutput (outNodesMap : OutNodesMap) (node : String) : OutNodesMap :=
  match StringUtils.split node ':' with
  | [name, text] =>
    match StringUtils.stoi (StringUtils.trim text) with
    | .error _ => outNodesMap
    | .ok index =>
      match outNodesMap.find name with
      | none => outNodesMap.assign name [index]
      | some idxes => if index ∈ idxes then outNodesMap else outNodesMap.assign name (idxes ++ [index])
  | _ => outNodesMap

def setUserDefOutput (outNodesMap : OutNodesMap) (outputName : String) : OutNodesMap :=
  if outputName = "" then outNodesMap else (StringUtils.split outputName ';').foldl enterOutput outNodesMap

/-- `GetOutput`: each name with each of its indices, the last separator cut off. -/
def getOutput (outNodesMap : OutNodesMap) : String :=
  let result := outNodesMap.foldl (fun result iter =>
    iter.2.foldl (fun result idx => result ++ iter.1 ++ ":" ++ toString idx ++ ";") result) ""
  String.ofList result.toList.dropLast

end ComputeGraph

/-! ## Graphs -/

/-- A graph of the front end with its objects, and the map and number of outputs asked for of its compute graph. The text handed to
the compute graph last is kept for the record. -/
structure OutputGraph where
  heap : Heap
  graph : GraphImpl := {}
  outNodesMap : OutNodesMap := []
  outputSize : Nat := 0
  userDefOutput : String := ""

namespace GraphImpl

/-- What the loops of `SetOutputs` add to: the text, and the outputs with their indices. -/
abbrev Outputs := String × List (NodeId × Int)

/-- An output is entered: one index is written, one is stored. -/
def Outputs.add (outputs : Outputs) (name : String) (node : NodeId) (written : Int) (index : Int) : Outputs :=
  (outputs.1 ++ name ++ ":" ++ toString written ++ ";", outputs.2 ++ [(node, index.bmod (2 ^ 32))])

/-- All outputs of a node. -/
def Outputs.addAll (outputs : Outputs) (name : String) (node : NodeId) (outSize : Nat) : Outputs :=
  (List.range outSize).foldl (fun outputs (i : Nat) => outputs.add name node i i) outputs

/-- The outputs of a node at indexes: what is written is the place in the list of indexes. -/
def Outputs.addAt (outputs : Outputs) (name : String) (node : NodeId) (outSize : Nat) (indexs : List Nat) : Outputs :=
  indexs.zipIdx.foldl (fun outputs e => if e.1 ≥ outSize then outputs else outputs.add name node e.2 e.1) outputs

/-- The last separator is cut off, and with it the last character of a text that ends with none. -/
def cutLast (outputName : String) : String :=
  if outputName = "" then outputName else String.ofList outputName.toList.dropLast

/-- The body of the loop over operators with indexes. -/
def enterIndexed (h : Heap) (g : GraphId) (outputs : Outputs) (item : String × List Nat) : Outputs :=
  match ComputeGraph.findNode h g item.1 with
  | none => outputs
  | some node =>
    let outSize := (h.desc node).getOutputsSize
    if item.2 = [] then outputs.addAll item.1 node outSize else outputs.addAt item.1 node outSize item.2

/-- `SetOutputs` of operators with indexes of their outputs. -/
def setOutputsIndexed (s : OutputGraph) (outputIndexs : List (String × List Nat)) : Bool × OutputGraph :=
  match s.graph.computeGraph with
  | none => (false, s)
  | some g =>
    if outputIndexs = [] then (true, s)
    else
      let outputs := outputIndexs.foldl (enterIndexed s.heap g) (s.graph.outputName, [])
      let outputName := cutLast outputs.1
      (true, { s with
        graph := { s.graph with outputName := outputName }
        userDefOutput := outputName
        outNodesMap := ComputeGraph.setUserDefOutput s.outNodesMap outputName
        outputSize := outputIndexs.length % 2 ^ 32
        heap := s.heap.setGraph g { s.heap.graph g with outputNodesInfo := outputs.2 } })

/-- `SetOutputs` of operators. -/
def setOutputs (s : OutputGraph) (outputs : List String) : Bool × OutputGraph :=
  match s.graph.computeGraph with
  | none => (false, s)
  | some _ => if outputs = [] then (true, s) else setOutputsIndexed s (outputs.map fun output => (output, []))

/-- `GetOutputIndexByName`. -/
def getOutputIndexByName (op : OpDesc) (name : String) : Int :=
  match op.outputNameIdx.find name with
  | none => -1
  | some index => (index : Int).bmod (2 ^ 32)

/-- The loop over operators with names of outputs. What was added to the text stays when an operator or a name is unknown. -/
def enterNamed (h : Heap) (g : GraphId) : List (String × String) → Outputs → Bool × Outputs
  | [], outputs => (true, outputs)
  | item :: items, outputs =>
    match ComputeGraph.findNode h g item.1 with
    | none => (false, outputs)
    | some node =>
      if item.2 = "" then enterNamed h g items (outputs.addAll item.1 node (h.desc node).getOutputsSize)
      else
        let index := getOutputIndexByName (h.desc node) item.2
        if index < 0 then (false, outputs) else enterNamed h g items (outputs.add item.1 node index index)

/-- `SetOutputs` of operators with names of their outputs. The text is not handed to the compute graph. -/
def setOutputsNamed (s : OutputGraph) (outputs : List (String × String)) : Bool × OutputGraph :=
  match s.graph.computeGraph with
  | none => (false, s)
  | some g =>
    if outputs = [] then (true, s)
    else
      match enterNamed s.heap g outputs (s.graph.outputName, []) with
      | (false, entered) => (false, { s with graph := { s.graph with outputName := entered.1 } })
      | (true, entered) =>
        (true, { s with
          graph := { s.graph with outputName := cutLast entered.1 }
          outputSize := outputs.length % 2 ^ 32
          heap := s.heap.setGraph g { s.heap.graph g with outputNodesInfo := entered.2 } })

end GraphImpl

end Metadef
