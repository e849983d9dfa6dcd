import Mathlib.Algebra.Group.Int.Defs
import Metadef.Lib.OrderedMap

/-!
# Buffer fusion patterns

The pattern builder of `buffer_fusion_pattern.cc`: descriptions of ops that may repeat, what each is followed by, and which of them a
match may start from. Errors are counted.
-/

namespace Metadef

/-- The pointers to the descriptions of a pattern, in the order they were made. -/
abbrev BufferDescId := Nat

inductive SkipStatus
  | disabled | available | skipped
  deriving DecidableEq, Repr

structure BufferFusionOpDesc where
  descName : String
  types : List String
  inputs : List BufferDescId := []
  outputs : List BufferDescId := []
  /-- 1 for single outputs, 2 for many, 0 when none were set. -/
  outBranchType : Int := 0
  repeateMin : Int
  repeateMax : Int
  repeateCurr : Int := 0
  matchStatus : Bool := false
  groupId : Int := -1
  ignoreInputNum : Bool := false
  ignoreOutputNum : Bool := false
  multiOutputSkipStatus : OrderedMap Int SkipStatus := []
  deriving DecidableEq, Repr

structure BufferFusionPattern where
  name : String := ""
  opMaxCount : Int := 0
  ops : List BufferFusionOpDesc := []
  opMap : OrderedMap String BufferDescId := []
  head : List BufferDescId := []
  errorCount : Int := 0
  deriving DecidableEq, Repr

namespace BufferFusionPattern

def int64Max : Int := 2 ^ 63 - 1

def int64Min : Int := -2 ^ 63

def isAddOverflow (a b : Int) : Bool := (b > 0 && a > int64Max - b) || (b < 0 && a < int64Min - b)

/-- The numbers from one to another, without the last. -/
def between (a b : Int) : List Int := (List.range (b - a).toNat).map fun i => a + i

variable (p : BufferFusionPattern)

def getOpDesc (descName : String) : Option BufferDescId := p.opMap.find descName

/-- What a pointer points to. -/
def desc (d : BufferDescId) : BufferFusionOpDesc := p.ops.getD d { descName := "", types := [], repeateMin := 0, repeateMax := 0 }

/-- Writes the description a pointer points to. -/
def setDesc (d : BufferDescId) (x : BufferFusionOpDesc) : BufferFusionPattern := { p with ops := p.ops.set d x }

def countError : BufferFusionPattern := { p with errorCount := p.errorCount + 1 }

/-- Counts an error if there is room for it. -/
def countErrorChecked : BufferFusionPattern := if isAddOverflow p.errorCount 1 then p else p.countError

/-- `AddOpDesc`. -/
def addOpDesc (descName : String) (types : List String) (repeateMin repeateMax groupId : Int) : BufferFusionPattern :=
  if descName = "" then p.countError
  else if repeateMin > repeateMax then p.countError
  else if (p.getOpDesc descName).isSome then p.countError
  else
    let op := { descName, types, repeateMin, repeateMax, groupId,
                multiOutputSkipStatus := (between repeateMin repeateMax).foldl (fun m i => m.insert i .disabled) [] }
    { p with ops := p.ops ++ [op], opMap := p.opMap.assign descName p.ops.length }

/-! ## Outputs -/

/-- `UpdateSkipStatus`: the inputs of a description with many outputs that have its types and ignore their number of outputs may be
skipped. -/
def updateSkipStatus (d : BufferDescId) : BufferFusionPattern :=
  if (p.desc d).outBranchType = 2 then
    (p.desc d).inputs.foldl (fun p i =>
      let input := p.desc i
      if input.types = (p.desc d).types && input.ignoreOutputNum then
        p.setDesc i { input with multiOutputSkipStatus :=
          (between input.repeateMin input.repeateMax).foldl (fun m i => m.assign i .available) input.multiOutputSkipStatus }
      else p) p
  else p

/-- The loop of `SetOutputs`: names are followed until one is unknown or the outputs are of another relation. -/
def pushOutputs (d : BufferDescId) (relation : Int) : List String → BufferFusionPattern → BufferFusionPattern
  | [], p => p
  | outputId :: outputIds, p =>
    match p.getOpDesc outputId with
    | none => p.countErrorChecked
    | some output =>
      if d = output then pushOutputs d relation outputIds p
      else
        let p := p.setDesc d { p.desc d with outputs := (p.desc d).outputs ++ [output] }
        let p := p.setDesc output { p.desc output with inputs := (p.desc output).inputs ++ [d] }
        if (p.desc d).outBranchType ≠ relation then p else pushOutputs d relation outputIds p

/-- `SetOutputs`. -/
def setOutputs (descName : String) (outputIds : List String) (relation : Int) (ignoreInputNum ignoreOutputNum : Bool) :
    BufferFusionPattern :=
  if descName = "" then p.countError
  else
    match p.getOpDesc descName with
    | none => p.countError
    | some d =>
      let op := p.desc d
      let p := p.setDesc d
        { op with ignoreInputNum, ignoreOutputNum, outBranchType := if op.outBranchType = 0 then relation else op.outBranchType }
      pushOutputs d relation outputIds (p.updateSkipStatus d)

/-- `GetOutputs` of a description: it is one of them if it may still repeat, its outputs are, and those of outputs that need not be
there are, too. The fuel stands for the depth of the calls. -/
def outputsOf : Nat → BufferDescId → Bool → Option (List BufferDescId)
  | 0, _, _ => none
  | fuel + 1, d, ignoreRepeat =>
    let repeated := if !ignoreRepeat && (p.desc d).repeateCurr < (p.desc d).repeateMax then [d] else []
    ((p.desc d).outputs.mapM fun o =>
      if (p.desc o).repeateMin = 0 then (outputsOf fuel o true).map (o :: ·) else some [o]).map fun l => repeated ++ l.flatten

/-- `GetOutputs`, which appends to what there is. -/
def getOutputs (fuel : Nat) (opDesc : Option BufferDescId) (outputs : List BufferDescId) (ignoreRepeat : Bool) :
    Option (Bool × List BufferDescId) :=
  match opDesc with
  | none => some (false, outputs)
  | some d => (p.outputsOf fuel d ignoreRepeat).map fun l => (true, outputs ++ l)

/-! ## Heads -/

/-- The loop of `SetHead` over the names, and whether it came to their end. -/
def pushHeads : List String → BufferFusionPattern → BufferFusionPattern × Bool
  | [], p => (p, true)
  | headId :: headIds, p =>
    match p.getOpDesc headId with
    | none => (p.countErrorChecked, false)
    | some d =>
      if (p.desc d).repeateMax > 1 then (p.countErrorChecked, false) else pushHeads headIds { p with head := p.head ++ [d] }

/-- The sum of how often the heads are needed, unless it overflows. -/
def totalMin : List BufferDescId → Int → Option Int
  | [], total => some total
  | d :: ds, total => if isAddOverflow total (p.desc d).repeateMin then none else totalMin ds (total + (p.desc d).repeateMin)

/-- `SetHead`. -/
def setHead (headIds : List String) : BufferFusionPattern :=
  if headIds.isEmpty then p.countError
  else
    match pushHeads headIds p with
    | (p, false) => p
    | (p, true) =>
      match p.totalMin p.head 0 with
      | none => p
      | some total => if total > 1 then p.countError else p

end BufferFusionPattern

/-! ## Building -/

/-- A call on a pattern. How often a description was matched is counted through its pointer. -/
inductive BufferPatternCall where
  | addOpDesc (descName : String) (types : List String) (repeateMin repeateMax groupId : Int)
  | setOutputs (descName : String) (outputIds : List String) (relation : Int) (ignoreInputNum ignoreOutputNum : Bool)
  | setHead (headIds : List String)
  | setRepeateCurr (d : BufferDescId) (repeateCurr : Int)

namespace BufferPatternCall

/-- The pattern after a call. -/
def run (p : BufferFusionPattern) : BufferPatternCall → BufferFusionPattern
  | addOpDesc descName types repeateMin repeateMax groupId => p.addOpDesc descName types repeateMin repeateMax groupId
  | setOutputs descName outputIds relation ignoreInputNum ignoreOutputNum =>
    p.setOutputs descName outputIds relation ignoreInputNum ignoreOutputNum
  | setHead headIds => p.setHead headIds
  | setRepeateCurr d repeateCurr => p.setDesc d { p.desc d with repeateCurr }

/-- The pattern after some calls. -/
def runAll (calls : List BufferPatternCall) : BufferFusionPattern := calls.foldl run {}

end BufferPatternCall

end Metadef
