import Metadef.Lib.OrderedMap

/-!
# The registry of parsers

`OpRegistry` of `register.cpp`. A registration names an operator type and the original types it parses, and carries the functions
for them. Most maps have the two types joined to one text as their key.
-/

namespace Metadef

/-- What a registration carries and the registry hands out: functions, which may be null, and configurations. -/
structure ParserTypes where
  ParseParamFunc : Type
  ParseParamByOpFunc : Type
  FusionParseParamFunc : Type
  FusionParseParamByOpFunc : Type
  ParseSubgraphFunc : Type
  ParseSubgraphFuncV2 : Type
  ParseOpToGraphFunc : Type
  RemoveInputConfigure : Type

inductive ImplyType
  | buildin | tvm | custom | aiCpu | cce | geLocal | hccl | invalid
  deriving DecidableEq, Repr

variable (T : ParserTypes)

/-- A registration. The original types are a set, in order. -/
structure OpRegistrationData where
  omOptype : String
  oriOptypeSet : List String := []
  implyType : ImplyType := .buildin
  parseParamFn : Option T.ParseParamFunc := none
  parseParamByOpFn : Option T.ParseParamByOpFunc := none
  fusionParseParamFn : Option T.FusionParseParamFunc := none
  fusionParseParamByOpFn : Option T.FusionParseParamByOpFunc := none
  parseSubgraphPostFn : Option T.ParseSubgraphFunc := none
  parseSubgraphPostFnV2 : Option T.ParseSubgraphFuncV2 := none
  removeInputConfigureVec : List T.RemoveInputConfigure := []
  parseOpToGraphFn : Option T.ParseOpToGraphFunc := none

structure OpRegistry where
  opRunModeMap : OrderedMap String ImplyType := []
  opParseParamsFnMap : OrderedMap String (Option T.ParseParamFunc) := []
  parseParamsByOpFuncMap : OrderedMap String (Option T.ParseParamByOpFunc) := []
  fusionOpParseParamsFnMap : OrderedMap String (Option T.FusionParseParamFunc) := []
  fusionParseParamsByOpFnMap : OrderedMap String (Option T.FusionParseParamByOpFunc) := []
  opTypesToParseSubgraphPostFunc : OrderedMap String (Option T.ParseSubgraphFunc) := []
  opTypesToParseSubgraphPostFuncV2 : OrderedMap String (Option T.ParseSubgraphFuncV2) := []
  removeInputConfigureMap : OrderedMap String (List T.RemoveInputConfigure) := []
  originTypeToOmType : OrderedMap String String := []
  parseOpToGraphFnMap : OrderedMap String (Option T.ParseOpToGraphFunc) := []

variable {T}

namespace OpRegistry

def getParserKey (omType oriType : String) : String := omType ++ "_" ++ oriType

/-- The body of the loop of `Register`: a key that is there is skipped, and with it the entry of the original type. -/
def registerOri (data : OpRegistrationData T) (r : OpRegistry T) (oriType : String) : OpRegistry T :=
  let omOriType := getParserKey data.omOptype oriType
  if r.opParseParamsFnMap.contains omOriType then r
  else
    let r := { r with
      opParseParamsFnMap := r.opParseParamsFnMap.assign omOriType data.parseParamFn
      fusionOpParseParamsFnMap := r.fusionOpParseParamsFnMap.assign omOriType data.fusionParseParamFn
      fusionParseParamsByOpFnMap := r.fusionParseParamsByOpFnMap.assign omOriType data.fusionParseParamByOpFn
      parseParamsByOpFuncMap := r.parseParamsByOpFuncMap.assign omOriType data.parseParamByOpFn
      removeInputConfigureMap := r.removeInputConfigureMap.assign omOriType data.removeInputConfigureVec
      parseOpToGraphFnMap := r.parseOpToGraphFnMap.assign omOriType data.parseOpToGraphFn }
    if r.originTypeToOmType.contains oriType then r
    else { r with originTypeToOmType := r.originTypeToOmType.assign oriType data.omOptype }

/-- `Register`. -/
def register (r : OpRegistry T) (regData : Option (OpRegistrationData T)) : Bool × OpRegistry T :=
  match regData with
  | none => (false, r)
  | some data =>
    let r := data.oriOptypeSet.foldl (registerOri data) r
    if r.opRunModeMap.contains data.omOptype then (true, r)
    else
      (true, { r with
        opRunModeMap := r.opRunModeMap.assign data.omOptype data.implyType
        opTypesToParseSubgraphPostFunc := r.opTypesToParseSubgraphPostFunc.assign data.omOptype data.parseSubgraphPostFn
        opTypesToParseSubgraphPostFuncV2 :=
          r.opTypesToParseSubgraphPostFuncV2.assign data.omOptype data.parseSubgraphPostFnV2 })

variable (r : OpRegistry T)

/-! ## Lookups -/

def getImplyType (opType : String) : ImplyType := (r.opRunModeMap.find opType).getD .buildin

def getImplyTypeByOriOpType (oriOptype : String) : ImplyType :=
  match r.originTypeToOmType.find oriOptype with
  | none => .buildin
  | some omType => r.getImplyType omType

def getParseSubgraphPostFunc (opType : String) : Option T.ParseSubgraphFunc := (r.opTypesToParseSubgraphPostFunc.find opType).join

def getParseParamByOperatorFunc (oriType : String) : Option T.ParseParamByOpFunc :=
  let omType := (r.originTypeToOmType.find oriType).getD ""
  (r.parseParamsByOpFuncMap.find (getParserKey omType oriType)).join

def getParseParamFunc (opType oriType : String) : Option T.ParseParamFunc :=
  (r.opParseParamsFnMap.find (getParserKey opType oriType)).join

def getFusionParseParamFunc (opType oriType : String) : Option T.FusionParseParamFunc :=
  (r.fusionOpParseParamsFnMap.find (getParserKey opType oriType)).join

def getFusionParseParamByOpFunc (opType oriType : String) : Option T.FusionParseParamByOpFunc :=
  (r.fusionParseParamsByOpFnMap.find (getParserKey opType oriType)).join

def getParseOpToGraphFunc (opType oriType : String) : Option T.ParseOpToGraphFunc :=
  (r.parseOpToGraphFnMap.find (getParserKey opType oriType)).join

def getRemoveInputConfigure (oriOptype : String) : List T.RemoveInputConfigure :=
  match r.originTypeToOmType.find oriOptype with
  | none => []
  | some omType => (r.removeInputConfigureMap.find (getParserKey omType oriOptype)).getD []

/-- `GetOmTypeByOriOpType`, the type when it returns true. -/
def getOmTypeByOriOpType (oriOptype : String) : Option String := r.originTypeToOmType.find oriOptype

end OpRegistry

end Metadef
