import Metadef.Lemmas.DescriptorCopies
import Metadef.Theorems.SubgraphNames

/-!
# What a copy of a descriptor keeps

A copy goes through the message, and what the message does not hold is kept only where it is copied by hand. The theorem
says which descriptors are copied whole.
-/

namespace Metadef

open Distinct ModelSerializeImp SlotAux AttrUtils

/-- Two descriptors agree on every member: the name, type and id, the tensor descriptors, the maps of names, the
attributes, the subgraph names with their slots and kinds, the registered names and the functions. -/
structure OpDescMembers.Agree {α ε φ : Type} (op copy : OpDescMembers α ε φ) : Prop where
  name : copy.getName = op.getName
  type : copy.getType = op.getType
  id : copy.getId = op.getId
  inputsDesc : copy.inputsDesc = op.inputsDesc
  outputsDesc : copy.outputsDesc = op.outputsDesc
  inputNameIdx : ∀ n, copy.inputNameIdx.find n = op.inputNameIdx.find n
  outputNameIdx : ∀ n, copy.outputNameIdx.find n = op.outputNameIdx.find n
  optionalInputNames : ∀ n, copy.optionalInputNames.contains n = op.optionalInputNames.contains n
  attrs : copy.attrs = op.attrs
  aliasName : copy.opDef.aliasName = op.opDef.aliasName
  inputNameKey : copy.opDef.inputNameKey = op.opDef.inputNameKey
  inputNameValue : copy.opDef.inputNameValue = op.opDef.inputNameValue
  outputNameKey : copy.opDef.outputNameKey = op.opDef.outputNameKey
  outputNameValue : copy.opDef.outputNameValue = op.opDef.outputNameValue
  optInput : copy.opDef.optInput = op.opDef.optInput
  subgraphNamesToIndex : ∀ n, copy.subgraphNamesToIndex.find n = op.subgraphNamesToIndex.find n
  subgraphInstanceNames : copy.subgraphInstanceNames = op.subgraphInstanceNames
  subgraphIrNamesToType : ∀ n, copy.subgraphIrNamesToType.find n = op.subgraphIrNamesToType.find n
  registerInputName : copy.registerInputName = op.registerInputName
  registerOutputName : copy.registerOutputName = op.registerOutputName
  inferFunc : copy.inferFunc = op.inferFunc
  inferFormatFunc : copy.inferFormatFunc = op.inferFormatFunc
  verifierFunc : copy.verifierFunc = op.verifierFunc
  inferDataSliceFunc : copy.inferDataSliceFunc = op.inferDataSliceFunc

/-- What a descriptor that is copied whole looks like. It carries no attribute the names travel in, has no IR names, no
registered names and no data-slice function, its instance names survive a save and a load, and each of its subgraph
names is an instance name whose slot is the one that name asks for. -/
structure OpDescMembers.Copyable {α ε φ : Type} (op : OpDescMembers α ε φ) : Prop where
  noNames : op.opDef.NoNames
  irNames : op.subgraphIrNamesToType = []
  registerInputName : op.registerInputName = []
  registerOutputName : op.registerOutputName = []
  inferDataSliceFunc : op.inferDataSliceFunc = none
  names : op.NamesSavable
  slots : ∀ n, op.subgraphNamesToIndex.find n = slotOf (op.opDef.subgraphName ++ op.subgraphInstanceNames) n

open CopyAux

/-- A descriptor, whatever its history, is copied whole exactly when it is copyable. -/
theorem copyOpDesc_agree_iff {α ε φ : Type} (op : OpDescMembers α ε φ) :
    (∃ copy, copyOpDesc op = some copy ∧ op.Agree copy) ↔ op.Copyable := by
  constructor
  · rintro ⟨copy, hcopy, hagree⟩
    obtain ⟨c, hc, rfl⟩ := Option.map_eq_some_iff.mp hcopy
    have hfit := copyNames_fits hc
    obtain ⟨c', hc', hcopied⟩ := copyNames_spec op.toOpDesc hfit
    obtain rfl : c = c' := Option.some.inj (hc.symm.trans hc')
    exact
      { noNames :=
          ⟨hagree.inputNameKey.symm.trans hcopied.noNames.inputNameKey,
            hagree.inputNameValue.symm.trans hcopied.noNames.inputNameValue,
            hagree.outputNameKey.symm.trans hcopied.noNames.outputNameKey,
            hagree.outputNameValue.symm.trans hcopied.noNames.outputNameValue,
            hagree.optInput.symm.trans hcopied.noNames.optInput⟩
        irNames := eq_nil_of_find fun n => (hagree.subgraphIrNamesToType n).symm
        registerInputName := hagree.registerInputName.symm
        registerOutputName := hagree.registerOutputName.symm
        inferDataSliceFunc := hagree.inferDataSliceFunc.symm
        names := (savable_iff_restored op.toOpDesc).mpr
          ⟨hfit, hcopied.slots.symm.trans hagree.subgraphInstanceNames⟩
        slots := fun n => (hagree.subgraphNamesToIndex n).symm.trans (hcopied.index n) }
  · intro h
    obtain ⟨hfit, hrestored⟩ := (savable_iff_restored op.toOpDesc).mp h.names
    obtain ⟨c, hc, hcopied⟩ := copyNames_spec op.toOpDesc hfit
    refine ⟨_, by rw [copyOpDesc, hc]; rfl, ?_⟩
    exact
      { name := hcopied.name
        type := hcopied.type
        id := hcopied.id
        inputsDesc := hcopied.inputsDesc
        outputsDesc := hcopied.outputsDesc
        inputNameIdx := hcopied.inputNameIdx h.noNames
        outputNameIdx := hcopied.outputNameIdx h.noNames
        optionalInputNames := fun n => by
          rw [contains_eq_isSome, contains_eq_isSome]
          exact congrArg Option.isSome (hcopied.optionalInputNames h.noNames n)
        attrs := rfl
        aliasName := hcopied.aliasName
        inputNameKey := hcopied.noNames.inputNameKey.trans h.noNames.inputNameKey.symm
        inputNameValue := hcopied.noNames.inputNameValue.trans h.noNames.inputNameValue.symm
        outputNameKey := hcopied.noNames.outputNameKey.trans h.noNames.outputNameKey.symm
        outputNameValue := hcopied.noNames.outputNameValue.trans h.noNames.outputNameValue.symm
        optInput := hcopied.noNames.optInput.trans h.noNames.optInput.symm
        subgraphNamesToIndex := fun n => (hcopied.index n).trans (h.slots n).symm
        subgraphInstanceNames := hcopied.slots.trans hrestored
        subgraphIrNamesToType := fun n => by rw [h.irNames]
        registerInputName := h.registerInputName.symm
        registerOutputName := h.registerOutputName.symm
        inferFunc := rfl
        inferFormatFunc := rfl
        verifierFunc := rfl
        inferDataSliceFunc := h.inferDataSliceFunc.symm }

namespace DescriptorCopyWitness

/-- A conditional with registered names and one branch, which runs a subgraph. -/
def conditional : OpDescMembers Unit Unit Unit :=
  let op : OpDescMembers Unit Unit Unit :=
    { toOpDesc := (((OpDesc.make "if" "If").addSubgraphName "then_branch").2.setSubgraphInstanceName 0 "sub").2 }
  ((op.registerSubgraphIrName "then_branch" .static).addRegisterInputName "cond").addRegisterOutputName "output"

/-- The copy of the conditional knows the branch by the name of the subgraph it runs. -/
theorem copyOpDesc_agree_false :
    ¬ ∀ op : OpDescMembers Unit Unit Unit, ∃ copy, copyOpDesc op = some copy ∧ op.Agree copy := by
  intro h
  obtain ⟨copy, hcopy, hagree⟩ := h conditional
  obtain rfl : (copyOpDesc conditional).getD conditional = copy := by rw [hcopy]; rfl
  exact absurd (hagree.subgraphNamesToIndex "then_branch") (by decide)

end DescriptorCopyWitness

end Metadef
