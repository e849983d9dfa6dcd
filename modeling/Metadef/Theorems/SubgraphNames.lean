import Metadef.Lemmas.SubgraphSlots

/-!
# Subgraph instance names over a save and a load

Saving adds the instance names of a descriptor to those its message already holds, and loading makes one slot for each
distinct name. The theorem says for which descriptors a save and a load return the same instance names.
-/

namespace Metadef

open Distinct ModelSerializeImp SlotAux

/-- Saving and loading a descriptor succeeds and returns its instance names. -/
def OpDesc.NamesSurvive (op : OpDesc) : Prop :=
  (serializeOpDesc op).map (fun d => (unserializeOpDesc d).subgraphInstanceNames) = some op.subgraphInstanceNames

/-- What a descriptor whose names survive looks like. The names fit the field. When its message holds no names, no
instance name repeats. When its message holds names, the instance names are the longest beginning of those without
repeats, followed by one empty name for each further distinct name, and one empty name more when the message has none. -/
def OpDesc.NamesSavable (op : OpDesc) : Prop :=
  let held := op.opDef.subgraphName
  let names := op.subgraphInstanceNames
  let loaded := distinctPrefix held ++ List.replicate (distinctCount held - (distinctPrefix held).length) ""
  held.length + names.length ≤ repeatedFieldMax ∧
    if held = [] then names.Nodup
    else (names = loaded ∧ ("" ∈ names → "" ∈ held)) ∨ (names = loaded ++ [""] ∧ "" ∉ held)

instance (op : OpDesc) : Decidable op.NamesSurvive := inferInstanceAs (Decidable (_ = _))

instance (op : OpDesc) : Decidable op.NamesSavable := by
  unfold OpDesc.NamesSavable
  infer_instance

/-- What a save and a load do to the instance names. -/
theorem survive_iff_restored (op : OpDesc) :
    op.NamesSurvive ↔ op.opDef.subgraphName.length + op.subgraphInstanceNames.length ≤ repeatedFieldMax ∧
      restored (op.opDef.subgraphName ++ op.subgraphInstanceNames) = op.subgraphInstanceNames := by
  by_cases hle : repeatedFieldMax < (op.opDef.subgraphName ++ op.subgraphInstanceNames).length
  · have hnone : serializeOpDesc op = none := by simp only [serializeOpDesc, hle, if_true]
    rw [List.length_append] at hle
    simp only [OpDesc.NamesSurvive, hnone, Option.map_none, reduceCtorEq, false_iff, not_and]
    intro h
    omega
  · obtain ⟨d, hd⟩ : ∃ d, serializeOpDesc op = some d := ⟨_, by simp only [serializeOpDesc, hle, if_false]; rfl⟩
    obtain ⟨hnames, hfit⟩ := serializeOpDesc_subgraphName hd
    have hread := unserializeOpDesc_slots (d := d) (hfit.trans (by decide))
    rw [List.length_append] at hle
    rw [OpDesc.NamesSurvive, hd, Option.map_some, Option.some.injEq, hread, hnames]
    exact ⟨fun h => ⟨by omega, h⟩, And.right⟩

/-- The names of a savable descriptor are those restored. -/
theorem savable_iff_restored (op : OpDesc) :
    op.NamesSavable ↔ op.opDef.subgraphName.length + op.subgraphInstanceNames.length ≤ repeatedFieldMax ∧
      restored (op.opDef.subgraphName ++ op.subgraphInstanceNames) = op.subgraphInstanceNames := by
  cases hheld : op.opDef.subgraphName with
  | nil => simp [OpDesc.NamesSavable, hheld, restored_eq_self_iff]
  | cons p l =>
    rw [restored_append_eq_iff]
    simp [OpDesc.NamesSavable, hheld, restored]

/-- Over every history of edits and reloads of a new descriptor, the instance names of the descriptor reached survive a
save and a load exactly when they are savable. -/
theorem names_survive_iff (name type : String) (edits : List SubgraphNameEdit) (op : OpDesc)
    (_h : Run.exec OpDesc.edit edits (OpDesc.make name type) = some op) : op.NamesSurvive ↔ op.NamesSavable := by
  rw [survive_iff_restored, savable_iff_restored]

namespace SubgraphNamesWitness

/-- A descriptor is loaded with one instance name and then given another. -/
def renameEdits : List SubgraphNameEdit :=
  [.addSubgraphName "branch", .setSubgraphInstanceName 0 "old", .reload, .setSubgraphInstanceName 0 "new"]

/-- The descriptor after the renaming. -/
def renamed : OpDesc := (Run.exec OpDesc.edit renameEdits (OpDesc.make "if" "If")).getD {}

theorem renamed_survive_iff :
    Run.exec OpDesc.edit renameEdits (OpDesc.make "if" "If") = some renamed ∧ (renamed.NamesSurvive ↔ renamed.NamesSavable) :=
  ⟨rfl, names_survive_iff "if" "If" renameEdits renamed rfl⟩

/-- Renaming the subgraph of a loaded descriptor is undone: after the next save and load the old name is back, with the
new one behind it. -/
theorem names_survive_false :
    ¬ ∀ (name type : String) (edits : List SubgraphNameEdit) (op : OpDesc),
      Run.exec OpDesc.edit edits (OpDesc.make name type) = some op → op.NamesSurvive := by
  intro h
  exact absurd (h "if" "If" renameEdits renamed rfl) (by decide)

end SubgraphNamesWitness

end Metadef
