import Metadef.Lemmas.NodeIndex
import Metadef.Structure

/-!
# Nodes read from a dump

A node is read back with its name and type, and with as many inputs and outputs as the attributes that count them say: those the dump
adds, and those of the node that have their names.
-/

namespace Metadef

open List NodeIndexAux

namespace OnnxUtils

/-- How many descriptors are read where some number is written behind attributes. -/
def countRead (key : String) (own : Nat) (attrs : List (String × Int)) : Nat :=
  own + ((attrs.filter fun e => e.1 = key).map fun e => e.2.toNat).sum

/-- How many inputs a node is read back with. -/
def inputsRead (attrs : NodeId → List (String × Int)) (h : Heap) (n : NodeId) : Nat :=
  countRead "input_desc_nums" (h.desc n).getAllInputsSize (attrs n)

/-- How many outputs a node is read back with. -/
def outputsRead (attrs : NodeId → List (String × Int)) (h : Heap) (n : NodeId) : Nat :=
  countRead "output_desc_nums" (h.desc n).getOutputsSize (attrs n)

end OnnxUtils

namespace OnnxNodesAux

open OnnxUtils

variable {op : OpDesc} {attrs : NodeId → List (String × Int)} {level : DumpLevel} {h : Heap}

/-! ## Adding descriptors -/

/-- The names of descriptors are those made from their positions. -/
structure Numbered (op : OpDesc) : Prop where
  inputs : ∀ s, op.inputNameIdx.contains s = true → ∃ i < op.inputsDesc.length, s = "__input" ++ toString i
  outputs : ∀ s, op.outputNameIdx.contains s = true → ∃ i < op.outputsDesc.length, s = "__output" ++ toString i

variable {pre : String} {names : OrderedMap String Nat} {n : Nat}

theorem number_inj {i j : Nat} (he : pre ++ toString i = pre ++ toString j) : i = j :=
  calc i = ModelSerializeImp.digitsValue 0 i.repr.toList := (digitsValue_repr i).symm
    _ = ModelSerializeImp.digitsValue 0 j.repr.toList := by rw [show i.repr = j.repr from (String.append_right_inj pre).mp he]
    _ = j := digitsValue_repr j

/-- A descriptor made anew has no names. -/
theorem numbered_make (name type : String) : Numbered (OpDesc.make name type) :=
  ⟨fun s hs => absurd hs (by simp [OpDesc.make, OrderedMap.contains]), fun s hs => absurd hs
    (by simp [OpDesc.make, OrderedMap.contains])⟩

/-- The name made from the number of descriptors is new. -/
theorem new_name
    (hnames : ∀ s, names.contains s = true → ∃ i < n, s = pre ++ toString i) : names.contains (pre ++ toString n) = false := by
  cases hc : names.contains (pre ++ toString n) with
  | false => rfl
  | true =>
    obtain ⟨i, hi, he⟩ := hnames _ hc
    exact absurd (number_inj he) (Nat.ne_of_gt hi)

/-- With the name made from the number of descriptors, one more is named. -/
theorem names_insert (hnames : ∀ s, names.contains s = true → ∃ i < n, s = pre ++ toString i) :
    ∀ s, (names.insert (pre ++ toString n) n).contains s = true → ∃ i < n + 1, s = pre ++ toString i := by
  intro s hs
  rw [OrderedMap.contains_insert, Bool.or_eq_true] at hs
  rcases hs with hs | hs
  · exact ⟨n, Nat.lt_succ_self n, by simpa [eq_comm] using hs⟩
  · obtain ⟨i, hi, he⟩ := hnames s hs
    exact ⟨i, Nat.lt_succ_of_lt hi, he⟩

/-- Adding empty input descriptors adds as many. -/
theorem addInputDescs_spec (n : Nat) : ∀ {op : OpDesc}, Numbered op → Numbered (addInputDescs n op) ∧
    (addInputDescs n op).inputsDesc.length = op.inputsDesc.length + n ∧ (addInputDescs n op).outputsDesc = op.outputsDesc ∧
    (addInputDescs n op).opDef = op.opDef := by
  induction n with
  | zero => exact fun hop => ⟨hop, rfl, rfl, rfl⟩
  | succ n ih =>
    intro op hop
    have hadd : (op.addInputDesc {}).2 = { op with
        inputsDesc := op.inputsDesc ++ [{}]
        inputNameIdx := op.inputNameIdx.insert ("__input" ++ toString op.inputsDesc.length) op.inputsDesc.length } := by
      unfold OpDesc.addInputDesc OpDesc.addInputDescNamed
      rw [new_name hop.inputs]
      rfl
    obtain ⟨hnum, hin, hout, hdef⟩ := ih (show Numbered (op.addInputDesc {}).2 by
      rw [hadd]
      refine ⟨fun s hs => ?_, hop.outputs⟩
      simpa using names_insert hop.inputs s hs)
    refine ⟨hnum, ?_, ?_, ?_⟩
    · rw [addInputDescs, hin, hadd, length_append, length_singleton]
      omega
    · rw [addInputDescs, hout, hadd]
    · rw [addInputDescs, hdef, hadd]

/-- Adding empty output descriptors adds as many. -/
theorem addOutputDescs_spec (n : Nat) : ∀ {op : OpDesc}, Numbered op → Numbered (addOutputDescs n op) ∧
    (addOutputDescs n op).outputsDesc.length = op.outputsDesc.length + n ∧ (addOutputDescs n op).inputsDesc = op.inputsDesc ∧
    (addOutputDescs n op).opDef = op.opDef := by
  induction n with
  | zero => exact fun hop => ⟨hop, rfl, rfl, rfl⟩
  | succ n ih =>
    intro op hop
    have hadd : (op.addOutputDesc {}).2 = { op with
        outputsDesc := op.outputsDesc ++ [{}]
        outputNameIdx := op.outputNameIdx.insert ("__output" ++ toString op.outputsDesc.length) op.outputsDesc.length } := by
      unfold OpDesc.addOutputDesc OpDesc.addOutputDescNamed
      rw [new_name hop.outputs]
      rfl
    obtain ⟨hnum, hout, hin, hdef⟩ := ih (show Numbered (op.addOutputDesc {}).2 by
      rw [hadd]
      refine ⟨hop.inputs, fun s hs => ?_⟩
      simpa using names_insert hop.outputs s hs)
    refine ⟨hnum, ?_, ?_, ?_⟩
    · rw [addOutputDescs, hout, hadd, length_append, length_singleton]
      omega
    · rw [addOutputDescs, hin, hadd]
    · rw [addOutputDescs, hdef, hadd]

/-- What attributes of a name count. -/
def counted (key : String) (l : List (AttributeProto GraphProto)) : Nat :=
  ((l.filter fun attr => attr.name = key).map fun attr => attr.i.toNat).sum

theorem counted_cons (key : String) (attr : AttributeProto GraphProto) (l : List (AttributeProto GraphProto)) :
    counted key (attr :: l) = (if attr.name = key then attr.i.toNat else 0) + counted key l := by
  unfold counted
  by_cases hk : attr.name = key <;> simp [hk]

/-- An attribute adds the descriptors it counts. -/
theorem addCounted_spec (attr : AttributeProto GraphProto) (hop : Numbered op) : Numbered (addCounted op attr) ∧
    (addCounted op attr).inputsDesc.length = op.inputsDesc.length + (if attr.name = "input_desc_nums" then attr.i.toNat else 0) ∧
    (addCounted op attr).outputsDesc.length = op.outputsDesc.length + (if attr.name = "output_desc_nums" then attr.i.toNat else 0) ∧
    (addCounted op attr).opDef = op.opDef := by
  unfold addCounted
  by_cases hin : attr.name = "input_desc_nums"
  · have hout : attr.name ≠ "output_desc_nums" := by rw [hin]; decide
    obtain ⟨h1, h2, h3, h4⟩ := addInputDescs_spec attr.i.toNat hop
    rw [if_pos hin, if_neg hout, if_pos hin, if_neg hout]
    exact ⟨h1, h2, congrArg List.length h3, h4⟩
  · by_cases hout : attr.name = "output_desc_nums"
    · obtain ⟨h1, h2, h3, h4⟩ := addOutputDescs_spec attr.i.toNat hop
      rw [if_neg hin, if_pos hout, if_neg hin, if_pos hout]
      exact ⟨h1, congrArg List.length h3, h2, h4⟩
    · rw [if_neg hin, if_neg hout, if_neg hin, if_neg hout]
      exact ⟨hop, rfl, rfl, rfl⟩

/-- Attributes add the descriptors they count. -/
theorem addCounted_foldl (l : List (AttributeProto GraphProto)) : ∀ {op : OpDesc}, Numbered op →
    (l.foldl addCounted op).inputsDesc.length = op.inputsDesc.length + counted "input_desc_nums" l ∧
    (l.foldl addCounted op).outputsDesc.length = op.outputsDesc.length + counted "output_desc_nums" l ∧
    (l.foldl addCounted op).opDef = op.opDef := by
  induction l with
  | nil => exact fun _ => ⟨rfl, rfl, rfl⟩
  | cons attr l ih =>
    intro op hop
    obtain ⟨hnum, hin, hout, hdef⟩ := addCounted_spec attr hop
    obtain ⟨hin', hout', hdef'⟩ := ih hnum
    rw [foldl_cons, counted_cons, counted_cons]
    exact ⟨by rw [hin', hin, Nat.add_assoc], by rw [hout', hout, Nat.add_assoc], hdef'.trans hdef⟩

/-! ## Reading a node -/

/-- The attributes of the id leave all but the id. -/
theorem decodeNodeAttribute_foldl (l : List (AttributeProto GraphProto)) : ∀ op : OpDesc,
    (l.foldl decodeNodeAttributeForOpDesc op).getName = op.getName ∧ (l.foldl decodeNodeAttributeForOpDesc op).getType =
      op.getType ∧
    (l.foldl decodeNodeAttributeForOpDesc op).inputsDesc = op.inputsDesc ∧
    (l.foldl decodeNodeAttributeForOpDesc op).outputsDesc = op.outputsDesc := by
  induction l with
  | nil => exact fun _ => ⟨rfl, rfl, rfl, rfl⟩
  | cons attr l ih =>
    intro op
    obtain ⟨h1, h2, h3, h4⟩ := ih (decodeNodeAttributeForOpDesc op attr)
    rw [foldl_cons, h1, h2, h3, h4]
    unfold decodeNodeAttributeForOpDesc
    split <;> exact ⟨rfl, rfl, rfl, rfl⟩

theorem afterColon_ge (type : String) : afterColon ("ge:" ++ type) = some type := by
  have hlist : ("ge:" ++ type).toList = 'g' :: 'e' :: ':' :: type.toList := by
    rw [String.toList_append]
    rfl
  unfold afterColon
  rw [hlist]
  simp

/-- A node is read back with its name and type, and the descriptors its attributes count. -/
theorem decodeNodeDesc_spec (attrs : NodeId → List (String × Int)) (hlevel : level ≠ .dumpWithOutDesc) (h : Heap) (n : NodeId) :
    ∃ op, decodeNodeDesc (encodeNode attrs level h n) = some op ∧ op.getName = Node.getName h n ∧ op.getType = Node.getType h n ∧
      op.getAllInputsSize = inputsRead attrs h n ∧ op.getOutputsSize = outputsRead attrs h n := by
  refine ⟨_, by rw [decodeNodeDesc]; exact congrArg (Option.map _) (afterColon_ge (Node.getType h n)), ?_⟩
  have hattrs : (encodeNode attrs level h n).attributes = encodeNodeDesc attrs h n := if_neg hlevel
  obtain ⟨hin, hout, hdef⟩ := addCounted_foldl (encodeNode attrs level h n).attributes
    (numbered_make (encodeNode attrs level h n).name (Node.getType h n))
  obtain ⟨h1, h2, h3, h4⟩ := decodeNodeAttribute_foldl (encodeNode attrs level h n).attributes
    ((encodeNode attrs level h n).attributes.foldl addCounted (OpDesc.make (encodeNode attrs level h n).name (Node.getType h n)))
  have hcount : ∀ key, counted key (encodeNodeDesc attrs h n) = counted key ((attrs n ++
      [("input_desc_nums", ((h.desc n).getAllInputsSize : Int)), ("output_desc_nums", ((h.desc n).getOutputsSize : Int)),
        ("id", (h.desc n).getId)]).map fun e => { name := e.1, i := e.2 }) :=
    fun key => ((mergeSort_perm _ _).filter _).map _ |>.sum_nat
  have hown : ∀ key, counted key ((attrs n).map fun e => { name := e.1, i := e.2 }) =
      (((attrs n).filter fun e => e.1 = key).map fun e => e.2.toNat).sum := by
    intro key
    unfold counted
    rw [filter_map, map_map]
    rfl
  refine ⟨?_, ?_, ?_, ?_⟩
  · rw [h1, OpDesc.getName, hdef]
    rfl
  · rw [h2, OpDesc.getType, hdef]
    rfl
  · rw [OpDesc.getAllInputsSize, h3, hin, hattrs, hcount]
    unfold inputsRead countRead
    rw [← hown]
    simp [counted, OpDesc.make]
    omega
  · rw [OpDesc.getOutputsSize, h4, hout, hattrs, hcount]
    unfold outputsRead countRead
    rw [← hown]
    simp [counted, OpDesc.make]
    omega

end OnnxNodesAux

end Metadef
